import LsmStore.Proofs.Engine.Reopen

/-!
# Sessions behave as sorted maps

A client performs operations on a session one after another: writes and deletions, lookups,
range reads, flushes, compactions, closes and reopenings of the data directory. This module
states what a sorted map that can be closed and opened again answers to each of them, and
proves that a session started on an empty volume answers exactly so, through every run of
fewer than `2 ^ 32` operations, while its engine keeps its invariant.

The proof is a simulation. `Session.Serves` ties a session to a state of the map through the
engine's invariant `Engine.Serving`; one lemma per operation shows that the operation answers as
the map does and that the session after it serves the map after it, and an induction on the
operations carries this along a whole run.

## Main definitions

* `Op`, `Answer` — operations on a session and what it answers
* `Session.perform`, `Session.performAll` — one operation, and operations in turn
* `SortedMap`, `SortedMap.Answers`, `SortedMap.Replies` — the map and the answers it allows
* `Session.Serves` — a session whose engine stands for a state of the map

## Main results

* `Session.Serves.perform_op` — one operation answers as the map does and keeps `Serves`
* `Session.Serves.performAll` — so does every run of operations
* `Session.start_refines_sortedMap` — a session started on an empty volume answers as the empty
  map through every run
* `Session.start_keeps_sound` — its engine keeps its invariant, with room in its in-memory table,
  and its log segment with the log's buffer gives back its active table
-/

namespace LsmStore

/-- An operation a client performs on a session: a write, which deletes its key when the entry
has no value; a lookup; a read of the live pairs of a key range; an explicit flush; a
compaction; a close; or letting go of the engine and opening the data directory again. -/
inductive Op where
  | upsert (entry : Entry)
  | get (key : Bytes)
  | range (lower upper : Option Bytes)
  | flush
  | compact
  | close
  | reopen
deriving Repr

/-- What a session answers to an operation; `none` when no engine is open. -/
inductive Answer where
  | done (result : Option (Except StoreError Unit))
  | value (result : Option (Except StoreError (Option Bytes)))
  | pairs (result : Option (Except StoreError (List (Except StoreError (Bytes × Bytes)))))
deriving Repr

namespace Session

/-- Performs an operation on a session. -/
def perform (s : Session) : Op → Answer × Session
  | .upsert en => let (r, s) := s.withEngine (Engine.upsert en); (.done r, s)
  | .get key => let (r, s) := s.withEngine (Engine.get key); (.value r, s)
  | .range lower upper => (.pairs (s.range lower upper), s)
  | .flush => let (r, s) := s.withEngine Engine.flush; (.done r, s)
  | .compact => let (r, s) := s.withEngine Engine.compact; (.done r, s)
  | .close => let (r, s) := s.withEngine Engine.close; (.done r, s)
  | .reopen => let (r, s) := s.reopen none; (.done (some r), s)

/-- Performs operations in turn and collects the answers. -/
def performAll (s : Session) : List Op → List Answer × Session
  | [] => ([], s)
  | op :: ops =>
    let (a, s) := s.perform op
    let (as, s) := s.performAll ops
    (a :: as, s)

end Session

/-- A map from keys to values, read back in key order, that can be closed and opened again:
what a session behaves as. -/
structure SortedMap where
  get : Bytes → Option Bytes
  closed : Bool

namespace SortedMap

/-- The empty, open map. -/
def empty : SortedMap := ⟨fun _ => none, false⟩

/-- Whether the log record of a write fits the log's 32-bit payload length. -/
def fits (en : Entry) : Bool := decide (8 + en.encodedLen < 2 ^ 32)

/-- What an operation does to the map: a write that fits sets or deletes its key while the map
is open; a close closes it and a reopening opens it. -/
def step (σ : SortedMap) : Op → SortedMap
  | .upsert en =>
    if !σ.closed && fits en then { σ with get := fun k => if k = en.key then en.value else σ.get k }
    else σ
  | .close => { σ with closed := true }
  | .reopen => { σ with closed := false }
  | _ => σ

/-- The answers the map allows to an operation. While it is closed, every operation but a
reopening is refused. A write that fits is accepted and one that does not is refused; a lookup
finds the key's value; a range read gives the pairs of the keys in the range, in strictly
ascending key order; a flush, a compaction, a close and a reopening succeed. -/
def Answers (σ : SortedMap) : Op → Answer → Prop
  | .upsert en, a => a = .done (some (if σ.closed then .error .closed else if fits en then .ok ()
      else .error (.wal (.payloadTooLarge (8 + en.encodedLen)))))
  | .get key, a => a = .value (some (if σ.closed then .error .closed else .ok (σ.get key)))
  | .range lower upper, a => if σ.closed then a = .pairs (some (.error .closed)) else
      ∃ pairs : List (Bytes × Bytes), a = .pairs (some (.ok (pairs.map .ok))) ∧
        (pairs.map (·.1)).Pairwise (· < ·) ∧
        ∀ key value, (key, value) ∈ pairs ↔ inRange lower upper key = true ∧ σ.get key = some value
  | .flush, a | .compact, a | .close, a =>
      a = .done (some (if σ.closed then .error .closed else .ok ()))
  | .reopen, a => a = .done (some (.ok ()))

/-- The answers to operations performed in turn, from a state of the map on. -/
def Replies : SortedMap → List Op → List Answer → Prop
  | _, [], [] => True
  | σ, op :: ops, a :: as => σ.Answers op a ∧ Replies (σ.step op) ops as
  | _, _, _ => False

/-- The map after the operations `ops`, one after another. -/
def after (σ : SortedMap) (ops : List Op) : SortedMap := ops.foldl step σ

end SortedMap

namespace Session

open Engine Run Merge

variable {s : Session} {σ : SortedMap} {n : Nat}

/-! ## Sessions that serve a map -/

/-- An engine operation on a session's engine answers what the run of the operation answers. -/
theorem withEngine_of_run {α : Type} {e e' : Engine} {h' : Host} {m : EngineM α}
    {r : Except StoreError α} (hs : s.engine = some e) (ran : m.run.run (e, s.host) = (r, e', h')) :
    s.withEngine m = (some r, { s with engine := some e', host := h' }) := by
  simp only [withEngine, hs, ran]

/-- Putting a session's own engine and host back leaves the session as it is. -/
theorem with_own_engine {e : Engine} (hs : s.engine = some e) :
    { s with engine := some e, host := s.host } = s := by
  cases s
  cases hs
  rfl

/-- A session whose engine serves the map of `σ` after `n` operations, closed exactly when `σ`
is, with the session's configuration. -/
def Serves (s : Session) (σ : SortedMap) (n : Nat) : Prop :=
  ∃ e runs fs, s.engine = some e ∧ e.Serving s.host runs fs σ.get n ∧ e.closed = σ.closed ∧
    e.config = s.config

/-- A closed engine refuses an operation that first checks that it is open, and the session
stays as it is. -/
theorem Serves.refused (serves : s.Serves σ n) (closed : σ.closed = true) {α : Type}
    {m : EngineM α} (refuses : ∀ e h, e.closed = true → m.run.run (e, h) = (.error .closed, (e, h))) :
    s.withEngine m = (some (.error .closed), s) ∧ s.Serves σ (n + 1) := by
  obtain ⟨e, runs, fs, hs, serving, closed', config⟩ := serves
  refine ⟨?_, e, runs, fs, hs, serving.mono (Nat.le_succ n), closed', config⟩
  rw [withEngine_of_run hs (refuses e s.host (closed'.trans closed)), with_own_engine hs]

/-- A closed engine refuses a range read. -/
theorem range_closed {e : Engine} (hs : s.engine = some e) (closed : e.closed = true)
    (lower upper : Option Bytes) : s.range lower upper = some (.error .closed) := by
  have refused : (Engine.scan lower upper).run.run (e, s.host) = (.error .closed, (e, s.host)) :=
    run_checkOpen_bind_closed closed _
  simp only [range, withEngine_of_run hs refused]

/-- A range read of an open readable engine whose tiers give every key its value in `m` gives
the pairs of `m` whose keys lie in the range, in strictly ascending key order. -/
theorem range_of_values {e : Engine} {runs : List (List Entry)} {m : Bytes → Option Bytes}
    (hs : s.engine = some e) (r : Readable e s.host.volume runs) (running : e.closed = false)
    (values : ∀ key, (firstHit (tierRuns e runs) key).bind Entry.value = m key)
    (lower upper : Option Bytes) :
    ∃ pairs : List (Bytes × Bytes), s.range lower upper = some (.ok (pairs.map .ok)) ∧
      (pairs.map (·.1)).Pairwise (· < ·) ∧
      ∀ key value, (key, value) ∈ pairs ↔ inRange lower upper key = true ∧ m key = some value := by
  obtain ⟨all, -, sorted, found, -, cut⟩ := get_agrees_with_scan hs running r
  refine ⟨all.filter fun p => inRange lower upper p.1, cut lower upper,
    sorted.sublist (List.filter_sublist.map _), fun key value => ?_⟩
  have looked : (s.withEngine (Engine.get key)).1 = some (.ok (m key)) := by
    rw [withEngine_of_run hs (get_readable r running key), values key]
  rw [List.mem_filter, ← found key value, looked]
  simp [and_comm]

/-- A range read of an open kept engine that stands for `m` gives the pairs of `m` whose keys lie
in the range, in strictly ascending key order. -/
theorem range_models {e : Engine} {runs : List (List Entry)} {fs : List Volume.FileLink}
    {m : Bytes → Option Bytes} (hs : s.engine = some e) (kept : Kept e s.host runs fs)
    (running : e.closed = false) (models : Models e runs m) (lower upper : Option Bytes) :
    ∃ pairs : List (Bytes × Bytes), s.range lower upper = some (.ok (pairs.map .ok)) ∧
      (pairs.map (·.1)).Pairwise (· < ·) ∧
      ∀ key value, (key, value) ∈ pairs ↔ inRange lower upper key = true ∧ m key = some value :=
  range_of_values hs kept.readable running
    (fun key => by rw [tierRuns_of_stalled kept.stalled]; exact models key) lower upper

/-- An engine operation that leaves a serving engine of the session's configuration, closed as
`τ` is, leaves the session serving `τ`. -/
theorem serves_of_run {α : Type} {e e' : Engine} {h' : Host} {runs' : List (List Entry)}
    {fs' : List Volume.FileLink} {m : EngineM α} {r : Except StoreError α} {τ : SortedMap}
    (hs : s.engine = some e) (config : e.config = s.config)
    (ran : m.run.run (e, s.host) = (r, e', h')) (serving : e'.Serving h' runs' fs' τ.get (n + 1))
    (closed : e'.closed = τ.closed) (same : e'.config = e.config) :
    s.withEngine m = (some r, { s with engine := some e', host := h' }) ∧
      Serves { s with engine := some e', host := h' } τ (n + 1) :=
  ⟨withEngine_of_run hs ran, e', runs', fs', rfl, serving, closed, same.trans config⟩

/-! ## One operation -/

/-- A write to a session that serves `σ` answers as `σ` does, and the session serves `σ` after
the write. -/
theorem Serves.perform_upsert (serves : s.Serves σ n) (budget : n < 2 ^ 32) (en : Entry) :
    σ.Answers (.upsert en) (s.perform (.upsert en)).1 ∧
      (s.perform (.upsert en)).2.Serves (σ.step (.upsert en)) (n + 1) := by
  cases hc : σ.closed
  case true =>
    obtain ⟨refused, serves'⟩ :=
      serves.refused (m := Engine.upsert en) hc fun _ _ c => run_checkOpen_bind_closed c _
    simp only [perform, refused]
    refine ⟨by simp [SortedMap.Answers, hc], ?_⟩
    rw [show σ.step (.upsert en) = σ by simp [SortedMap.step, hc]]
    exact serves'
  case false =>
    obtain ⟨e, runs, fs, hs, serving, closed, config⟩ := serves
    have running : e.closed = false := closed.trans hc
    cases fit : SortedMap.fits en
    case false =>
      -- a record too large for the log is refused before anything is written
      have notFull : e.active.isFull = false := by
        simpa [Memtable.isFull, serving.sound.sizeLimit] using serving.room
      have refused := upsert_too_large (h := s.host) running notFull en
        (by simpa [SortedMap.fits] using fit)
      simp only [perform, withEngine_of_run hs refused, with_own_engine hs]
      refine ⟨by simp [SortedMap.Answers, hc, fit], ?_⟩
      rw [show σ.step (.upsert en) = σ by simp [SortedMap.step, hc, fit]]
      exact ⟨e, runs, fs, hs, serving.mono (Nat.le_succ n), closed, config⟩
    case true =>
      obtain ⟨e', h', runs', fs', ran, serving', config', closed', -, -⟩ :=
        serving.upsert running en (by simpa [SortedMap.fits] using fit) budget
      obtain ⟨answered, serves'⟩ := serves_of_run
        (τ := { σ with get := fun k => if k = en.key then en.value else σ.get k }) hs config ran
        serving' (closed'.trans closed) config'
      simp only [perform, answered]
      refine ⟨by simp [SortedMap.Answers, hc, fit], ?_⟩
      rw [show σ.step (.upsert en) = { σ with get := fun k => if k = en.key then en.value else σ.get k }
        by simp [SortedMap.step, hc, fit]]
      exact serves'

/-- A lookup on a session that serves `σ` finds the value `σ` gives the key, unless the engine is
closed, and changes nothing. -/
theorem Serves.perform_get (serves : s.Serves σ n) (key : Bytes) :
    σ.Answers (.get key) (s.perform (.get key)).1 ∧
      (s.perform (.get key)).2.Serves (σ.step (.get key)) (n + 1) := by
  obtain ⟨e, runs, fs, hs, serving, closed, config⟩ := serves
  have later : s.Serves σ (n + 1) := ⟨e, runs, fs, hs, serving.mono (Nat.le_succ n), closed, config⟩
  cases hc : σ.closed
  case true =>
    simp only [perform, withEngine_of_run hs (get_closed (h := s.host) (closed.trans hc) key),
      with_own_engine hs]
    exact ⟨by simp [SortedMap.Answers, hc], later⟩
  case false =>
    simp only [perform, withEngine_of_run hs (get_kept serving.sound.toKept (closed.trans hc) key),
      with_own_engine hs, serving.models key]
    exact ⟨by simp [SortedMap.Answers, hc], later⟩

/-- A range read on a session that serves `σ` gives the pairs of `σ` in the range, in strictly
ascending key order, unless the engine is closed, and changes nothing. -/
theorem Serves.perform_range (serves : s.Serves σ n) (lower upper : Option Bytes) :
    σ.Answers (.range lower upper) (s.perform (.range lower upper)).1 ∧
      (s.perform (.range lower upper)).2.Serves (σ.step (.range lower upper)) (n + 1) := by
  obtain ⟨e, runs, fs, hs, serving, closed, config⟩ := serves
  refine ⟨?_, e, runs, fs, hs, serving.mono (Nat.le_succ n), closed, config⟩
  cases hc : σ.closed
  case true =>
    simp only [perform, SortedMap.Answers, hc, if_true, range_closed hs (closed.trans hc)]
  case false =>
    obtain ⟨pairs, ranged, sorted, members⟩ :=
      range_models hs serving.sound.toKept (closed.trans hc) serving.models lower upper
    simp only [perform, SortedMap.Answers, hc, Bool.false_eq_true, if_false]
    exact ⟨pairs, by rw [ranged], sorted, members⟩

/-- An engine operation that a closed engine refuses and that an open serving engine performs,
keeping the map and closing the engine as `τ` says, succeeds on a session that serves `σ`
unless its engine is closed; the session then serves `τ`. -/
theorem Serves.withEngine_keeps {m : EngineM Unit} {τ : SortedMap} (serves : s.Serves σ n)
    (refuses : ∀ e h, e.closed = true → m.run.run (e, h) = (.error .closed, (e, h)))
    (performs : ∀ e h runs fs, e.Serving h runs fs σ.get n → e.closed = false →
      σ.closed = false → ∃ e' h' runs' fs', m.run.run (e, h) = (.ok (), (e', h')) ∧
        e'.Serving h' runs' fs' σ.get (n + 1) ∧ e'.config = e.config ∧ e'.closed = τ.closed)
    (stays : σ.closed = true → τ = σ) (same : τ.get = σ.get) :
    (s.withEngine m).1 = some (if σ.closed then .error .closed else .ok ()) ∧
      (s.withEngine m).2.Serves τ (n + 1) := by
  cases hc : σ.closed
  case true =>
    obtain ⟨refused, serves'⟩ := serves.refused hc refuses
    rw [refused, stays hc]
    exact ⟨rfl, serves'⟩
  case false =>
    obtain ⟨e, runs, fs, hs, serving, closed, config⟩ := serves
    obtain ⟨e', h', runs', fs', ran, serving', config', closed'⟩ :=
      performs e s.host runs fs serving (closed.trans hc) hc
    obtain ⟨answered, serves'⟩ := serves_of_run (τ := τ) hs config ran (same ▸ serving') closed' config'
    rw [answered]
    exact ⟨rfl, serves'⟩

/-- A flush on a session that serves `σ` succeeds unless the engine is closed, and keeps `σ`. -/
theorem Serves.perform_flush (serves : s.Serves σ n) (budget : n < 2 ^ 32) :
    σ.Answers .flush (s.perform .flush).1 ∧ (s.perform .flush).2.Serves (σ.step .flush) (n + 1) := by
  obtain ⟨answered, serves'⟩ := serves.withEngine_keeps (m := Engine.flush) (τ := σ)
    (fun _ _ c => run_checkOpen_bind_closed c _)
    (fun _ _ _ _ serving running opened => by
      obtain ⟨e', h', runs', fs', ran, serving', config', closed', -⟩ := serving.flush running budget
      exact ⟨e', h', runs', fs', ran, serving', config', by rw [closed', running, opened]⟩)
    (fun _ => rfl) rfl
  show σ.Answers .flush (.done (s.withEngine Engine.flush).1) ∧ (s.withEngine Engine.flush).2.Serves σ (n + 1)
  exact ⟨by rw [answered]; rfl, serves'⟩

/-- A compaction on a session that serves `σ` succeeds unless the engine is closed, and keeps
`σ`. -/
theorem Serves.perform_compact (serves : s.Serves σ n) (budget : n < 2 ^ 32) :
    σ.Answers .compact (s.perform .compact).1 ∧
      (s.perform .compact).2.Serves (σ.step .compact) (n + 1) := by
  obtain ⟨answered, serves'⟩ := serves.withEngine_keeps (m := Engine.compact) (τ := σ)
    (fun _ _ c => run_checkOpen_bind_closed c _)
    (fun _ _ _ _ serving running opened => by
      obtain ⟨e', h', runs', fs', ran, serving', config', closed', -⟩ := serving.compact running budget
      exact ⟨e', h', runs', fs', ran, serving', config', by rw [closed', running, opened]⟩)
    (fun _ => rfl) rfl
  show σ.Answers .compact (.done (s.withEngine Engine.compact).1) ∧
    (s.withEngine Engine.compact).2.Serves σ (n + 1)
  exact ⟨by rw [answered]; rfl, serves'⟩

/-- Closing a session that serves `σ` succeeds unless the engine is already closed; the session
then serves `σ` closed. -/
theorem Serves.perform_close (serves : s.Serves σ n) (budget : n < 2 ^ 32) :
    σ.Answers .close (s.perform .close).1 ∧ (s.perform .close).2.Serves (σ.step .close) (n + 1) := by
  obtain ⟨answered, serves'⟩ :=
    serves.withEngine_keeps (m := Engine.close) (τ := { σ with closed := true })
    (fun _ _ c => run_checkOpen_bind_closed c _)
    (fun _ _ _ _ serving running _ => by
      obtain ⟨e', h', runs', fs', ran, serving', config', closed', -⟩ := serving.close running budget
      exact ⟨e', h', runs', fs', ran, serving', config', closed'⟩)
    (fun closed => by cases σ; cases closed; rfl) rfl
  show σ.Answers .close (.done (s.withEngine Engine.close).1) ∧
    (s.withEngine Engine.close).2.Serves { σ with closed := true } (n + 1)
  exact ⟨by rw [answered]; rfl, serves'⟩

/-- Letting go of the engine of a session that serves `σ` and opening its data directory again
with the same configuration succeeds, and the session serves `σ` open. -/
theorem Serves.perform_reopen (serves : s.Serves σ n) (budget : n < 2 ^ 32) :
    σ.Answers .reopen (s.perform .reopen).1 ∧
      (s.perform .reopen).2.Serves (σ.step .reopen) (n + 1) := by
  obtain ⟨e, runs, fs, hs, serving, -, config⟩ := serves
  obtain ⟨e', h', runs', fs', ran, serving', config', closed', -⟩ :=
    serving.reopen budget (config ▸ serving.sound.valid)
  have released : s.release =
      { s with engine := none, host := e.drop { s.host with scans := [], nextScan := 0 } } := by
    simp only [release, hs]
  simp only [perform, reopen, released, Option.getD_none, ran]
  exact ⟨rfl, e', runs', fs', rfl, serving', closed', config'⟩

/-- Any operation on a session that serves `σ` answers as `σ` does and leaves a session that
serves `σ` after the operation. -/
theorem Serves.perform_op (serves : s.Serves σ n) (budget : n < 2 ^ 32) (op : Op) :
    σ.Answers op (s.perform op).1 ∧ (s.perform op).2.Serves (σ.step op) (n + 1) := by
  cases op with
  | upsert en => exact serves.perform_upsert budget en
  | get key => exact serves.perform_get key
  | range lower upper => exact serves.perform_range lower upper
  | flush => exact serves.perform_flush budget
  | compact => exact serves.perform_compact budget
  | close => exact serves.perform_close budget
  | reopen => exact serves.perform_reopen budget

/-! ## Whole runs -/

theorem performAll_cons (s : Session) (op : Op) (ops : List Op) :
    s.performAll (op :: ops) =
      ((s.perform op).1 :: ((s.perform op).2.performAll ops).1, ((s.perform op).2.performAll ops).2) :=
  rfl

/-- A run of operations on a session that serves `σ` answers as `σ` does, operation by
operation, and leaves a session that serves `σ` after them, while fewer than `2 ^ 32`
operations have run in all. -/
theorem Serves.performAll (serves : s.Serves σ n) (ops : List Op) (budget : n + ops.length ≤ 2 ^ 32) :
    σ.Replies ops (s.performAll ops).1 ∧ (s.performAll ops).2.Serves (σ.after ops) (n + ops.length) := by
  -- induction on the operations, with the session, the map and the count of operations so far
  -- moving along
  induction ops generalizing s σ n with
  | nil => exact ⟨trivial, serves⟩
  | cons op ops ih =>
    have length : n + (op :: ops).length = n + 1 + ops.length := by
      rw [List.length_cons]
      omega
    obtain ⟨answered, serves'⟩ := serves.perform_op (by omega) op
    obtain ⟨replied, final⟩ := ih serves' (by omega)
    rw [performAll_cons, length]
    exact ⟨⟨answered, replied⟩, final⟩

/-- A session started with a valid configuration on an empty volume serves the empty map. -/
theorem start_serves {config : Config} (valid : config.validate = .ok ()) :
    ∃ s, Session.start config {} = (.ok (), s) ∧ s.Serves SortedMap.empty 0 := by
  obtain ⟨e, h, fs, ran, serving, config', closed, -⟩ := Engine.Serving.open_empty valid
  refine ⟨{ config, engine := some e, host := h }, ?_, e, [], fs, rfl, serving, closed, config'⟩
  simp only [start, reopen, release, Option.getD_none, ran]

/-- A session started with a valid configuration on an empty volume behaves as a sorted map
through any run of fewer than `2 ^ 32` operations: each lookup gives the value of the last
accepted write of its key, each range read gives the map's pairs in the range in strictly
ascending key order, and each write, flush, compaction, close and reopen succeeds exactly when
the map says it does. -/
theorem start_refines_sortedMap {config : Config} (valid : config.validate = .ok ()) (ops : List Op)
    (few : ops.length ≤ 2 ^ 32) :
    ∃ s, Session.start config {} = (.ok (), s) ∧ SortedMap.empty.Replies ops (s.performAll ops).1 := by
  obtain ⟨s, started, serves⟩ := start_serves valid
  exact ⟨s, started, (serves.performAll ops (by omega)).1⟩

/-- The default configuration, a write, a flush, a reopen and a lookup of the written key. -/
theorem start_refines_sortedMap_default :
    ({} : Config).validate = .ok () ∧ [Op.upsert (.put [97] [49]), .flush, .reopen, .get [97]].length ≤ 2 ^ 32 ∧
      ∃ s, Session.start {} {} = (.ok (), s) ∧ SortedMap.empty.Replies
        [.upsert (.put [97] [49]), .flush, .reopen, .get [97]]
        (s.performAll [.upsert (.put [97] [49]), .flush, .reopen, .get [97]]).1 :=
  ⟨rfl, by decide, start_refines_sortedMap rfl _ (by decide)⟩

/-- After any run of fewer than `2 ^ 32` operations on a session started with a valid
configuration on an empty volume, the session holds an engine that keeps its invariant, with
room left in its in-memory table. Recovering its log segment, followed by what its log still
buffers, gives back its active table; the segment alone does where every write is synced. -/
theorem start_keeps_sound {config : Config} (valid : config.validate = .ok ()) (ops : List Op)
    (few : ops.length ≤ 2 ^ 32) :
    ∃ s, Session.start config {} = (.ok (), s) ∧ ∃ e runs fs, (s.performAll ops).2.engine = some e ∧
      e.Sound (s.performAll ops).2.host runs fs ∧ e.active.size < e.config.memtableSizeLimit ∧
      Engine.replayed (Wal.recover ((s.performAll ops).2.host.volume.contents e.wal.inode ++
        e.wal.buffered)).1 = e.active.entries ∧
      (e.config.sync = .everyWrite → Engine.replayed
        (Wal.recover ((s.performAll ops).2.host.volume.contents e.wal.inode)).1 =
          e.active.entries) := by
  obtain ⟨s, started, serves⟩ := start_serves valid
  obtain ⟨e, runs, fs, engine, serving, -, -⟩ := (serves.performAll ops (by omega)).2
  have recovers := serving.sound.toKept.recovers
  exact ⟨s, started, e, runs, fs, engine, serving.sound, serving.room, recovers.1, recovers.2⟩

/-- The default configuration, a write, a compaction, a close and a reopen. -/
theorem start_keeps_sound_default :
    ({} : Config).validate = .ok () ∧ [Op.upsert (.put [97] [49]), .compact, .close, .reopen].length ≤ 2 ^ 32 ∧
      ∃ s, Session.start {} {} = (.ok (), s) ∧ ∃ e runs fs,
        (s.performAll [.upsert (.put [97] [49]), .compact, .close, .reopen]).2.engine = some e ∧
        e.Sound (s.performAll [.upsert (.put [97] [49]), .compact, .close, .reopen]).2.host runs fs ∧
        e.active.size < e.config.memtableSizeLimit ∧
        Engine.replayed (Wal.recover ((s.performAll [.upsert (.put [97] [49]), .compact, .close,
          .reopen]).2.host.volume.contents e.wal.inode ++ e.wal.buffered)).1 = e.active.entries ∧
        (e.config.sync = .everyWrite → Engine.replayed (Wal.recover ((s.performAll
          [.upsert (.put [97] [49]), .compact, .close, .reopen]).2.host.volume.contents
            e.wal.inode)).1 = e.active.entries) :=
  ⟨rfl, by decide, start_keeps_sound rfl _ (by decide)⟩

/-- A data directory whose table directory holds `notes.txt`, a file no table name reads as. -/
def notesShelf : Volume :=
  (({} : Volume).bind tableDir .dir).create (Volume.join tableDir "notes.txt") [104, 101, 108, 108, 111]

set_option maxRecDepth 4000 in
/-- The log segment alone need not give back the active table, and the table directory need not
hold table files alone. A session that syncs every ten writes holds its first write in the
log's buffer: its segment is still empty, while its active table holds the write. And a session
started on `notesShelf` keeps `notes.txt` beside its tables, none yet, after a write. -/
theorem start_buffers_log_and_keeps_foreign_files :
    (let s := (Session.start { sync := .everyN 10 } {}).2
      let s := (s.withEngine (Engine.put [97] [49])).2
      s.engine.map (fun e => ((Wal.recover (s.host.volume.contents e.wal.inode)).1,
        e.active.entries)) = some ([], [⟨[97], some [49]⟩])) ∧
    (let s := (Session.start {} notesShelf).2
      let s := (s.withEngine (Engine.put [97] [49])).2
      s.host.volume.names tableDir = ["notes.txt"] ∧ s.engine.map (·.tables.length) = some 0) := by
  decide +kernel

end Session

end LsmStore
