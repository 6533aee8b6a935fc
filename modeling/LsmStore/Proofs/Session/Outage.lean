import LsmStore.Proofs.Engine.Outage
import LsmStore.Proofs.Session.Refinement

/-!
# Sessions whose table directory is taken away

Between any two operations of its client, a session's table directory may be taken away with
every table file in it, and created again later. Flushes and compactions then fail, and so does a
write that finds its active table full while the table of an earlier failed flush still waits in
the flushing slot. This module states what a sorted map allows then: a write changes the map
exactly when it succeeds, lookups and range reads answer as the map does, and a flush, a
compaction or a failed close changes nothing. It proves that a session started on an empty volume
answers so through every run of fewer than `2 ^ 32` events, and that a flush after any such run
either succeeds, leaving the flushing slot and the active table empty with the tables alone
holding the map, or fails while the table directory is missing, leaving in the slot the table it
could not flush.

As for `Session.Serves`, the proof is a simulation: `Session.Weathers` ties a session to the map
through `Engine.Weathering`, one lemma per event keeps it, and an induction on the events carries
it along a run.

## Main definitions

* `Event` — an operation of the client, or the table directory taken away or created again
* `Session.undergo`, `Session.undergoAll` — one event, and events in turn
* `SortedMap.Allows`, `SortedMap.Tolerates` — what the map allows as the answer to an event, and
  to a run of them
* `Session.FlushSettles` — what a flush does to the flushing slot
* `Session.Weathers` — a session whose engine stands for the map whatever became of its table
  directory

## Main results

* `Session.Weathers.undergo` — one event answers as the map allows and keeps `Weathers`
* `Session.Weathers.undergoAll` — so does every run of events
* `Session.Weathers.flushSettles` — a flush settles the flushing slot
* `Session.failed_flushes_lose_nothing` — from an empty volume, every run answers as the map of
  the accepted writes, and the flush after it settles the slot
-/

namespace LsmStore

/-- What happens to a session between two answers: an operation of its client, or its table
directory taken away with every file in it, or created again. -/
inductive Event where
  | op (op : Op)
  | loseTables
  | restoreTables
deriving Repr

namespace Session

/-- Takes the table directory away, with every file in it. -/
def loseTables (s : Session) : Session :=
  { s with host := { s.host with volume := s.host.volume.removeTree tableDir } }

/-- Creates the table directory again; when that fails, the session stays as it is. -/
def restoreTables (s : Session) : Except StoreError Unit × Session :=
  match s.host.volume.createDirAll tableDir with
  | .ok v => (.ok (), { s with host := { s.host with volume := v } })
  | .error err => (.error (.io err), s)

/-- What a session answers to an event, and the session after it. -/
def undergo (s : Session) : Event → Answer × Session
  | .op op => s.perform op
  | .loseTables => (.done (some (.ok ())), s.loseTables)
  | .restoreTables => let (r, s) := s.restoreTables; (.done (some r), s)

/-- Events in turn, with the answers collected. -/
def undergoAll (s : Session) : List Event → List Answer × Session
  | [] => ([], s)
  | ev :: evs =>
    let (a, s) := s.undergo ev
    let (as, s) := s.undergoAll evs
    (a :: as, s)

/-- What a flush does to the flushing slot of a session that stands for `σ`. Either the flush
succeeds, and the slot and the active table are left empty, the tables alone giving every key its
value in `σ`; or it fails while the table directory is missing, and the slot holds the table it
could not flush: the one there before, or else the active table. -/
def FlushSettles (s : Session) (σ : SortedMap) : Prop :=
  ∃ e e', s.engine = some e ∧ (s.perform .flush).2.engine = some e' ∧
    (((s.perform .flush).1 = .done (some (.ok ())) ∧ e'.stalled = none ∧ e'.active.entries = [] ∧
        ∀ key, (Engine.lookup (s.perform .flush).2.host.volume key e'.tables).map
          (·.bind Entry.value) = .ok (σ.get key)) ∨
      (s.host.volume.lookup tableDir ≠ some .dir ∧
        ∃ err, (s.perform .flush).1 = .done (some (.error err)) ∧
          e'.stalled.map (·.memtable) = some ((e.stalled.map (·.memtable)).getD e.active)))

end Session

namespace SortedMap

/-- What the map allows as the answer to an event, and as its state after it, when its table
directory may be missing. While the map is closed every operation is refused and changes nothing.
While it is open, a write is either accepted, fitting the log and changing the map as `step`
says, or refused, changing nothing; a lookup and a range read answer as `Answers` says; a flush
and a compaction answer and change nothing, whether they succeed or fail; and a close either
succeeds and closes the map, or fails and leaves it open. Taking the table directory away and
creating it again succeed and change nothing. No answer to a reopening is allowed: the runs
this map describes have none. -/
def Allows (σ : SortedMap) : Event → Answer → SortedMap → Prop
  | .op (.upsert en), a, τ =>
    if σ.closed then a = .done (some (.error .closed)) ∧ τ = σ
    else (a = .done (some (.ok ())) ∧ fits en = true ∧ τ = σ.step (.upsert en)) ∨
      (∃ err, a = .done (some (.error err)) ∧ τ = σ)
  | .op (.get key), a, τ => σ.Answers (.get key) a ∧ τ = σ
  | .op (.range lower upper), a, τ => σ.Answers (.range lower upper) a ∧ τ = σ
  | .op .flush, a, τ | .op .compact, a, τ =>
    (if σ.closed then a = .done (some (.error .closed)) else ∃ r, a = .done (some r)) ∧ τ = σ
  | .op .close, a, τ =>
    if σ.closed then a = .done (some (.error .closed)) ∧ τ = σ
    else (a = .done (some (.ok ())) ∧ τ = σ.step .close) ∨
      (∃ err, a = .done (some (.error err)) ∧ τ = σ)
  | .op .reopen, _, _ => False
  | .loseTables, a, τ | .restoreTables, a, τ => a = .done (some (.ok ())) ∧ τ = σ

/-- The answers to events in turn, from a state of the map on, and the state `τ` they leave it
in. -/
def Tolerates : SortedMap → List Event → List Answer → SortedMap → Prop
  | σ, [], [], τ => τ = σ
  | σ, ev :: evs, a :: as, τ => ∃ σ', σ.Allows ev a σ' ∧ Tolerates σ' evs as τ
  | _, _, _, _ => False

end SortedMap

namespace Session

open Engine Run Merge

variable {s : Session} {σ : SortedMap} {n : Nat}

/-! ## Sessions that weather the loss -/

/-- A session whose engine weathers the loss of its table directory and stands for the map of
`σ` after `n` events, closed exactly when `σ` is. -/
def Weathers (s : Session) (σ : SortedMap) (n : Nat) : Prop :=
  ∃ e runs ds fs, s.engine = some e ∧ e.Weathering s.host runs ds fs σ.get n ∧ e.closed = σ.closed

/-- A session that serves a map weathers the loss of its table directory. -/
theorem Serves.weathers (serves : s.Serves σ n) : s.Weathers σ n := by
  obtain ⟨e, runs, fs, hs, serving, closed, -⟩ := serves
  exact ⟨e, runs, [walDir, tableDir], fs, hs, serving.weathering, closed⟩

theorem Weathers.succ (weathers : s.Weathers σ n) : s.Weathers σ (n + 1) := by
  obtain ⟨e, runs, ds, fs, hs, weathering, closed⟩ := weathers
  exact ⟨e, runs, ds, fs, hs, weathering.mono (Nat.le_succ n), closed⟩

/-- A closed engine refuses an operation that first checks that it is open, and the session stays
as it is. -/
theorem Weathers.refused (weathers : s.Weathers σ n) (closed : σ.closed = true) {α : Type}
    {m : EngineM α} (refuses : ∀ e h, e.closed = true → m.run.run (e, h) = (.error .closed, (e, h))) :
    s.withEngine m = (some (.error .closed), s) := by
  obtain ⟨e, runs, ds, fs, hs, -, closed'⟩ := weathers
  rw [withEngine_of_run hs (refuses e s.host (closed'.trans closed)), with_own_engine hs]

/-! ## One event -/

/-- A write to a session that weathers `σ` answers as `σ` allows, and the session weathers the
map the answer leaves: changed at the write's key when the write is accepted, as it was when it
is refused. -/
theorem Weathers.perform_upsert (weathers : s.Weathers σ n) (budget : n < 2 ^ 32) (en : Entry) :
    ∃ τ, σ.Allows (.op (.upsert en)) (s.perform (.upsert en)).1 τ ∧
      (s.perform (.upsert en)).2.Weathers τ (n + 1) := by
  cases hc : σ.closed
  case true =>
    have refused := weathers.refused hc (m := Engine.upsert en) fun _ _ c => run_checkOpen_bind_closed c _
    have performed : s.perform (.upsert en) = (.done (some (.error .closed)), s) := by
      simp only [perform, refused]
    rw [performed]
    refine ⟨σ, ?_, weathers.succ⟩
    rw [SortedMap.Allows, hc, if_pos rfl]
    exact ⟨rfl, rfl⟩
  case false =>
    obtain ⟨e, runs, ds, fs, hs, weathering, closed⟩ := weathers
    obtain ⟨r, e', h', runs', fs', ran, -, closed', -, -, result⟩ :=
      weathering.upsert (closed.trans hc) en budget
    have performed : s.perform (.upsert en) = (.done (some r), { s with engine := some e', host := h' }) := by
      simp only [perform, withEngine_of_run hs ran]
    rw [performed]
    rcases result with ⟨rfl, fits, weathering'⟩ | ⟨err, rfl, weathering'⟩
    · -- the write is accepted, and the map changes at its key
      have fit : SortedMap.fits en = true := by simpa [SortedMap.fits] using fits
      refine ⟨{ σ with get := fun k => if k = en.key then en.value else σ.get k }, ?_,
        e', runs', ds, fs', rfl, weathering', closed'.trans closed⟩
      rw [SortedMap.Allows, hc, if_neg Bool.false_ne_true]
      exact .inl ⟨rfl, fit, by simp [SortedMap.step, hc, fit]⟩
    · -- the write fails, and the map stays as it was
      refine ⟨σ, ?_, e', runs', ds, fs', rfl, weathering', closed'.trans closed⟩
      rw [SortedMap.Allows, hc, if_neg Bool.false_ne_true]
      exact .inr ⟨err, rfl, rfl⟩

/-- A lookup on a session that weathers `σ` finds the value `σ` gives the key, unless the engine
is closed, and changes nothing. -/
theorem Weathers.perform_get (weathers : s.Weathers σ n) (key : Bytes) :
    σ.Allows (.op (.get key)) (s.perform (.get key)).1 σ ∧
      (s.perform (.get key)).2.Weathers σ (n + 1) := by
  obtain ⟨e, runs, ds, fs, hs, weathering, closed⟩ := weathers
  have later : s.Weathers σ (n + 1) := ⟨e, runs, ds, fs, hs, weathering.mono (Nat.le_succ n), closed⟩
  cases hc : σ.closed
  case true =>
    simp only [perform, withEngine_of_run hs (get_closed (h := s.host) (closed.trans hc) key),
      with_own_engine hs]
    exact ⟨⟨by simp [SortedMap.Answers, hc], rfl⟩, later⟩
  case false =>
    -- the tiers, the flushing slot among them, give the key its value in `σ`
    simp only [perform, withEngine_of_run hs (get_readable weathering.tolerant.readable (closed.trans hc) key),
      with_own_engine hs, weathering.stands key]
    exact ⟨⟨by simp [SortedMap.Answers, hc], rfl⟩, later⟩

/-- A range read on a session that weathers `σ` gives the pairs of `σ` in the range, in strictly
ascending key order, unless the engine is closed, and changes nothing. -/
theorem Weathers.perform_range (weathers : s.Weathers σ n) (lower upper : Option Bytes) :
    σ.Allows (.op (.range lower upper)) (s.perform (.range lower upper)).1 σ ∧
      (s.perform (.range lower upper)).2.Weathers σ (n + 1) := by
  obtain ⟨e, runs, ds, fs, hs, weathering, closed⟩ := weathers
  refine ⟨⟨?_, rfl⟩, e, runs, ds, fs, hs, weathering.mono (Nat.le_succ n), closed⟩
  cases hc : σ.closed
  case true =>
    simp only [perform, SortedMap.Answers, hc, if_true, range_closed hs (closed.trans hc)]
  case false =>
    obtain ⟨pairs, ranged, sorted, members⟩ :=
      range_of_values hs weathering.tolerant.readable (closed.trans hc) weathering.stands lower upper
    simp only [perform, SortedMap.Answers, hc, Bool.false_eq_true, if_false]
    exact ⟨pairs, by rw [ranged], sorted, members⟩

/-- An engine operation that a closed engine refuses, and that an open weathering engine performs
keeping the map and the engine open, on a session that weathers `σ`: it is refused while `σ` is
closed, it answers either way, and the session still weathers `σ`. -/
theorem Weathers.withEngine_keeps {m : EngineM Unit} (weathers : s.Weathers σ n)
    (refuses : ∀ e h, e.closed = true → m.run.run (e, h) = (.error .closed, (e, h)))
    (performs : ∀ e h runs ds fs, e.Weathering h runs ds fs σ.get n → e.closed = false →
      ∃ r e' h' runs' fs', m.run.run (e, h) = (r, (e', h')) ∧
        e'.Weathering h' runs' ds fs' σ.get (n + 1) ∧ e'.closed = e.closed) :
    (σ.closed = true → (s.withEngine m).1 = some (.error .closed)) ∧
      (∃ r, (s.withEngine m).1 = some r) ∧ (s.withEngine m).2.Weathers σ (n + 1) := by
  cases hc : σ.closed
  case true =>
    have refused := weathers.refused hc refuses
    rw [refused]
    exact ⟨fun _ => rfl, ⟨_, rfl⟩, weathers.succ⟩
  case false =>
    obtain ⟨e, runs, ds, fs, hs, weathering, closed⟩ := weathers
    obtain ⟨r, e', h', runs', fs', ran, weathering', closed'⟩ :=
      performs e s.host runs ds fs weathering (closed.trans hc)
    rw [withEngine_of_run hs ran]
    exact ⟨fun opened => absurd opened Bool.false_ne_true, ⟨r, rfl⟩, e', runs', ds, fs', rfl,
      weathering', closed'.trans closed⟩

/-- A flush on a session that weathers `σ` is refused while the engine is closed; otherwise it
answers, succeeding or failing, and the session still weathers `σ`. -/
theorem Weathers.perform_flush (weathers : s.Weathers σ n) (budget : n < 2 ^ 32) :
    σ.Allows (.op .flush) (s.perform .flush).1 σ ∧ (s.perform .flush).2.Weathers σ (n + 1) := by
  obtain ⟨refused, ⟨r, answered⟩, weathers'⟩ := weathers.withEngine_keeps (m := Engine.flush)
    (fun _ _ c => run_checkOpen_bind_closed c _) fun _ _ _ _ _ weathering running => by
      obtain ⟨r, e', h', runs', fs', ran, weathering', -, closed', -⟩ := weathering.flush running budget
      exact ⟨r, e', h', runs', fs', ran, weathering', closed'⟩
  refine ⟨?_, weathers'⟩
  rw [SortedMap.Allows]
  refine ⟨?_, rfl⟩
  split
  · next closed => exact congrArg Answer.done (refused closed)
  · exact ⟨r, congrArg Answer.done answered⟩

/-- A compaction on a session that weathers `σ` is refused while the engine is closed; otherwise
it answers, succeeding or failing, and the session still weathers `σ`. -/
theorem Weathers.perform_compact (weathers : s.Weathers σ n) (budget : n < 2 ^ 32) :
    σ.Allows (.op .compact) (s.perform .compact).1 σ ∧ (s.perform .compact).2.Weathers σ (n + 1) := by
  obtain ⟨refused, ⟨r, answered⟩, weathers'⟩ := weathers.withEngine_keeps (m := Engine.compact)
    (fun _ _ c => run_checkOpen_bind_closed c _) fun _ _ _ _ _ weathering running => by
      obtain ⟨r, e', h', runs', fs', ran, weathering', -, closed', -⟩ :=
        weathering.compact running budget
      exact ⟨r, e', h', runs', fs', ran, weathering', closed'⟩
  refine ⟨?_, weathers'⟩
  rw [SortedMap.Allows]
  refine ⟨?_, rfl⟩
  split
  · next closed => exact congrArg Answer.done (refused closed)
  · exact ⟨r, congrArg Answer.done answered⟩

/-- Closing a session that weathers `σ` is refused while the engine is closed. Otherwise either
it succeeds and the session weathers `σ` closed, or it fails and the session weathers `σ` still
open. -/
theorem Weathers.perform_close (weathers : s.Weathers σ n) (budget : n < 2 ^ 32) :
    ∃ τ, σ.Allows (.op .close) (s.perform .close).1 τ ∧ (s.perform .close).2.Weathers τ (n + 1) := by
  cases hc : σ.closed
  case true =>
    have refused := weathers.refused hc (m := Engine.close) fun _ _ c => run_checkOpen_bind_closed c _
    have performed : s.perform .close = (.done (some (.error .closed)), s) := by
      simp only [perform, refused]
    rw [performed]
    refine ⟨σ, ?_, weathers.succ⟩
    rw [SortedMap.Allows, hc, if_pos rfl]
    exact ⟨rfl, rfl⟩
  case false =>
    obtain ⟨e, runs, ds, fs, hs, weathering, closed⟩ := weathers
    obtain ⟨r, e', h', runs', fs', ran, weathering', -, -, -, result⟩ :=
      weathering.close (closed.trans hc) budget
    have performed : s.perform .close = (.done (some r), { s with engine := some e', host := h' }) := by
      simp only [perform, withEngine_of_run hs ran]
    rw [performed]
    rcases result with ⟨rfl, closed'⟩ | ⟨-, err, rfl, open'⟩
    · refine ⟨σ.step .close, ?_, e', runs', ds, fs', rfl, weathering', closed'⟩
      rw [SortedMap.Allows, hc, if_neg Bool.false_ne_true]
      exact .inl ⟨rfl, rfl⟩
    · -- a close that fails leaves the engine open
      refine ⟨σ, ?_, e', runs', ds, fs', rfl, weathering', open'.trans hc.symm⟩
      rw [SortedMap.Allows, hc, if_neg Bool.false_ne_true]
      exact .inr ⟨err, rfl, rfl⟩

/-- Taking the table directory of a session that weathers `σ` away keeps it weathering `σ`. -/
theorem Weathers.loseTables (weathers : s.Weathers σ n) : s.loseTables.Weathers σ (n + 1) := by
  obtain ⟨e, runs, ds, fs, hs, weathering, closed⟩ := weathers
  exact ⟨e, runs, ds.erase tableDir, fs.filter (·.dir != tableDir), hs,
    (weathering.mono (Nat.le_succ n)).removeTables, closed⟩

/-- Creating the table directory of a session that weathers `σ` again succeeds and keeps it
weathering `σ`. -/
theorem Weathers.restoreTables (weathers : s.Weathers σ n) :
    s.restoreTables.1 = .ok () ∧ s.restoreTables.2.Weathers σ (n + 1) := by
  obtain ⟨e, runs, ds, fs, hs, weathering, closed⟩ := weathers
  obtain ⟨w, ds', created, -, weathering'⟩ := (weathering.mono (Nat.le_succ n)).restoreTables
  simp only [Session.restoreTables, created, true_and]
  exact ⟨e, runs, ds', fs, hs, weathering', closed⟩

/-- Any event but a reopening, on a session that weathers `σ`, answers as `σ` allows and leaves
a session that weathers the map the answer leaves. -/
theorem Weathers.undergo (weathers : s.Weathers σ n) (budget : n < 2 ^ 32) (ev : Event)
    (engineOp : ev ≠ .op .reopen) :
    ∃ τ, σ.Allows ev (s.undergo ev).1 τ ∧ (s.undergo ev).2.Weathers τ (n + 1) := by
  cases ev with
  | op op =>
    cases op with
    | upsert en => exact weathers.perform_upsert budget en
    | get key => exact ⟨σ, weathers.perform_get key⟩
    | range lower upper => exact ⟨σ, weathers.perform_range lower upper⟩
    | flush => exact ⟨σ, weathers.perform_flush budget⟩
    | compact => exact ⟨σ, weathers.perform_compact budget⟩
    | close => exact weathers.perform_close budget
    | reopen => exact absurd rfl engineOp
  | loseTables => exact ⟨σ, ⟨rfl, rfl⟩, weathers.loseTables⟩
  | restoreTables =>
    obtain ⟨restored, weathers'⟩ := weathers.restoreTables
    refine ⟨σ, ?_, weathers'⟩
    simp only [Session.undergo, restored]
    exact ⟨rfl, rfl⟩

/-- A flush on an open session that weathers `σ` settles the flushing slot. -/
theorem Weathers.flushSettles (weathers : s.Weathers σ n) (budget : n < 2 ^ 32)
    (opened : σ.closed = false) : s.FlushSettles σ := by
  obtain ⟨e, runs, ds, fs, hs, weathering, closed⟩ := weathers
  obtain ⟨r, e', h', runs', fs', ran, weathering', -, -, -, -, settled⟩ :=
    weathering.flush (closed.trans opened) budget
  have answered := withEngine_of_run hs ran
  refine ⟨e, e', hs, by simp only [perform, answered], ?_⟩
  rcases settled with ⟨rfl, free, empty⟩ | ⟨missing, err, rfl, parked⟩
  · -- past the empty active table and the free slot, the tables alone stand for `σ`
    refine .inl ⟨by simp only [perform, answered], free, empty, fun key => ?_⟩
    have stands := weathering'.stands key
    rw [tierRuns_of_stalled free, empty, firstHit_nil_cons] at stands
    simp only [perform, answered, lookup_eq weathering'.tolerant.holds key, Except.map, stands]
  · have absent : s.host.volume.lookup tableDir ≠ some .dir := fun dir =>
      missing ((weathering.tolerant.laid.lookup_eq_dir_iff tableDir_isName).1 dir)
    exact .inr ⟨absent, err, by simp only [perform, answered], parked⟩

/-! ## Whole runs -/

theorem undergoAll_cons (s : Session) (ev : Event) (evs : List Event) :
    s.undergoAll (ev :: evs) =
      ((s.undergo ev).1 :: ((s.undergo ev).2.undergoAll evs).1, ((s.undergo ev).2.undergoAll evs).2) :=
  rfl

/-- A run of events but reopenings, on a session that weathers `σ`, answers as `σ` allows, event
by event, and leaves a session that weathers the map the answers leave, while fewer than `2 ^ 32`
events have happened in all. -/
theorem Weathers.undergoAll (weathers : s.Weathers σ n) (evs : List Event)
    (budget : n + evs.length ≤ 2 ^ 32) (engineOps : ∀ ev ∈ evs, ev ≠ .op .reopen) :
    ∃ τ, σ.Tolerates evs (s.undergoAll evs).1 τ ∧ (s.undergoAll evs).2.Weathers τ (n + evs.length) := by
  -- induction on the events, with the session, the map and the count of events so far moving
  -- along
  induction evs generalizing s σ n with
  | nil => exact ⟨σ, rfl, weathers⟩
  | cons ev evs ih =>
    have length : n + (ev :: evs).length = n + 1 + evs.length := by
      rw [List.length_cons]
      omega
    obtain ⟨σ', allowed, weathers'⟩ := weathers.undergo (by omega) ev (engineOps ev List.mem_cons_self)
    obtain ⟨τ, tolerated, final⟩ :=
      ih weathers' (by omega) fun ev' mem => engineOps ev' (List.mem_cons_of_mem _ mem)
    rw [undergoAll_cons, length]
    exact ⟨τ, ⟨σ', allowed, tolerated⟩, final⟩

/-- Failed flushes lose nothing and invent nothing. On a session started with a valid
configuration on an empty volume, take any run of fewer than `2 ^ 32` events: operations other
than reopening, with the table directory taken away and created again at any points. Every answer
is one the map allows, the map changing exactly at the writes that are accepted, in order: so a
lookup or a range read answers as the map of the accepted writes, a failed flush, compaction or
close changes no answer, and a failed close leaves the engine open. And while the engine is
open, a flush after the run settles the flushing slot: it either succeeds, leaving the slot and
the active table empty with the tables alone holding the map, or fails while the table directory
is missing, with the table it could not flush left in the slot, where lookups still read it. -/
theorem failed_flushes_lose_nothing {config : Config} (valid : config.validate = .ok ()) :
    ∃ s, Session.start config {} = (.ok (), s) ∧
      ∀ evs : List Event, evs.length < 2 ^ 32 → (∀ ev ∈ evs, ev ≠ .op .reopen) →
        ∃ σ, SortedMap.empty.Tolerates evs (s.undergoAll evs).1 σ ∧
          (σ.closed = false → (s.undergoAll evs).2.FlushSettles σ) := by
  obtain ⟨s, started, serves⟩ := start_serves valid
  refine ⟨s, started, fun evs few engineOps => ?_⟩
  obtain ⟨σ, tolerated, weathers⟩ := serves.weathers.undergoAll evs (by omega) engineOps
  exact ⟨σ, tolerated, weathers.flushSettles (by omega)⟩

/-- A write of `a`, the table directory taken away, a flush, the directory created again, a
second write of `a` and a flush. -/
def tableOutage : List Event :=
  [.op (.upsert (.put [97] [49])), .loseTables, .op .flush, .restoreTables,
    .op (.upsert (.put [97] [50])), .op .flush]

/-- The default configuration through `tableOutage`. -/
theorem failed_flushes_lose_nothing_tableOutage :
    ({} : Config).validate = .ok () ∧ ∃ s, Session.start {} {} = (.ok (), s) ∧ ∃ σ,
      SortedMap.empty.Tolerates tableOutage (s.undergoAll tableOutage).1 σ ∧
      (σ.closed = false → (s.undergoAll tableOutage).2.FlushSettles σ) := by
  obtain ⟨s, started, runs⟩ := @failed_flushes_lose_nothing {} rfl
  exact ⟨rfl, s, started, runs tableOutage (by decide) (by simp [tableOutage])⟩

end Session

end LsmStore
