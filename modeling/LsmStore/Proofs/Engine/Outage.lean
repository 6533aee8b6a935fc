import LsmStore.Proofs.Engine.Tolerant

/-!
# Operations while the table directory may be gone

An engine whose table directory may be taken away still stands for a map of keys to values: the
newest of its tiers holding a key, the flushing slot among them, decides the key's value. Each
operation of an open engine keeps that, with the map changed by a write that succeeds and by
nothing else. A flush that fails parks its table in the flushing slot, where lookups and scans
still read it, and a flush that succeeds leaves the slot and the active table empty, with their
entries in tables; a compaction that fails changes nothing, and a close that fails leaves the
engine open.

The bounds are those of `Engine.Serving`, with room for two generations per operation: a write
that finds its active table full while the slot is free freezes it first, and its own entry may
fill the fresh table again.

## Main definitions

* `Engine.tierLoad` — the bytes of entries all the tiers hold
* `Engine.Stands` — the map of keys to values all the tiers stand for
* `Engine.Keeps` — work that keeps the answers, the configuration, the scans and the clock
* `Engine.Weathering` — a tolerant engine between operations that stands for a map

## Main results

* `Engine.Tolerant.retry` — a flush of the table in the flushing slot, with the table directory
  there and missing
* `Engine.Tolerant.freeze_flush` — a freeze and its flush
* `Engine.Weathering.makeRoom`, `Engine.Weathering.upsert` — a write that succeeds changes the map
  at its key; one that fails changes nothing
* `Engine.Weathering.flush` — a flush keeps the map; when it fails its table stays in the slot,
  and when it succeeds the slot and the active table are empty
* `Engine.Weathering.compact`, `Engine.Weathering.close` — the other operations keep the map; a
  close that fails leaves the engine open
* `Engine.Weathering.removeTables`, `Engine.Weathering.restoreTables` — the table directory taken
  away and created again
-/

namespace LsmStore

namespace Engine

open Volume Table Run Merge

variable {e : Engine} {h : Host} {runs : List (List Entry)} {ds : List String} {fs : List FileLink}
  {m : Bytes → Option Bytes} {n : Nat}

/-- The bytes of entries all the tiers hold: the active table, the flushing slot and the tables
`runs`. -/
def tierLoad (e : Engine) (runs : List (List Entry)) : Nat :=
  ((tierRuns e runs).map fun r => (dataOf r).length).sum

/-- The engine stands for the map `m` through all its tiers: for every key the newest tier
holding it, the flushing slot among them, decides its value, and a deletion there means it has
none. -/
def Stands (e : Engine) (runs : List (List Entry)) (m : Bytes → Option Bytes) : Prop :=
  ∀ key, (firstHit (tierRuns e runs) key).bind Entry.value = m key

/-- Work that takes `e` and `h` to `e'` and `h'` keeping the configuration, the open state, the
scans and the clock; the tiers it leaves answer every key as before, in no more bytes. -/
structure Keeps (e : Engine) (h : Host) (runs : List (List Entry)) (e' : Engine) (h' : Host)
    (runs' : List (List Entry)) : Prop where
  config : e'.config = e.config
  closed : e'.closed = e.closed
  scans : h'.scans.map (·.1) = h.scans.map (·.1)
  clock : h'.clock = h.clock
  answers : ∀ key, (firstHit (tierRuns e' runs') key).bind Entry.value =
    (firstHit (tierRuns e runs) key).bind Entry.value
  load : tierLoad e' runs' ≤ tierLoad e runs

theorem Keeps.refl (e : Engine) (h : Host) (runs : List (List Entry)) : Keeps e h runs e h runs :=
  ⟨rfl, rfl, rfl, rfl, fun _ => rfl, Nat.le_refl _⟩

theorem Keeps.trans {e₁ e₂ : Engine} {h₁ h₂ : Host} {runs₁ runs₂ : List (List Entry)}
    (first : Keeps e h runs e₁ h₁ runs₁) (second : Keeps e₁ h₁ runs₁ e₂ h₂ runs₂) :
    Keeps e h runs e₂ h₂ runs₂ where
  config := second.config.trans first.config
  closed := second.closed.trans first.closed
  scans := second.scans.trans first.scans
  clock := second.clock.trans first.clock
  answers key := (second.answers key).trans (first.answers key)
  load := Nat.le_trans second.load first.load

/-- Work that keeps the answers keeps the map the engine stands for. -/
theorem Stands.keep {e' : Engine} {h' : Host} {runs' : List (List Entry)} (stands : Stands e runs m)
    (keeps : Keeps e h runs e' h' runs') : Stands e' runs' m :=
  fun key => (keeps.answers key).trans (stands key)

/-- With the flushing slot free, the tiers are the active table and the tables. -/
theorem tierLoad_of_stalled (free : e.stalled = none) : tierLoad e runs = load e runs := by
  simp [tierLoad, load, tierRuns_of_stalled free]

/-- An engine whose flushing slot is free stands for the map its active table and tables do. -/
theorem Models.stands (models : Models e runs m) (free : e.stalled = none) : Stands e runs m := by
  intro key
  rw [tierRuns_of_stalled free]
  exact models key

/-- A tolerant engine between operations, after at most `n` of them, that stands for the map
`m` through all its tiers. Its generation, the sequence numbers of its log and the bytes its
tiers hold have grown by at most two generations, one record and `2 ^ 32` bytes per
operation. -/
structure Weathering (e : Engine) (h : Host) (runs : List (List Entry)) (ds : List String)
    (fs : List FileLink) (m : Bytes → Option Bytes) (n : Nat) : Prop where
  tolerant : Tolerant e h runs ds fs
  stands : Stands e runs m
  generation : e.active.generation ≤ 2 * n + 1
  lsn : e.wal.nextLsn ≤ n + 1
  load : tierLoad e runs ≤ n * 2 ^ 32

/-- An engine that serves a map weathers the loss of its table directory. -/
theorem Serving.weathering (serving : Serving e h runs fs m n) :
    Weathering e h runs [walDir, tableDir] fs m n where
  tolerant := serving.sound.toKept.tolerant
  stands := serving.models.stands serving.sound.stalled
  generation := by have := serving.generation; omega
  lsn := serving.lsn
  load := by
    rw [tierLoad_of_stalled serving.sound.stalled]
    exact serving.load

/-- A bound on the operations so far is a bound on any more of them. -/
theorem Weathering.mono (weathering : Weathering e h runs ds fs m n) {n' : Nat} (le : n ≤ n') :
    Weathering e h runs ds fs m n' :=
  { weathering with
    generation := by have := weathering.generation; omega
    lsn := by have := weathering.lsn; omega
    load := le_trans weathering.load (Nat.mul_le_mul_right _ le) }

/-- Fewer than `2 ^ 32` operations leave fewer than `2 ^ 64` bytes in the tiers. -/
theorem Weathering.small (weathering : Weathering e h runs ds fs m n) (budget : n < 2 ^ 32) :
    tierLoad e runs < 2 ^ 64 := by
  have loadBound := weathering.load
  omega

/-- Work that keeps the answers and stays within the bounds of one more operation keeps a
weathering engine weathering. -/
theorem Weathering.keep {e' : Engine} {h' : Host} {runs' : List (List Entry)} {ds' : List String}
    {fs' : List FileLink} (weathering : Weathering e h runs ds fs m n)
    (tol : Tolerant e' h' runs' ds' fs') (keeps : Keeps e h runs e' h' runs')
    (generation : e'.active.generation ≤ 2 * n + 3) (lsn : e'.wal.nextLsn ≤ n + 2) :
    Weathering e' h' runs' ds' fs' m (n + 1) where
  tolerant := tol
  stands := weathering.stands.keep keeps
  generation := generation
  lsn := lsn
  load := le_trans keeps.load (le_trans weathering.load (Nat.mul_le_mul_right _ (Nat.le_succ n)))

/-- Taking the table directory away, with every file in it, keeps a weathering engine
weathering. -/
theorem Weathering.removeTables (weathering : Weathering e h runs ds fs m n) :
    Weathering e { h with volume := h.volume.removeTree tableDir } runs (ds.erase tableDir)
      (fs.filter (·.dir != tableDir)) m n :=
  { weathering with tolerant := weathering.tolerant.removeTables }

/-- Creating the table directory of a weathering engine again succeeds, and the engine stays
weathering with the directory there. -/
theorem Weathering.restoreTables (weathering : Weathering e h runs ds fs m n) :
    ∃ w ds', h.volume.createDirAll tableDir = .ok w ∧ tableDir ∈ ds' ∧
      Weathering e { h with volume := w } runs ds' fs m n := by
  obtain ⟨w, ds', created, present, tol⟩ := weathering.tolerant.restoreTables
  exact ⟨w, ds', created, present, { weathering with tolerant := tol }⟩

/-! ## A flush tried again -/

/-- An engine is its own flushing slot put back. -/
theorem with_stalled {s : Stalled} (hs : e.stalled = some s) :
    { e with stalled := some ⟨s.memtable, s.failure⟩ } = e := by
  cases e
  cases hs
  rfl

/-- A flush of the table `m` in the flushing slot of a tolerant engine, when the tiers hold fewer
than `2 ^ 64` bytes, keeps the engine tolerant and its answers, with the active table, the log
and the generation counter as they were. With the table directory there the flush succeeds and
frees the slot; with it missing, it fails and `m` stays in the slot. The engine the flush starts
from may have anything in its slot: the flush sets the slot itself. -/
theorem Tolerant.retry {m : Memtable} {x : StoreError}
    (tol : Tolerant { e with stalled := some ⟨m, x⟩ } h runs ds fs)
    (small : tierLoad { e with stalled := some ⟨m, x⟩ } runs < 2 ^ 64) :
    ∃ r e' h' runs' fs', (flushMemtable m).run.run (e, h) = (r, (e', h')) ∧
      Tolerant e' h' runs' ds fs' ∧ Keeps { e with stalled := some ⟨m, x⟩ } h runs e' h' runs' ∧
      e'.active = e.active ∧ e'.wal = e.wal ∧ e'.nextGeneration = e.nextGeneration ∧
      ((tableDir ∈ ds ∧ r = .ok () ∧ e'.stalled = none) ∨
        (tableDir ∉ ds ∧ r = .error (.flushFailed (.io .notFound)) ∧
          e'.stalled.map (·.memtable) = some m)) := by
  have tiers : tierRuns { e with stalled := some ⟨m, x⟩ } runs = e.active.entries :: m.entries :: runs :=
    rfl
  by_cases present : tableDir ∈ ds
  · -- the table is published: past the active table, the tables answer as it did over them
    obtain ⟨tables, h', runs', fs', flushed, tol', scans', clock', answers, bytes⟩ :=
      tol.flushParked present (by
        simp only [tierLoad, tiers, List.map_cons, List.sum_cons] at small ⊢
        omega)
    refine ⟨.ok (), { e with stalled := none, tables }, h', runs', fs', flushed, tol',
      ⟨rfl, rfl, by rw [scans'], clock', fun key => ?_, ?_⟩, rfl, rfl, rfl, .inl ⟨present, rfl, rfl⟩⟩
    · rw [tierRuns_of_stalled rfl, tiers]
      exact @firstHit_bind_append [e.active.entries] _ _ answers key
    · rw [tierLoad, tierLoad, tierRuns_of_stalled rfl, tiers]
      simp only [List.map_cons, List.sum_cons] at bytes ⊢
      omega
  · exact ⟨_, _, h, runs, fs, tol.flushMemtable_of_missing present, tol.refail _,
      ⟨rfl, rfl, rfl, rfl, fun _ => rfl, Nat.le_refl _⟩, rfl, rfl, rfl, .inr ⟨present, rfl, rfl⟩⟩

/-! ## A freeze and its flush -/

/-- Past an empty active table the tiers answer as the rest of them. -/
theorem firstHit_nil_cons (rest : List (List Entry)) (key : Bytes) :
    firstHit ([] :: rest) key = firstHit rest key := by
  simp

/-- A freeze and its flush on a tolerant engine whose flushing slot is free, when the tiers hold
fewer than `2 ^ 64` bytes and the generation counter has room. The freeze succeeds and hands
over the active table, and the flush of it keeps the engine tolerant and its answers, with an
empty active table of the next generation. With the table directory there the flush succeeds
and the slot stays free; with it missing, the flush fails and the frozen table waits in the
slot. -/
theorem Tolerant.freeze_flush (tol : Tolerant e h runs ds fs) (free : e.stalled = none)
    (room : e.nextGeneration + 1 < 2 ^ 64) (small : tierLoad e runs < 2 ^ 64) :
    ∃ e₁ h₁, Engine.freeze.run.run (e, h) = (.ok e.active, (e₁, h₁)) ∧
      ∃ r e' h' runs' fs', (flushMemtable e.active).run.run (e₁, h₁) = (r, (e', h')) ∧
        Tolerant e' h' runs' ds fs' ∧ Keeps e h runs e' h' runs' ∧ e'.active.entries = [] ∧
        e'.active.generation = e.nextGeneration ∧ e'.wal.nextLsn = 1 ∧
        (tableDir ∈ ds → r = .ok () ∧ e'.stalled = none) ∧
        (tableDir ∉ ds → r = .error (.flushFailed (.io .notFound)) ∧
          e'.stalled.map (·.memtable) = some e.active) := by
  have tiers : tierRuns e runs = e.active.entries :: runs := tierRuns_of_stalled free
  have storable : Storable e.active.entries :=
    tol.storable (by simp only [tierLoad, tiers, List.map_cons, List.sum_cons] at small; omega)
  obtain ⟨e₁, h₁, fs₁, frozen, tol₁, -, config₁, closed₁, -, empty₁, generation₁, lsn₁, scans₁,
    clock₁, -⟩ := tol.freeze free room storable (.io .notFound)
  -- the frozen table, parked in the slot past the empty active table, answers as it did
  have parked : tierRuns { e₁ with stalled := some ⟨e.active, .io .notFound⟩ } runs = [] :: tierRuns e runs := by
    rw [tiers]
    show e₁.active.entries :: e.active.entries :: runs = _
    rw [empty₁]
  have keeps₁ : Keeps e h runs { e₁ with stalled := some ⟨e.active, .io .notFound⟩ } h₁ runs :=
    ⟨config₁, closed₁, scans₁, clock₁, fun key => by rw [parked, firstHit_nil_cons],
      by simp [tierLoad, parked]⟩
  obtain ⟨r, e', h', runs', fs', flushed, tol', keeps, active', wal', -, settled⟩ :=
    tol₁.retry (Nat.lt_of_le_of_lt keeps₁.load small)
  refine ⟨e₁, h₁, frozen, r, e', h', runs', fs', flushed, tol', keeps₁.trans keeps,
    by rw [active']; exact empty₁, by rw [active']; exact generation₁, by rw [wal']; exact lsn₁,
    fun present => ?_, fun missing => ?_⟩
  · rcases settled with ⟨-, ok, free'⟩ | ⟨missing, -, -⟩
    · exact ⟨ok, free'⟩
    · exact absurd present missing
  · rcases settled with ⟨present, -, -⟩ | ⟨-, failed, slot⟩
    · exact absurd present missing
    · exact ⟨failed, slot⟩

/-- A freeze and its flush, with the flush's failure ignored, on a tolerant engine whose
flushing slot is free, when the tiers hold fewer than `2 ^ 64` bytes and the generation counter
has room: the engine stays tolerant and keeps its answers, with an empty active table of the next
generation. -/
theorem Tolerant.freezeAndFlush (tol : Tolerant e h runs ds fs) (free : e.stalled = none)
    (room : e.nextGeneration + 1 < 2 ^ 64) (small : tierLoad e runs < 2 ^ 64) :
    ∃ e' h' runs' fs', Engine.freezeAndFlush.run.run (e, h) = (.ok (), (e', h')) ∧
      Tolerant e' h' runs' ds fs' ∧ Keeps e h runs e' h' runs' ∧
      e'.active.generation = e.nextGeneration ∧ e'.wal.nextLsn = 1 := by
  obtain ⟨e₁, h₁, frozen, r, e', h', runs', fs', flushed, tol', keeps, -, generation, lsn, -⟩ :=
    tol.freeze_flush free room small
  refine ⟨e', h', runs', fs', ?_, tol', keeps, generation, lsn⟩
  simp only [Engine.freezeAndFlush, EngineM.run_bind, frozen, EngineM.run_attempt, flushed]

/-! ## Writing -/

/-- The map an engine stands for, after an entry goes into its active table. -/
theorem Stands.insert (stands : Stands e runs m) {e' : Engine} (en : Entry)
    (entries : e'.active.entries = Memtable.insertEntry en e.active.entries)
    (stalled : e'.stalled = e.stalled) :
    Stands e' runs fun k => if k = en.key then en.value else m k := by
  intro key
  have before := stands key
  rw [tierRuns, firstHit_cons] at before
  rw [tierRuns, firstHit_cons, entries, stalled, Memtable.entryOf_insertEntry]
  by_cases same : en.key = key
  · simp [same]
  · simpa [same, Ne.symm same] using before

/-- Making room for a write on a weathering engine. When the active table is full and the
flushing slot free, the active table is frozen and flushed; when the slot holds a table, its
flush is tried again and the write fails. Either way the engine stays tolerant and keeps its
answers, within the bounds of one more operation. -/
theorem Weathering.makeRoom (weathering : Weathering e h runs ds fs m n) (budget : n < 2 ^ 32) :
    ∃ r e₁ h₁ runs₁ fs₁, Engine.makeRoom.run.run (e, h) = (r, (e₁, h₁)) ∧
      Tolerant e₁ h₁ runs₁ ds fs₁ ∧ Keeps e h runs e₁ h₁ runs₁ ∧
      e₁.active.generation ≤ 2 * n + 2 ∧ e₁.wal.nextLsn ≤ n + 1 := by
  have tol := weathering.tolerant
  have generation := weathering.generation
  have lsn := weathering.lsn
  have next := tol.nextGeneration
  have small := weathering.small budget
  cases full : e.active.isFull
  · refine ⟨.ok (), e, h, runs, fs, ?_, tol, Keeps.refl e h runs, by omega, lsn⟩
    simp only [Engine.makeRoom, EngineM.run_bind, EngineM.run_engine, full, Bool.false_eq_true,
      if_false, EngineM.run_pure]
  cases hs : e.stalled with
  | none =>
    obtain ⟨e', h', runs', fs', ran, tol', keeps, generation', lsn'⟩ :=
      tol.freezeAndFlush hs (by omega) small
    refine ⟨.ok (), e', h', runs', fs', ?_, tol', keeps, by omega, by omega⟩
    simp only [Engine.makeRoom, EngineM.run_bind, EngineM.run_engine, full, if_true, hs]
    exact ran
  | some s =>
    -- the parked table's flush is tried again, and the write fails with the old failure
    have parked : Tolerant { e with stalled := some ⟨s.memtable, s.failure⟩ } h runs ds fs := by
      rw [with_stalled hs]
      exact tol
    obtain ⟨r, e', h', runs', fs', retried, tol', keeps, active', wal', -, -⟩ :=
      parked.retry (by rw [with_stalled hs]; exact small)
    rw [with_stalled hs] at keeps
    refine ⟨.error (.flushFailed s.failure), e', h', runs', fs', ?_, tol', keeps,
      by rw [active']; omega, by rw [wal']; exact lsn⟩
    simp only [Engine.makeRoom, EngineM.run_bind, EngineM.run_engine, full, if_true, hs,
      EngineM.run_attempt, retried, EngineM.run_throw]

/-- A write to an open weathering engine. When it succeeds its record fits the log, and the
engine stands for the map changed at the write's key; when it fails the engine stands for the
map as it was. Either way the engine is weathering after one more operation. -/
theorem Weathering.upsert (weathering : Weathering e h runs ds fs m n) (running : e.closed = false)
    (en : Entry) (budget : n < 2 ^ 32) :
    ∃ r e' h' runs' fs', (Engine.upsert en).run.run (e, h) = (r, (e', h')) ∧
      e'.config = e.config ∧ e'.closed = e.closed ∧ h'.scans.map (·.1) = h.scans.map (·.1) ∧
      h'.clock = h.clock ∧
      ((r = .ok () ∧ 8 + en.encodedLen < 2 ^ 32 ∧
          Weathering e' h' runs' ds fs' (fun k => if k = en.key then en.value else m k) (n + 1)) ∨
        ∃ err, r = .error err ∧ Weathering e' h' runs' ds fs' m (n + 1)) := by
  obtain ⟨r₁, e₁, h₁, runs₁, fs₁, roomed, tol₁, keeps₁, generation₁, lsn₁⟩ := weathering.makeRoom budget
  have weathering₁ := weathering.keep tol₁ keeps₁ (by omega) (by omega)
  rcases r₁ with err | ⟨⟩
  · -- no room: the write fails as making room did
    refine ⟨.error err, e₁, h₁, runs₁, fs₁, ?_, keeps₁.config, keeps₁.closed, keeps₁.scans,
      keeps₁.clock, .inr ⟨err, rfl, weathering₁⟩⟩
    rw [Engine.upsert, run_checkOpen_bind_open running, EngineM.run_bind, roomed]
  by_cases fits : 8 + en.encodedLen < 2 ^ 32
  case neg =>
    -- a record too large for the log is refused after the room is made
    have refused := e₁.wal.append_of_too_large (v := h₁.volume) en h₁.clock
      (by rw [Wal.Record.length_payload]; exact fits)
    rw [Wal.Record.length_payload] at refused
    refine ⟨.error (.wal (.payloadTooLarge (8 + en.encodedLen))), e₁, h₁, runs₁, fs₁, ?_,
      keeps₁.config, keeps₁.closed, keeps₁.scans, keeps₁.clock, .inr ⟨_, rfl, weathering₁⟩⟩
    rw [Engine.upsert, run_checkOpen_bind_open running]
    simp only [EngineM.run_bind, roomed, EngineM.run_engine, EngineM.run_volume, EngineM.run_host,
      EngineM.run_lift, refused]
  have loadBound := weathering.load
  obtain ⟨a', v', appended, nextLsn, tol₂⟩ := tol₁.append en fits (by omega)
  have ran₂ : (Engine.upsert en).run.run (e, h) =
      (if ((e₁.active.put en).1 && e₁.stalled.isNone) = true then EngineM.attempt freezeAndFlush
        else pure ()).run.run ({ e₁ with wal := a', active := (e₁.active.put en).2 },
          { h₁ with volume := v' }) := by
    rw [Engine.upsert, run_checkOpen_bind_open running]
    simp only [EngineM.run_bind, roomed, EngineM.run_engine, EngineM.run_volume, EngineM.run_host,
      EngineM.run_lift, appended, EngineM.run_setVolume, EngineM.run_modifyEngine]
  have stands₂ : Stands { e₁ with wal := a', active := (e₁.active.put en).2 } runs₁
      (fun k => if k = en.key then en.value else m k) :=
    (weathering.stands.keep keeps₁).insert en rfl rfl
  -- the write adds at most the bytes of its entry, fewer than `2 ^ 32`
  have loaded : tierLoad { e₁ with wal := a', active := (e₁.active.put en).2 } runs₁ < (n + 1) * 2 ^ 32 := by
    have grow : (dataOf (Memtable.insertEntry en e₁.active.entries)).length ≤
        (dataOf e₁.active.entries).length + en.encodedLen :=
      Memtable.length_dataOf_insertEntry_le
    have before := keeps₁.load
    simp only [tierLoad, tierRuns, Memtable.entries_put, List.map_cons, List.sum_cons]
      at before loadBound ⊢
    rw [Nat.succ_mul]
    omega
  have pow : (n + 1) * 2 ^ 32 ≤ 2 ^ 64 := by
    calc (n + 1) * 2 ^ 32 ≤ 2 ^ 32 * 2 ^ 32 := Nat.mul_le_mul_right _ budget
      _ = 2 ^ 64 := by rw [← Nat.pow_add]
  cases full : ((e₁.active.put en).1 && e₁.stalled.isNone)
  · -- the active table takes the write and keeps taking writes
    refine ⟨.ok (), { e₁ with wal := a', active := (e₁.active.put en).2 }, { h₁ with volume := v' },
      runs₁, fs₁, by rw [ran₂, full]; rfl, keeps₁.config, keeps₁.closed,
      keeps₁.scans, keeps₁.clock, .inl ⟨rfl, fits, tol₂, stands₂, ?_, ?_, Nat.le_of_lt loaded⟩⟩
    · show (e₁.active.put en).2.generation ≤ 2 * (n + 1) + 1
      rw [Memtable.generation_put]
      omega
    · show a'.nextLsn ≤ n + 1 + 1
      omega
  · -- the write fills the active table with the slot free: it is frozen and flushed
    have free : e₁.stalled = none := by
      simp only [Bool.and_eq_true, Option.isNone_iff_eq_none] at full
      exact full.2
    have next₁ := tol₁.nextGeneration
    obtain ⟨e₃, h₃, runs₃, fs₃, ran₃, tol₃, keeps₃, generation₃, lsn₃⟩ :=
      tol₂.freezeAndFlush free (by show e₁.nextGeneration + 1 < 2 ^ 64; omega) (by omega)
    refine ⟨.ok (), e₃, h₃, runs₃, fs₃, by rw [ran₂, full, if_pos rfl, EngineM.run_attempt, ran₃],
      keeps₃.config.trans keeps₁.config, keeps₃.closed.trans keeps₁.closed,
      keeps₃.scans.trans keeps₁.scans, keeps₃.clock.trans keeps₁.clock,
      .inl ⟨rfl, fits, tol₃, stands₂.keep keeps₃, ?_, by omega, Nat.le_trans keeps₃.load (Nat.le_of_lt loaded)⟩⟩
    rw [generation₃]
    show e₁.nextGeneration ≤ 2 * (n + 1) + 1
    omega

/-! ## Flushing, compacting and closing -/

/-- The part of a flush past the flushing slot, on a tolerant engine whose slot is free, when
the tiers hold fewer than `2 ^ 64` bytes and the generation counter has room: an empty active
table is left as it is, and any other is frozen and flushed. The engine stays tolerant and keeps
its answers. Either the flush succeeds, leaving the slot and the active table empty, or the table
directory is missing and the frozen table waits in the slot. -/
theorem Tolerant.flushActive (tol : Tolerant e h runs ds fs) (free : e.stalled = none)
    (room : e.nextGeneration + 1 < 2 ^ 64) (small : tierLoad e runs < 2 ^ 64) :
    ∃ r e' h' runs' fs',
      (if e.active.isEmpty then pure () else Engine.freeze >>= flushMemtable).run.run (e, h) =
        (r, (e', h')) ∧
      Tolerant e' h' runs' ds fs' ∧ Keeps e h runs e' h' runs' ∧
      e'.active.generation ≤ e.nextGeneration ∧ e'.wal.nextLsn ≤ e.wal.nextLsn + 1 ∧
      ((r = .ok () ∧ e'.stalled = none ∧ e'.active.entries = []) ∨
        (tableDir ∉ ds ∧ r = .error (.flushFailed (.io .notFound)) ∧
          e'.stalled.map (·.memtable) = some e.active)) := by
  cases empty : e.active.isEmpty
  · obtain ⟨e₁, h₁, frozen, r, e', h', runs', fs', flushed, tol', keeps, empty', generation, lsn,
      present, missing⟩ := tol.freeze_flush free room small
    refine ⟨r, e', h', runs', fs', ?_, tol', keeps, Nat.le_of_eq generation, by omega, ?_⟩
    · simp only [Bool.false_eq_true, if_false, EngineM.run_bind, frozen, flushed]
    · by_cases hd : tableDir ∈ ds
      · obtain ⟨rfl, free'⟩ := present hd
        exact .inl ⟨rfl, free', empty'⟩
      · obtain ⟨rfl, parked⟩ := missing hd
        exact .inr ⟨hd, rfl, parked⟩
  · -- nothing to flush: the engine stays as it is
    have next : e.nextGeneration = e.active.generation + 1 := tol.nextGeneration
    refine ⟨.ok (), e, h, runs, fs, by simp only [if_true]; rfl, tol, Keeps.refl e h runs, by omega,
      by omega, .inl ⟨rfl, free, ?_⟩⟩
    simpa [Memtable.isEmpty] using empty

/-- An explicit flush of an open weathering engine keeps the map it stands for, within the bounds
of one more operation. The flush first tries the table in the flushing slot again, then freezes
and flushes a nonempty active table. Either it succeeds, leaving the slot and the active table
empty, or the table directory is missing and it fails, leaving in the slot the table it could
not flush: the one there before, or else the active table. -/
theorem Weathering.flush (weathering : Weathering e h runs ds fs m n) (running : e.closed = false)
    (budget : n < 2 ^ 32) :
    ∃ r e' h' runs' fs', Engine.flush.run.run (e, h) = (r, (e', h')) ∧
      Weathering e' h' runs' ds fs' m (n + 1) ∧ e'.config = e.config ∧ e'.closed = e.closed ∧
      h'.scans.map (·.1) = h.scans.map (·.1) ∧ h'.clock = h.clock ∧
      ((r = .ok () ∧ e'.stalled = none ∧ e'.active.entries = []) ∨
        (tableDir ∉ ds ∧ ∃ err, r = .error err ∧
          e'.stalled.map (·.memtable) = some ((e.stalled.map (·.memtable)).getD e.active))) := by
  have tol := weathering.tolerant
  have next : e.nextGeneration = e.active.generation + 1 := tol.nextGeneration
  have generation := weathering.generation
  have lsn := weathering.lsn
  have small := weathering.small budget
  cases hs : e.stalled with
  | none =>
    obtain ⟨r, e', h', runs', fs', ran, tol', keeps, generation', lsn', settled⟩ :=
      tol.flushActive hs (by omega) small
    refine ⟨r, e', h', runs', fs', ?_, weathering.keep tol' keeps (by omega) (by omega), keeps.config,
      keeps.closed, keeps.scans, keeps.clock, ?_⟩
    · rw [Engine.flush, run_checkOpen_bind_open running]
      simpa only [EngineM.run_bind, EngineM.run_engine, hs] using ran
    · rcases settled with settled | ⟨missing, failed, parked⟩
      · exact .inl settled
      · exact .inr ⟨missing, _, failed, parked⟩
  | some s =>
    -- the slot's table is tried again first
    have parked : Tolerant { e with stalled := some ⟨s.memtable, s.failure⟩ } h runs ds fs := by
      rw [with_stalled hs]
      exact tol
    obtain ⟨r₁, e₁, h₁, runs₁, fs₁, retried, tol₁, keeps₁, active₁, wal₁, next₁, settled₁⟩ :=
      parked.retry (by rw [with_stalled hs]; exact small)
    rw [with_stalled hs] at keeps₁
    rcases settled₁ with ⟨present, rfl, free₁⟩ | ⟨missing, rfl, parked₁⟩
    · -- it is published, then the active table is frozen and flushed
      obtain ⟨r, e', h', runs', fs', ran, tol', keeps, generation', lsn', settled⟩ :=
        tol₁.flushActive free₁ (by rw [next₁]; omega) (Nat.lt_of_le_of_lt keeps₁.load small)
      rw [next₁] at generation'
      rw [wal₁] at lsn'
      refine ⟨r, e', h', runs', fs', ?_, weathering.keep tol' (keeps₁.trans keeps) (by omega) (by omega),
        keeps.config.trans keeps₁.config, keeps.closed.trans keeps₁.closed,
        keeps.scans.trans keeps₁.scans, keeps.clock.trans keeps₁.clock, ?_⟩
      · rw [Engine.flush, run_checkOpen_bind_open running]
        simpa only [EngineM.run_bind, EngineM.run_engine, hs, retried] using ran
      · rcases settled with settled | ⟨missing, -, -⟩
        · exact .inl settled
        · exact absurd present missing
    · -- it cannot be published and stays in the slot, and the flush fails with it
      refine ⟨.error (.flushFailed (.io .notFound)), e₁, h₁, runs₁, fs₁, ?_,
        weathering.keep tol₁ keeps₁ (by rw [active₁]; omega)
          (by rw [wal₁]; omega), keeps₁.config, keeps₁.closed, keeps₁.scans, keeps₁.clock,
        .inr ⟨missing, _, rfl, by rw [parked₁]; rfl⟩⟩
      rw [Engine.flush, run_checkOpen_bind_open running]
      simp only [EngineM.run_bind, EngineM.run_engine, hs, retried]

/-- Engines with the same in-memory tables, over tables that answer every key alike, answer every
key alike through all their tiers: the in-memory tables come first in both. -/
theorem tierRuns_values {e' : Engine} {runs' : List (List Entry)} (active : e'.active = e.active)
    (stalled : e'.stalled = e.stalled)
    (same : ∀ key, (firstHit runs' key).bind Entry.value = (firstHit runs key).bind Entry.value)
    (key : Bytes) :
    (firstHit (tierRuns e' runs') key).bind Entry.value =
      (firstHit (tierRuns e runs) key).bind Entry.value := by
  rw [tierRuns, tierRuns, active, stalled]
  exact @firstHit_bind_append (e.active.entries :: (e.stalled.map (·.memtable.entries)).toList) _ _
    same key

/-- New tables that answer every key as the old ones, in no more bytes, keep the engine's
answers. -/
theorem Keeps.of_tables {tables : List Held} {h' : Host} {runs' : List (List Entry)}
    (scans : h'.scans = h.scans) (clock : h'.clock = h.clock)
    (answers : ∀ key, (firstHit runs' key).bind Entry.value = (firstHit runs key).bind Entry.value)
    (bytes : (runs'.map fun r => (dataOf r).length).sum ≤ (runs.map fun r => (dataOf r).length).sum) :
    Keeps e h runs { e with tables } h' runs' := by
  refine ⟨rfl, rfl, by rw [scans], clock, tierRuns_values rfl rfl answers, ?_⟩
  simp only [tierLoad, tierRuns, List.map_cons, List.map_append, List.sum_cons, List.sum_append]
  omega

/-- A compaction of an open weathering engine keeps the map it stands for, within the bounds of
one more operation. It succeeds when the table directory is there; when it fails, it changes
nothing. -/
theorem Weathering.compact (weathering : Weathering e h runs ds fs m n) (running : e.closed = false)
    (budget : n < 2 ^ 32) :
    ∃ r e' h' runs' fs', Engine.compact.run.run (e, h) = (r, (e', h')) ∧
      Weathering e' h' runs' ds fs' m (n + 1) ∧ e'.config = e.config ∧ e'.closed = e.closed ∧
      h'.scans.map (·.1) = h.scans.map (·.1) ∧ h'.clock = h.clock ∧
      (tableDir ∈ ds → r = .ok ()) ∧ (∀ err, r = .error err → e' = e ∧ h' = h) := by
  have tol := weathering.tolerant
  have generation := weathering.generation
  have lsn := weathering.lsn
  have stays : Weathering e h runs ds fs m (n + 1) := weathering.mono (Nat.le_succ n)
  by_cases present : tableDir ∈ ds
  · have small : (runs.map fun r => (dataOf r).length).sum < 2 ^ 64 := by
      have tiers := weathering.small budget
      simp only [tierLoad, tierRuns, List.map_cons, List.map_append, List.sum_cons, List.sum_append]
        at tiers
      omega
    obtain ⟨tables, h', runs', fs', ran, tol', scans', clock', answers, bytes⟩ :=
      tol.compactTables present small
    have keeps : Keeps e h runs { e with tables } h' runs' := Keeps.of_tables scans' clock' answers bytes
    refine ⟨.ok (), { e with tables }, h', runs', fs', ?_,
      weathering.keep tol' keeps (show e.active.generation ≤ 2 * n + 3 by omega)
        (show e.wal.nextLsn ≤ n + 2 by omega),
      rfl, rfl, keeps.scans, clock', fun _ => rfl, fun _ failed => by cases failed⟩
    rw [Engine.compact, run_checkOpen_bind_open running]
    exact ran
  · -- with the table directory missing, only an engine with nothing to compact succeeds
    have ran : Engine.compact.run.run (e, h) = (compactTables.run.run (e, h)) := by
      rw [Engine.compact, run_checkOpen_bind_open running]
    cases due : compacted e.tables
    · refine ⟨.error (.io .notFound), e, h, runs, fs, ?_, stays, rfl, rfl, rfl, rfl,
        fun present' => absurd present' present, fun _ _ => ⟨rfl, rfl⟩⟩
      rw [ran, tol.compactTables_of_missing present due]
    · refine ⟨.ok (), e, h, runs, fs, ?_, stays, rfl, rfl, rfl, rfl, fun _ => rfl,
        fun _ failed => by cases failed⟩
      rw [ran, compactTables_of_compacted due]

/-- A tolerant engine closed is still tolerant. -/
theorem Tolerant.close (tol : Tolerant e h runs ds fs) : Tolerant { e with closed := true } h runs ds fs :=
  { tol with }

/-- Closing an open weathering engine flushes it, then marks it closed and syncs its log; the
engine keeps standing for the map, within the bounds of one more operation. When the flush fails
the close fails with it and leaves the engine open; it fails only with the table directory
missing. -/
theorem Weathering.close (weathering : Weathering e h runs ds fs m n) (running : e.closed = false)
    (budget : n < 2 ^ 32) :
    ∃ r e' h' runs' fs', Engine.close.run.run (e, h) = (r, (e', h')) ∧
      Weathering e' h' runs' ds fs' m (n + 1) ∧ e'.config = e.config ∧
      h'.scans.map (·.1) = h.scans.map (·.1) ∧ h'.clock = h.clock ∧
      ((r = .ok () ∧ e'.closed = true) ∨ (tableDir ∉ ds ∧ ∃ err, r = .error err ∧ e'.closed = false)) := by
  obtain ⟨r, e₁, h₁, runs₁, fs₁, flushed, weathering₁, config₁, closed₁, scans₁, clock₁, settled⟩ :=
    weathering.flush running budget
  rcases settled with ⟨rfl, -, -⟩ | ⟨missing, err, rfl, -⟩
  · -- the flush succeeded: the engine is marked closed and its log synced
    refine ⟨.ok (), _, _, runs₁, fs₁, ?_, { weathering₁ with tolerant := weathering₁.tolerant.close.sync },
      config₁, scans₁, clock₁, .inl ⟨rfl, rfl⟩⟩
    rw [Engine.close, run_checkOpen_bind_open running]
    simp only [EngineM.run_bind, flushed, EngineM.run_modifyEngine, EngineM.run_engine,
      EngineM.run_volume, EngineM.run_setVolume]
  · -- the flush failed, and the close with it
    refine ⟨.error err, e₁, h₁, runs₁, fs₁, ?_, weathering₁, config₁, scans₁, clock₁,
      .inr ⟨missing, err, rfl, closed₁.trans running⟩⟩
    rw [Engine.close, run_checkOpen_bind_open running]
    simp only [EngineM.run_bind, flushed]

end Engine

end LsmStore
