import LsmStore.Proofs.Engine.Flush

/-!
# Operations on an engine

Between operations an engine serves a map of keys to values: it is sound, and the newest tier
holding a key decides the key's value in the map. Each operation of an open engine keeps that,
as long as the generation counter, the log's sequence numbers and the bytes held stay far from
the 64-bit limits, which they do when each operation may add at most one generation, one record
and `2 ^ 32` bytes, and there have been fewer than `2 ^ 32` operations. A write that fits the log
is accepted and changes the map at its key; a write that does not fit is refused and changes
nothing; a flush, a compaction and a close change no value. A closed engine refuses every
operation and stays as it is.

## Main definitions

* `Engine.Serving` — an engine between operations that stands for a map

## Main results

* `Engine.Serving.upsert` — an accepted write updates the map at its key
* `Engine.upsert_too_large` — a write whose record does not fit the log is refused
* `Engine.Serving.flush`, `Engine.Serving.compact`, `Engine.Serving.close` — the other operations
  keep the map
-/

namespace LsmStore

namespace Engine

open Volume Run Merge

variable {e : Engine} {h : Host} {runs : List (List Entry)} {fs : List FileLink}
  {m : Bytes → Option Bytes} {n : Nat}

/-- An engine between operations, after at most `n` of them, that stands for the map `m`. It is
sound; the newest tier holding a key decides its value in `m`; its active table has room for a
write; and its generation, the sequence numbers of its log and the bytes its tiers hold have
grown by at most one generation, one record and `2 ^ 32` bytes per operation; generations count
from 1. -/
structure Serving (e : Engine) (h : Host) (runs : List (List Entry)) (fs : List FileLink)
    (m : Bytes → Option Bytes) (n : Nat) : Prop where
  sound : Sound e h runs fs
  models : Models e runs m
  room : e.active.size < e.config.memtableSizeLimit
  generation : e.active.generation ≤ n + 1
  lsn : e.wal.nextLsn ≤ n + 1
  load : load e runs ≤ n * 2 ^ 32
  started : 0 < e.active.generation

/-- A bound on the operations so far is a bound on any more of them. -/
theorem Serving.mono (serving : Serving e h runs fs m n) {n' : Nat} (le : n ≤ n') :
    Serving e h runs fs m n' :=
  { serving with
    generation := by have := serving.generation; omega
    lsn := by have := serving.lsn; omega
    load := le_trans serving.load (Nat.mul_le_mul_right _ le) }

/-! ## Small facts -/

theorem Kept.sizeLimit_pos (kept : Kept e h runs fs) : 0 < e.config.memtableSizeLimit := by
  have valid := kept.valid
  apply Nat.pos_of_ne_zero
  intro zero
  simp [Config.validate, zero] at valid

/-- The map an engine stands for, after an entry goes into its active table. -/
theorem Models.insert (models : Models e runs m) {e' : Engine} (en : Entry)
    (entries : e'.active.entries = Memtable.insertEntry en e.active.entries) :
    Models e' runs fun k => if k = en.key then en.value else m k := by
  intro key
  have before := models key
  rw [firstHit_cons] at before
  rw [firstHit_cons, entries, Memtable.entryOf_insertEntry]
  by_cases same : en.key = key
  · simp [same]
  · simpa [same, Ne.symm same] using before

/-- An engine whose active table is empty stands for what its tables answer. -/
theorem Models.of_empty {e' : Engine} {runs' : List (List Entry)} (models : Models e runs m)
    (empty : e'.active.entries = [])
    (same : ∀ key, (firstHit runs' key).bind Entry.value =
      (firstHit (e.active.entries :: runs) key).bind Entry.value) :
    Models e' runs' m := by
  intro key
  rw [firstHit_cons, empty, entryOf_nil, Option.none_or, same key]
  exact models key

/-- Every operation that starts by checking that the engine is open refuses a closed engine and
changes nothing. -/
theorem run_checkOpen_bind_closed {α : Type} (closed : e.closed = true) (f : Unit → EngineM α) :
    (checkOpen >>= f).run.run (e, h) = (.error .closed, (e, h)) := by
  rw [EngineM.run_bind, run_checkOpen, if_pos closed]

theorem run_checkOpen_bind_open {α : Type} (running : e.closed = false) (f : Unit → EngineM α) :
    (checkOpen >>= f).run.run (e, h) = (f ()).run.run (e, h) := by
  rw [EngineM.run_bind, run_checkOpen, running]
  rfl

/-! ## Writing -/

/-- Appending the record of an entry to the log of a kept engine, and putting the entry into
its active table, keeps the engine kept. -/
theorem Kept.append (kept : Kept e h runs fs) (en : Entry) (fits : 8 + en.encodedLen < 2 ^ 32)
    (lsns : e.wal.nextLsn + 1 < 2 ^ 64) :
    ∃ a' v', e.wal.append h.volume en h.clock = .ok (e.wal.nextLsn, a', v') ∧
      a'.nextLsn = e.wal.nextLsn + 1 ∧
      Kept { e with wal := a', active := (e.active.put en).2 } { h with volume := v' } runs fs := by
  obtain ⟨rs, writes, entries⟩ := kept.log
  have next := writes.nextLsn
  obtain ⟨a', v', appended, writes', moved⟩ :=
    writes.append en kept.clock (by omega) (by rw [Wal.Record.length_payload]; exact fits)
  rw [← next] at appended
  obtain ⟨path, policy⟩ := Wal.Appender.path_policy_append appended
  refine ⟨a', v', appended, by rw [writes'.nextLsn, next, List.length_append, List.length_singleton], ?_⟩
  refine { kept with
    laid := kept.laid.of_links moved.links (Nat.le_of_eq moved.nextInode.symm)
    segment := moved.inode ▸ kept.segment
    walPath := path.trans kept.walPath
    walPolicy := policy.trans kept.walPolicy
    synced := fun every =>
      Wal.Appender.buffered_append_of_everyWrite (kept.walPolicy.trans every) appended
    log := ⟨_, writes', ?_⟩
    stored := ?_ }
  · -- the new record replays onto the entries the old ones replay to
    show Memtable.insertEntry en e.active.entries = replayed (rs ++ [_])
    rw [replayed, List.foldl_append, ← replayed, ← entries]
    rfl
  · refine forall₂_imp_of_mem kept.stored fun t ht es stored =>
      stored.frame (fun role i hi => ?_) fun _ _ hf => hf
    exact moved.others i (kept.table_inode_ne_wal ht hi)

/-- A freeze whose flush succeeds is a freeze and flush that succeeds. -/
theorem run_freezeAndFlush {s s' : Engine × Host} (ran : (freeze >>= flushMemtable).run.run s = (.ok (), s')) :
    freezeAndFlush.run.run s = (.ok (), s') := by
  unfold freezeAndFlush
  rw [EngineM.run_bind] at ran ⊢
  revert ran
  rcases freeze.run.run s with ⟨_ | frozen, s₁⟩
  · intro ran
    cases ran
  · intro ran
    dsimp only at ran ⊢
    rw [EngineM.run_attempt, ran]

/-- Freezing and flushing the active table of a sound engine that stands for `m`, within the
bounds of `n + 1` operations, leaves an engine serving `m` after them. -/
theorem Sound.serving_freezeFlush (sound : Sound e h runs fs) (models : Models e runs m)
    (generation : e.active.generation ≤ n + 1) (loaded : load e runs ≤ (n + 1) * 2 ^ 32)
    (small : load e runs < 2 ^ 64) (budget : n < 2 ^ 32) :
    ∃ e' h' runs' fs', (freeze >>= flushMemtable).run.run (e, h) = (.ok (), (e', h')) ∧
      Serving e' h' runs' fs' m (n + 1) ∧ e'.config = e.config ∧ e'.closed = e.closed ∧
      h'.scans.map (·.1) = h.scans.map (·.1) ∧ h'.clock = h.clock := by
  have next := sound.nextGeneration
  obtain ⟨e', h', runs', fs', ran, sound', config', closed', empty, size', gen', lsn', scans', clock',
    same, bytes'⟩ := sound.freezeFlush (by omega)
      (by simpa only [load, List.map_cons, List.sum_cons] using small)
  refine ⟨e', h', runs', fs', ran, ⟨sound', models.of_empty empty same, ?_, by omega, by omega, ?_, by omega⟩,
    config', closed', scans', clock'⟩
  · rw [size', config']
    exact sound.sizeLimit_pos
  · simp only [load, empty, Table.dataOf_nil, List.length_nil, Nat.zero_add] at loaded ⊢
    simp only [List.map_cons, List.sum_cons] at bytes'
    omega

/-- A write to an open serving engine whose record fits the log is accepted: the engine serves
the map changed at the write's key, after one more operation. When the write fills the active
table, the table is frozen and flushed, and a compaction may follow; neither changes the map. -/
theorem Serving.upsert (serving : Serving e h runs fs m n) (running : e.closed = false)
    (en : Entry) (fits : 8 + en.encodedLen < 2 ^ 32) (budget : n < 2 ^ 32) :
    ∃ e' h' runs' fs', (Engine.upsert en).run.run (e, h) = (.ok (), (e', h')) ∧
      Serving e' h' runs' fs' (fun k => if k = en.key then en.value else m k) (n + 1) ∧
      e'.config = e.config ∧ e'.closed = e.closed ∧
      h'.scans.map (·.1) = h.scans.map (·.1) ∧ h'.clock = h.clock := by
  have kept := serving.sound.toKept
  have lsnBound := serving.lsn
  have genBound := serving.generation
  have loadBound := serving.load
  obtain ⟨a', v', appended, nextLsn, kept₁⟩ := kept.append en fits (by omega)
  have notFull : e.active.isFull = false := by
    simpa [Memtable.isFull, kept.sizeLimit] using serving.room
  have ran₁ : (Engine.upsert en).run.run (e, h) =
      (if ((e.active.put en).1 && e.stalled.isNone) = true then EngineM.attempt freezeAndFlush
        else pure ()).run.run ({ e with wal := a', active := (e.active.put en).2 }, { h with volume := v' }) := by
    rw [Engine.upsert, run_checkOpen_bind_open running]
    simp only [Engine.makeRoom, EngineM.run_bind, EngineM.run_engine, notFull, Bool.false_eq_true,
      if_false, EngineM.run_pure, EngineM.run_volume, EngineM.run_host, EngineM.run_lift, appended,
      EngineM.run_setVolume, EngineM.run_modifyEngine]
  have held : ∀ q ∈ h.obsolete, q ∈ h.openings := serving.sound.held
  have models₁ : Engine.Models { e with wal := a', active := (e.active.put en).2 } runs
      fun k => if k = en.key then en.value else m k := serving.models.insert en rfl
  -- the write adds at most the bytes of its entry, fewer than `2 ^ 32`
  have loaded : Engine.load { e with wal := a', active := (e.active.put en).2 } runs < (n + 1) * 2 ^ 32 := by
    have grow : (Table.dataOf (Memtable.insertEntry en e.active.entries)).length ≤
        (Table.dataOf e.active.entries).length + en.encodedLen :=
      Memtable.length_dataOf_insertEntry_le
    simp only [Engine.load, Memtable.entries_put] at loadBound ⊢
    rw [Nat.succ_mul]
    omega
  have sizeLimit := kept.sizeLimit
  cases full : (e.active.put en).1
  · -- the active table still has room
    have room : (e.active.put en).2.size < e.config.memtableSizeLimit := by
      simpa [Memtable.put, sizeLimit] using full
    refine ⟨_, _, runs, fs, by rw [ran₁, full]; rfl,
      ⟨⟨kept₁, held⟩, models₁, room, ?_, ?_, Nat.le_of_lt loaded, serving.started⟩, rfl, rfl, rfl, rfl⟩
    · show (e.active.put en).2.generation ≤ n + 1 + 1
      rw [Memtable.generation_put]
      omega
    · show a'.nextLsn ≤ n + 1 + 1
      omega
  · -- the active table is full: it is frozen and flushed
    have pow : (n + 1) * 2 ^ 32 ≤ 2 ^ 64 := by
      have : n + 1 ≤ 2 ^ 32 := budget
      calc (n + 1) * 2 ^ 32 ≤ 2 ^ 32 * 2 ^ 32 := Nat.mul_le_mul_right _ this
        _ = 2 ^ 64 := by rw [← Nat.pow_add]
    have generation : (e.active.put en).2.generation ≤ n + 1 := by
      rw [Memtable.generation_put]
      exact genBound
    obtain ⟨e', h', runs', fs', ran, rest⟩ := Sound.serving_freezeFlush ⟨kept₁, held⟩ models₁
      generation (Nat.le_of_lt loaded) (Nat.lt_of_lt_of_le loaded pow) budget
    refine ⟨e', h', runs', fs', ?_, rest⟩
    have waiting : e.stalled.isNone = true := by rw [kept.stalled]; rfl
    rw [ran₁, full, waiting, Bool.true_and, if_pos rfl, EngineM.run_attempt, run_freezeAndFlush ran]

/-- A write whose record does not fit the 32-bit length field of the log is refused before
anything is written: the engine and its host stay as they are. -/
theorem upsert_too_large (running : e.closed = false) (notFull : e.active.isFull = false)
    (en : Entry) (large : 2 ^ 32 ≤ 8 + en.encodedLen) :
    (Engine.upsert en).run.run (e, h) =
      (.error (.wal (.payloadTooLarge (8 + en.encodedLen))), (e, h)) := by
  have refused := e.wal.append_of_too_large (v := h.volume) en h.clock
    (by rw [Wal.Record.length_payload]; exact Nat.not_lt.mpr large)
  rw [Wal.Record.length_payload] at refused
  rw [Engine.upsert, run_checkOpen_bind_open running]
  simp only [Engine.makeRoom, EngineM.run_bind, EngineM.run_engine, notFull, Bool.false_eq_true,
    if_false, EngineM.run_pure, EngineM.run_volume, EngineM.run_host, EngineM.run_lift, refused]

/-! ## Flushing, compacting and closing -/

/-- An explicit flush of an open serving engine succeeds and keeps the map: the active table, if
it holds anything, is frozen and flushed. -/
theorem Serving.flush (serving : Serving e h runs fs m n) (running : e.closed = false)
    (budget : n < 2 ^ 32) :
    ∃ e' h' runs' fs', Engine.flush.run.run (e, h) = (.ok (), (e', h')) ∧
      Serving e' h' runs' fs' m (n + 1) ∧ e'.config = e.config ∧ e'.closed = e.closed ∧
      h'.scans.map (·.1) = h.scans.map (·.1) ∧ h'.clock = h.clock := by
  have kept := serving.sound.toKept
  have ran₁ : Engine.flush.run.run (e, h) =
      (if e.active.isEmpty then pure () else freeze >>= flushMemtable).run.run (e, h) := by
    rw [Engine.flush, run_checkOpen_bind_open running]
    simp only [EngineM.run_bind, EngineM.run_engine, kept.stalled]
  cases empty : e.active.isEmpty
  · -- a nonempty active table is frozen and flushed
    have loaded : Engine.load e runs ≤ (n + 1) * 2 ^ 32 := (serving.mono (Nat.le_succ n)).load
    have small : Engine.load e runs < 2 ^ 64 := by
      have loadBound := serving.load
      omega
    obtain ⟨e', h', runs', fs', ran, rest⟩ :=
      serving.sound.serving_freezeFlush serving.models serving.generation loaded small budget
    exact ⟨e', h', runs', fs', by rw [ran₁, empty]; exact ran, rest⟩
  · exact ⟨e, h, runs, fs, by rw [ran₁, empty]; rfl, serving.mono (Nat.le_succ n), rfl, rfl, rfl, rfl⟩

/-- A compaction of an open serving engine succeeds and keeps the map. -/
theorem Serving.compact (serving : Serving e h runs fs m n) (running : e.closed = false)
    (budget : n < 2 ^ 32) :
    ∃ e' h' runs' fs', Engine.compact.run.run (e, h) = (.ok (), (e', h')) ∧
      Serving e' h' runs' fs' m (n + 1) ∧ e'.config = e.config ∧ e'.closed = e.closed ∧
      h'.scans.map (·.1) = h.scans.map (·.1) ∧ h'.clock = h.clock := by
  have later := serving.mono (Nat.le_succ n)
  have small : (runs.map fun r => (Table.dataOf r).length).sum < 2 ^ 64 := by
    have loadBound := serving.load
    simp only [Engine.load] at loadBound
    omega
  obtain ⟨tables, h', runs', fs', ran, sound', scans', clock', same, bytes'⟩ :=
    serving.sound.compactTables small
  have shrunk : Engine.load { e with tables } runs' ≤ Engine.load e runs := Nat.add_le_add_left bytes' _
  refine ⟨{ e with tables }, h', runs', fs', ?_, ⟨sound', serving.models.of_tables rfl same, serving.room,
    later.generation, later.lsn, Nat.le_trans shrunk later.load, serving.started⟩, rfl, rfl, by rw [scans'],
    clock'⟩
  rw [Engine.compact, run_checkOpen_bind_open running]
  exact ran

theorem Kept.close (kept : Kept e h runs fs) : Kept { e with closed := true } h runs fs := { kept with }

/-- Closing an open serving engine succeeds: it flushes, syncs the log and marks the engine
closed, and the closed engine still stands for the map. -/
theorem Serving.close (serving : Serving e h runs fs m n) (running : e.closed = false)
    (budget : n < 2 ^ 32) :
    ∃ e' h' runs' fs', Engine.close.run.run (e, h) = (.ok (), (e', h')) ∧
      Serving e' h' runs' fs' m (n + 1) ∧ e'.config = e.config ∧ e'.closed = true ∧
      h'.scans.map (·.1) = h.scans.map (·.1) ∧ h'.clock = h.clock := by
  obtain ⟨e₁, h₁, runs₁, fs₁, flushed, serving₁, config₁, -, scans₁, clock₁⟩ :=
    serving.flush running budget
  have synced := serving₁.sound.toKept.close.sync
  refine ⟨_, _, runs₁, fs₁, ?_, ⟨⟨synced, serving₁.sound.held⟩, serving₁.models, serving₁.room,
    serving₁.generation, serving₁.lsn, serving₁.load, serving₁.started⟩, config₁, rfl, scans₁, clock₁⟩
  rw [Engine.close, run_checkOpen_bind_open running]
  simp only [EngineM.run_bind, flushed, EngineM.run_modifyEngine, EngineM.run_engine,
    EngineM.run_volume, EngineM.run_setVolume]

end Engine

end LsmStore
