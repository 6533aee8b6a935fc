import LsmStore.Proofs.Engine.Compaction
import LsmStore.Proofs.Engine.Read

/-!
# Freezing and flushing the active table

A freeze syncs the log of the active table, opens an empty segment for the next generation and
hands the active table over; the flush then writes it as the table of its generation, publishes
that table ahead of every other one, deletes the segment it no longer needs, and compacts when
enough tables have piled up. On a sound engine whose generation counter has room for two more
generations, this all succeeds: the engine is sound again, with an empty active table of the next
generation, and its tiers answer every key as before.

## Main results

* `Engine.Kept.sync` — syncing the log keeps an engine kept
* `Engine.Kept.published` — the state a flush leaves is kept
* `Engine.Sound.freezeFlush` — a freeze followed by its flush keeps an engine sound and its answers
-/

namespace LsmStore

namespace Engine

open Volume Run Merge

variable {e : Engine} {h : Host} {runs : List (List Entry)} {fs : List FileLink}

/-! ## Syncing the log -/

/-- The files of a kept engine's tables are not its log segment. -/
theorem Kept.table_inode_ne_wal (kept : Kept e h runs fs) {t : Held} (ht : t ∈ e.tables)
    {role : FileRole} {i : Nat} (hi : (t.table.file role).inode = some i) : i ≠ e.wal.inode := by
  obtain ⟨es, -, stored⟩ := forall₂_mem_left kept.stored ht
  intro same
  have link := kept.laid.inode_inj (stored.link_of_inode hi) kept.segment same
  exact walDir_ne_tableDir (congrArg FileLink.dir link).symm

/-- Syncing the log moves its buffer into the segment and changes nothing else. -/
theorem Kept.sync (kept : Kept e h runs fs) :
    Kept { e with wal := (e.wal.sync h.volume).1 } { h with volume := (e.wal.sync h.volume).2 } runs fs := by
  obtain ⟨rs, writes, entries⟩ := kept.log
  have moved := Wal.Appender.sync_extends (v := h.volume) writes.atEnd
  refine { kept with
    laid := kept.laid.of_links moved.links (Nat.le_of_eq moved.nextInode.symm)
    segment := moved.inode ▸ kept.segment
    walPath := kept.walPath
    walPolicy := kept.walPolicy
    synced := fun _ => Wal.Appender.buffered_sync (v := h.volume)
    log := ⟨rs, (writes.sync).1, entries⟩
    stored := ?_ }
  refine forall₂_imp_of_mem kept.stored fun t ht es stored => stored.frame (fun role i hi => ?_) fun _ _ hf => hf
  exact moved.others i (kept.table_inode_ne_wal ht hi)

/-! ## The frozen table's entries -/

/-- Every entry of a replayed table is that of one of the records replayed. -/
theorem mem_replayed {rs : List Wal.Record} {x : Entry} (hx : x ∈ replayed rs) :
    ∃ r ∈ rs, r.entry = x := by
  suffices ∀ es, x ∈ rs.foldl (fun es r => Memtable.insertEntry r.entry es) es →
      x ∈ es ∨ ∃ r ∈ rs, r.entry = x from
    (this [] hx).resolve_left List.not_mem_nil
  clear hx
  induction rs with
  | nil => exact fun _ hx => .inl hx
  | cons r rs ih =>
    intro es hx
    rcases ih _ hx with hx | ⟨r', hr', same⟩
    · rcases Memtable.mem_insertEntry hx with rfl | hx
      · exact .inr ⟨r, List.mem_cons_self, rfl⟩
      · exact .inl hx
    · exact .inr ⟨r', List.mem_cons_of_mem _ hr', same⟩

/-- The entries replayed from the records a log writes can be written as a table when they take
fewer than `2 ^ 64` bytes: every record fits the log, so every key and value fits a table. -/
theorem storable_replayed {v : Volume} {a : Wal.Appender} {rs : List Wal.Record}
    (writes : Wal.Appender.Writes v a rs) (small : (Table.dataOf (replayed rs)).length < 2 ^ 64) :
    Table.Storable (replayed rs) := by
  refine ⟨ascending_replayed rs, fun x hx => ?_, fun x hx => ?_, small⟩
  · obtain ⟨r, hr, rfl⟩ := mem_replayed hx
    exact (writes.fits r hr).key_length_lt
  · obtain ⟨r, hr, rfl⟩ := mem_replayed hx
    exact (writes.fits r hr).value_length_lt

/-- The active table of a kept engine, when its entries take fewer than `2 ^ 64` bytes, can be
written as a table: its entries come from records that fit the log. -/
theorem Kept.storable (kept : Kept e h runs fs) (small : (Table.dataOf e.active.entries).length < 2 ^ 64) :
    Table.Storable e.active.entries := by
  obtain ⟨rs, writes, entries⟩ := kept.log
  rw [entries] at small ⊢
  exact storable_replayed writes small

/-! ## Publishing the frozen table -/

/-- A flushed table covers no table. -/
theorem covers_flushed (g : Nat) (id : TableId) : (TableId.flushed g).covers id = false := rfl

/-- No table covers a table of a later generation. -/
theorem covers_eq_false_of_lt {a b : TableId} (lt : a.generation < b.generation) : a.covers b = false := by
  simp only [TableId.covers, Bool.and_eq_false_iff, decide_eq_false_iff_not, Nat.not_le]
  exact .inr lt

/-- Tables below generation `g`, newest first and none covering another, stay so with at most
one table of identity `flushed g` put in front of them. -/
theorem front_flushed {g : Nat} {front old : List Held} (single : front.length ≤ 1)
    (flushedAt : ∀ t ∈ front, t.table.id = .flushed g)
    (older : ∀ t ∈ old, t.table.id.generation < g)
    (newest : (old.map (·.table.id)).Pairwise TableId.Newer)
    (uncovered : ∀ a ∈ old, ∀ b ∈ old, a.table.id.covers b.table.id = false) :
    ((front ++ old).map (·.table.id)).Pairwise TableId.Newer ∧
      ∀ a ∈ front ++ old, ∀ b ∈ front ++ old, a.table.id.covers b.table.id = false := by
  refine ⟨?_, fun a ha b hb => ?_⟩
  · rw [List.map_append, List.pairwise_append]
    refine ⟨?_, newest, fun a ha b hb => ?_⟩
    · -- at most one table is new
      rcases front with _ | ⟨_, _ | ⟨_, _⟩⟩
      · exact List.Pairwise.nil
      · exact List.pairwise_singleton _ _
      · exact absurd single (by simp)
    · obtain ⟨t, ht, rfl⟩ := List.mem_map.1 ha
      obtain ⟨u, hu, rfl⟩ := List.mem_map.1 hb
      rw [flushedAt t ht]
      exact .inl (older u hu)
  · rcases List.mem_append.1 ha with ha | ha
    · rw [flushedAt a ha]
      exact covers_flushed _ _
    rcases List.mem_append.1 hb with hb | hb
    · exact covers_eq_false_of_lt (by rw [flushedAt b hb]; exact older a ha)
    · exact uncovered a ha b hb

/-- The generation of a table a kept engine knows, live or awaiting deletion, lies below the
active generation. -/
theorem Kept.generation_lt (kept : Kept e h runs fs) {id : TableId}
    (known : id ∈ e.tables.map (·.table.id) ++ h.obsolete.map (·.2)) :
    id.generation < e.active.generation := by
  rcases List.mem_append.1 known with live | old
  · obtain ⟨t, ht, rfl⟩ := List.mem_map.1 live
    exact kept.older t ht
  · -- a table awaiting deletion lies within the range of the table covering it
    obtain ⟨q, hq, rfl⟩ := List.mem_map.1 old
    obtain ⟨t, ht, covers⟩ := kept.covered q hq
    simp only [TableId.covers, Bool.and_eq_true, decide_eq_true_eq] at covers
    exact Nat.lt_of_le_of_lt covers.2 (kept.older t ht)

/-- The state a flush leaves. The frozen table is published first among the tables, as a fresh
opening of its two new files; the empty segment of the next generation is the only one left,
and the active table is a fresh, empty table of that generation. -/
theorem Kept.published {t : Table} {w : Volume} (kept : Kept e h runs fs)
    (room : e.nextGeneration + 1 < 2 ^ 64) (ident : t.id = .flushed e.active.generation)
    (holds : Table.Holds w t e.active.entries)
    (dataInode : t.data.inode = some (h.volume.nextInode + 1))
    (indexInode : t.index.inode = some (h.volume.nextInode + 2))
    (laid : w.Laid [walDir, tableDir]
      ((⟨tableDir, t.id.fileName .data, h.volume.nextInode + 1⟩ ::
        ⟨tableDir, t.id.fileName .index, h.volume.nextInode + 2⟩ ::
        ⟨walDir, Wal.segmentName e.nextGeneration, h.volume.nextInode⟩ :: fs).filter fun f =>
          !(f.dir == walDir && (Wal.parseSegmentName? f.name).any (· ≤ e.active.generation))))
    (empty : w.contents h.volume.nextInode = [])
    (same : ∀ i < h.volume.nextInode, w.contents i = h.volume.contents i) :
    Kept { e with
        active := { generation := e.nextGeneration, sizeLimit := e.config.memtableSizeLimit,
                    serial := h.nextSerial }
        stalled := none
        tables := ⟨h.nextSerial + 1, t⟩ :: e.tables
        wal := { path := segmentPath e.nextGeneration, inode := h.volume.nextInode, position := 0,
                 nextLsn := 1, policy := e.config.sync }
        nextGeneration := generationAfter e.nextGeneration }
      { h.detach e.active with volume := w, nextSerial := h.nextSerial + 2 }
      (e.active.entries :: runs)
      ((⟨tableDir, t.id.fileName .data, h.volume.nextInode + 1⟩ ::
        ⟨tableDir, t.id.fileName .index, h.volume.nextInode + 2⟩ ::
        ⟨walDir, Wal.segmentName e.nextGeneration, h.volume.nextInode⟩ :: fs).filter fun f =>
          !(f.dir == walDir && (Wal.parseSegmentName? f.name).any (· ≤ e.active.generation))) := by
  have next := kept.nextGeneration
  have word : e.nextGeneration < 2 ^ 64 := kept.word
  have valid : t.id.Valid := by
    rw [ident]
    exact ⟨by show e.active.generation < 2 ^ 64; omega, Nat.le_refl _⟩
  -- a file of the table directory survives the checkpoint, and so does the new segment
  have survives : ∀ f ∈ (⟨tableDir, t.id.fileName .data, h.volume.nextInode + 1⟩ ::
      ⟨tableDir, t.id.fileName .index, h.volume.nextInode + 2⟩ ::
      ⟨walDir, Wal.segmentName e.nextGeneration, h.volume.nextInode⟩ :: fs : List FileLink),
      (f.dir = tableDir ∨ f.name = Wal.segmentName e.nextGeneration) →
      f ∈ (⟨tableDir, t.id.fileName .data, h.volume.nextInode + 1⟩ ::
        ⟨tableDir, t.id.fileName .index, h.volume.nextInode + 2⟩ ::
        ⟨walDir, Wal.segmentName e.nextGeneration, h.volume.nextInode⟩ :: fs).filter fun f =>
          !(f.dir == walDir && (Wal.parseSegmentName? f.name).any (· ≤ e.active.generation)) := by
    intro f hf which
    refine List.mem_filter.2 ⟨hf, ?_⟩
    rcases which with dir | named
    · simp [dir, walDir_ne_tableDir.symm]
    · rw [named, Wal.parseSegmentName?_segmentName word]
      simp [next]
  have oldFile : ∀ f ∈ fs, f.dir = tableDir → f ∈ (⟨tableDir, t.id.fileName .data, h.volume.nextInode + 1⟩ ::
      ⟨tableDir, t.id.fileName .index, h.volume.nextInode + 2⟩ ::
      ⟨walDir, Wal.segmentName e.nextGeneration, h.volume.nextInode⟩ :: fs).filter fun f =>
        !(f.dir == walDir && (Wal.parseSegmentName? f.name).any (· ≤ e.active.generation)) :=
    fun f hf dir => survives f (List.mem_cons_of_mem _ (List.mem_cons_of_mem _ (List.mem_cons_of_mem _ hf)))
      (.inl dir)
  have unknown : t.id ∉ e.tables.map (·.table.id) ++ h.obsolete.map (·.2) := fun known => by
    have below := kept.generation_lt known
    rw [ident] at below
    exact Nat.lt_irrefl _ below
  have fresh : ∀ k ∈ e.tables.map (·.handle) ++ h.obsolete.map (·.1), k < h.nextSerial :=
    kept.handlesFresh
  -- the new table goes in front of the older ones
  have front := front_flushed (Nat.le_refl [(⟨h.nextSerial + 1, t⟩ : Held)].length)
    (fun u hu => (List.mem_singleton.1 hu) ▸ ident) kept.older kept.newest kept.uncovered
  refine ⟨kept.valid, laid, ?segment, ?onlySegment, rfl, rfl, fun _ => rfl,
    ⟨[], Wal.Appender.writes_empty _ _ _ empty, rfl⟩,
    kept.clock, rfl, by simp, rfl, by rw [next]; exact Nat.mod_eq_of_lt (by omega),
    Nat.mod_lt _ (Nat.two_pow_pos 64), ?stored, ?older, ?newest, ?uncovered, ?obsoleteFiles,
    ?onlyTables, fun q hq => (kept.covered q hq).imp fun _ ⟨hu, covers⟩ => ⟨List.mem_cons_of_mem _ hu, covers⟩,
    ?ids, ?handles, ?handlesFresh, ?openings⟩
  case segment =>
    exact survives _ (List.mem_cons_of_mem _ (List.mem_cons_of_mem _ List.mem_cons_self)) (.inr rfl)
  case onlySegment =>
    intro f hf dir
    obtain ⟨hf, keep⟩ := List.mem_filter.1 hf
    rcases List.mem_cons.1 (mem_of_walDir_mem_tables hf dir) with rfl | hf
    · rfl
    -- the old segment is the one the checkpoint deletes
    have named := kept.onlySegment f hf dir
    have active : e.active.generation < 2 ^ 64 := by omega
    simp [dir, named, Wal.parseSegmentName?_segmentName active] at keep
  case stored =>
    refine .cons ⟨holds, valid, fun role => ?_⟩ ?_
    · cases role
      · exact ⟨_, dataInode, survives _ List.mem_cons_self (.inl rfl)⟩
      · exact ⟨_, indexInode, survives _ (List.mem_cons_of_mem _ List.mem_cons_self) (.inl rfl)⟩
    · exact kept.stored_frame same oldFile
  case older =>
    intro u hu
    rcases List.mem_cons.1 hu with rfl | hu
    · show t.id.generation < e.nextGeneration
      rw [ident, next]
      exact Nat.lt_succ_self _
    · exact next ▸ Nat.lt_succ_of_lt (kept.older u hu)
  case newest => exact front.1
  case uncovered => exact front.2
  case obsoleteFiles =>
    intro q hq
    obtain ⟨hv, files⟩ := kept.obsoleteFiles q hq
    exact ⟨hv, fun role => (files role).imp fun _ hf => oldFile _ hf rfl⟩
  case onlyTables =>
    intro f hf dir
    obtain ⟨hf, -⟩ := List.mem_filter.1 hf
    rcases List.mem_cons.1 hf with rfl | hf
    · exact ⟨t.id, by simp, .data, rfl⟩
    rcases List.mem_cons.1 hf with rfl | hf
    · exact ⟨t.id, by simp, .index, rfl⟩
    rcases List.mem_cons.1 hf with rfl | hf
    · exact absurd dir walDir_ne_tableDir
    obtain ⟨id, known, role, named⟩ := kept.onlyTables f hf dir
    refine ⟨id, ?_, role, named⟩
    rw [List.map_cons, List.cons_append]
    exact List.mem_cons_of_mem _ known
  case ids =>
    rw [List.map_cons, List.cons_append, List.nodup_cons]
    exact ⟨unknown, kept.ids⟩
  case handles =>
    rw [List.map_cons, List.cons_append, List.nodup_cons]
    exact ⟨fun known => Nat.lt_irrefl _ (Nat.lt_trans (fresh _ known) (Nat.lt_succ_self _)), kept.handles⟩
  case handlesFresh =>
    intro k hk
    rw [List.map_cons, List.cons_append, List.mem_cons] at hk
    rcases hk with rfl | hk
    · exact Nat.lt_succ_self _
    · show k < h.nextSerial + 2
      exact Nat.lt_trans (fresh k hk) (by omega)
  case openings =>
    intro q hq
    have hq : q ∈ h.openings := by
      rw [← Host.openings_detach h e.active]
      exact hq
    rcases kept.openings q hq with ⟨u, hu, handle, ident'⟩ | old
    · exact .inl ⟨u, List.mem_cons_of_mem _ hu, handle, ident'⟩
    · exact .inr old

/-! ## Freezing and flushing -/

/-- A flush compacts afterwards when enough tables have piled up; on a sound engine whose tables
hold fewer than `2 ^ 64` bytes, that succeeds or does nothing. -/
theorem Sound.compactIfDue (sound : Sound e h runs fs)
    (small : (runs.map fun r => (Table.dataOf r).length).sum < 2 ^ 64) :
    ∃ tables h' runs' fs',
      (if wantsCompaction e then EngineM.attempt Engine.compactTables else pure ()).run.run (e, h) =
        (.ok (), ({ e with tables }, h')) ∧
      Sound { e with tables } h' runs' fs' ∧ h'.scans = h.scans ∧ h'.clock = h.clock ∧
      (∀ key, (firstHit runs' key).bind Entry.value = (firstHit runs key).bind Entry.value) ∧
      (runs'.map fun r => (Table.dataOf r).length).sum ≤ (runs.map fun r => (Table.dataOf r).length).sum := by
  cases due : wantsCompaction e
  · exact ⟨e.tables, h, runs, fs, rfl, sound, rfl, rfl, fun _ => rfl, Nat.le_refl _⟩
  · obtain ⟨tables, h', runs', fs', ran, rest⟩ := sound.compactTables small
    refine ⟨tables, h', runs', fs', ?_, rest⟩
    simp only [if_true, EngineM.run_attempt, ran]

/-- A freeze followed by its flush, on a sound engine whose generation counter has room for two
more generations and whose tiers hold fewer than `2 ^ 64` bytes, succeeds. The engine is sound
again, with an empty active table of the next generation, the same configuration and scans, and
tiers that answer every key as before in no more bytes. -/
theorem Sound.freezeFlush (sound : Sound e h runs fs) (room : e.nextGeneration + 1 < 2 ^ 64)
    (small : ((e.active.entries :: runs).map fun r => (Table.dataOf r).length).sum < 2 ^ 64) :
    ∃ e' h' runs' fs', (freeze >>= flushMemtable).run.run (e, h) = (.ok (), (e', h')) ∧
      Sound e' h' runs' fs' ∧ e'.config = e.config ∧ e'.closed = e.closed ∧
      e'.active.entries = [] ∧ e'.active.size = 0 ∧ e'.active.generation = e.nextGeneration ∧
      e'.wal.nextLsn = 1 ∧ h'.scans.map (·.1) = h.scans.map (·.1) ∧ h'.clock = h.clock ∧
      (∀ key, (firstHit runs' key).bind Entry.value =
        (firstHit (e.active.entries :: runs) key).bind Entry.value) ∧
      (runs'.map fun r => (Table.dataOf r).length).sum ≤
        ((e.active.entries :: runs).map fun r => (Table.dataOf r).length).sum := by
  have kept := sound.toKept
  have synced := kept.sync
  have word := kept.word
  have next := kept.nextGeneration
  -- the segment of the next generation is not there yet
  have absent : ∀ f ∈ fs, f.key ≠ (walDir, Wal.segmentName e.nextGeneration) := by
    intro f hf same
    simp only [FileLink.key, Prod.mk.injEq] at same
    have named := kept.onlySegment f hf same.1
    rw [same.2, Wal.segmentName_inj word (by omega)] at named
    omega
  have opened : Wal.Appender.open (e.wal.sync h.volume).2 (segmentPath e.nextGeneration) e.config.sync =
      .ok ({ path := segmentPath e.nextGeneration, inode := (e.wal.sync h.volume).2.nextInode,
             position := 0, nextLsn := 1, policy := e.config.sync },
           (e.wal.sync h.volume).2.create (segmentPath e.nextGeneration) []) :=
    Wal.Appender.open_absent synced.laid walDir_mem (Wal.segmentName_isName word) absent _
  have laid₁ : ((e.wal.sync h.volume).2.create (segmentPath e.nextGeneration) []).Laid [walDir, tableDir]
      (⟨walDir, Wal.segmentName e.nextGeneration, (e.wal.sync h.volume).2.nextInode⟩ :: fs) :=
    synced.laid.create walDir_mem (Wal.segmentName_isName word) absent []
  have closed : (e.wal.sync h.volume).1.close
      ((e.wal.sync h.volume).2.create (segmentPath e.nextGeneration) []) =
      (e.wal.sync h.volume).2.create (segmentPath e.nextGeneration) [] :=
    Wal.Appender.close_of_buffered_nil _ rfl
  have valid : (TableId.flushed e.active.generation).Valid := ⟨by show e.active.generation < 2 ^ 64; omega, Nat.le_refl _⟩
  have unknown : TableId.flushed e.active.generation ∉ e.tables.map (·.table.id) ++ h.obsolete.map (·.2) :=
    fun known => Nat.lt_irrefl _ (kept.generation_lt known)
  have absentTable : ∀ f ∈ (⟨walDir, Wal.segmentName e.nextGeneration, (e.wal.sync h.volume).2.nextInode⟩ :: fs
      : List FileLink), f.dir = tableDir → ∀ role,
        f.name ≠ (TableId.flushed e.active.generation).fileName role ∧
          f.name ≠ (TableId.flushed e.active.generation).fileName role ++ ".tmp" := by
    intro f hf dir role
    rcases List.mem_cons.1 hf with rfl | hf
    · exact absurd dir walDir_ne_tableDir
    · exact synced.absent valid unknown f hf dir role
  have smallActive : (Table.dataOf e.active.entries).length < 2 ^ 64 := by
    simp only [List.map_cons, List.sum_cons] at small
    omega
  obtain ⟨t, w, written, ident, holds, dataInode, indexInode, laid₂, -, same₂⟩ :=
    Table.write_laid id laid₁ tableDir_mem valid absentTable (kept.storable smallActive) e.config.readBackend
  have onlySegments : ∀ f ∈ (⟨tableDir, (TableId.flushed e.active.generation).fileName .data,
      (e.wal.sync h.volume).2.nextInode + 1⟩ ::
      ⟨tableDir, (TableId.flushed e.active.generation).fileName .index, (e.wal.sync h.volume).2.nextInode + 1 + 1⟩ ::
      ⟨walDir, Wal.segmentName e.nextGeneration, (e.wal.sync h.volume).2.nextInode⟩ :: fs : List FileLink),
      f.dir = walDir → ∃ x < 2 ^ 64, f.name = Wal.segmentName x := by
    intro f hf dir
    rcases List.mem_cons.1 (mem_of_walDir_mem_tables hf dir) with rfl | hf
    · exact ⟨_, word, rfl⟩
    · exact ⟨_, by omega, kept.onlySegment f hf dir⟩
  obtain ⟨w', checkpointed, laid₃, inodes₃, -⟩ :=
    Wal.checkpoint_laid laid₂ walDir_mem onlySegments e.active.generation
  have same₃ : ∀ i, w'.contents i = w.contents i := Table.contents_eq_of_inodes inodes₃
  have published := synced.published room ident (holds.frame fun _ i _ => same₃ i) dataInode indexInode
    (by rw [ident]; exact laid₃)
    (by rw [same₃, same₂ _ (Nat.lt_succ_self _), contents_create, if_pos rfl])
    (fun i lt => by rw [same₃, same₂ _ (Nat.lt_succ_of_lt lt), contents_create, if_neg (Nat.ne_of_lt lt)])
  have sound₂ := Sound.mk published fun q hq => by
    have held := sound.held q hq
    rw [← Host.openings_detach h e.active] at held
    exact held
  obtain ⟨tables, h₃, runs₃, fs₃, ran, sound₃, scans₃, clock₃, answers₃, bytes₃⟩ :=
    sound₂.compactIfDue small
  refine ⟨_, h₃, runs₃, fs₃, ?_, sound₃, rfl, rfl, rfl, rfl, rfl, rfl, ?_, clock₃, answers₃, bytes₃⟩
  · simp only [Engine.freeze, Engine.flushMemtable, EngineM.run_bind, EngineM.run_engine,
      EngineM.run_volume, EngineM.run_setVolume, EngineM.run_modifyEngine, EngineM.run_lift, opened,
      closed, EngineM.run_fresh, EngineM.run_modifyHost, EngineM.run_pure, written, EngineM.run_attempt,
      EngineM.run_onVolume, checkpointed, Host.volume_detach, Host.nextSerial_detach]
    -- the frozen table is newer than every table, so it is published first
    rw [sortTables_append_of_older kept.newest fun u hu => by rw [ident]; exact kept.older u hu]
    exact ran
  · rw [scans₃]
    exact Host.scans_detach _ _

end Engine

end LsmStore
