import LsmStore.Proofs.Engine.Operations

/-!
# An engine whose table directory may go away

The table directory can be taken away from under an engine, with every file in it, and made
again, empty. A flush that runs meanwhile fails and parks its frozen table in the flushing slot,
to be tried again by the next flush or by the next write that needs the room; a compaction fails
and changes nothing. The tables an engine holds are open on their inodes, so they go on
answering whether or not a directory still links their files.

`Engine.Tolerant` is the invariant such an engine keeps: `Engine.Kept`, with the flushing slot
allowed to hold a table, the table directory allowed to be missing or new, and the tables read
through their inodes alone. A kept engine is tolerant, and every step keeps an engine tolerant:
the two changes made to the data directory from outside, the writes to the log, a freeze, a
flush that fails or succeeds, and a compaction.

## Main definitions

* `Engine.Tolerant` — the invariant of an engine whose table directory may go away

## Main results

* `Engine.Kept.tolerant` — a kept engine is tolerant
* `Engine.Tolerant.readable` — a tolerant engine reads its tiers, the flushing slot among them
* `Engine.Tolerant.removeTables`, `Engine.Tolerant.restoreTables` — taking the table directory
  away and making it again
* `Engine.Tolerant.sync`, `Engine.Tolerant.append` — writes to the log
-/

namespace LsmStore

namespace Volume

variable {v : Volume} {ds : List String} {fs : List FileLink}

/-- Removing a directory at the top removes it, if the tree has it, with every file in it, and
changes no inode. -/
theorem Laid.removeTree_erase (h : v.Laid ds fs) {d : String} (hd : IsName d) :
    (v.removeTree d).Laid (ds.erase d) (fs.filter (·.dir != d)) ∧
      (v.removeTree d).inodes = v.inodes ∧ (v.removeTree d).nextInode = v.nextInode := by
  by_cases present : d ∈ ds
  · exact h.removeTree present
  -- with no such directory there is no file in it either, and nothing goes
  have outside : fs.filter (·.dir != d) = fs :=
    List.filter_eq_self.2 fun f hf => by simpa using fun same : f.dir = d => present (same ▸ h.inDir f hf)
  rw [h.removeTree_of_not_mem hd present, List.erase_of_not_mem present, outside]
  exact ⟨h, rfl, rfl⟩

end Volume

namespace Engine

open Volume Table Run Merge

/-- The state an engine keeps between operations when its table directory may be taken away
and made again, with the tables `runs` it holds, the directories `ds` at the top of its data
directory and the files `fs` in them. It is `Kept` with three things let go.

* The table directory may be missing. The log directory holds the segment of the active
  generation and, while a flush is parked, maybe that of the parked table's generation.
* The flushing slot may hold a frozen table whose flush failed. Its entries can be written as
  a table, and its generation lies above every table's and below the active one.
* The tables are open on inodes that hold `runs` whether or not a directory still links them,
  and that no file of the log directory uses. -/
structure Tolerant (e : Engine) (h : Host) (runs : List (List Entry)) (ds : List String)
    (fs : List FileLink) : Prop where
  valid : e.config.validate = .ok ()
  laid : h.volume.Laid ds fs
  segment : ⟨walDir, Wal.segmentName e.active.generation, e.wal.inode⟩ ∈ fs
  onlySegments : ∀ f ∈ fs, f.dir = walDir → f.name = Wal.segmentName e.active.generation ∨
    ∃ s ∈ e.stalled, f.name = Wal.segmentName s.memtable.generation
  walPath : e.wal.path = segmentPath e.active.generation
  walPolicy : e.wal.policy = e.config.sync
  synced : e.config.sync = .everyWrite → e.wal.buffered = []
  log : ∃ rs, Wal.Appender.Writes h.volume e.wal rs ∧ e.active.entries = replayed rs
  clock : h.clock < 2 ^ 64
  sizeLimit : e.active.sizeLimit = e.config.memtableSizeLimit
  activeSerial : e.active.serial < h.nextSerial
  parked : ∀ s ∈ e.stalled, Storable s.memtable.entries ∧
    s.memtable.generation < e.active.generation ∧
    ∀ t ∈ e.tables, t.table.id.generation < s.memtable.generation
  nextGeneration : e.nextGeneration = e.active.generation + 1
  word : e.nextGeneration < 2 ^ 64
  holds : List.Forall₂ (fun t es => Holds h.volume t.table es) e.tables runs
  inodes : ∀ t ∈ e.tables, ∀ role i, (t.table.file role).inode = some i →
    i < h.volume.nextInode ∧ ∀ f ∈ fs, f.dir = walDir → f.inode ≠ i
  older : ∀ t ∈ e.tables, t.table.id.generation < e.active.generation
  newest : (e.tables.map (·.table.id)).Pairwise TableId.Newer
  uncovered : ∀ a ∈ e.tables, ∀ b ∈ e.tables, a.table.id.covers b.table.id = false
  known : ∀ id ∈ e.tables.map (·.table.id) ++ h.obsolete.map (·.2), id.Valid
  onlyTables : ∀ f ∈ fs, f.dir = tableDir →
    ∃ id ∈ e.tables.map (·.table.id) ++ h.obsolete.map (·.2), ∃ role, f.name = id.fileName role
  covered : ∀ q ∈ h.obsolete, ∃ t ∈ e.tables, t.table.id.covers q.2 = true
  ids : (e.tables.map (·.table.id) ++ h.obsolete.map (·.2)).Nodup
  handles : (e.tables.map (·.handle) ++ h.obsolete.map (·.1)).Nodup
  handlesFresh : ∀ k ∈ e.tables.map (·.handle) ++ h.obsolete.map (·.1), k < h.nextSerial
  openings : ∀ q ∈ h.openings, (∃ t ∈ e.tables, t.handle = q.1 ∧ t.table.id = q.2) ∨ q ∈ h.obsolete

variable {e : Engine} {h : Host} {runs : List (List Entry)} {ds : List String}
  {fs : List FileLink}

/-! ## A kept engine is tolerant -/

/-- A kept engine is tolerant, with both directories there and its flushing slot free. -/
theorem Kept.tolerant (kept : Kept e h runs fs) : Tolerant e h runs [walDir, tableDir] fs where
  valid := kept.valid
  laid := kept.laid
  segment := kept.segment
  onlySegments := fun f hf dir => .inl (kept.onlySegment f hf dir)
  walPath := kept.walPath
  walPolicy := kept.walPolicy
  synced := kept.synced
  log := kept.log
  clock := kept.clock
  sizeLimit := kept.sizeLimit
  activeSerial := kept.activeSerial
  parked := fun s hs => by
    rw [kept.stalled] at hs
    cases hs
  nextGeneration := kept.nextGeneration
  word := kept.word
  holds := kept.readable.tables
  inodes := by
    intro t ht role i hi
    obtain ⟨es, -, stored⟩ := forall₂_mem_left kept.stored ht
    have linked := stored.link_of_inode hi
    -- the table's file is linked in the table directory, so no log file has its inode
    refine ⟨kept.laid.fresh _ linked, fun f hf dir same => walDir_ne_tableDir ?_⟩
    rw [← dir, kept.laid.inode_inj hf linked same]
  older := kept.older
  newest := kept.newest
  uncovered := kept.uncovered
  known := fun _ hid => kept.valid_of_mem hid
  onlyTables := kept.onlyTables
  covered := kept.covered
  ids := kept.ids
  handles := kept.handles
  handlesFresh := kept.handlesFresh
  openings := kept.openings

/-! ## Consequences of the invariant -/

theorem Tolerant.walDir_mem (tol : Tolerant e h runs ds fs) : walDir ∈ ds :=
  tol.laid.inDir _ tol.segment

theorem Tolerant.ascending (tol : Tolerant e h runs ds fs) : Ascending e.active.entries := by
  obtain ⟨rs, -, entries⟩ := tol.log
  exact entries ▸ ascending_replayed rs

/-- A tolerant engine reads its tiers, the flushing slot among them, as they hold its runs. -/
theorem Tolerant.readable (tol : Tolerant e h runs ds fs) : Readable e h.volume runs where
  active := tol.ascending
  stalled := fun s hs => (tol.parked s hs).1.sorted
  tables := tol.holds

/-- The active table of a tolerant engine, when its entries take fewer than `2 ^ 64` bytes, can
be written as a table: its entries come from records that fit the log. -/
theorem Tolerant.storable (tol : Tolerant e h runs ds fs)
    (small : (Table.dataOf e.active.entries).length < 2 ^ 64) : Storable e.active.entries := by
  obtain ⟨rs, writes, entries⟩ := tol.log
  rw [entries] at small ⊢
  exact storable_replayed writes small

/-- No inode of a table of a tolerant engine is its log's. -/
theorem Tolerant.table_inode_ne_wal (tol : Tolerant e h runs ds fs) {t : Held} (ht : t ∈ e.tables)
    {role : FileRole} {i : Nat} (hi : (t.table.file role).inode = some i) : i ≠ e.wal.inode :=
  fun same => (tol.inodes t ht role i hi).2 _ tol.segment rfl same.symm

/-- The tables of a tolerant engine hold their runs on any volume that keeps the contents of
every inode in use but the log's. -/
theorem Tolerant.holds_frame (tol : Tolerant e h runs ds fs) {w : Volume}
    (same : ∀ i < h.volume.nextInode, i ≠ e.wal.inode → w.contents i = h.volume.contents i) :
    List.Forall₂ (fun t es => Holds w t.table es) e.tables runs :=
  forall₂_imp_of_mem tol.holds fun t ht _ holds => holds.frame fun role i hi =>
    same i (tol.inodes t ht role i hi).1 (tol.table_inode_ne_wal ht hi)

/-- The inodes of a tolerant engine's tables stay apart from the log directory of a volume with
no fewer inodes whose log files were there before or are fresh. -/
theorem Tolerant.inodes_of (tol : Tolerant e h runs ds fs) {w : Volume} {fs' : List FileLink}
    (next : h.volume.nextInode ≤ w.nextInode)
    (logFiles : ∀ f ∈ fs', f.dir = walDir → f ∈ fs ∨ h.volume.nextInode ≤ f.inode) :
    ∀ t ∈ e.tables, ∀ role i, (t.table.file role).inode = some i →
      i < w.nextInode ∧ ∀ f ∈ fs', f.dir = walDir → f.inode ≠ i := by
  intro t ht role i hi
  obtain ⟨below, apart⟩ := tol.inodes t ht role i hi
  refine ⟨Nat.lt_of_lt_of_le below next, fun f hf dir same => ?_⟩
  rcases logFiles f hf dir with old | fresh
  · exact apart f old dir same
  · exact Nat.lt_irrefl _ (Nat.lt_of_lt_of_le below (same ▸ fresh))

/-- The log of a tolerant engine holds its records on any volume that keeps the contents of
its inode. -/
theorem Tolerant.log_frame (tol : Tolerant e h runs ds fs) {w : Volume}
    (same : w.contents e.wal.inode = h.volume.contents e.wal.inode) :
    ∃ rs, Wal.Appender.Writes w e.wal rs ∧ e.active.entries = replayed rs := by
  obtain ⟨rs, writes, entries⟩ := tol.log
  exact ⟨rs, writes.frame same, entries⟩

/-! ## The table directory taken away and made again -/

/-- Taking the table directory away, with every file in it, keeps a tolerant engine tolerant:
its tables stay open on their inodes. -/
theorem Tolerant.removeTables (tol : Tolerant e h runs ds fs) :
    Tolerant e { h with volume := h.volume.removeTree tableDir } runs (ds.erase tableDir)
      (fs.filter (·.dir != tableDir)) := by
  obtain ⟨laid, inodes, next⟩ := tol.laid.removeTree_erase tableDir_isName
  have same : ∀ i, (h.volume.removeTree tableDir).contents i = h.volume.contents i :=
    contents_eq_of_inodes inodes
  have kept : ∀ f ∈ fs.filter (·.dir != tableDir), f ∈ fs := fun f hf => List.mem_of_mem_filter hf
  refine { tol with
    laid := laid
    segment := List.mem_filter.2 ⟨tol.segment, by simpa using walDir_ne_tableDir⟩
    onlySegments := fun f hf => tol.onlySegments f (kept f hf)
    log := tol.log_frame (same _)
    holds := tol.holds_frame fun i _ _ => same i
    inodes := tol.inodes_of (Nat.le_of_eq next.symm) fun f hf _ => .inl (kept f hf)
    onlyTables := fun f hf dir => by simpa [dir] using (List.mem_filter.1 hf).2 }

/-- Making the table directory succeeds on the volume of a tolerant engine, whether it was
there or not, and keeps the engine tolerant with the directory there, empty if it is new. -/
theorem Tolerant.restoreTables (tol : Tolerant e h runs ds fs) :
    ∃ w ds', h.volume.createDirAll tableDir = .ok w ∧ tableDir ∈ ds' ∧
      Tolerant e { h with volume := w } runs ds' fs := by
  by_cases present : tableDir ∈ ds
  · exact ⟨h.volume, ds, tol.laid.createDirAll_of_mem present, present, tol⟩
  refine ⟨h.volume.bind tableDir .dir, tableDir :: ds,
    tol.laid.createDirAll_of_not_mem tableDir_isName present, List.mem_cons_self, ?_⟩
  -- a new directory changes no inode and links no file
  exact { tol with
    laid := tol.laid.bind_dir tableDir_isName present
    log := tol.log_frame (contents_bind _ _ _ _)
    holds := tol.holds_frame fun i _ _ => contents_bind _ _ _ i
    inodes := tol.inodes }

/-! ## Writes to the log -/

/-- Syncing the log moves its buffer into the segment and keeps a tolerant engine tolerant. -/
theorem Tolerant.sync (tol : Tolerant e h runs ds fs) :
    Tolerant { e with wal := (e.wal.sync h.volume).1 } { h with volume := (e.wal.sync h.volume).2 }
      runs ds fs := by
  obtain ⟨rs, writes, entries⟩ := tol.log
  have moved := Wal.Appender.sync_extends (v := h.volume) writes.atEnd
  exact { tol with
    laid := tol.laid.of_links moved.links (Nat.le_of_eq moved.nextInode.symm)
    segment := moved.inode ▸ tol.segment
    walPath := tol.walPath
    walPolicy := tol.walPolicy
    synced := fun _ => Wal.Appender.buffered_sync (v := h.volume)
    log := ⟨rs, (writes.sync).1, entries⟩
    holds := tol.holds_frame fun i _ other => moved.others i other
    inodes := tol.inodes_of (Nat.le_of_eq moved.nextInode.symm) fun f hf _ => .inl hf }

/-- Appending the record of an entry to the log of a tolerant engine, and putting the entry
into its active table, keeps the engine tolerant. -/
theorem Tolerant.append (tol : Tolerant e h runs ds fs) (en : Entry) (fits : 8 + en.encodedLen < 2 ^ 32)
    (lsns : e.wal.nextLsn + 1 < 2 ^ 64) :
    ∃ a' v', e.wal.append h.volume en h.clock = .ok (e.wal.nextLsn, a', v') ∧
      a'.nextLsn = e.wal.nextLsn + 1 ∧
      Tolerant { e with wal := a', active := (e.active.put en).2 } { h with volume := v' } runs ds fs := by
  obtain ⟨rs, writes, entries⟩ := tol.log
  have next := writes.nextLsn
  obtain ⟨a', v', appended, writes', moved⟩ :=
    writes.append en tol.clock (by omega) (by rw [Wal.Record.length_payload]; exact fits)
  rw [← next] at appended
  obtain ⟨path, policy⟩ := Wal.Appender.path_policy_append appended
  refine ⟨a', v', appended, by rw [writes'.nextLsn, next, List.length_append, List.length_singleton],
    { tol with
      laid := tol.laid.of_links moved.links (Nat.le_of_eq moved.nextInode.symm)
      segment := moved.inode ▸ tol.segment
      walPath := path.trans tol.walPath
      walPolicy := policy.trans tol.walPolicy
      synced := fun every =>
        Wal.Appender.buffered_append_of_everyWrite (tol.walPolicy.trans every) appended
      log := ⟨_, writes', ?_⟩
      holds := tol.holds_frame fun i _ other => moved.others i other
      inodes := tol.inodes_of (Nat.le_of_eq moved.nextInode.symm) fun f hf _ => .inl hf }⟩
  -- the new record replays onto the entries the old ones replay to
  show Memtable.insertEntry en e.active.entries = replayed (rs ++ [_])
  rw [replayed, List.foldl_append, ← replayed, ← entries]
  rfl

/-! ## Identities the engine knows -/

/-- Every identity a tolerant engine knows, of a live table or of one awaiting deletion, lies
below the active generation, and below that of a table in the flushing slot. -/
theorem Tolerant.generation_lt (tol : Tolerant e h runs ds fs) {id : TableId}
    (hid : id ∈ e.tables.map (·.table.id) ++ h.obsolete.map (·.2)) :
    id.generation < e.active.generation ∧ ∀ s ∈ e.stalled, id.generation < s.memtable.generation := by
  -- a table awaiting deletion lies within the range of the table covering it
  obtain ⟨t, ht, le⟩ : ∃ t ∈ e.tables, id.generation ≤ t.table.id.generation := by
    rcases List.mem_append.1 hid with live | old
    · obtain ⟨t, ht, rfl⟩ := List.mem_map.1 live
      exact ⟨t, ht, Nat.le_refl _⟩
    · obtain ⟨q, hq, rfl⟩ := List.mem_map.1 old
      obtain ⟨t, ht, covers⟩ := tol.covered q hq
      simp only [TableId.covers, Bool.and_eq_true, decide_eq_true_eq] at covers
      exact ⟨t, ht, covers.2⟩
  exact ⟨Nat.lt_of_le_of_lt le (tol.older t ht),
    fun s hs => Nat.lt_of_le_of_lt le ((tol.parked s hs).2.2 t ht)⟩

/-- The final and the temporary names of a valid identity a tolerant engine does not know are
free in the table directory. -/
theorem Tolerant.absent (tol : Tolerant e h runs ds fs) {id : TableId} (hv : id.Valid)
    (unknown : id ∉ e.tables.map (·.table.id) ++ h.obsolete.map (·.2)) :
    ∀ f ∈ fs, f.dir = tableDir → ∀ role,
      f.name ≠ id.fileName role ∧ f.name ≠ id.fileName role ++ ".tmp" := by
  intro f hf dir role
  obtain ⟨id', hid', role', named⟩ := tol.onlyTables f hf dir
  rw [named]
  refine ⟨fun same => unknown ?_, TableId.fileName_ne_tmp _ _ _ _⟩
  rwa [← ((TableId.fileName_inj (tol.known id' hid') hv).1 same).1]

/-! ## Freezing -/

/-- A freeze of a tolerant engine whose flushing slot is free and whose generation counter has
room for one more succeeds. The engine it leaves has a fresh, empty active table of the next
generation writing to a new, empty segment; with the frozen table put in the flushing slot, it
is tolerant again, as long as the frozen table's entries can be written as a table. -/
theorem Tolerant.freeze (tol : Tolerant e h runs ds fs) (free : e.stalled = none)
    (room : e.nextGeneration + 1 < 2 ^ 64) (storable : Storable e.active.entries)
    (failure : StoreError) :
    ∃ e₁ h₁ fs₁, Engine.freeze.run.run (e, h) = (.ok e.active, (e₁, h₁)) ∧
      Tolerant { e₁ with stalled := some ⟨e.active, failure⟩ } h₁ runs ds fs₁ ∧
      e₁.stalled = none ∧ e₁.config = e.config ∧ e₁.closed = e.closed ∧ e₁.tables = e.tables ∧
      e₁.active.entries = [] ∧ e₁.active.generation = e.nextGeneration ∧ e₁.wal.nextLsn = 1 ∧
      h₁.scans.map (·.1) = h.scans.map (·.1) ∧ h₁.clock = h.clock ∧ h₁.obsolete = h.obsolete := by
  have word := tol.word
  have next := tol.nextGeneration
  obtain ⟨rs, writes, -⟩ := tol.log
  have moved := Wal.Appender.sync_extends (v := h.volume) writes.atEnd
  have laid₀ : (e.wal.sync h.volume).2.Laid ds fs :=
    tol.laid.of_links moved.links (Nat.le_of_eq moved.nextInode.symm)
  -- the segment of the next generation is not there yet
  have absent : ∀ f ∈ fs, f.key ≠ (walDir, Wal.segmentName e.nextGeneration) := by
    intro f hf same
    simp only [FileLink.key, Prod.mk.injEq] at same
    have named := tol.onlySegments f hf same.1
    rw [free] at named
    simp only [Option.mem_def, reduceCtorEq, false_and, exists_false, or_false] at named
    rw [same.2, Wal.segmentName_inj word (by omega)] at named
    omega
  have opened : Wal.Appender.open (e.wal.sync h.volume).2 (segmentPath e.nextGeneration) e.config.sync =
      .ok ({ path := segmentPath e.nextGeneration, inode := (e.wal.sync h.volume).2.nextInode,
             position := 0, nextLsn := 1, policy := e.config.sync },
           (e.wal.sync h.volume).2.create (segmentPath e.nextGeneration) []) :=
    Wal.Appender.open_absent laid₀ tol.walDir_mem (Wal.segmentName_isName word) absent _
  have closed : (e.wal.sync h.volume).1.close
      ((e.wal.sync h.volume).2.create (segmentPath e.nextGeneration) []) =
      (e.wal.sync h.volume).2.create (segmentPath e.nextGeneration) [] :=
    Wal.Appender.close_of_buffered_nil _ rfl
  have laid₁ := laid₀.create tol.walDir_mem (Wal.segmentName_isName word) absent []
  have fresh : (e.wal.sync h.volume).2.nextInode = h.volume.nextInode := moved.nextInode
  -- only the log's inode and the new one change
  have same : ∀ i < h.volume.nextInode, i ≠ e.wal.inode →
      ((e.wal.sync h.volume).2.create (segmentPath e.nextGeneration) []).contents i =
        h.volume.contents i := by
    intro i below other
    rw [contents_create, if_neg (by omega), moved.others i other]
  refine ⟨{ e with
      wal := { path := segmentPath e.nextGeneration, inode := (e.wal.sync h.volume).2.nextInode,
               position := 0, nextLsn := 1, policy := e.config.sync }
      nextGeneration := generationAfter e.nextGeneration
      active := { generation := e.nextGeneration, sizeLimit := e.config.memtableSizeLimit,
                  serial := h.nextSerial } },
    ({ h with volume := (e.wal.sync h.volume).2.create (segmentPath e.nextGeneration) [],
               nextSerial := h.nextSerial + 1 } : Host).detach e.active,
    ⟨walDir, Wal.segmentName e.nextGeneration, (e.wal.sync h.volume).2.nextInode⟩ :: fs,
    by simp only [Engine.freeze, EngineM.run_bind, EngineM.run_engine, EngineM.run_volume,
      EngineM.run_setVolume, EngineM.run_modifyEngine, EngineM.run_lift, opened, closed,
      EngineM.run_fresh, EngineM.run_modifyHost, EngineM.run_pure],
    ?_, free, rfl, rfl, rfl, rfl, rfl, rfl, Host.scans_detach _ _, rfl, rfl⟩
  exact {
    valid := tol.valid
    laid := laid₁
    segment := List.mem_cons_self
    onlySegments := by
      intro f hf dir
      rcases List.mem_cons.1 hf with rfl | hf
      · exact .inl rfl
      -- the old segment is the frozen table's
      have named := tol.onlySegments f hf dir
      rw [free] at named
      simp only [Option.mem_def, reduceCtorEq, false_and, exists_false, or_false] at named
      exact .inr ⟨_, rfl, named⟩
    walPath := rfl
    walPolicy := rfl
    synced := fun _ => rfl
    log := ⟨[], Wal.Appender.writes_empty _ _ _ (by simp), rfl⟩
    clock := tol.clock
    sizeLimit := rfl
    activeSerial := Nat.lt_succ_self _
    parked := by
      rintro s hs
      cases hs
      exact ⟨storable, by show e.active.generation < e.nextGeneration; omega, tol.older⟩
    nextGeneration := by
      show generationAfter e.nextGeneration = e.nextGeneration + 1
      exact Nat.mod_eq_of_lt room
    word := Nat.mod_lt _ (Nat.two_pow_pos 64)
    holds := tol.holds_frame same
    inodes := tol.inodes_of (by simp [fresh]) fun f hf _ => by
      rcases List.mem_cons.1 hf with rfl | hf
      · exact .inr (Nat.le_of_eq fresh.symm)
      · exact .inl hf
    older := fun t ht => Nat.lt_trans (tol.older t ht) (by show e.active.generation < e.nextGeneration; omega)
    newest := tol.newest
    uncovered := tol.uncovered
    known := tol.known
    onlyTables := fun f hf dir => by
      rcases List.mem_cons.1 hf with rfl | hf
      · exact absurd dir walDir_ne_tableDir
      · exact tol.onlyTables f hf dir
    covered := tol.covered
    ids := tol.ids
    handles := tol.handles
    handlesFresh := fun k hk => Nat.lt_succ_of_lt (tol.handlesFresh k hk)
    openings := fun q hq => tol.openings q (by rw [Host.openings_detach] at hq; exact hq) }

/-! ## A flush that fails -/

/-- The failure a parked table records plays no part in the invariant. -/
theorem Tolerant.refail {m : Memtable} {x : StoreError} (tol : Tolerant { e with stalled := some ⟨m, x⟩ } h runs ds fs)
    (y : StoreError) : Tolerant { e with stalled := some ⟨m, y⟩ } h runs ds fs :=
  { tol with
    onlySegments := by
      intro f hf dir
      rcases tol.onlySegments f hf dir with active | ⟨_, hs, named⟩
      · exact .inl active
      · cases hs
        exact .inr ⟨_, rfl, named⟩
    parked := fun s hs => by
      cases hs
      exact tol.parked ⟨m, x⟩ rfl }

/-- A flush of a frozen table on a tolerant engine, with that table in the flushing slot, fails
on a missing table directory. It changes nothing but the failure the slot records. -/
theorem Tolerant.flushMemtable_of_missing {m : Memtable} {x : StoreError}
    (tol : Tolerant { e with stalled := some ⟨m, x⟩ } h runs ds fs) (missing : tableDir ∉ ds) :
    (flushMemtable m).run.run (e, h) =
      (.error (.flushFailed (.io .notFound)), ({ e with stalled := some ⟨m, .io .notFound⟩ }, h)) := by
  have below : m.generation < e.active.generation := (tol.parked ⟨m, x⟩ rfl).2.1
  have word : e.nextGeneration < 2 ^ 64 := tol.word
  have next : e.nextGeneration = e.active.generation + 1 := tol.nextGeneration
  have valid : (TableId.flushed m.generation).Valid := ⟨by show m.generation < 2 ^ 64; omega, Nat.le_refl _⟩
  simp only [flushMemtable, EngineM.run_bind, EngineM.run_engine, EngineM.run_volume,
    Table.write_of_missing id tol.laid tableDir_isName missing valid, EngineM.run_setVolume,
    EngineM.run_modifyEngine, EngineM.run_throw]
  rfl

/-! ## A flush that succeeds -/

/-- A table written to the fresh inodes `k` and `k + 1` has its two files there. -/
theorem inode_eq_of_written {t : Table} {k i : Nat} (dataInode : t.data.inode = some k)
    (indexInode : t.index.inode = some (k + 1)) {role : FileRole} (hi : (t.file role).inode = some i) :
    i = k ∨ i = k + 1 := by
  cases role
  · exact .inl (Option.some.inj (hi.symm.trans dataInode))
  · exact .inr (Option.some.inj (hi.symm.trans indexInode))

/-- A flush of a frozen table on a tolerant engine, with that table in the flushing slot and the
table directory there, publishes the table first among the tables, as a fresh opening of its
two new files, and deletes the log segments up to its generation: the segment of the parked
table, if it is there, and no other. The flushing slot is then free, the engine tolerant, and
what is left is the compaction the flush starts when one is due. -/
theorem Tolerant.publish {m : Memtable} {x : StoreError}
    (tol : Tolerant { e with stalled := some ⟨m, x⟩ } h runs ds fs) (present : tableDir ∈ ds) :
    ∃ t h₁ fs₁, (flushMemtable m).run.run (e, h) =
        (if wantsCompaction { e with stalled := none, tables := ⟨h.nextSerial, t⟩ :: e.tables }
          then EngineM.attempt compactTables else pure ()).run.run
          ({ e with stalled := none, tables := ⟨h.nextSerial, t⟩ :: e.tables }, h₁) ∧
      Tolerant { e with stalled := none, tables := ⟨h.nextSerial, t⟩ :: e.tables } h₁
        (m.entries :: runs) ds fs₁ ∧
      h₁.scans = h.scans ∧ h₁.clock = h.clock := by
  have parked : Storable m.entries ∧ m.generation < e.active.generation ∧
      ∀ t ∈ e.tables, t.table.id.generation < m.generation := tol.parked ⟨m, x⟩ rfl
  have word : e.nextGeneration < 2 ^ 64 := tol.word
  have next : e.nextGeneration = e.active.generation + 1 := tol.nextGeneration
  have valid : (TableId.flushed m.generation).Valid :=
    ⟨by show m.generation < 2 ^ 64; omega, Nat.le_refl _⟩
  have unknown : TableId.flushed m.generation ∉ e.tables.map (·.table.id) ++ h.obsolete.map (·.2) :=
    fun known => Nat.lt_irrefl _ ((tol.generation_lt known).2 ⟨m, x⟩ rfl)
  obtain ⟨t, w, written, ident, holds, dataInode, indexInode, laid₂, next₂, same₂⟩ :=
    Table.write_laid id tol.laid present valid (tol.absent valid unknown) parked.1 e.config.readBackend
  -- the log directory holds the segments of the active generation and of the parked table's
  have onlySegments : ∀ f ∈ (⟨tableDir, (TableId.flushed m.generation).fileName .data, h.volume.nextInode⟩ ::
      ⟨tableDir, (TableId.flushed m.generation).fileName .index, h.volume.nextInode + 1⟩ :: fs :
        List FileLink), f.dir = walDir → ∃ g < 2 ^ 64, f.name = Wal.segmentName g := by
    intro f hf dir
    rcases tol.onlySegments f (mem_of_walDir_mem_tables hf dir) dir with named | ⟨s, hs, named⟩
    · exact ⟨_, by show e.active.generation < 2 ^ 64; omega, named⟩
    · cases hs
      exact ⟨_, by show m.generation < 2 ^ 64; omega, named⟩
  obtain ⟨w', checkpointed, laid₃, inodes₃, next₃⟩ :=
    Wal.checkpoint_laid laid₂ tol.walDir_mem onlySegments m.generation
  have same₃ : ∀ i, w'.contents i = w.contents i := Table.contents_eq_of_inodes inodes₃
  have activeWord : e.active.generation < 2 ^ 64 := by omega
  -- a file of the log directory left by the checkpoint was there before, of the active generation
  have logFile : ∀ f ∈ (⟨tableDir, (TableId.flushed m.generation).fileName .data, h.volume.nextInode⟩ ::
      ⟨tableDir, (TableId.flushed m.generation).fileName .index, h.volume.nextInode + 1⟩ :: fs :
        List FileLink).filter (fun f => !(f.dir == walDir && (Wal.parseSegmentName? f.name).any (· ≤ m.generation))),
      f.dir = walDir → f ∈ fs ∧ f.name = Wal.segmentName e.active.generation := by
    intro f hf dir
    obtain ⟨hf, keep⟩ := List.mem_filter.1 hf
    have old := mem_of_walDir_mem_tables hf dir
    refine ⟨old, ?_⟩
    rcases tol.onlySegments f old dir with named | ⟨s, hs, named⟩
    · exact named
    · -- the parked table's segment is the one the checkpoint deletes
      cases hs
      have parkedWord : m.generation < 2 ^ 64 := by omega
      simp [dir, named, Wal.parseSegmentName?_segmentName parkedWord] at keep
  have fresh : ∀ k ∈ e.tables.map (·.handle) ++ h.obsolete.map (·.1), k < h.nextSerial := tol.handlesFresh
  have front := front_flushed (Nat.le_refl [(⟨h.nextSerial, t⟩ : Held)].length)
    (fun u hu => (List.mem_singleton.1 hu) ▸ ident) parked.2.2 tol.newest tol.uncovered
  refine ⟨t, { h with volume := w', nextSerial := h.nextSerial + 1 },
    (⟨tableDir, (TableId.flushed m.generation).fileName .data, h.volume.nextInode⟩ ::
      ⟨tableDir, (TableId.flushed m.generation).fileName .index, h.volume.nextInode + 1⟩ :: fs :
        List FileLink).filter fun f => !(f.dir == walDir && (Wal.parseSegmentName? f.name).any (· ≤ m.generation)),
    ?_, ?_, rfl, rfl⟩
  · simp only [flushMemtable, EngineM.run_bind, EngineM.run_engine, EngineM.run_volume, written,
      EngineM.run_setVolume, EngineM.run_fresh, EngineM.run_modifyEngine, EngineM.run_attempt,
      EngineM.run_onVolume, checkpointed]
    -- the parked table is newer than every table, so it is published first
    rw [sortTables_append_of_older tol.newest fun u hu => by rw [ident]; exact parked.2.2 u hu]
  exact {
    valid := tol.valid
    laid := laid₃
    segment := by
      refine List.mem_filter.2 ⟨List.mem_cons_of_mem _ (List.mem_cons_of_mem _ tol.segment), ?_⟩
      simp [Wal.parseSegmentName?_segmentName activeWord]
      omega
    onlySegments := fun f hf dir => .inl (logFile f hf dir).2
    walPath := tol.walPath
    walPolicy := tol.walPolicy
    synced := tol.synced
    log := tol.log_frame (by rw [same₃, same₂ _ (tol.laid.fresh _ tol.segment)])
    clock := tol.clock
    sizeLimit := tol.sizeLimit
    activeSerial := Nat.lt_succ_of_lt tol.activeSerial
    parked := fun s hs => by cases hs
    nextGeneration := tol.nextGeneration
    word := tol.word
    holds := .cons (holds.frame fun _ i _ => same₃ i)
      (tol.holds_frame fun i below _ => by rw [same₃, same₂ i below])
    inodes := by
      intro u hu role i hi
      rcases List.mem_cons.1 hu with rfl | hu
      · -- the new table's files are the two fresh inodes, which no older file of the log has
        have fresh := inode_eq_of_written dataInode indexInode hi
        refine ⟨by rw [next₃, next₂]; omega, fun f hf dir same => ?_⟩
        have below := tol.laid.fresh f (logFile f hf dir).1
        omega
      · exact tol.inodes_of (by rw [next₃, next₂]; omega) (fun f hf dir => .inl (logFile f hf dir).1)
          u hu role i hi
    older := by
      intro u hu
      rcases List.mem_cons.1 hu with rfl | hu
      · show t.id.generation < e.active.generation
        rw [ident]
        exact parked.2.1
      · exact tol.older u hu
    newest := front.1
    uncovered := front.2
    known := by
      intro id hid
      rw [List.map_cons, List.cons_append, List.mem_cons] at hid
      rcases hid with rfl | hid
      · exact ident ▸ valid
      · exact tol.known id hid
    onlyTables := by
      intro f hf dir
      obtain ⟨hf, -⟩ := List.mem_filter.1 hf
      rcases List.mem_cons.1 hf with rfl | hf
      · exact ⟨t.id, by simp, .data, by rw [ident]⟩
      rcases List.mem_cons.1 hf with rfl | hf
      · exact ⟨t.id, by simp, .index, by rw [ident]⟩
      obtain ⟨id, known, role, named⟩ := tol.onlyTables f hf dir
      refine ⟨id, ?_, role, named⟩
      rw [List.map_cons, List.cons_append]
      exact List.mem_cons_of_mem _ known
    covered := by
      intro q hq
      obtain ⟨u, hu, covers⟩ := tol.covered q hq
      exact ⟨u, List.mem_cons_of_mem _ hu, covers⟩
    ids := by
      rw [List.map_cons, List.cons_append, List.nodup_cons]
      exact ⟨ident ▸ unknown, tol.ids⟩
    handles := by
      rw [List.map_cons, List.cons_append, List.nodup_cons]
      exact ⟨fun known => Nat.lt_irrefl _ (fresh _ known), tol.handles⟩
    handlesFresh := by
      intro k hk
      rw [List.map_cons, List.cons_append, List.mem_cons] at hk
      rcases hk with rfl | hk
      · exact Nat.lt_succ_self _
      · exact Nat.lt_succ_of_lt (fresh k hk)
    openings := by
      intro q hq
      rcases tol.openings q hq with ⟨u, hu, handle, ident'⟩ | other
      · exact .inl ⟨u, List.mem_cons_of_mem _ hu, handle, ident'⟩
      · exact .inr other }

/-! ## Compacting -/

/-- The runs a tolerant engine's tables hold are ascending. -/
theorem Tolerant.sorted (tol : Tolerant e h runs ds fs) : ∀ r ∈ runs, Ascending r := fun r hr => by
  obtain ⟨_, -, holds⟩ := forall₂_mem_right tol.holds hr
  exact holds.storable.sorted

/-- The identity a compaction gives the merge of a tolerant engine's tables, when they are not
already compact, is neither a table's nor that of a table awaiting deletion. -/
theorem Tolerant.compactedId_unknown (tol : Tolerant e h runs ds fs) (due : compacted e.tables = false) :
    compactedId e.tables ∉ e.tables.map (·.table.id) ++ h.obsolete.map (·.2) := by
  have notLive := compactedId_not_mem tol.newest tol.uncovered due
  intro known
  rcases List.mem_append.1 known with live | old
  · exact notLive live
  · -- a table awaiting deletion is covered by a table the merge covers in turn
    obtain ⟨q, hq, same⟩ := List.mem_map.1 old
    obtain ⟨t, ht, covers⟩ := tol.covered q hq
    have ne : compactedId e.tables ≠ t.table.id := fun eq => notLive (eq ▸ List.mem_map_of_mem ht)
    rw [same, TableId.covers_asymm (compactedId_covers ht ne)] at covers
    cases covers

/-- The merge of a tolerant engine's tables, when they are not already compact, has a valid
identity. -/
theorem Tolerant.compactedId_valid (tol : Tolerant e h runs ds fs) (due : compacted e.tables = false) :
    (compactedId e.tables).Valid :=
  Engine.compactedId_valid (ne_nil_of_compacted_eq_false due) fun _ ht =>
    tol.known _ (List.mem_append_left _ (List.mem_map_of_mem ht))

/-- The state a compaction of a tolerant engine leaves before its release: the merge, opened as
a fresh handle on its two new files, is the only table, and the tables it replaces await
deletion. -/
theorem Tolerant.merged {w : Volume} {out : Table} (tol : Tolerant e h runs ds fs)
    (due : compacted e.tables = false) (ident : out.id = compactedId e.tables)
    (holds : Table.Holds w out (live (Run.newest runs)))
    (dataInode : out.data.inode = some h.volume.nextInode)
    (indexInode : out.index.inode = some (h.volume.nextInode + 1))
    (laid : w.Laid ds (⟨tableDir, out.id.fileName .data, h.volume.nextInode⟩ ::
      ⟨tableDir, out.id.fileName .index, h.volume.nextInode + 1⟩ :: fs))
    (next : w.nextInode = h.volume.nextInode + 2)
    (same : ∀ i < h.volume.nextInode, w.contents i = h.volume.contents i) :
    Tolerant { e with tables := [⟨h.nextSerial, out⟩] }
      { h with volume := w, nextSerial := h.nextSerial + 1,
               obsolete := h.obsolete ++ e.tables.map fun i => (i.handle, i.table.id) }
      [live (Run.newest runs)] ds
      (⟨tableDir, out.id.fileName .data, h.volume.nextInode⟩ ::
        ⟨tableDir, out.id.fileName .index, h.volume.nextInode + 1⟩ :: fs) := by
  have nonempty := ne_nil_of_compacted_eq_false due
  have unknown := tol.compactedId_unknown due
  have notLive : ∀ t ∈ e.tables, compactedId e.tables ≠ t.table.id := fun t ht eq =>
    unknown (List.mem_append_left _ (eq ▸ List.mem_map_of_mem ht))
  have sub : fs ⊆ ⟨tableDir, out.id.fileName .data, h.volume.nextInode⟩ ::
      ⟨tableDir, out.id.fileName .index, h.volume.nextInode + 1⟩ :: fs := fun f hf =>
    List.mem_cons_of_mem _ (List.mem_cons_of_mem _ hf)
  have generation : out.id.generation < e.active.generation := ident ▸ generation_compactedId_lt nonempty tol.older
  exact {
    valid := tol.valid
    laid := laid
    segment := sub tol.segment
    onlySegments := fun f hf dir => tol.onlySegments f (mem_of_walDir_mem_tables hf dir) dir
    walPath := tol.walPath
    walPolicy := tol.walPolicy
    synced := tol.synced
    log := tol.log_frame (same _ (tol.laid.fresh _ tol.segment))
    clock := tol.clock
    sizeLimit := tol.sizeLimit
    activeSerial := Nat.lt_succ_of_lt tol.activeSerial
    parked := by
      intro s hs
      obtain ⟨storable, below, older⟩ := tol.parked s hs
      refine ⟨storable, below, fun t ht => ?_⟩
      rw [List.mem_singleton.1 ht, ident]
      exact generation_compactedId_lt nonempty older
    nextGeneration := tol.nextGeneration
    word := tol.word
    holds := .cons holds .nil
    inodes := by
      intro t ht role i hi
      rw [List.mem_singleton.1 ht] at hi
      -- the merge's files are the two fresh inodes, which no file of the log has
      have fresh := inode_eq_of_written dataInode indexInode hi
      refine ⟨by show i < w.nextInode; omega, fun f hf dir same => ?_⟩
      have below := tol.laid.fresh f (mem_of_walDir_mem_tables hf dir)
      omega
    older := fun t ht => by
      rw [List.mem_singleton.1 ht]
      exact generation
    newest := List.pairwise_singleton _ _
    uncovered := by
      intro a ha b hb
      rw [List.mem_singleton.1 ha, List.mem_singleton.1 hb]
      exact TableId.covers_self _
    known := by
      intro id hid
      simp only [List.map_cons, List.map_nil, List.map_append, List.map_map, List.singleton_append,
        List.mem_cons, List.mem_append] at hid
      rcases hid with rfl | old | taken
      · exact ident ▸ tol.compactedId_valid due
      · exact tol.known _ (List.mem_append_right _ old)
      · exact tol.known _ (List.mem_append_left _ (by simpa [Function.comp_def] using taken))
    onlyTables := by
      intro f hf dir
      rcases List.mem_cons.1 hf with rfl | hf
      · exact ⟨out.id, by simp, .data, rfl⟩
      rcases List.mem_cons.1 hf with rfl | hf
      · exact ⟨out.id, by simp, .index, rfl⟩
      -- an old file belongs to a table that now awaits deletion, or awaited it already
      obtain ⟨id, known, role, named⟩ := tol.onlyTables f hf dir
      refine ⟨id, ?_, role, named⟩
      rcases List.mem_append.1 known with live | old
      · obtain ⟨t, ht, rfl⟩ := List.mem_map.1 live
        simp only [List.map_append, List.map_map, List.mem_append, List.mem_map]
        exact .inr (.inr ⟨t, ht, rfl⟩)
      · simp only [List.map_append, List.mem_append]
        exact .inr (.inl old)
    covered := by
      intro q hq
      refine ⟨⟨h.nextSerial, out⟩, List.mem_singleton_self _, ?_⟩
      show out.id.covers q.2 = true
      rw [ident]
      rcases List.mem_append.1 hq with old | taken
      · -- the merge covers the table covering `q`
        obtain ⟨t, ht, covers⟩ := tol.covered q old
        have ne : compactedId e.tables ≠ q.2 := fun eq =>
          unknown (List.mem_append_right _ (eq ▸ List.mem_map_of_mem old))
        exact TableId.covers_trans (compactedId_covers ht (notLive t ht)) covers ne
      · obtain ⟨t, ht, rfl⟩ := List.mem_map.1 taken
        exact compactedId_covers ht (notLive t ht)
    ids := by
      have listed := tol.ids
      rw [List.nodup_append_comm] at listed
      simp only [List.map_cons, List.map_nil, List.map_append, List.map_map, List.singleton_append,
        List.nodup_cons]
      refine ⟨?_, by simpa [Function.comp_def] using listed⟩
      rw [ident]
      intro known
      apply unknown
      simpa [Function.comp_def, or_comm] using known
    handles := by
      have listed := tol.handles
      rw [List.nodup_append_comm] at listed
      simp only [List.map_cons, List.map_nil, List.map_append, List.map_map, List.singleton_append,
        List.nodup_cons]
      refine ⟨fun known => ?_, by simpa [Function.comp_def] using listed⟩
      have fresh := tol.handlesFresh h.nextSerial (by simpa [Function.comp_def, or_comm] using known)
      exact Nat.lt_irrefl _ fresh
    handlesFresh := by
      intro k hk
      simp only [List.map_cons, List.map_nil, List.map_append, List.map_map, List.singleton_append,
        List.mem_cons, List.mem_append] at hk
      rcases hk with rfl | old | taken
      · exact Nat.lt_succ_self _
      · exact Nat.lt_succ_of_lt (tol.handlesFresh k (List.mem_append_right _ old))
      · exact Nat.lt_succ_of_lt (tol.handlesFresh k (List.mem_append_left _ (by simpa using taken)))
    openings := by
      intro q hq
      rcases tol.openings q hq with ⟨t, ht, handle, ident'⟩ | old
      · exact .inr (List.mem_append_right _ (List.mem_map.2 ⟨t, ht, by rw [handle, ident']⟩))
      · exact .inr (List.mem_append_left _ old) }

/-- A release on a tolerant engine whose table directory is there deletes the files of the
replaced tables no scan holds, changes no file's contents, and keeps the engine tolerant. -/
theorem Tolerant.release (tol : Tolerant e h runs ds fs) (present : tableDir ∈ ds) :
    Tolerant e h.release runs ds (fs.filter fun f => !h.released.any fun q => f.ofTable q.2) ∧
      h.release.volume.inodes = h.volume.inodes ∧ h.release.volume.nextInode = h.volume.nextInode := by
  have valid : ∀ q ∈ h.obsolete, q.2.Valid := fun q hq => tol.known _ (List.mem_append_right _ (List.mem_map_of_mem hq))
  obtain ⟨laid, inodes, next⟩ := h.release_laid tol.laid present valid
  have same : ∀ i, h.release.volume.contents i = h.volume.contents i := contents_eq_of_inodes inodes
  have kept' : h.release.obsolete ⊆ h.obsolete := by
    rw [Host.release_obsolete]
    exact fun _ hq => List.mem_of_mem_filter hq
  -- a replaced table stays exactly when a scan holds its handle
  have stays : ∀ q ∈ h.obsolete, q.1 ∈ h.openings.map (·.1) → q ∈ h.release.obsolete := by
    intro q hq held
    rw [Host.release_obsolete]
    exact List.mem_filter.2 ⟨hq, by simpa using held⟩
  have old : ∀ f ∈ fs.filter (fun f => !h.released.any fun q => f.ofTable q.2), f ∈ fs :=
    fun f hf => List.mem_of_mem_filter hf
  refine ⟨{
    valid := tol.valid
    laid := laid
    segment := List.mem_filter.2 ⟨tol.segment, by simp [FileLink.ofTable, walDir_ne_tableDir]⟩
    onlySegments := fun f hf => tol.onlySegments f (old f hf)
    walPath := tol.walPath
    walPolicy := tol.walPolicy
    synced := tol.synced
    log := tol.log_frame (same _)
    clock := tol.clock
    sizeLimit := tol.sizeLimit
    activeSerial := tol.activeSerial
    parked := tol.parked
    nextGeneration := tol.nextGeneration
    word := tol.word
    holds := tol.holds_frame fun i _ _ => same i
    inodes := tol.inodes_of (Nat.le_of_eq next.symm) fun f hf _ => .inl (old f hf)
    older := tol.older
    newest := tol.newest
    uncovered := tol.uncovered
    known := by
      intro id hid
      refine tol.known id ?_
      rcases List.mem_append.1 hid with live | gone
      · exact List.mem_append_left _ live
      · obtain ⟨q, hq, rfl⟩ := List.mem_map.1 gone
        exact List.mem_append_right _ (List.mem_map_of_mem (kept' hq))
    onlyTables := by
      intro f hf dir
      obtain ⟨hf, keep⟩ := List.mem_filter.1 hf
      obtain ⟨id, hid, role, named⟩ := tol.onlyTables f hf dir
      refine ⟨id, ?_, role, named⟩
      rcases List.mem_append.1 hid with live | gone
      · exact List.mem_append_left _ live
      · obtain ⟨q, hq, rfl⟩ := List.mem_map.1 gone
        refine List.mem_append_right _ (List.mem_map_of_mem (stays q hq ?_))
        -- a released table has no file left
        by_contra free
        have released : q ∈ h.released := List.mem_filter.2 ⟨hq, by simpa using free⟩
        have mine : f.ofTable q.2 = true := FileLink.ofTable_eq_true.2 ⟨dir, role, named⟩
        simp only [Bool.not_eq_true', List.any_eq_false] at keep
        exact absurd mine (by simpa using keep q released)
    covered := fun q hq => tol.covered q (kept' hq)
    ids := by
      rw [Host.release_obsolete]
      exact tol.ids.sublist ((List.filter_sublist.map _).append_left _)
    handles := by
      rw [Host.release_obsolete]
      exact tol.handles.sublist ((List.filter_sublist.map _).append_left _)
    handlesFresh := by
      intro k hk
      refine tol.handlesFresh k ?_
      rcases List.mem_append.1 hk with live | gone
      · exact List.mem_append_left _ live
      · obtain ⟨q, hq, rfl⟩ := List.mem_map.1 gone
        exact List.mem_append_right _ (List.mem_map_of_mem (kept' hq))
    openings := by
      intro q hq
      rcases tol.openings q hq with live | gone
      · exact .inl live
      · exact .inr (stays q gone (List.mem_map_of_mem hq)) }, inodes, next⟩

/-- With no replaced table awaiting deletion, each name the table directory of a tolerant engine
lists is that of a file of one of its tables. -/
theorem Tolerant.mem_names_tableDir (tol : Tolerant e h runs ds fs) (present : tableDir ∈ ds)
    (none : h.obsolete = []) {n : String} (hn : n ∈ h.volume.names tableDir) :
    ∃ t ∈ e.tables, ∃ role, n = t.table.id.fileName role := by
  obtain ⟨f, hf, dir, rfl⟩ := tol.laid.exists_file_of_mem_names present hn
  obtain ⟨id, hid, role, named⟩ := tol.onlyTables f hf dir
  rw [none, List.map_nil, List.append_nil] at hid
  obtain ⟨t, ht, rfl⟩ := List.mem_map.1 hid
  exact ⟨t, ht, role, named⟩

/-- A compaction of a tolerant engine whose tables are not compact yet fails on a missing table
directory and changes nothing. -/
theorem Tolerant.compactTables_of_missing (tol : Tolerant e h runs ds fs) (missing : tableDir ∉ ds)
    (due : compacted e.tables = false) :
    compactTables.run.run (e, h) = (.error (.io .notFound), (e, h)) := by
  obtain ⟨m, started, -⟩ := start_of_yields (scan_yields tol.holds) tol.sorted
  simp only [Engine.compactTables, EngineM.run_bind, EngineM.run_engine, due, Bool.false_eq_true,
    if_false, EngineM.run_volume, EngineM.run_lift, started,
    Table.write_of_missing id tol.laid tableDir_isName missing (tol.compactedId_valid due),
    EngineM.run_setVolume]
  rfl

/-- Once no scan holds a table, a release leaves in the table directory of a tolerant engine
the files of its tables alone: each name listed is that of a file of a table, and each file of a
table linked there stays. -/
theorem Tolerant.mem_names_release (tol : Tolerant e h runs ds fs) (present : tableDir ∈ ds)
    (idle : h.openings = []) :
    (∀ n ∈ h.release.volume.names tableDir, ∃ t ∈ e.tables, ∃ role, n = t.table.id.fileName role) ∧
      (∀ t ∈ e.tables, ∀ role i, ⟨tableDir, t.table.id.fileName role, i⟩ ∈ fs →
        t.table.id.fileName role ∈ h.release.volume.names tableDir) := by
  obtain ⟨released, -, -⟩ := tol.release present
  have gone : h.release.obsolete = [] := by
    rw [Host.release_obsolete, idle]
    simp
  refine ⟨fun n hn => released.mem_names_tableDir present gone hn, fun t ht role i hf => ?_⟩
  -- a table's files are no replaced table's, so the release keeps them
  refine released.laid.mem_names_of_file present (List.mem_filter.2 ⟨hf, ?_⟩) rfl
  simp only [Bool.not_eq_true', List.any_eq_false]
  intro q hq
  have valid := tol.known _ (List.mem_append_left _ (List.mem_map_of_mem ht))
  have other := tol.known _ (List.mem_append_right _ (List.mem_map_of_mem (List.mem_of_mem_filter hq)))
  have ne : t.table.id ≠ q.2 := (List.nodup_append.1 tol.ids).2.2 _ (List.mem_map_of_mem ht) _
    (List.mem_map_of_mem (List.mem_of_mem_filter hq))
  simpa using FileLink.ofTable_fileName valid other ne role i

/-- A compaction of a tolerant engine whose table directory is there and whose tables are not
compact yet and hold fewer than `2 ^ 64` bytes succeeds: one fresh table, named after the oldest
base and the newest generation of the tables and holding their newest live versions, replaces
them all, and the engine is tolerant again with its scans as they were. Once no scan holds a
table, the table directory holds the new table's two files and nothing else. -/
theorem Tolerant.compactTables_replaces (tol : Tolerant e h runs ds fs) (present : tableDir ∈ ds)
    (due : compacted e.tables = false) (small : (runs.map fun r => (dataOf r).length).sum < 2 ^ 64) :
    ∃ out h' fs', compactTables.run.run (e, h) =
        (.ok (), ({ e with tables := [⟨h.nextSerial, out⟩] }, h')) ∧
      out.id = compactedId e.tables ∧
      Tolerant { e with tables := [⟨h.nextSerial, out⟩] } h' [live (Run.newest runs)] ds fs' ∧
      h'.scans = h.scans ∧ h'.clock = h.clock ∧
      (h.openings = [] → ∀ n, n ∈ h'.volume.names tableDir ↔
        n = out.id.fileName .data ∨ n = out.id.fileName .index) := by
  obtain ⟨m, started, rep⟩ := start_of_yields (scan_yields tol.holds) tol.sorted
  have storable : Table.Storable (live (Run.newest runs)) := storable_live_newest (fun r hr => by
    obtain ⟨_, -, holds⟩ := forall₂_mem_right tol.holds hr
    exact holds.storable) small
  have valid := tol.compactedId_valid due
  have unknown := tol.compactedId_unknown due
  obtain ⟨out, w, written, ident, holds, dataInode, indexInode, laid, next, same⟩ :=
    Table.write_laid id tol.laid present valid (tol.absent valid unknown) storable e.config.readBackend
  have merged := tol.merged due ident holds dataInode indexInode (ident ▸ laid) next same
  obtain ⟨released, -, -⟩ := merged.release present
  refine ⟨out, _, _, ?_, ident, released, rfl, rfl, fun idle n => ?_⟩
  · simp only [Engine.compactTables, EngineM.run_bind, EngineM.run_engine, due, Bool.false_eq_true,
      if_false, EngineM.run_volume, EngineM.run_lift, started, rep.toList, written,
      EngineM.run_setVolume, EngineM.run_fresh, EngineM.run_modifyEngine, EngineM.run_modifyHost,
      filter_handles_eq_nil, List.nil_append]
    rw [sortTables_of_perm (List.Perm.refl _) (List.pairwise_singleton _ _)]
  -- the scans are those from before, so none holds a table
  have names := merged.mem_names_release present idle
  constructor
  · intro hn
    obtain ⟨t, ht, role, rfl⟩ := names.1 n hn
    rw [List.mem_singleton.1 ht]
    cases role
    · exact .inl rfl
    · exact .inr rfl
  · rintro (rfl | rfl)
    · exact names.2 _ (List.mem_singleton_self _) .data _ List.mem_cons_self
    · exact names.2 _ (List.mem_singleton_self _) .index _ (List.mem_cons_of_mem _ List.mem_cons_self)

/-- A compaction of a tolerant engine whose table directory is there and whose tables hold fewer
than `2 ^ 64` bytes succeeds. It changes only the tables and the host, leaves the engine
tolerant with its scans as they were, and the tables it leaves answer every key as before, in no
more bytes. -/
theorem Tolerant.compactTables (tol : Tolerant e h runs ds fs) (present : tableDir ∈ ds)
    (small : (runs.map fun r => (dataOf r).length).sum < 2 ^ 64) :
    ∃ tables h' runs' fs', compactTables.run.run (e, h) = (.ok (), ({ e with tables }, h')) ∧
      Tolerant { e with tables } h' runs' ds fs' ∧ h'.scans = h.scans ∧ h'.clock = h.clock ∧
      (∀ key, (firstHit runs' key).bind Entry.value = (firstHit runs key).bind Entry.value) ∧
      (runs'.map fun r => (dataOf r).length).sum ≤ (runs.map fun r => (dataOf r).length).sum := by
  by_cases done : compacted e.tables = true
  · exact ⟨e.tables, h, runs, fs, compactTables_of_compacted done, tol, rfl, rfl, fun _ => rfl,
      Nat.le_refl _⟩
  obtain ⟨out, h', fs', ran, -, tol', scans', clock', -⟩ :=
    tol.compactTables_replaces present (by simpa using done) small
  refine ⟨_, h', _, fs', ran, tol', scans', clock', value_firstHit_merged tol.sorted, ?_⟩
  simpa using length_dataOf_live_newest_le runs

/-- A flush compacts afterwards when enough tables have piled up; on a tolerant engine whose
table directory is there and whose tables hold fewer than `2 ^ 64` bytes, that succeeds or does
nothing. -/
theorem Tolerant.compactIfDue (tol : Tolerant e h runs ds fs) (present : tableDir ∈ ds)
    (small : (runs.map fun r => (dataOf r).length).sum < 2 ^ 64) :
    ∃ tables h' runs' fs',
      (if wantsCompaction e then EngineM.attempt Engine.compactTables else pure ()).run.run (e, h) =
        (.ok (), ({ e with tables }, h')) ∧
      Tolerant { e with tables } h' runs' ds fs' ∧ h'.scans = h.scans ∧ h'.clock = h.clock ∧
      (∀ key, (firstHit runs' key).bind Entry.value = (firstHit runs key).bind Entry.value) ∧
      (runs'.map fun r => (dataOf r).length).sum ≤ (runs.map fun r => (dataOf r).length).sum := by
  cases due : wantsCompaction e
  · exact ⟨e.tables, h, runs, fs, rfl, tol, rfl, rfl, fun _ => rfl, Nat.le_refl _⟩
  · obtain ⟨tables, h', runs', fs', ran, rest⟩ := tol.compactTables present small
    refine ⟨tables, h', runs', fs', ?_, rest⟩
    simp only [if_true, EngineM.run_attempt, ran]

/-- A flush of the table in the flushing slot of a tolerant engine, when the table directory is
there and the tiers below the active table hold fewer than `2 ^ 64` bytes, succeeds. It frees the
slot and changes only the tables and the host: the engine is tolerant again with its scans as
they were, and its tables answer every key as the slot's table over the old tables did, in no
more bytes. -/
theorem Tolerant.flushParked {m : Memtable} {x : StoreError}
    (tol : Tolerant { e with stalled := some ⟨m, x⟩ } h runs ds fs) (present : tableDir ∈ ds)
    (small : ((m.entries :: runs).map fun r => (dataOf r).length).sum < 2 ^ 64) :
    ∃ tables h' runs' fs', (flushMemtable m).run.run (e, h) =
        (.ok (), ({ e with stalled := none, tables }, h')) ∧
      Tolerant { e with stalled := none, tables } h' runs' ds fs' ∧ h'.scans = h.scans ∧
      h'.clock = h.clock ∧
      (∀ key, (firstHit runs' key).bind Entry.value =
        (firstHit (m.entries :: runs) key).bind Entry.value) ∧
      (runs'.map fun r => (dataOf r).length).sum ≤
        ((m.entries :: runs).map fun r => (dataOf r).length).sum := by
  obtain ⟨t, h₁, fs₁, ran, tol₁, scans₁, clock₁⟩ := tol.publish present
  obtain ⟨tables, h', runs', fs', compacted, tol', scans', clock', answers, bytes⟩ :=
    tol₁.compactIfDue present small
  exact ⟨tables, h', runs', fs', ran.trans compacted, tol', scans'.trans scans₁, clock'.trans clock₁,
    answers, bytes⟩

end Engine

end LsmStore
