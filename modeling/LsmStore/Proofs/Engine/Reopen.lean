import LsmStore.Proofs.Engine.Operations
import LsmStore.Proofs.Engine.Release

/-!
# Letting go of an engine and opening its data directory again

An engine let go of without closing leaves its data directory behind: the log's buffer reaches
the segment of the active generation, the replaced tables no scan holds are deleted, and what is
left is the segment and the files of the live tables. Opening that directory again, with any
valid configuration, opens the tables, replays the segment into a table of its generation,
deletes it and starts the next generation in a fresh segment. The new engine is sound and its
tables answer every key as the old engine's tiers did, so it stands for the same map. Opening an
empty volume makes the two directories and starts generation 1 with no table.

## Main definitions

* `Engine.shelfOf` — the identities of an engine's tables, each with the entries it holds
* `Engine.Replayed` — what replaying the one segment of a log directory leaves

## Main results

* `Engine.Kept.drop` — letting go keeps the engine kept on what is left, with nothing to delete
* `Engine.Kept.opened` — the state an opening starts from its tables and a fresh segment
* `Engine.replayAll_segment` — replaying the one segment writes its table and deletes it
* `Engine.Kept.reopen` — opening what a kept engine left starts a sound engine that answers alike
* `Engine.Serving.reopen`, `Engine.Serving.open_empty` — the engines an opening starts serve
-/

namespace LsmStore

namespace Host

/-- With no scans open, stopping scans from reading an in-memory table live changes nothing. -/
theorem detach_of_scans_nil (h : Host) (m : Memtable) (idle : h.scans = []) : h.detach m = h := by
  cases h
  cases idle
  rfl

end Host

namespace Table

/-- Each file of a stored table holds its image of the entries. -/
theorem Stored.image_of_role {v : Volume} {fs : List Volume.FileLink} {d : String} {t : Table}
    {es : List Entry} (stored : Stored v fs d t es) (role : FileRole) :
    ∃ i, ⟨d, t.id.fileName role, i⟩ ∈ fs ∧ v.contents i = image es role := by
  obtain ⟨i, hi, hf⟩ := stored.files role
  cases role with
  | data =>
    obtain ⟨i', hi', contents⟩ := stored.holds.data
    cases hi.symm.trans hi'
    exact ⟨i, hf, contents⟩
  | index =>
    obtain ⟨i', hi', contents⟩ := stored.holds.index
    cases hi.symm.trans hi'
    exact ⟨i, hf, contents⟩

end Table

namespace Engine

open Volume Table Run

variable {e : Engine} {h : Host} {runs : List (List Entry)} {fs : List FileLink}

/-! ## Letting go -/

/-- Closing every scan keeps an engine kept. -/
theorem Kept.closeScans (kept : Kept e h runs fs) : Kept e { h with scans := [], nextScan := 0 } runs fs :=
  { kept with openings := fun q hq => by simp [Host.openings] at hq }

/-- Letting go of an engine that no scan reads pushes the log's buffer to its file and deletes
the replaced tables. -/
theorem drop_of_scans_nil (idle : h.scans = []) :
    e.drop h = { h with volume := (e.wal.sync h.volume).2 }.release := by
  rw [Engine.drop, Host.detach_of_scans_nil { h with volume := e.wal.close h.volume } e.active idle]
  rfl

/-- Letting go of a kept engine that no scan reads pushes the log's buffer to its segment and
deletes every replaced table: the engine, its buffer pushed, is kept on what is left, and no
replaced table awaits deletion. -/
theorem Kept.drop (kept : Kept e h runs fs) (idle : h.scans = []) :
    ∃ fs', Kept { e with wal := (e.wal.sync h.volume).1 } (e.drop h) runs fs' ∧
      (e.drop h).obsolete = [] := by
  obtain ⟨fs', sound, -, -⟩ := kept.sync.release
  have dropped := drop_of_scans_nil (e := e) idle
  refine ⟨fs', dropped ▸ sound.toKept, ?_⟩
  -- every replaced table left is held by a scan, and there is none
  rw [dropped, List.eq_nil_iff_forall_not_mem]
  intro q hq
  have held := sound.held q hq
  simp [Host.openings, idle] at held

/-! ## The shelf a kept engine leaves -/

/-- The identities of some tables, each with the entries of its run. -/
def shelfOf (tables : List Held) (runs : List (List Entry)) : List (TableId × List Entry) :=
  (tables.map (·.table.id)).zip runs

theorem Kept.mem_shelfOf (kept : Kept e h runs fs) {p : TableId × List Entry}
    (hp : p ∈ shelfOf e.tables runs) :
    ∃ t ∈ e.tables, p.1 = t.table.id ∧ Stored h.volume fs tableDir t.table p.2 := by
  rw [shelfOf, List.zip_map_left] at hp
  obtain ⟨⟨t, es⟩, hz, rfl⟩ := List.mem_map.1 hp
  exact ⟨t, (List.of_mem_zip hz).1, rfl, (List.forall₂_iff_zip.1 kept.stored).2 hz⟩

theorem Kept.ids_shelfOf (kept : Kept e h runs fs) :
    (shelfOf e.tables runs).map (·.1) = e.tables.map (·.table.id) :=
  List.map_fst_zip (by rw [List.length_map, kept.stored.length_eq])

theorem Kept.runs_shelfOf (kept : Kept e h runs fs) : (shelfOf e.tables runs).map (·.2) = runs :=
  List.map_snd_zip (by rw [List.length_map, kept.stored.length_eq])

/-- Anything listed with the identities of a kept engine's tables is, as they are, older than
its active table, and none of it covers another. -/
theorem Kept.older_uncovered_of_ids {α : Type} {id : α → TableId} {xs : List α}
    (kept : Kept e h runs fs) (ids : xs.map id = e.tables.map (·.table.id)) :
    (∀ x ∈ xs, (id x).generation < e.active.generation) ∧
      ∀ x ∈ xs, ∀ y ∈ xs, (id x).covers (id y) = false := by
  have old : ∀ x ∈ xs, ∃ u ∈ e.tables, u.table.id = id x := fun x hx =>
    List.mem_map.1 (ids ▸ List.mem_map_of_mem hx)
  refine ⟨fun x hx => ?_, fun x hx y hy => ?_⟩
  · obtain ⟨u, hu, same⟩ := old x hx
    rw [← same]
    exact kept.older u hu
  · obtain ⟨u, hu, same⟩ := old x hx
    obtain ⟨u', hu', same'⟩ := old y hy
    rw [← same, ← same']
    exact kept.uncovered u hu u' hu'

/-- The table directory of a kept engine with no replaced table awaiting deletion is a shelf of
its tables, each with the entries it holds. -/
theorem Kept.shelf (kept : Kept e h runs fs) (clean : h.obsolete = []) :
    Shelf h.volume fs tableDir (shelfOf e.tables runs) where
  files p hp role := by
    obtain ⟨t, -, ident, stored⟩ := kept.mem_shelfOf hp
    rw [ident]
    exact stored.image_of_role role
  only f hf dir := by
    obtain ⟨id, known, role, named⟩ := kept.onlyTables f hf dir
    rw [clean, List.map_nil, List.append_nil, ← kept.ids_shelfOf] at known
    obtain ⟨p, hp, rfl⟩ := List.mem_map.1 known
    exact ⟨p, hp, role, named⟩
  valid p hp := by
    obtain ⟨t, -, ident, stored⟩ := kept.mem_shelfOf hp
    exact ident ▸ stored.valid
  storable p hp := by
    obtain ⟨t, -, -, stored⟩ := kept.mem_shelfOf hp
    exact stored.holds.storable
  newest := by
    rw [kept.ids_shelfOf]
    exact kept.newest
  uncovered := (kept.older_uncovered_of_ids kept.ids_shelfOf).2

/-! ## Starting the new log -/

/-- Lists related member by member through the images of their members have the same images. -/
theorem map_eq_of_forall₂ {α β γ : Type} {f : α → γ} {g : β → γ} {xs : List α} {ys : List β}
    (h : List.Forall₂ (fun x y => f x = g y) xs ys) : xs.map f = ys.map g := by
  induction h with
  | nil => rfl
  | cons same _ ih => rw [List.map_cons, List.map_cons, same, ih]

/-- Identities listed strictly newest first are distinct. -/
theorem nodup_of_newer {ids : List TableId} (newest : ids.Pairwise TableId.Newer) : ids.Nodup :=
  newest.imp fun newer same => by
    subst same
    simp [TableId.Newer] at newer

/-- The engine an opening starts: its tables are open on the table directory, which holds
nothing else, listed strictly newest first, none replacing another; it writes to a fresh, empty
segment of a generation above all of them, into an empty active table of that generation. -/
theorem Kept.opened {config : Config} {h : Host} {v : Volume} {fs : List FileLink}
    {tables : List Held} {runs : List (List Entry)} {g serial next : Nat}
    (valid : config.validate = .ok ()) (laid : v.Laid [walDir, tableDir] fs)
    (noLog : ∀ f ∈ fs, f.dir = tableDir)
    (stored : List.Forall₂ (fun t es => Stored v fs tableDir t.table es) tables runs)
    (newest : (tables.map (·.table.id)).Pairwise TableId.Newer)
    (uncovered : ∀ a ∈ tables, ∀ b ∈ tables, a.table.id.covers b.table.id = false)
    (only : ∀ f ∈ fs, ∃ t ∈ tables, ∃ role, f.name = t.table.id.fileName role)
    (older : ∀ t ∈ tables, t.table.id.generation < g)
    (handles : (tables.map (·.handle)).Nodup) (below : ∀ k ∈ tables.map (·.handle), k < next)
    (serialBelow : serial < next) (word : g + 1 < 2 ^ 64)
    (idle : h.scans = []) (clean : h.obsolete = []) (clock : h.clock < 2 ^ 64) :
    Kept
      { config := config
        active := { generation := g, sizeLimit := config.memtableSizeLimit, serial := serial }
        tables := tables
        wal := { path := segmentPath g, inode := v.nextInode, position := 0, nextLsn := 1,
                 policy := config.sync }
        nextGeneration := generationAfter g }
      { h with volume := v.create (segmentPath g) [], nextSerial := next }
      runs (⟨walDir, Wal.segmentName g, v.nextInode⟩ :: fs) := by
  have absent : ∀ f ∈ fs, f.key ≠ (walDir, Wal.segmentName g) := fun f hf same => by
    simp only [FileLink.key, Prod.mk.injEq] at same
    exact walDir_ne_tableDir (same.1.symm.trans (noLog f hf))
  refine ⟨valid, laid.create walDir_mem (Wal.segmentName_isName (by omega)) absent [],
    List.mem_cons_self, ?onlySegment, rfl, rfl, fun _ => rfl,
    ⟨[], Wal.Appender.writes_empty _ _ _ (by simp), rfl⟩, clock, rfl, serialBelow, rfl, Nat.mod_eq_of_lt word, Nat.mod_lt _ (Nat.two_pow_pos 64), ?stored,
    older, newest, uncovered, ?obsoleteFiles, ?onlyTables, ?covered, ?ids, ?handles, ?handlesFresh,
    ?openings⟩
  case onlySegment =>
    intro f hf dir
    rcases List.mem_cons.1 hf with rfl | hf
    · rfl
    · exact absurd (dir.symm.trans (noLog f hf)) walDir_ne_tableDir
  case stored =>
    -- the new segment takes a fresh inode, above those of the tables
    refine stored.imp fun t _ stored => stored.frame_linked (fun f hf => ?_) fun _ _ hf =>
      List.mem_cons_of_mem _ hf
    rw [contents_create, if_neg (Nat.ne_of_lt (laid.fresh f hf))]
  case obsoleteFiles =>
    intro q hq
    rw [clean] at hq
    cases hq
  case onlyTables =>
    intro f hf dir
    rcases List.mem_cons.1 hf with rfl | hf
    · exact absurd dir walDir_ne_tableDir
    obtain ⟨t, ht, role, named⟩ := only f hf
    refine ⟨t.table.id, ?_, role, named⟩
    rw [clean, List.map_nil, List.append_nil]
    exact List.mem_map_of_mem ht
  case covered =>
    intro q hq
    rw [clean] at hq
    cases hq
  case ids =>
    rw [clean, List.map_nil, List.append_nil]
    exact nodup_of_newer newest
  case handles =>
    rw [clean, List.map_nil, List.append_nil]
    exact handles
  case handlesFresh =>
    rw [clean, List.map_nil, List.append_nil]
    exact below
  case openings =>
    intro q hq
    simp [Host.openings, idle] at hq

/-! ## Checkpoints of a log directory holding one segment -/

section Checkpoint

variable {v : Volume} {g : Nat}

/-- A checkpoint below the one segment of the log directory removes nothing. -/
theorem checkpoint_below (laid : v.Laid [walDir, tableDir] fs)
    (onlySegment : ∀ f ∈ fs, f.dir = walDir → f.name = Wal.segmentName g) (word : g < 2 ^ 64)
    {n : Nat} (below : n < g) :
    ∃ w, (Wal.checkpoint walDir n).run.run v = (.ok (), w) ∧ w.Laid [walDir, tableDir] fs ∧
      w.inodes = v.inodes ∧ w.nextInode = v.nextInode := by
  obtain ⟨w, ran, laid', inodes, next⟩ :=
    Wal.checkpoint_laid laid walDir_mem (fun f hf dir => ⟨g, word, onlySegment f hf dir⟩) n
  refine ⟨w, ran, ?_, inodes, next⟩
  rwa [List.filter_eq_self.2] at laid'
  intro f hf
  by_cases dir : f.dir = walDir
  · simp [dir, onlySegment f hf dir, Wal.parseSegmentName?_segmentName word, Nat.not_le.2 below]
  · simp [dir]

/-- A checkpoint at the one segment of the log directory removes it and nothing else. -/
theorem checkpoint_at (laid : v.Laid [walDir, tableDir] fs)
    (onlySegment : ∀ f ∈ fs, f.dir = walDir → f.name = Wal.segmentName g) (word : g < 2 ^ 64) :
    ∃ w, (Wal.checkpoint walDir g).run.run v = (.ok (), w) ∧
      w.Laid [walDir, tableDir] (fs.filter (·.dir != walDir)) ∧ w.inodes = v.inodes := by
  obtain ⟨w, ran, laid', inodes, -⟩ :=
    Wal.checkpoint_laid laid walDir_mem (fun f hf dir => ⟨g, word, onlySegment f hf dir⟩) g
  refine ⟨w, ran, ?_, inodes⟩
  rwa [List.filter_congr fun f hf => ?_] at laid'
  by_cases dir : f.dir = walDir
  · simp [dir, onlySegment f hf dir, Wal.parseSegmentName?_segmentName word]
  · simp [bne, beq_false_of_ne dir]

/-- Once the log directory's files are gone, every file left is in the table directory. -/
theorem dir_of_filter (laid : v.Laid [walDir, tableDir] fs) :
    ∀ f ∈ fs.filter (·.dir != walDir), f.dir = tableDir := by
  intro f hf
  obtain ⟨hf, other⟩ := List.mem_filter.1 hf
  rcases List.mem_cons.1 (laid.inDir f hf) with dir | dir
  · simp [dir] at other
  · exact List.mem_singleton.1 dir

/-- A log directory whose one file is the segment of generation `g` lists that generation. -/
theorem segmentGens_single (laid : v.Laid [walDir, tableDir] fs) {i : Nat}
    (segment : ⟨walDir, Wal.segmentName g, i⟩ ∈ fs)
    (onlySegment : ∀ f ∈ fs, f.dir = walDir → f.name = Wal.segmentName g) (word : g < 2 ^ 64) :
    Wal.segmentGens fs walDir = [g] := by
  -- the files of the log directory all carry the same name, so there is one of them
  have named : ∀ l : List FileLink, (∀ f ∈ l, f.dir = walDir → f.name = Wal.segmentName g) →
      l.filterMap (fun f => if f.dir = walDir then Wal.parseSegmentName? f.name else none) =
        (l.filter fun f => f.dir = walDir).map fun _ => g := by
    intro l only
    induction l with
    | nil => rfl
    | cons f l ih =>
      have rest := ih fun f' hf' => only f' (List.mem_cons_of_mem f hf')
      by_cases dir : f.dir = walDir
      · simp [dir, only f List.mem_cons_self dir, Wal.parseSegmentName?_segmentName word, rest]
      · simp [dir, rest]
  have keys : ((fs.filter fun f => f.dir = walDir).map FileLink.key) =
      List.replicate (fs.filter fun f => f.dir = walDir).length (walDir, Wal.segmentName g) := by
    rw [List.eq_replicate_iff, List.length_map]
    refine ⟨rfl, fun k hk => ?_⟩
    obtain ⟨f, hf, rfl⟩ := List.mem_map.1 hk
    obtain ⟨hf, dir⟩ := List.mem_filter.1 hf
    have dir : f.dir = walDir := of_decide_eq_true dir
    simp [FileLink.key, dir, onlySegment f hf dir]
  have atMostOne : (fs.filter fun f => f.dir = walDir).length ≤ 1 := by
    rw [← List.nodup_replicate, ← keys]
    exact laid.keysNodup.sublist (List.filter_sublist.map _)
  have present : 0 < (fs.filter fun f => f.dir = walDir).length :=
    List.length_pos_of_mem (List.mem_filter.2 ⟨segment, by simp⟩)
  rw [Wal.segmentGens, named fs onlySegment, List.map_const',
    show (fs.filter fun f => f.dir = walDir).length = 1 by omega, List.replicate_one,
    List.mergeSort_singleton]

end Checkpoint

/-- The largest of some numbers all below a positive bound, or zero when there are none, is
below the bound. -/
theorem max?_getD_lt {l : List Nat} {g : Nat} (pos : 0 < g) (below : ∀ x ∈ l, x < g) :
    l.max?.getD 0 < g := by
  cases hm : l.max? with
  | none => exact pos
  | some a => exact below a (List.max?_mem hm)

/-! ## Replaying the segment -/

theorem entries_foldl_put (rs : List Wal.Record) (m : Memtable) :
    (rs.foldl (fun m r => (m.put r.entry).2) m).entries =
      rs.foldl (fun es r => Memtable.insertEntry r.entry es) m.entries := by
  induction rs generalizing m with
  | nil => rfl
  | cons r rs ih => rw [List.foldl_cons, List.foldl_cons, ih, Memtable.entries_put]

/-- What replaying the one segment of a log directory leaves, when its records replay to `es`:
the tables `news` written from it, at most one, each the table of generation `g` and holding
a run of `newRuns`, which answer like `es`; and a tree `fs'` on `w` with no log left, which
keeps every table file of `fs` and adds only the files of `news`, and keeps the contents of
every inode in use. -/
structure Replayed (v w : Volume) (fs fs' : List FileLink) (g : Nat) (es : List Entry)
    (news : List Table) (newRuns : List (List Entry)) : Prop where
  stored : List.Forall₂ (fun t r => t.id = .flushed g ∧ Stored w fs' tableDir t r) news newRuns
  single : news.length ≤ 1
  answers : ∀ rest key, (firstHit (newRuns ++ rest) key).bind Entry.value =
    (firstHit (es :: rest) key).bind Entry.value
  bytes : (newRuns.map fun r => (dataOf r).length).sum = (dataOf es).length
  laid : w.Laid [walDir, tableDir] fs'
  noLog : ∀ f ∈ fs', f.dir = tableDir
  keeps : ∀ f ∈ fs, f.dir = tableDir → f ∈ fs'
  only : ∀ f ∈ fs', f ∈ fs ∨ ∃ t ∈ news, ∃ role, f.name = t.id.fileName role
  same : ∀ j < v.nextInode, w.contents j = v.contents j

/-- Replaying the one segment of a log directory, of generation `g`, whose file holds records
written back to back, when no file of the table of generation `g` is there: the records, put in
turn into an empty table, are written as that table unless there are none, and the segment is
deleted. -/
theorem replayAll_segment {h : Host} {g i : Nat} {rs : List Wal.Record}
    (laid : h.volume.Laid [walDir, tableDir] fs) (segment : ⟨walDir, Wal.segmentName g, i⟩ ∈ fs)
    (onlySegment : ∀ f ∈ fs, f.dir = walDir → f.name = Wal.segmentName g)
    (log : h.volume.contents i = (rs.map Wal.Record.encode).flatten)
    (fits : ∀ r ∈ rs, r.Fits) (lsns : ∀ i (h : i < rs.length), rs[i].lsn = i + 1)
    (word : g < 2 ^ 64) (unknown : ∀ f ∈ fs, f.dir = tableDir → ∀ role,
      f.name ≠ (TableId.flushed g).fileName role ∧ f.name ≠ (TableId.flushed g).fileName role ++ ".tmp")
    (storable : Storable (replayed rs)) (config : Config) (newest : Nat) :
    ∃ news newRuns w fs', (replayAll config [g] newest).run.run h =
        (.ok (news, max newest g), { h with volume := w }) ∧
      Replayed h.volume w fs fs' g (replayed rs) news newRuns := by
  obtain ⟨report, replayedLog, noLoss⟩ := Wal.replay_laid laid segment log fits lsns
  have lossless : (report.hasDataLoss && !config.tolerateWalDataLoss) = false := by
    rw [noLoss, Bool.false_and]
  cases rs with
  | nil =>
    obtain ⟨w, checkpointed, laid', inodes⟩ := checkpoint_at laid onlySegment word
    refine ⟨[], [], w, fs.filter (·.dir != walDir), ?_, ⟨.nil, Nat.zero_le _, fun rest key => ?_, rfl,
      laid', fun f hf => ?_, fun f hf dir => ?_, fun f hf => .inl (List.mem_of_mem_filter hf),
      fun j _ => Table.contents_eq_of_inodes inodes j⟩⟩
    · simp only [replayAll, replaySegment, HostM.run_bind, HostM.run_volume, HostM.run_lift,
        replayedLog, HostM.run_setVolume, lossless, Bool.false_eq_true, if_false, List.isEmpty_nil,
        if_true, HostM.run_pure, HostM.run_onVolume, checkpointed, Option.toList_none,
        List.nil_append]
    · rw [List.nil_append, firstHit_cons, replayed, List.foldl_nil, entryOf_nil, Option.none_or]
    · exact dir_of_filter laid f hf
    · exact List.mem_filter.2 ⟨hf, by simp [dir, walDir_ne_tableDir.symm]⟩
  | cons r rs =>
    have valid : (TableId.flushed g).Valid := ⟨word, Nat.le_refl _⟩
    obtain ⟨t, w, written, ident, holds, dataInode, indexInode, laid₁, -, same₁⟩ :=
      Table.write_laid id laid tableDir_mem valid unknown storable config.readBackend
    -- the table's files are new, and the segment is still the only file of the log directory
    have onlySegment₁ : ∀ f ∈ (⟨tableDir, (TableId.flushed g).fileName .data, h.volume.nextInode⟩ ::
        ⟨tableDir, (TableId.flushed g).fileName .index, h.volume.nextInode + 1⟩ :: fs : List FileLink),
        f.dir = walDir → f.name = Wal.segmentName g := by
      exact fun f hf dir => onlySegment f (mem_of_walDir_mem_tables hf dir) dir
    obtain ⟨w', checkpointed, laid', inodes⟩ := checkpoint_at laid₁ onlySegment₁ word
    have same' : ∀ j, w'.contents j = w.contents j := Table.contents_eq_of_inodes inodes
    have kept : ∀ f ∈ (⟨tableDir, (TableId.flushed g).fileName .data, h.volume.nextInode⟩ ::
        ⟨tableDir, (TableId.flushed g).fileName .index, h.volume.nextInode + 1⟩ :: fs : List FileLink),
        f.dir = tableDir → f ∈ (⟨tableDir, (TableId.flushed g).fileName .data, h.volume.nextInode⟩ ::
          ⟨tableDir, (TableId.flushed g).fileName .index, h.volume.nextInode + 1⟩ :: fs).filter
            (·.dir != walDir) :=
      fun f hf dir => List.mem_filter.2 ⟨hf, by simp [dir, walDir_ne_tableDir.symm]⟩
    refine ⟨[t], [replayed (r :: rs)], w', _, ?_, ⟨.cons ⟨ident, ?stored⟩ .nil, by simp, fun rest key => rfl,
      by simp, laid', dir_of_filter laid₁, fun f hf dir => kept f (List.mem_cons_of_mem _
        (List.mem_cons_of_mem _ hf)) dir, ?only, fun j lt => (same' j).trans (same₁ j lt)⟩⟩
    case stored =>
      refine ⟨holds.frame fun _ j _ => same' j, ident ▸ valid, fun role => ?_⟩
      rw [ident]
      cases role
      · exact ⟨_, dataInode, kept _ List.mem_cons_self rfl⟩
      · exact ⟨_, indexInode, kept _ (List.mem_cons_of_mem _ List.mem_cons_self) rfl⟩
    case only =>
      intro f hf
      rcases List.mem_cons.1 (List.mem_of_mem_filter hf) with rfl | hf
      · exact .inr ⟨t, List.mem_singleton_self _, .data, by rw [ident]⟩
      rcases List.mem_cons.1 hf with rfl | hf
      · exact .inr ⟨t, List.mem_singleton_self _, .index, by rw [ident]⟩
      · exact .inl hf
    simp only [replayAll, replaySegment, HostM.run_bind, HostM.run_volume, HostM.run_lift,
      replayedLog, HostM.run_setVolume, lossless, Bool.false_eq_true, if_false, List.isEmpty_cons,
      entries_foldl_put]
    rw [replayed] at written
    have lifted : (some <$> HostM.lift (.ok t)).run.run { h with volume := w } =
        (.ok (some t), { h with volume := w }) := rfl
    simp only [written, HostM.run_onVolume, lifted, checkpointed, HostM.run_pure, Option.toList_some,
      List.append_nil]

/-! ## Opening the data directory again -/

/-- Opening, with any valid configuration, the data directory a kept engine left, with no scan,
no replaced table awaiting deletion and the log's buffer on disk: the tables are opened again,
the log is replayed into a table of its generation, and a new engine starts the next generation,
sound, with an empty active table. Its tables answer every key as the old engine did, in as many
bytes. -/
theorem Kept.reopen (kept : Kept e h runs fs) (idle : h.scans = []) (clean : h.obsolete = [])
    (pushed : e.wal.buffered = []) (started : 0 < e.active.generation)
    (room : e.nextGeneration + 1 < 2 ^ 64) (small : (dataOf e.active.entries).length < 2 ^ 64)
    {config : Config} (valid : config.validate = .ok ()) :
    ∃ e' h' runs' fs', (Engine.open config).run.run h = (.ok e', h') ∧ Sound e' h' runs' fs' ∧
      e'.config = config ∧ e'.closed = false ∧ e'.active.entries = [] ∧ e'.active.size = 0 ∧
      e'.active.generation = e.nextGeneration ∧ e'.wal.nextLsn = 1 ∧ h'.scans = [] ∧
      h'.clock = h.clock ∧
      (∀ key, (firstHit runs' key).bind Entry.value =
        (firstHit (e.active.entries :: runs) key).bind Entry.value) ∧
      (runs'.map fun r => (dataOf r).length).sum = load e runs := by
  have next := kept.nextGeneration
  have word : e.active.generation < 2 ^ 64 := by omega
  -- the table directory is a shelf of the engine's tables, and opening it opens them again
  obtain ⟨ts, openedAll, opened⟩ :=
    openAll_shelf kept.laid tableDir_mem (kept.shelf clean) config.readBackend
  have idsTs : ts.map (·.id) = e.tables.map (·.table.id) := by
    rw [map_eq_of_forall₂ (opened.imp fun _ _ same => same.1), kept.ids_shelfOf]
  have olderTs := (kept.older_uncovered_of_ids idsTs).1
  -- a checkpoint at the newest table keeps the log's one segment
  have below : (ts.map (·.id.generation)).max?.getD 0 < e.active.generation :=
    max?_getD_lt started fun x hx => by
      obtain ⟨t, ht, rfl⟩ := List.mem_map.1 hx
      exact olderTs t ht
  obtain ⟨v₁, checkpointed, laid₁, inodes₁, next₁⟩ :=
    checkpoint_below kept.laid kept.onlySegment word below
  have gens := segmentGens_single laid₁ kept.segment kept.onlySegment word
  -- the segment holds the records of the active table, which are replayed into its table
  obtain ⟨rs, writes, entries⟩ := kept.log
  have log : v₁.contents e.wal.inode = (rs.map Wal.Record.encode).flatten := by
    rw [contents_eq_of_inodes inodes₁, ← writes.log, pushed, List.append_nil]
  have unknown : TableId.flushed e.active.generation ∉
      e.tables.map (·.table.id) ++ h.obsolete.map (·.2) :=
    fun known => Nat.lt_irrefl _ (kept.generation_lt known)
  obtain ⟨news, newRuns, w, fs₁, replayedAll, replayed⟩ :=
    replayAll_segment (h := { h with volume := v₁ }) laid₁ kept.segment kept.onlySegment log
      writes.fits writes.lsns word (kept.absent ⟨word, Nat.le_refl _⟩ unknown)
      (entries ▸ kept.storable small) config ((ts.map (·.id.generation)).max?.getD 0)
  -- the new engine starts the next generation in a new segment
  have newest : max ((ts.map (·.id.generation)).max?.getD 0) e.active.generation =
      e.active.generation := Nat.max_eq_right (Nat.le_of_lt below)
  have generation : generationAfter e.active.generation = e.nextGeneration := by
    rw [next]
    exact Nat.mod_eq_of_lt (by omega)
  have absent : ∀ f ∈ fs₁, f.key ≠ (walDir, Wal.segmentName e.nextGeneration) := fun f hf same => by
    simp only [FileLink.key, Prod.mk.injEq] at same
    exact walDir_ne_tableDir (same.1.symm.trans (replayed.noLog f hf))
  have openedLog : Wal.Appender.open w (segmentPath e.nextGeneration) config.sync =
      .ok ({ path := segmentPath e.nextGeneration, inode := w.nextInode, position := 0, nextLsn := 1,
             policy := config.sync }, w.create (segmentPath e.nextGeneration) []) :=
    Wal.Appender.open_absent replayed.laid walDir_mem (Wal.segmentName_isName (by omega)) absent _
  -- every table, old or new, is held with a fresh handle, the new ones listed first
  obtain ⟨held, holding, tables, handles⟩ := HostM.run_hold
    { h with volume := w.create (segmentPath e.nextGeneration) [], nextSerial := h.nextSerial + 1 }
    (ts ++ news)
  obtain ⟨held₀, held₁, rfl, tables₀, tables₁⟩ := List.map_eq_append_iff.1 tables
  have ids₀ : held₀.map (·.table.id) = e.tables.map (·.table.id) := by
    rw [← idsTs, ← tables₀, List.map_map]
    rfl
  have new₁ : ∀ t ∈ held₁, t.table.id = .flushed e.active.generation := by
    intro t ht
    have inNews : t.table ∈ news := tables₁ ▸ List.mem_map_of_mem ht
    obtain ⟨r, -, ident, -⟩ := forall₂_mem_left replayed.stored inNews
    exact ident
  obtain ⟨older₀, uncovered₀⟩ := kept.older_uncovered_of_ids ids₀
  -- at most one table is new, and it goes in front of the older ones
  have single : held₁.length ≤ 1 := by
    rw [← List.length_map (f := (·.table)), tables₁]
    exact replayed.single
  have front := front_flushed single new₁ older₀ (by rw [ids₀]; exact kept.newest) uncovered₀
  have newestAll := front.1
  have sorted : sortTables (held₀ ++ held₁) = held₁ ++ held₀ :=
    sortTables_of_perm List.perm_append_comm newestAll
  have ran : (Engine.open config).run.run h =
      (.ok { config := config
             active := { generation := e.nextGeneration, sizeLimit := config.memtableSizeLimit,
                         serial := h.nextSerial }
             tables := held₁ ++ held₀
             wal := { path := segmentPath e.nextGeneration, inode := w.nextInode, position := 0,
                      nextLsn := 1, policy := config.sync }
             nextGeneration := generationAfter e.nextGeneration },
        { h with volume := w.create (segmentPath e.nextGeneration) [],
                 nextSerial := h.nextSerial + 1 + (ts ++ news).length }) := by
    simp only [Engine.open, valid, HostM.run_bind, HostM.run_pure, HostM.run_volume, HostM.run_lift,
      Except.mapError, kept.laid.createDirAll_of_mem tableDir_mem, kept.laid.createDirAll_of_mem walDir_mem,
      HostM.run_setVolume, HostM.run_onVolume, openedAll, checkpointed, Wal.segments_laid laid₁ walDir_mem,
      gens, replayedAll, newest, generation, openedLog, HostM.run_fresh, holding, sorted]
  -- the old tables still hold their runs, and the new one its run
  have stored₀ : List.Forall₂ (fun t es => Stored w fs₁ tableDir t.table es) held₀ runs := by
    have onOld : List.Forall₂ (fun t es => Stored h.volume fs tableDir t es) ts runs := by
      rw [← kept.runs_shelfOf]
      exact List.forall₂_map_right_iff.2 (opened.imp fun _ _ both => both.2)
    rw [← tables₀] at onOld
    refine (List.forall₂_map_left_iff.1 onOld).imp fun t _ stored =>
      stored.frame_linked (fun f hf => ?_) fun _ _ hf => replayed.keeps _ hf rfl
    rw [replayed.same _ (next₁ ▸ kept.laid.fresh f hf), contents_eq_of_inodes inodes₁]
  have stored₁ : List.Forall₂ (fun t es => Stored w fs₁ tableDir t.table es) held₁ newRuns := by
    have onNew := replayed.stored.imp fun _ _ both => both.2
    rw [← tables₁] at onNew
    exact List.forall₂_map_left_iff.1 onNew
  have only : ∀ f ∈ fs₁, ∃ t ∈ held₁ ++ held₀, ∃ role, f.name = t.table.id.fileName role := by
    intro f hf
    rcases replayed.only f hf with old | ⟨t, ht, role, named⟩
    · obtain ⟨id, known, role, named⟩ := kept.onlyTables f old (replayed.noLog f hf)
      rw [clean, List.map_nil, List.append_nil, ← ids₀] at known
      obtain ⟨u, hu, rfl⟩ := List.mem_map.1 known
      exact ⟨u, List.mem_append_right _ hu, role, named⟩
    · obtain ⟨u, hu, rfl⟩ := List.mem_map.1 (tables₁ ▸ ht : t ∈ held₁.map (·.table))
      exact ⟨u, List.mem_append_left _ hu, role, named⟩
  have older : ∀ t ∈ held₁ ++ held₀, t.table.id.generation < e.nextGeneration := by
    intro t ht
    rw [next]
    rcases List.mem_append.1 ht with ht | ht
    · rw [new₁ t ht]
      exact Nat.lt_succ_self _
    · exact Nat.lt_succ_of_lt (older₀ t ht)
  have permHandles : ((held₁ ++ held₀).map (·.handle)).Perm
      (List.range' (h.nextSerial + 1) (ts ++ news).length) := by
    rw [← handles]
    exact List.perm_append_comm.map _
  have below : ∀ k ∈ (held₁ ++ held₀).map (·.handle), k < h.nextSerial + 1 + (ts ++ news).length :=
    fun k hk => (List.mem_range'_1.1 (permHandles.mem_iff.1 hk)).2
  refine ⟨_, _, newRuns ++ runs, _, ran, ⟨Kept.opened valid replayed.laid replayed.noLog
      (List.rel_append stored₁ stored₀) newestAll front.2 only older
      (permHandles.nodup_iff.2 List.nodup_range') below (by omega) room idle clean kept.clock,
      fun q hq => by simp [clean] at hq⟩, rfl, rfl, rfl, rfl, rfl, rfl, idle, rfl,
      fun key => by rw [replayed.answers runs key, entries], ?_⟩
  rw [List.map_append, List.sum_append, replayed.bytes, load, entries]

/-- Letting go of a serving engine, after closing its scans, and opening its data directory
again with any valid configuration succeeds, and the new engine serves the same map, open, after
one more operation. -/
theorem Serving.reopen {m : Bytes → Option Bytes} {n : Nat} (serving : Serving e h runs fs m n)
    (budget : n < 2 ^ 32) {config : Config} (valid : config.validate = .ok ()) :
    ∃ e' h' runs' fs', (Engine.open config).run.run (e.drop { h with scans := [], nextScan := 0 }) =
        (.ok e', h') ∧
      Serving e' h' runs' fs' m (n + 1) ∧ e'.config = config ∧ e'.closed = false ∧ h'.scans = [] := by
  have genBound := serving.generation
  have loadBound := serving.load
  have next := serving.sound.nextGeneration
  obtain ⟨fs₁, kept₁, clean⟩ := serving.sound.toKept.closeScans.drop rfl
  have idle : (e.drop { h with scans := [], nextScan := 0 }).scans = [] := by
    rw [drop_of_scans_nil rfl, Host.release_scans]
  have small : (dataOf e.active.entries).length < 2 ^ 64 := by
    simp only [Engine.load] at loadBound
    omega
  obtain ⟨e', h', runs', fs', ran, sound', config', closed', empty, size', gen', lsn', scans', -,
    answers, bytes⟩ := kept₁.reopen idle clean rfl serving.started
      (by show e.nextGeneration + 1 < 2 ^ 64; omega) small valid
  have gen'' : e'.active.generation = e.nextGeneration := gen'
  refine ⟨e', h', runs', fs', ran, ⟨sound', serving.models.of_empty empty answers, ?_, by omega,
    by omega, ?_, by omega⟩, config', closed', scans'⟩
  · rw [size']
    exact sound'.sizeLimit_pos
  · show Engine.load e' runs' ≤ (n + 1) * 2 ^ 32
    rw [Engine.load, empty, dataOf_nil, List.length_nil, Nat.zero_add, bytes]
    exact (serving.mono (Nat.le_succ n)).load

/-! ## Opening an empty volume -/

/-- Opening an empty volume with a valid configuration makes the two directories and starts a
sound engine of generation 1 with no table, an empty active table and an empty segment. -/
theorem open_empty {config : Config} (valid : config.validate = .ok ()) :
    ∃ e' h' fs', (Engine.open config).run.run { volume := {} } = (.ok e', h') ∧ Sound e' h' [] fs' ∧
      e'.config = config ∧ e'.closed = false ∧ e'.active.entries = [] ∧ e'.active.size = 0 ∧
      e'.active.generation = 1 ∧ e'.wal.nextLsn = 1 ∧ h'.scans = [] ∧ h'.clock = 0 := by
  -- the two directories are made, the table directory first
  have laid₁ := laid_empty.bind_dir tableDir_isName List.not_mem_nil
  have laid₂ := laid₁.bind_dir walDir_isName (by simp [walDir_ne_tableDir])
  have madeTables := laid_empty.createDirAll_of_not_mem tableDir_isName List.not_mem_nil
  have madeLog := laid₁.createDirAll_of_not_mem walDir_isName (by simp [walDir_ne_tableDir])
  have shelf : Shelf (({} : Volume).bind tableDir .dir |>.bind walDir .dir) [] tableDir [] :=
    ⟨by simp, by simp, by simp, by simp, List.Pairwise.nil, by simp⟩
  obtain ⟨ts, openedAll, opened⟩ := openAll_shelf laid₂ tableDir_mem shelf config.readBackend
  cases opened
  -- with no table the checkpoint is at generation 0, and there is no segment to replay
  obtain ⟨w, checkpointed, laid, -, -⟩ :=
    Wal.checkpoint_laid laid₂ walDir_mem (fun f hf => by cases hf) 0
  rw [List.filter_nil] at laid
  have openedLog : Wal.Appender.open w (segmentPath 1) config.sync =
      .ok ({ path := segmentPath 1, inode := w.nextInode, position := 0, nextLsn := 1,
             policy := config.sync }, w.create (segmentPath 1) []) :=
    Wal.Appender.open_absent laid walDir_mem (Wal.segmentName_isName (by decide)) (fun f hf => by cases hf) _
  have ran : (Engine.open config).run.run { volume := {} } =
      (.ok { config := config
             active := { generation := 1, sizeLimit := config.memtableSizeLimit, serial := 0 }
             tables := []
             wal := { path := segmentPath 1, inode := w.nextInode, position := 0, nextLsn := 1,
                      policy := config.sync }
             nextGeneration := generationAfter 1 },
        { volume := w.create (segmentPath 1) [], nextSerial := 1 }) := by
    simp only [Engine.open, valid, HostM.run_bind, HostM.run_pure, HostM.run_volume, HostM.run_lift,
      Except.mapError, madeTables, madeLog, HostM.run_setVolume, HostM.run_onVolume, openedAll,
      List.map_nil, List.max?_nil, Option.getD_none, checkpointed, Wal.segments_laid laid walDir_mem]
    have first : generationAfter 0 = 1 := rfl
    have none : sortTables [] = [] := by rw [sortTables, List.mergeSort_nil]
    simp only [Wal.segmentGens, List.filterMap_nil, List.mergeSort_nil, replayAll, HostM.run_pure,
      first, openedLog, HostM.run_fresh, List.append_nil, HostM.hold, List.mapM_nil, none]
  refine ⟨_, _, _, ran, ⟨Kept.opened (h := { volume := {} }) (g := 1) valid laid (fun f hf => by cases hf) .nil List.Pairwise.nil
      (fun a ha => by cases ha) (fun f hf => by cases hf) (fun t ht => by cases ht) List.nodup_nil
      (fun k hk => by cases hk) Nat.zero_lt_one (by decide) rfl rfl (by decide),
    fun q hq => by cases hq⟩, rfl, rfl, rfl, rfl, rfl, rfl, rfl, rfl⟩

/-- An engine opened on an empty volume serves the empty map before any operation. -/
theorem Serving.open_empty {config : Config} (valid : config.validate = .ok ()) :
    ∃ e' h' fs', (Engine.open config).run.run { volume := {} } = (.ok e', h') ∧
      Serving e' h' [] fs' (fun _ => none) 0 ∧ e'.config = config ∧ e'.closed = false ∧
      h'.scans = [] := by
  obtain ⟨e', h', fs', ran, sound, config', closed', empty, size', gen', lsn', scans', -⟩ :=
    Engine.open_empty valid
  refine ⟨e', h', fs', ran, ⟨sound, fun key => ?_, ?_, by omega, by omega, ?_, by omega⟩, config',
    closed', scans'⟩
  · rw [empty, firstHit_cons, entryOf_nil, Option.none_or]
    rfl
  · rw [size']
    exact sound.sizeLimit_pos
  · simp [Engine.load, empty]

end Engine

end LsmStore
