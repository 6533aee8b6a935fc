import LsmStore.Proofs.Engine.State

/-!
# Deleting replaced tables

A compaction leaves the tables it replaced on disk for the scans that still read them. A
release deletes the files of every replaced table that no open scan holds and forgets it; the
others wait for the next release. On a kept engine a release succeeds file by file, touches no
other file and no file's contents, and leaves a sound engine: every replaced table still on disk
is held by a scan.

## Main definitions

* `Volume.FileLink.ofTable` — whether a file is one of a table's two files

## Main results

* `Host.release_laid` — a release deletes exactly the files of the tables it forgets
* `Engine.Kept.release` — a release makes a kept engine sound
-/

namespace LsmStore

open Volume Table TableId

namespace Volume.FileLink

/-- Whether `f` is one of the two files of table `id` in the table directory. -/
def ofTable (id : TableId) (f : FileLink) : Bool :=
  f.dir == tableDir && (f.name == id.fileName .data || f.name == id.fileName .index)

theorem ofTable_eq_true {id : TableId} {f : FileLink} :
    f.ofTable id = true ↔ f.dir = tableDir ∧ ∃ role, f.name = id.fileName role := by
  simp only [ofTable, Bool.and_eq_true, beq_iff_eq, Bool.or_eq_true]
  constructor
  · rintro ⟨dir, named | named⟩
    · exact ⟨dir, .data, named⟩
    · exact ⟨dir, .index, named⟩
  · rintro ⟨dir, role, named⟩
    cases role
    · exact ⟨dir, .inl named⟩
    · exact ⟨dir, .inr named⟩

/-- A file outside the table directory is no table's. -/
theorem ofTable_of_dir {id : TableId} {f : FileLink} (dir : f.dir ≠ tableDir) : f.ofTable id = false := by
  simp [ofTable, dir]

/-- A file of one table is no file of another. -/
theorem ofTable_fileName {id id' : TableId} (hv : id.Valid) (hv' : id'.Valid) (ne : id ≠ id')
    (role : FileRole) (i : Nat) : (⟨tableDir, id.fileName role, i⟩ : FileLink).ofTable id' = false := by
  rw [Bool.eq_false_iff]
  intro hit
  obtain ⟨-, role', same⟩ := ofTable_eq_true.1 hit
  exact ne ((fileName_inj hv hv').1 same).1

/-- A file is kept by a deletion of a table's two files exactly when it is neither of them. -/
theorem not_ofTable (id : TableId) (f : FileLink) :
    (!f.ofTable id) = (f.key != (tableDir, id.fileName .index) && f.key != (tableDir, id.fileName .data)) := by
  rw [Bool.eq_iff_iff]
  simp only [ofTable, key, Bool.not_eq_true', Bool.and_eq_false_iff, Bool.and_eq_true, bne_iff_ne,
    ne_eq, Prod.mk.injEq, beq_eq_false_iff_ne, Bool.or_eq_false_iff]
  tauto

end Volume.FileLink

namespace Host

variable {v : Volume} {ds : List String} {fs : List FileLink}

/-- The handles the open scans hold. -/
theorem inUse_eq (h : Host) : h.scans.flatMap (·.2.handles) = h.openings.map (·.1) := by
  simp only [openings, List.map_flatMap, handles_eq]

/-- The replaced tables a release deletes: those no open scan holds. -/
def released (h : Host) : List (Nat × TableId) :=
  h.obsolete.filter fun q => !(h.openings.map (·.1)).contains q.1

/-- A release forgets the replaced tables it deletes. -/
theorem release_obsolete (h : Host) :
    h.release.obsolete = h.obsolete.filter fun q => q.1 ∈ h.openings.map (·.1) := by
  simp [release, List.partition_eq_filter_filter, Function.comp_def, inUse_eq]

@[simp] theorem release_scans (h : Host) : h.release.scans = h.scans := rfl

@[simp] theorem release_nextScan (h : Host) : h.release.nextScan = h.nextScan := rfl

@[simp] theorem release_nextSerial (h : Host) : h.release.nextSerial = h.nextSerial := rfl

@[simp] theorem release_clock (h : Host) : h.release.clock = h.clock := rfl

@[simp] theorem openings_release (h : Host) : h.release.openings = h.openings := rfl

/-- Deleting files of tables one table after another, each step dropping exactly that table's
files, drops exactly the files of all of them. -/
theorem foldl_laid {g : Volume → Nat × TableId → Volume}
    (step : ∀ (v : Volume) (fs : List FileLink) (q : Nat × TableId), v.Laid ds fs → q.2.Valid →
      (g v q).Laid ds (fs.filter fun f => !f.ofTable q.2) ∧ (g v q).inodes = v.inodes ∧
        (g v q).nextInode = v.nextInode)
    (gone : List (Nat × TableId)) (valid : ∀ q ∈ gone, q.2.Valid) (h : v.Laid ds fs) :
    (gone.foldl g v).Laid ds (fs.filter fun f => !gone.any fun q => f.ofTable q.2) ∧
      (gone.foldl g v).inodes = v.inodes ∧ (gone.foldl g v).nextInode = v.nextInode := by
  induction gone generalizing v fs with
  | nil => exact ⟨by simpa using h, rfl, rfl⟩
  | cons q qs ih =>
    rw [List.foldl_cons]
    obtain ⟨laid, inodes, next⟩ := step v fs q h (valid q List.mem_cons_self)
    obtain ⟨laid', inodes', next'⟩ := ih (fun q' hq' => valid q' (List.mem_cons_of_mem q hq')) laid
    refine ⟨?_, inodes'.trans inodes, next'.trans next⟩
    rw [List.filter_filter] at laid'
    convert laid' using 2
    funext f
    simp only [List.any_cons, Bool.not_or, Bool.and_comm]

/-- A release deletes the files of the replaced tables it forgets, and no other file, and
changes no file's contents. -/
theorem release_laid (h : Host) (laid : h.volume.Laid ds fs) (hd : tableDir ∈ ds)
    (valid : ∀ q ∈ h.obsolete, q.2.Valid) :
    h.release.volume.Laid ds (fs.filter fun f => !h.released.any fun q => f.ofTable q.2) ∧
      h.release.volume.inodes = h.volume.inodes ∧ h.release.volume.nextInode = h.volume.nextInode := by
  have gone : ∀ q ∈ h.released, q.2.Valid := fun q hq => valid q (List.mem_of_mem_filter hq)
  simp only [release, List.partition_eq_filter_filter, Function.comp_def, inUse_eq]
  unfold released at gone ⊢
  refine foldl_laid ?_ _ gone laid
  -- one table: its data file, then its index file
  intro v fs q laid hv
  obtain ⟨_, w, removed, laidData, inodes, next⟩ := laid.removeIfExists hd (fileName_isName hv .data)
  obtain ⟨_, w', removed', laidIndex, inodes', next'⟩ :=
    laidData.removeIfExists hd (fileName_isName hv .index)
  simp only [removed, removed']
  refine ⟨?_, inodes'.trans inodes, next'.trans next⟩
  rw [List.filter_filter] at laidIndex
  convert laidIndex using 2
  funext f
  exact FileLink.not_ofTable q.2 f

end Host

namespace Engine

variable {e : Engine} {h : Host} {runs : List (List Entry)} {fs : List FileLink}

/-- A release of a kept engine deletes the replaced tables no scan holds, changes no file's
contents, and leaves the engine sound. -/
theorem Kept.release (kept : Kept e h runs fs) :
    ∃ fs', Sound e h.release runs fs' ∧ h.release.volume.inodes = h.volume.inodes ∧
      h.release.volume.nextInode = h.volume.nextInode := by
  obtain ⟨laid, inodes, next⟩ :=
    h.release_laid kept.laid tableDir_mem fun q hq => (kept.obsoleteFiles q hq).1
  refine ⟨fs.filter fun f => !h.released.any fun q => f.ofTable q.2, ?_, inodes, next⟩
  have same : ∀ i, h.release.volume.contents i = h.volume.contents i := contents_eq_of_inodes inodes
  have kept' : h.release.obsolete ⊆ h.obsolete := by
    rw [Host.release_obsolete]
    exact fun _ hq => List.mem_of_mem_filter hq
  -- a replaced table stays exactly when a scan holds its handle
  have stays : ∀ q ∈ h.obsolete, q.1 ∈ h.openings.map (·.1) → q ∈ h.release.obsolete := by
    intro q hq held
    rw [Host.release_obsolete]
    exact List.mem_filter.2 ⟨hq, by simpa using held⟩
  -- a file stays unless it belongs to a released table
  have remains : ∀ f ∈ fs, (∀ q ∈ h.released, f.ofTable q.2 = false) →
      f ∈ fs.filter fun f => !h.released.any fun q => f.ofTable q.2 := by
    intro f hf keep
    exact List.mem_filter.2 ⟨hf, by simpa using keep⟩
  have tableStays : ∀ {id : TableId}, id.Valid → (∀ q ∈ h.released, id ≠ q.2) → ∀ role i,
      ⟨tableDir, id.fileName role, i⟩ ∈ fs →
        ⟨tableDir, id.fileName role, i⟩ ∈ fs.filter fun f => !h.released.any fun q => f.ofTable q.2 := by
    intro id hv other role i hf
    refine remains _ hf fun q hq => ?_
    have hv' := (kept.obsoleteFiles q (List.mem_of_mem_filter hq)).1
    exact FileLink.ofTable_fileName hv hv' (other q hq) role i
  have released : ∀ {q}, q ∈ h.released → q.1 ∉ h.openings.map (·.1) := by
    intro q hq
    simpa [Host.released] using (List.mem_filter.1 hq).2
  refine ⟨⟨kept.valid, laid, ?segment, ?onlySegment, kept.walPath, kept.walPolicy, kept.synced, ?log, kept.clock,
    kept.sizeLimit, kept.activeSerial, kept.stalled, kept.nextGeneration, kept.word, ?stored, kept.older,
    kept.newest, kept.uncovered, ?obsoleteFiles, ?onlyTables, ?covered, ?ids, ?handles, ?handlesFresh,
    ?openings⟩, ?held⟩
  case segment =>
    exact remains _ kept.segment fun q _ => FileLink.ofTable_of_dir walDir_ne_tableDir
  case onlySegment =>
    exact fun f hf => kept.onlySegment f (List.mem_of_mem_filter hf)
  case log =>
    obtain ⟨rs, writes, entries⟩ := kept.log
    exact ⟨rs, writes.frame (same _), entries⟩
  case stored =>
    refine forall₂_imp_of_mem kept.stored fun t ht es stored => stored.frame (fun _ i _ => same i) ?_
    exact tableStays stored.valid fun q hq => kept.id_ne_obsolete ht (List.mem_of_mem_filter hq)
  case obsoleteFiles =>
    intro q hq
    obtain ⟨hv, files⟩ := kept.obsoleteFiles q (kept' hq)
    refine ⟨hv, fun role => ?_⟩
    obtain ⟨i, hi⟩ := files role
    refine ⟨i, tableStays hv (fun q' hq' same => ?_) role i hi⟩
    -- a released table is not held, so it is another replaced table than `q`
    have held : q.1 ∈ h.openings.map (·.1) := by
      rw [Host.release_obsolete] at hq
      simpa using (List.mem_filter.1 hq).2
    rw [kept.obsolete_eq_of_id (kept' hq) (List.mem_of_mem_filter hq') same] at held
    exact released hq' held
  case onlyTables =>
    intro f hf dir
    obtain ⟨hf, keep⟩ := List.mem_filter.1 hf
    obtain ⟨id, hid, role, named⟩ := kept.onlyTables f hf dir
    refine ⟨id, ?_, role, named⟩
    rcases List.mem_append.1 hid with live | old
    · exact List.mem_append_left _ live
    · obtain ⟨q, hq, rfl⟩ := List.mem_map.1 old
      refine List.mem_append_right _ (List.mem_map_of_mem (stays q hq ?_))
      by_contra free
      have gone : q ∈ h.released := List.mem_filter.2 ⟨hq, by simpa using free⟩
      have : f.ofTable q.2 = true := FileLink.ofTable_eq_true.2 ⟨dir, role, named⟩
      simp only [Bool.not_eq_true', List.any_eq_false] at keep
      exact absurd this (by simpa using keep q gone)
  case covered =>
    exact fun q hq => kept.covered q (kept' hq)
  case ids =>
    rw [Host.release_obsolete]
    exact kept.ids.sublist ((List.filter_sublist.map _).append_left _)
  case handles =>
    rw [Host.release_obsolete]
    exact kept.handles.sublist ((List.filter_sublist.map _).append_left _)
  case handlesFresh =>
    intro k hk
    refine kept.handlesFresh k ?_
    rcases List.mem_append.1 hk with live | old
    · exact List.mem_append_left _ live
    · obtain ⟨q, hq, rfl⟩ := List.mem_map.1 old
      exact List.mem_append_right _ (List.mem_map_of_mem (kept' hq))
  case openings =>
    intro q hq
    rcases kept.openings q hq with live | old
    · exact .inl live
    · exact .inr (stays q old (List.mem_map_of_mem hq))
  case held =>
    -- a scan holds the handle of each replaced table left, and handles tell tables apart
    intro q hq
    rw [Host.release_obsolete] at hq
    obtain ⟨hq, held⟩ := List.mem_filter.1 hq
    obtain ⟨q', hq', handle⟩ := List.mem_map.1 (of_decide_eq_true held)
    rcases kept.openings q' hq' with ⟨t, ht, th, -⟩ | old
    · exact absurd (th.trans handle) (kept.handle_ne_obsolete ht hq)
    · rwa [← kept.obsolete_eq_of_handle old hq handle]

end Engine

end LsmStore
