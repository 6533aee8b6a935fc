import LsmStore.Session
import LsmStore.Proofs.Table.Directory
import LsmStore.Proofs.Wal.Log
import LsmStore.Proofs.Memtable.Run

/-!
# The state an engine keeps

Between operations an engine keeps its data in three places: the active in-memory table,
backed by the log segment of its generation, and the tables on disk, newest first. Tables
replaced by a compaction stay on disk while a scan holds them. `Engine.Kept` says how these
places fit together, and `Engine.Sound` adds that a replaced table stays only while a scan
holds it. `Engine.Models` relates the tiers to the map of keys to values they stand for: the
newest tier holding a key decides its value.

Operations are run as work on the engine and its host; the lemmas at the start push a run
through each primitive of that work.

## Main definitions

* `Host.openings` — the table openings the open scans hold
* `Engine.Kept` — the invariant of an engine's state, its files and its host
* `Engine.Sound` — `Kept`, and no replaced table is kept that no scan holds
* `Engine.Models` — the map of keys to values an engine stands for
* `Engine.load` — the bytes of entries the tiers hold
-/

namespace LsmStore

/-! ## Work on an engine, step by step -/

namespace EngineM

variable {α β : Type} (e : Engine) (h : Host)

theorem run_bind (x : EngineM α) (f : α → EngineM β) (s : Engine × Host) :
    (x >>= f).run.run s = match x.run.run s with
      | (.ok a, s') => (f a).run.run s'
      | (.error err, s') => (.error err, s') := by
  simp only [ExceptT.run_bind, StateT.run_bind]
  rcases x.run.run s with ⟨_ | a, s'⟩ <;> rfl

@[simp] theorem run_pure (a : α) (s : Engine × Host) : (pure a : EngineM α).run.run s = (.ok a, s) :=
  rfl

@[simp] theorem run_throw (err : StoreError) (s : Engine × Host) :
    (throw err : EngineM α).run.run s = (.error err, s) := rfl

@[simp] theorem run_engine : engine.run.run (e, h) = (.ok e, (e, h)) := rfl

@[simp] theorem run_host : host.run.run (e, h) = (.ok h, (e, h)) := rfl

@[simp] theorem run_volume : volume.run.run (e, h) = (.ok h.volume, (e, h)) := rfl

@[simp] theorem run_setVolume (v : Volume) :
    (setVolume v).run.run (e, h) = (.ok (), (e, { h with volume := v })) := rfl

@[simp] theorem run_modifyEngine (f : Engine → Engine) :
    (modifyEngine f).run.run (e, h) = (.ok (), (f e, h)) := rfl

@[simp] theorem run_modifyHost (f : Host → Host) :
    (modifyHost f).run.run (e, h) = (.ok (), (e, f h)) := rfl

@[simp] theorem run_lift (r : Except StoreError α) (s : Engine × Host) :
    (lift r).run.run s = (r, s) := by
  cases r <;> rfl

@[simp] theorem run_fresh :
    fresh.run.run (e, h) = (.ok h.nextSerial, (e, { h with nextSerial := h.nextSerial + 1 })) := rfl

@[simp] theorem run_onVolume (m : VolumeM α) :
    (onVolume m).run.run (e, h) =
      ((m.run.run h.volume).1, (e, { h with volume := (m.run.run h.volume).2 })) := by
  simp only [onVolume, run_bind, run_volume]
  rcases m.run.run h.volume with ⟨_ | _, v'⟩ <;> rfl

/-- A failure of the work attempted is dropped; what the work changed stays changed. -/
@[simp] theorem run_attempt (m : EngineM Unit) (s : Engine × Host) :
    (attempt m).run.run s = (.ok (), (m.run.run s).2) := by
  unfold attempt
  rcases hm : m.run.run s with ⟨_ | _, s'⟩ <;>
  · show (ExceptT.tryCatch m _).run.run s = _
    have ran : StateT.run m s = _ := hm
    simp only [ExceptT.tryCatch, ExceptT.run_mk, StateT.run_bind, ran]
    rfl

end EngineM

namespace HostM

variable {α β : Type} (h : Host)

theorem run_bind (x : HostM α) (f : α → HostM β) (s : Host) :
    (x >>= f).run.run s = match x.run.run s with
      | (.ok a, s') => (f a).run.run s'
      | (.error err, s') => (.error err, s') := by
  simp only [ExceptT.run_bind, StateT.run_bind]
  rcases x.run.run s with ⟨_ | a, s'⟩ <;> rfl

@[simp] theorem run_pure (a : α) (s : Host) : (pure a : HostM α).run.run s = (.ok a, s) := rfl

@[simp] theorem run_throw (err : StoreError) (s : Host) :
    (throw err : HostM α).run.run s = (.error err, s) := rfl

@[simp] theorem run_volume : volume.run.run h = (.ok h.volume, h) := rfl

@[simp] theorem run_setVolume (v : Volume) :
    (setVolume v).run.run h = (.ok (), { h with volume := v }) := rfl

@[simp] theorem run_lift (r : Except StoreError α) (s : Host) : (lift r).run.run s = (r, s) := by
  cases r <;> rfl

@[simp] theorem run_fresh :
    fresh.run.run h = (.ok h.nextSerial, { h with nextSerial := h.nextSerial + 1 }) := rfl

@[simp] theorem run_onVolume (m : VolumeM α) :
    (onVolume m).run.run h = ((m.run.run h.volume).1, { h with volume := (m.run.run h.volume).2 }) := by
  simp only [onVolume, run_bind, run_volume]
  rcases m.run.run h.volume with ⟨_ | _, v'⟩ <;> rfl

/-- Holding tables gives them consecutive fresh handles. -/
theorem run_hold (tables : List Table) :
    ∃ held, (hold tables).run.run h = (.ok held, { h with nextSerial := h.nextSerial + tables.length }) ∧
      held.map (·.table) = tables ∧ held.map (·.handle) = List.range' h.nextSerial tables.length := by
  induction tables generalizing h with
  | nil => exact ⟨[], rfl, rfl, rfl⟩
  | cons t ts ih =>
    obtain ⟨held, ran, tables, handles⟩ := ih { h with nextSerial := h.nextSerial + 1 }
    refine ⟨⟨h.nextSerial, t⟩ :: held, ?_, by simp [tables], by simp [handles, List.range'_succ]⟩
    simp only [hold, List.mapM_cons, run_bind, run_fresh, run_pure] at ran ⊢
    rw [ran]
    simp only [List.length_cons, Nat.add_assoc, Nat.add_comm 1]

end HostM

/-! ## Lists related member by member -/

theorem forall₂_mem_right {α β : Type} {R : α → β → Prop} {xs : List α} {ys : List β}
    (h : List.Forall₂ R xs ys) {y : β} (hy : y ∈ ys) : ∃ x ∈ xs, R x y := by
  induction h with
  | nil => cases hy
  | @cons x y' xs' ys' head _ ih =>
    rcases List.mem_cons.1 hy with rfl | hy
    · exact ⟨x, List.mem_cons_self, head⟩
    · obtain ⟨x', hx', rel⟩ := ih hy
      exact ⟨x', List.mem_cons_of_mem x hx', rel⟩

theorem forall₂_mem_left {α β : Type} {R : α → β → Prop} {xs : List α} {ys : List β}
    (h : List.Forall₂ R xs ys) {x : α} (hx : x ∈ xs) : ∃ y ∈ ys, R x y := by
  induction h with
  | nil => cases hx
  | @cons x' y xs' ys' head _ ih =>
    rcases List.mem_cons.1 hx with rfl | hx
    · exact ⟨y, List.mem_cons_self, head⟩
    · obtain ⟨y', hy', rel⟩ := ih hx
      exact ⟨y', List.mem_cons_of_mem y hy', rel⟩

/-- A relation that holds member by member implies another wherever it does on the left list. -/
theorem forall₂_imp_of_mem {α β : Type} {R S : α → β → Prop} {xs : List α} {ys : List β}
    (h : List.Forall₂ R xs ys) (step : ∀ x ∈ xs, ∀ y, R x y → S x y) : List.Forall₂ S xs ys := by
  induction h with
  | nil => exact .nil
  | @cons x y xs' ys' head _ ih =>
    exact .cons (step x List.mem_cons_self y head) (ih fun x' hx' => step x' (List.mem_cons_of_mem x hx'))

/-! ## What scans hold -/

/-- The opening of a table a tier cursor reads, with the table's identity; none for an
in-memory tier. -/
def TierCursor.opening : TierCursor → Option (Nat × TableId)
  | .table k c => some (k, c.table.id)
  | _ => none

namespace Host

/-- The table openings the open scans hold. -/
def openings (h : Host) : List (Nat × TableId) :=
  h.scans.flatMap fun p => p.2.sources.filterMap TierCursor.opening

/-- The handles a scan holds are those of its table openings. -/
theorem handles_eq (s : Scan) : s.handles = (s.sources.filterMap TierCursor.opening).map (·.1) := by
  unfold Scan.handles
  rw [List.map_filterMap]
  congr 1
  funext c
  cases c <;> rfl

@[simp] theorem obsolete_detach (h : Host) (m : Memtable) : (h.detach m).obsolete = h.obsolete := rfl

@[simp] theorem volume_detach (h : Host) (m : Memtable) : (h.detach m).volume = h.volume := rfl

@[simp] theorem nextSerial_detach (h : Host) (m : Memtable) : (h.detach m).nextSerial = h.nextSerial := rfl

@[simp] theorem clock_detach (h : Host) (m : Memtable) : (h.detach m).clock = h.clock := rfl

/-- Scans that stop reading an in-memory table live keep every table opening. -/
@[simp] theorem openings_detach (h : Host) (m : Memtable) : (h.detach m).openings = h.openings := by
  simp only [openings, detach, List.flatMap_map]
  congr 1
  funext p
  rw [List.filterMap_map]
  congr 1
  funext c
  cases c with
  | live serial c => by_cases same : serial = m.serial <;> simp [TierCursor.opening, same]
  | frozen => rfl
  | table => rfl

@[simp] theorem scans_detach (h : Host) (m : Memtable) :
    (h.detach m).scans.map (·.1) = h.scans.map (·.1) := by
  simp [detach, Function.comp_def]

end Host

/-! ## The invariant -/

namespace Engine

open Volume Table Run

/-- The entries of an in-memory table into which the records `rs` were put in turn. -/
def replayed (rs : List Wal.Record) : List Entry :=
  rs.foldl (fun es r => Memtable.insertEntry r.entry es) []

/-- The bytes of entries the tiers hold: the active in-memory table and the tables `runs`. -/
def load (e : Engine) (runs : List (List Entry)) : Nat :=
  (dataOf e.active.entries).length + (runs.map fun r => (dataOf r).length).sum

/-- The engine stands for the map `m`: for every key the newest tier holding it decides its
value, and a deletion there means it has none. -/
def Models (e : Engine) (runs : List (List Entry)) (m : Bytes → Option Bytes) : Prop :=
  ∀ key, (firstHit (e.active.entries :: runs) key).bind Entry.value = m key

/-- The state an engine keeps between operations, with the tables `runs` it holds on disk and
the files `fs` of its data directory.

* The log directory holds the segment of the active generation and nothing else; the segment
  and the write buffer hold records whose replay gives the active in-memory table.
* No flush is pending, and the generations count up: every table is older than the active
  in-memory table, and the next generation follows the active one.
* The tables are open on their files, which hold `runs`; they are listed strictly newest
  first and none replaces another.
* The table directory holds the files of the tables and of replaced tables awaiting deletion,
  and nothing else; each replaced table is replaced by a table still held.
* Handles tell every opening apart, and every table a scan reads is held or awaits deletion. -/
structure Kept (e : Engine) (h : Host) (runs : List (List Entry)) (fs : List FileLink) : Prop where
  valid : e.config.validate = .ok ()
  laid : h.volume.Laid [walDir, tableDir] fs
  segment : ⟨walDir, Wal.segmentName e.active.generation, e.wal.inode⟩ ∈ fs
  onlySegment : ∀ f ∈ fs, f.dir = walDir → f.name = Wal.segmentName e.active.generation
  walPath : e.wal.path = segmentPath e.active.generation
  walPolicy : e.wal.policy = e.config.sync
  synced : e.config.sync = .everyWrite → e.wal.buffered = []
  log : ∃ rs, Wal.Appender.Writes h.volume e.wal rs ∧ e.active.entries = replayed rs
  clock : h.clock < 2 ^ 64
  sizeLimit : e.active.sizeLimit = e.config.memtableSizeLimit
  activeSerial : e.active.serial < h.nextSerial
  stalled : e.stalled = none
  nextGeneration : e.nextGeneration = e.active.generation + 1
  word : e.nextGeneration < 2 ^ 64
  stored : List.Forall₂ (fun t es => Stored h.volume fs tableDir t.table es) e.tables runs
  older : ∀ t ∈ e.tables, t.table.id.generation < e.active.generation
  newest : (e.tables.map (·.table.id)).Pairwise TableId.Newer
  uncovered : ∀ a ∈ e.tables, ∀ b ∈ e.tables, a.table.id.covers b.table.id = false
  obsoleteFiles : ∀ q ∈ h.obsolete, q.2.Valid ∧ ∀ role, ∃ i, ⟨tableDir, q.2.fileName role, i⟩ ∈ fs
  onlyTables : ∀ f ∈ fs, f.dir = tableDir →
    ∃ id ∈ e.tables.map (·.table.id) ++ h.obsolete.map (·.2), ∃ role, f.name = id.fileName role
  covered : ∀ q ∈ h.obsolete, ∃ t ∈ e.tables, t.table.id.covers q.2 = true
  ids : (e.tables.map (·.table.id) ++ h.obsolete.map (·.2)).Nodup
  handles : (e.tables.map (·.handle) ++ h.obsolete.map (·.1)).Nodup
  handlesFresh : ∀ k ∈ e.tables.map (·.handle) ++ h.obsolete.map (·.1), k < h.nextSerial
  openings : ∀ q ∈ h.openings, (∃ t ∈ e.tables, t.handle = q.1 ∧ t.table.id = q.2) ∨ q ∈ h.obsolete

/-- `Kept`, and every replaced table awaiting deletion is still held by a scan. -/
structure Sound (e : Engine) (h : Host) (runs : List (List Entry)) (fs : List FileLink) : Prop
    extends Kept e h runs fs where
  held : ∀ q ∈ h.obsolete, q ∈ h.openings

end Engine

/-! ## Frames: what a change to other inodes leaves as it is -/

namespace Table

open Volume

variable {v w : Volume} {t : Table} {es : List Entry}

/-- A table holds the same entries on a volume whose contents at its two inodes are the same. -/
theorem Holds.frame (h : Holds v t es)
    (same : ∀ role i, (t.file role).inode = some i → w.contents i = v.contents i) : Holds w t es := by
  obtain ⟨iD, hD, data⟩ := h.data
  obtain ⟨iI, hI, index⟩ := h.index
  exact ⟨h.storable, ⟨iD, hD, (same .data iD hD).trans data⟩, h.dataLength,
    ⟨iI, hI, (same .index iI hI).trans index⟩, h.indexLength⟩

/-- A stored table stays stored when the contents at its inodes and its two files stay. -/
theorem Stored.frame {fs fs' : List FileLink} {d : String} (h : Stored v fs d t es)
    (same : ∀ role i, (t.file role).inode = some i → w.contents i = v.contents i)
    (files : ∀ role i, ⟨d, t.id.fileName role, i⟩ ∈ fs → ⟨d, t.id.fileName role, i⟩ ∈ fs') :
    Stored w fs' d t es := by
  refine ⟨h.holds.frame same, h.valid, fun role => ?_⟩
  obtain ⟨i, hi, hf⟩ := h.files role
  exact ⟨i, hi, files role i hf⟩

/-- A stored table reads each file from the inode its directory links under the file's name. -/
theorem Stored.link_of_inode {fs : List FileLink} {d : String} (h : Stored v fs d t es)
    {role : FileRole} {i : Nat} (hi : (t.file role).inode = some i) :
    ⟨d, t.id.fileName role, i⟩ ∈ fs := by
  obtain ⟨i', hi', hf⟩ := h.files role
  cases hi.symm.trans hi'
  exact hf

/-- A stored table stays stored on a volume that keeps the contents of every inode of the tree
and keeps the table's two files. -/
theorem Stored.frame_linked {fs fs' : List FileLink} {d : String} (h : Stored v fs d t es)
    (same : ∀ f ∈ fs, w.contents f.inode = v.contents f.inode)
    (files : ∀ role i, ⟨d, t.id.fileName role, i⟩ ∈ fs → ⟨d, t.id.fileName role, i⟩ ∈ fs') :
    Stored w fs' d t es :=
  h.frame (fun _ _ hi => same _ (h.link_of_inode hi)) files

/-- The contents of a volume are its inodes'. -/
theorem contents_eq_of_inodes (same : w.inodes = v.inodes) (i : Nat) : w.contents i = v.contents i := by
  simp only [Volume.contents, same]

end Table

namespace Engine

open Volume Table

/-! ## Consequences of the invariant -/

section Kept

variable {e : Engine} {h : Host} {runs : List (List Entry)} {fs : List FileLink}

theorem Kept.id_ne_obsolete (kept : Kept e h runs fs) {t : Held} (ht : t ∈ e.tables) {q : Nat × TableId}
    (hq : q ∈ h.obsolete) : t.table.id ≠ q.2 :=
  (List.nodup_append.1 kept.ids).2.2 _ (List.mem_map_of_mem ht) _ (List.mem_map_of_mem hq)

theorem Kept.handle_ne_obsolete (kept : Kept e h runs fs) {t : Held} (ht : t ∈ e.tables)
    {q : Nat × TableId} (hq : q ∈ h.obsolete) : t.handle ≠ q.1 :=
  (List.nodup_append.1 kept.handles).2.2 _ (List.mem_map_of_mem ht) _ (List.mem_map_of_mem hq)

/-- A replaced table awaiting deletion is known by its identity. -/
theorem Kept.obsolete_eq_of_id (kept : Kept e h runs fs) {q q' : Nat × TableId} (hq : q ∈ h.obsolete)
    (hq' : q' ∈ h.obsolete) (same : q.2 = q'.2) : q = q' :=
  List.inj_on_of_nodup_map (List.nodup_append.1 kept.ids).2.1 hq hq' same

/-- A replaced table awaiting deletion is known by its handle. -/
theorem Kept.obsolete_eq_of_handle (kept : Kept e h runs fs) {q q' : Nat × TableId}
    (hq : q ∈ h.obsolete) (hq' : q' ∈ h.obsolete) (same : q.1 = q'.1) : q = q' :=
  List.inj_on_of_nodup_map (List.nodup_append.1 kept.handles).2.1 hq hq' same

/-- Every identity the engine knows, of a live table or of one awaiting deletion, is valid. -/
theorem Kept.valid_of_mem (kept : Kept e h runs fs) {id : TableId}
    (hid : id ∈ e.tables.map (·.table.id) ++ h.obsolete.map (·.2)) : id.Valid := by
  rcases List.mem_append.1 hid with live | old
  · obtain ⟨t, ht, rfl⟩ := List.mem_map.1 live
    obtain ⟨es, -, stored⟩ := forall₂_mem_left kept.stored ht
    exact stored.valid
  · obtain ⟨q, hq, rfl⟩ := List.mem_map.1 old
    exact (kept.obsoleteFiles q hq).1

/-- The final and the temporary names of a valid identity the engine does not know are free in
the table directory. -/
theorem Kept.absent (kept : Kept e h runs fs) {id : TableId} (hv : id.Valid)
    (unknown : id ∉ e.tables.map (·.table.id) ++ h.obsolete.map (·.2)) :
    ∀ f ∈ fs, f.dir = tableDir → ∀ role,
      f.name ≠ id.fileName role ∧ f.name ≠ id.fileName role ++ ".tmp" := by
  intro f hf dir role
  obtain ⟨id', hid', role', named⟩ := kept.onlyTables f hf dir
  rw [named]
  refine ⟨fun same => unknown ?_, TableId.fileName_ne_tmp _ _ _ _⟩
  rwa [← ((TableId.fileName_inj (kept.valid_of_mem hid') hv).1 same).1]

/-- The tables of a kept engine hold their entries on any volume that keeps the contents of the
inodes in use and the files of the table directory. -/
theorem Kept.stored_frame (kept : Kept e h runs fs) {w : Volume} {fs' : List FileLink}
    (same : ∀ i < h.volume.nextInode, w.contents i = h.volume.contents i)
    (files : ∀ f ∈ fs, f.dir = tableDir → f ∈ fs') :
    List.Forall₂ (fun t es => Stored w fs' tableDir t.table es) e.tables runs :=
  kept.stored.imp fun {_ _} stored =>
    stored.frame_linked (fun f hf => same _ (kept.laid.fresh f hf)) fun _ _ hf => files _ hf rfl

/-- The log of a kept engine holds its records on any volume that keeps the contents of the
inodes in use. -/
theorem Kept.log_frame (kept : Kept e h runs fs) {w : Volume}
    (same : ∀ i < h.volume.nextInode, w.contents i = h.volume.contents i) :
    ∃ rs, Wal.Appender.Writes w e.wal rs ∧ e.active.entries = replayed rs := by
  obtain ⟨rs, writes, entries⟩ := kept.log
  exact ⟨rs, writes.frame (same _ (kept.laid.fresh _ kept.segment)), entries⟩

/-- Recovering the log segment of a kept engine, followed by what its log still buffers, and
replaying the records gives the active table; a log that syncs every write buffers nothing, so
the segment alone does. -/
theorem Kept.recovers (kept : Kept e h runs fs) :
    replayed (Wal.recover (h.volume.contents e.wal.inode ++ e.wal.buffered)).1 = e.active.entries ∧
      (e.config.sync = .everyWrite →
        replayed (Wal.recover (h.volume.contents e.wal.inode)).1 = e.active.entries) := by
  obtain ⟨rs, writes, entries⟩ := kept.log
  have recovered : (Wal.recover (h.volume.contents e.wal.inode ++ e.wal.buffered)).1 = rs := by
    rw [writes.log, Wal.recover_records writes.fits writes.lsns]
  refine ⟨by rw [recovered, entries], fun every => ?_⟩
  rw [kept.synced every, List.append_nil] at recovered
  rw [recovered, entries]

end Kept

/-- Sorting tables whose identities are listed strictly newest first gives them back. -/
theorem sortTables_of_perm {ts ts' : List Held} (perm : ts'.Perm ts)
    (newest : (ts.map (·.table.id)).Pairwise TableId.Newer) : sortTables ts' = ts :=
  Table.mergeSort_newestFirst_of_perm (fun t : Held => t.table.id) perm newest

/-- A table of a generation above every other table's goes first among them. -/
theorem sortTables_append_of_older {ts : List Held} {t : Held}
    (newest : (ts.map (·.table.id)).Pairwise TableId.Newer)
    (above : ∀ u ∈ ts, u.table.id.generation < t.table.id.generation) :
    sortTables (ts ++ [t]) = t :: ts := by
  apply sortTables_of_perm (List.perm_append_singleton t ts)
  rw [List.map_cons, List.pairwise_cons]
  refine ⟨fun id hid => ?_, newest⟩
  obtain ⟨u, hu, rfl⟩ := List.mem_map.1 hid
  exact .inl (above u hu)

/-- Tables that answer every key alike leave what an engine models as it is. -/
theorem Models.of_tables {e e' : Engine} {runs runs' : List (List Entry)} {m : Bytes → Option Bytes}
    (models : Models e runs m) (active : e'.active = e.active)
    (same : ∀ key, (Run.firstHit runs' key).bind Entry.value = (Run.firstHit runs key).bind Entry.value) :
    Models e' runs' m := by
  intro key
  rw [← models key, active, Run.firstHit_cons, Run.firstHit_cons]
  cases Run.entryOf e.active.entries key with
  | some x => rfl
  | none => exact same key

theorem walDir_mem : walDir ∈ [walDir, tableDir] := List.mem_cons_self

theorem tableDir_mem : tableDir ∈ [walDir, tableDir] := List.mem_cons_of_mem _ List.mem_cons_self

/-- A link of the log directory among two new links of the table directory and `fs` is one of
`fs`. -/
theorem mem_of_walDir_mem_tables {fs : List FileLink} {a b : String} {i j : Nat} {f : FileLink}
    (hf : f ∈ (⟨tableDir, a, i⟩ :: ⟨tableDir, b, j⟩ :: fs : List FileLink)) (dir : f.dir = walDir) :
    f ∈ fs := by
  rcases List.mem_cons.1 hf with rfl | hf
  · exact absurd dir.symm walDir_ne_tableDir
  rcases List.mem_cons.1 hf with rfl | hf
  · exact absurd dir.symm walDir_ne_tableDir
  exact hf

end Engine

end LsmStore
