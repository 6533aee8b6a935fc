import Mathlib
import LsmStore.Wal.Segments
import LsmStore.Proofs.Wal.TornTail
import LsmStore.Proofs.Volume.Layout
import LsmStore.Proofs.Store.Names

/-!
# The log of a generation

An appender writes a log: its records back to back, LSNs counting from 1. The file holds the
front of that log and the write buffer the rest. Appending a record that fits the format puts
its encoding at the end, a sync or a close moves the buffer into the file, and no other file
changes. Recovery of the whole log gives back every record, reports nothing lost and cuts
nothing off.

The log directory holds one segment per generation. Listing it finds their generations in
ascending order, and a checkpoint removes the segments up to a generation and keeps the rest.

## Main definitions

* `Wal.Appender.Extends` — what a write does to an appender, its file and the volume
* `Wal.Appender.Writes` — an appender whose file and buffer hold some records

## Main results

* `Wal.Appender.Writes.append` — appending a record that fits
* `Wal.recover_records` — recovery of records written back to back
* `Wal.checkpoint_laid` — a checkpoint removes the segments up to a generation
-/

namespace LsmStore

namespace Wal

open Volume

namespace Appender

variable {a a' a'' : Appender} {v v' v'' : Volume} {bs cs : Bytes}

/-! ## Writing through the buffer -/

/-- Writing `bs` through an appender: its file followed by its buffer gains `bs` at the end,
its position stays at the end of its file, and no other inode and no link changes. -/
structure Extends (a : Appender) (v : Volume) (bs : Bytes) (a' : Appender) (v' : Volume) :
    Prop where
  inode : a'.inode = a.inode
  written : v'.contents a.inode ++ a'.buffered = v.contents a.inode ++ a.buffered ++ bs
  atEnd : a'.position = (v'.contents a.inode).length
  others : ∀ j, j ≠ a.inode → v'.contents j = v.contents j
  links : v'.links = v.links
  nextInode : v'.nextInode = v.nextInode

theorem Extends.trans (first : Extends a v bs a' v') (second : Extends a' v' cs a'' v'') :
    Extends a v (bs ++ cs) a'' v'' where
  inode := second.inode.trans first.inode
  written := by
    have := second.written
    rw [first.inode, first.written] at this
    rw [this, List.append_assoc]
  atEnd := first.inode ▸ second.atEnd
  others j hj := by rw [second.others j (first.inode ▸ hj), first.others j hj]
  links := second.links.trans first.links
  nextInode := second.nextInode.trans first.nextInode

/-- Changing what an appender counts leaves the bytes as they are. -/
theorem Extends.count (h : Extends a v bs a' v') (lsn uncommitted : Nat) :
    Extends a v bs { a' with nextLsn := lsn, uncommitted } v' :=
  ⟨h.inode, h.written, h.atEnd, h.others, h.links, h.nextInode⟩

theorem put_extends (atEnd : a.position = (v.contents a.inode).length) (empty : a.buffered = [])
    (bs : Bytes) : Extends a v bs (a.put v bs).1 (a.put v bs).2 where
  inode := rfl
  written := by
    simp only [put, atEnd, contents_writeAt_length, if_pos, empty, List.append_nil]
  atEnd := by
    simp only [put, atEnd, contents_writeAt_length, if_pos, List.length_append]
  others j hj := by
    simp only [put, atEnd, contents_writeAt_length, if_neg hj]
  links := by simp [put]
  nextInode := by simp [put]

theorem flushBuffer_extends (atEnd : a.position = (v.contents a.inode).length) :
    Extends a v [] (a.flushBuffer v).1 (a.flushBuffer v).2 := by
  have moved := put_extends (a := { a with buffered := [] }) atEnd rfl a.buffered
  exact ⟨moved.inode, by simpa [flushBuffer] using moved.written, moved.atEnd, moved.others,
    moved.links, moved.nextInode⟩

@[simp] theorem buffered_flushBuffer : (a.flushBuffer v).1.buffered = [] := rfl

@[simp] theorem nextLsn_flushBuffer : (a.flushBuffer v).1.nextLsn = a.nextLsn := rfl

theorem buffer_extends (bs : Bytes) (atEnd : a.position = (v.contents a.inode).length) :
    Extends a v bs { a with buffered := a.buffered ++ bs } v :=
  ⟨rfl, by rw [List.append_assoc], atEnd, fun _ _ => rfl, rfl, rfl⟩

theorem Extends.atEnd' (h : Extends a v bs a' v') : a'.position = (v'.contents a'.inode).length := by
  rw [h.inode]
  exact h.atEnd

theorem write_eq (a : Appender) (v : Volume) (bs : Bytes) : a.write v bs =
    let p := if bufferCapacity < a.buffered.length + bs.length then a.flushBuffer v else (a, v)
    if bufferCapacity ≤ bs.length then p.1.put p.2 bs
    else ({ p.1 with buffered := p.1.buffered ++ bs }, p.2) := rfl

/-- Writing through the buffer puts the bytes at the end of the log, wherever they land. -/
theorem write_extends (atEnd : a.position = (v.contents a.inode).length) (bs : Bytes) :
    Extends a v bs (a.write v bs).1 (a.write v bs).2 := by
  rw [write_eq]
  dsimp only
  generalize flushed : (if bufferCapacity < a.buffered.length + bs.length then a.flushBuffer v
    else (a, v)) = p
  -- the buffer goes to the file first when the bytes do not fit beside it
  have first : Extends a v [] p.1 p.2 ∧
      (p.1.buffered = [] ∨ p.1.buffered.length + bs.length ≤ bufferCapacity) := by
    subst flushed
    by_cases full : bufferCapacity < a.buffered.length + bs.length
    · simp only [if_pos full]
      exact ⟨flushBuffer_extends atEnd, .inl rfl⟩
    · simp only [if_neg full]
      exact ⟨⟨rfl, by rw [List.append_nil], atEnd, fun _ _ => rfl, rfl, rfl⟩, .inr (by omega)⟩
  obtain ⟨first, roomy⟩ := first
  split
  · -- bytes too big for the buffer go to the file, behind an empty buffer
    have empty : p.1.buffered = [] := by
      rcases roomy with empty | fits
      · exact empty
      · exact List.eq_nil_of_length_eq_zero (by omega)
    have := first.trans (put_extends first.atEnd' empty bs)
    rwa [List.nil_append] at this
  · have := first.trans (buffer_extends bs first.atEnd')
    rwa [List.nil_append] at this

@[simp] theorem nextLsn_write : (a.write v bs).1.nextLsn = a.nextLsn := by
  rw [write_eq]
  by_cases full : bufferCapacity < a.buffered.length + bs.length <;>
    by_cases big : bufferCapacity ≤ bs.length <;> simp [full, big, put]

theorem sync_extends (atEnd : a.position = (v.contents a.inode).length) :
    Extends a v [] (a.sync v).1 (a.sync v).2 :=
  (flushBuffer_extends atEnd).count a.nextLsn 0

@[simp] theorem buffered_sync : (a.sync v).1.buffered = [] := rfl

@[simp] theorem nextLsn_sync : (a.sync v).1.nextLsn = a.nextLsn := rfl

theorem append_eq (e : Entry) (ts : Nat)
    (fits : (⟨a.nextLsn, ts, e⟩ : Record).payload.length < 2 ^ 32) :
    a.append v e ts =
      let w := a.write v (Record.encode ⟨a.nextLsn, ts, e⟩)
      let a₁ := { w.1 with nextLsn := nextLsnAfter a.nextLsn, uncommitted := w.1.uncommitted + 1 }
      let due := match a.policy with
        | .everyWrite => true
        | .everyN n => decide (n ≤ a₁.uncommitted)
      .ok (a.nextLsn, (if due then a₁.sync w.2 else (a₁, w.2)).1,
        (if due then a₁.sync w.2 else (a₁, w.2)).2) := by
  simp only [append, Record.encode?, if_pos fits, Except.mapError, Bind.bind, Except.bind]
  rfl

/-- An appender that syncs every write holds nothing back once an append succeeds. -/
theorem buffered_append_of_everyWrite (every : a.policy = .everyWrite) {e : Entry} {ts lsn : Nat}
    (appended : a.append v e ts = .ok (lsn, a', v')) : a'.buffered = [] := by
  by_cases fits : (⟨a.nextLsn, ts, e⟩ : Record).payload.length < 2 ^ 32
  · rw [append_eq e ts fits] at appended
    simp only [every, if_true, Except.ok.injEq, Prod.mk.injEq] at appended
    rw [← appended.2.1]
    rfl
  · simp only [append, Record.encode?, if_neg fits, Except.mapError, Bind.bind, Except.bind] at appended
    cases appended

/-- Appending a record whose payload fits puts its encoding at the end of the log and moves
the LSN on. -/
theorem append_extends (atEnd : a.position = (v.contents a.inode).length) (e : Entry) (ts : Nat)
    (fits : (⟨a.nextLsn, ts, e⟩ : Record).payload.length < 2 ^ 32) :
    ∃ a' v', a.append v e ts = .ok (a.nextLsn, a', v') ∧
      Extends a v (Record.encode ⟨a.nextLsn, ts, e⟩) a' v' ∧ a'.nextLsn = nextLsnAfter a.nextLsn := by
  have written := (write_extends atEnd (Record.encode ⟨a.nextLsn, ts, e⟩)).count
    (nextLsnAfter a.nextLsn) ((a.write v (Record.encode ⟨a.nextLsn, ts, e⟩)).1.uncommitted + 1)
  -- when a sync is due, the buffer follows the record into the file
  have synced := written.trans (sync_extends written.atEnd')
  rw [List.append_nil] at synced
  rw [append_eq e ts fits]
  refine ⟨_, _, rfl, ?_⟩
  dsimp only
  cases a.policy with
  | everyWrite => exact ⟨synced, rfl⟩
  | everyN n =>
    split_ifs
    · exact ⟨synced, rfl⟩
    · exact ⟨written, rfl⟩

/-- A record whose payload does not fit is refused before anything is written. -/
theorem append_of_too_large (e : Entry) (ts : Nat)
    (large : ¬ (⟨a.nextLsn, ts, e⟩ : Record).payload.length < 2 ^ 32) :
    a.append v e ts = .error (.wal (.payloadTooLarge (⟨a.nextLsn, ts, e⟩ : Record).payload.length)) := by
  simp only [append, Record.encode?, if_neg large, Except.mapError, Bind.bind, Except.bind]

@[simp] theorem path_write (bs : Bytes) : (a.write v bs).1.path = a.path := by
  rw [write_eq]
  dsimp only
  split <;> split <;> rfl

@[simp] theorem policy_write (bs : Bytes) : (a.write v bs).1.policy = a.policy := by
  rw [write_eq]
  dsimp only
  split <;> split <;> rfl

@[simp] theorem path_sync : (a.sync v).1.path = a.path := rfl

@[simp] theorem policy_sync : (a.sync v).1.policy = a.policy := rfl

/-- Appending keeps the appender's path and sync policy. -/
theorem path_policy_append {e : Entry} {ts lsn : Nat} (ran : a.append v e ts = .ok (lsn, a', v')) :
    a'.path = a.path ∧ a'.policy = a.policy := by
  by_cases fits : (⟨a.nextLsn, ts, e⟩ : Record).payload.length < 2 ^ 32
  · rw [append_eq e ts fits] at ran
    dsimp only at ran
    cases ran
    -- whether the append syncs changes neither
    split_ifs <;> simp
  · rw [append_of_too_large e ts fits] at ran
    cases ran

/-! ## The records of a log -/

/-- An appender whose file followed by its buffer is the records `rs` back to back, LSNs
counting from 1, each fitting the format; its position is the end of its file and its next LSN
follows the last record's. -/
structure Writes (v : Volume) (a : Appender) (rs : List Record) : Prop where
  log : v.contents a.inode ++ a.buffered = (rs.map Record.encode).flatten
  atEnd : a.position = (v.contents a.inode).length
  fits : ∀ r ∈ rs, r.Fits
  lsns : ∀ i (h : i < rs.length), rs[i].lsn = i + 1
  nextLsn : a.nextLsn = rs.length + 1

/-- A new appender on an empty file writes the empty log. -/
theorem writes_empty (path : String) (i : Nat) (policy : SyncPolicy) (empty : v.contents i = []) :
    Writes v { path, inode := i, position := 0, nextLsn := 1, policy } [] :=
  ⟨by simp [empty], by simp [empty], by simp, by simp, rfl⟩

/-- Bytes that only move from the buffer into the file leave the log as it is. -/
theorem Writes.of_extends (h : Writes v a rs) (moved : Extends a v [] a' v')
    (lsn : a'.nextLsn = a.nextLsn) : Writes v' a' rs where
  log := by rw [moved.inode, moved.written, List.append_nil, h.log]
  atEnd := moved.atEnd'
  fits := h.fits
  lsns := h.lsns
  nextLsn := lsn.trans h.nextLsn

/-- Appending a record that fits adds it to the log with the next LSN. -/
theorem Writes.append (h : Writes v a rs) (e : Entry) {ts : Nat} (stamp : ts < 2 ^ 64)
    (room : rs.length + 2 < 2 ^ 64)
    (fits : (⟨rs.length + 1, ts, e⟩ : Record).payload.length < 2 ^ 32) :
    ∃ a' v', a.append v e ts = .ok (rs.length + 1, a', v') ∧
      Writes v' a' (rs ++ [⟨rs.length + 1, ts, e⟩]) ∧ Extends a v (Record.encode ⟨rs.length + 1, ts, e⟩) a' v' := by
  obtain ⟨a', v', appended, ext, lsn⟩ := append_extends h.atEnd e ts (h.nextLsn ▸ fits)
  rw [h.nextLsn] at appended ext
  refine ⟨a', v', appended, ⟨?_, ext.atEnd', ?_, ?_, ?_⟩, ext⟩
  · rw [ext.inode, ext.written, h.log, List.map_append, List.flatten_append]
    simp
  · intro r hr
    rcases List.mem_append.1 hr with hr | hr
    · exact h.fits r hr
    · rw [List.mem_singleton.1 hr]
      exact ⟨show rs.length + 1 < 2 ^ 64 by omega, stamp, fits⟩
  · intro i hi
    rw [List.length_append, List.length_singleton] at hi
    by_cases old : i < rs.length
    · rw [List.getElem_append_left old]
      exact h.lsns i old
    · rw [List.getElem_append_right (by omega)]
      simp only [List.getElem_singleton]
      omega
  · rw [lsn, h.nextLsn, nextLsnAfter, Nat.mod_eq_of_lt (by omega)]
    simp

/-- Closing an appender whose buffer is empty leaves the volume as it is. -/
theorem close_of_buffered_nil (v : Volume) (empty : a.buffered = []) : a.close v = v := by
  simp [close, flushBuffer, put, Volume.writeAt, empty]

/-- A sync moves the whole log into the file. -/
theorem Writes.sync (h : Writes v a rs) :
    Writes (a.sync v).2 (a.sync v).1 rs ∧ (a.sync v).2.contents a.inode = (rs.map Record.encode).flatten := by
  have moved := sync_extends (v := v) h.atEnd
  refine ⟨h.of_extends moved rfl, ?_⟩
  have := moved.written
  rw [buffered_sync, List.append_nil, List.append_nil, h.log] at this
  exact this

/-- The log stays written on a volume with the same contents at the appender's inode. -/
theorem Writes.frame (h : Writes v a rs) (same : v'.contents a.inode = v.contents a.inode) :
    Writes v' a rs where
  log := same ▸ h.log
  atEnd := same ▸ h.atEnd
  fits := h.fits
  lsns := h.lsns
  nextLsn := h.nextLsn

/-- Closing an appender leaves the whole log in the file. -/
theorem Writes.close (h : Writes v a rs) : (a.close v).contents a.inode = (rs.map Record.encode).flatten := by
  have := (flushBuffer_extends (v := v) h.atEnd).written
  rw [buffered_flushBuffer, List.append_nil, List.append_nil, h.log] at this
  exact this

/-! ## Opening a log -/

/-- Opening a log at a name its directory lacks creates the file, empty, at the next fresh
inode, and starts writing at LSN 1. -/
theorem open_absent {ds : List String} {fs : List FileLink} {d n : String} (h : v.Laid ds fs)
    (hd : d ∈ ds) (hn : IsName n) (absent : ∀ f ∈ fs, f.key ≠ (d, n)) (policy : SyncPolicy) :
    Appender.open v (join d n) policy =
      .ok ({ path := join d n, inode := v.nextInode, position := 0, nextLsn := 1, policy },
        v.create (join d n) []) := by
  simp only [Appender.open, h.find?_of_absent hd hn absent, h.touch_of_absent hd hn absent,
    Except.mapError, pure, Except.pure, Bind.bind, Except.bind, contents_create, if_pos,
    List.length_nil, Nat.lt_irrefl, if_false, Nat.min_self]

end Appender

/-! ## Recovering a log -/

variable {rs : List Record}

/-- Records written back to back are all read back; the report counts them and finds nothing
lost and nothing after them. -/
theorem scan_records (fits : ∀ r ∈ rs, r.Fits) (lsns : ∀ i (h : i < rs.length), rs[i].lsn = i + 1) :
    scan (rs.map Record.encode).flatten =
      (rs, { recovered := rs.length, lastLsn := rs.length,
             validLen := ((rs.map Record.encode).flatten).length }) := by
  have read := @scanFrom_records_append rs fits (Reader.start _) []
    (List.append_nil _).symm (by simpa [Reader.start] using lsns) {} rfl rfl
  -- past the last record nothing is left to read
  simp only [scan, read, scanFrom_of_unread_nil]
  simp [Reader.start]

/-- Recovery of records written back to back gives them back and leaves the file whole. -/
theorem recover_records (fits : ∀ r ∈ rs, r.Fits) (lsns : ∀ i (h : i < rs.length), rs[i].lsn = i + 1) :
    recover (rs.map Record.encode).flatten =
      (rs, { recovered := rs.length, lastLsn := rs.length,
             validLen := ((rs.map Record.encode).flatten).length },
        (rs.map Record.encode).flatten) := by
  simp only [recover, scan_records fits lsns]
  rfl

/-- Replaying a segment of the tree that holds records written back to back gives them back,
finds no loss, and leaves the volume as it is. -/
theorem replay_laid {ds : List String} {fs : List FileLink} {d : String} {g i : Nat}
    (h : v.Laid ds fs) (hf : ⟨d, segmentName g, i⟩ ∈ fs)
    (log : v.contents i = (rs.map Record.encode).flatten) (fits : ∀ r ∈ rs, r.Fits)
    (lsns : ∀ i (h : i < rs.length), rs[i].lsn = i + 1) :
    ∃ report : Report, replay v d g = .ok (rs, report, v) ∧ report.hasDataLoss = false := by
  refine ⟨{ recovered := rs.length, lastLsn := rs.length,
            validLen := ((rs.map Record.encode).flatten).length }, ?_, rfl⟩
  simp only [replay, h.read_of_mem hf, log, Except.mapError, recover_records fits lsns,
    Bind.bind, Except.bind]
  rfl

/-! ## Segments and checkpoints -/

variable {ds : List String} {fs : List FileLink} {d : String}

/-- Sorting puts any two arrangements of the same numbers in the same order. -/
theorem mergeSort_eq_of_perm {l₁ l₂ : List Nat} (same : l₁.Perm l₂) :
    l₁.mergeSort (· ≤ ·) = l₂.mergeSort (· ≤ ·) :=
  ((List.mergeSort_perm _ _).trans (same.trans (List.mergeSort_perm _ _).symm)).eq_of_pairwise'
    (List.pairwise_mergeSort' _ _) (List.pairwise_mergeSort' _ _)

/-- The generations a segment listing of the tree finds: those its files' names in `d` read as,
ascending. -/
def segmentGens (fs : List FileLink) (d : String) : List Nat :=
  (fs.filterMap fun f => if f.dir = d then parseSegmentName? f.name else none).mergeSort (· ≤ ·)

/-- Listing a log directory of the tree finds the generations of its segments, ascending. -/
theorem segments_laid (h : v.Laid ds fs) (hd : d ∈ ds) : segments v d = .ok (segmentGens fs d) := by
  have listed : ((v.names d).filterMap parseSegmentName?).Perm
      (fs.filterMap fun f => if f.dir = d then parseSegmentName? f.name else none) := by
    refine ((h.names_perm hd).filterMap _).trans (List.Perm.of_eq ?_)
    rw [List.filterMap_filterMap]
    congr 1
    funext f
    by_cases same : f.dir = d <;> simp [same]
  simp only [segments, h.children hd, Except.mapError, Bind.bind, Except.bind, pure, Except.pure,
    segmentGens, mergeSort_eq_of_perm listed]

/-- Removing the segments of some generations from a directory of the tree drops their files
and no other, keeping every inode's contents. -/
theorem forM_removeIfPresent_laid (h : v.Laid ds fs) (hd : d ∈ ds) (gens : List Nat)
    (words : ∀ g ∈ gens, g < 2 ^ 64) :
    ∃ w, (gens.forM fun g => VolumeM.removeIfPresent (join d (segmentName g))).run.run v =
        (.ok (), w) ∧
      w.Laid ds (fs.filter fun f => !gens.any fun g => f.key == (d, segmentName g)) ∧
      w.inodes = v.inodes ∧ w.nextInode = v.nextInode := by
  induction gens generalizing v fs with
  | nil => exact ⟨v, rfl, by simpa using h, rfl, rfl⟩
  | cons g gs ih =>
    have word := words g List.mem_cons_self
    obtain ⟨w, removed, laid, inodes, next⟩ :=
      VolumeM.removeIfPresent_laid h hd (segmentName_isName word)
    obtain ⟨w', rest, laid', inodes', next'⟩ :=
      ih laid fun g' hg' => words g' (List.mem_cons_of_mem g hg')
    refine ⟨w', ?_, ?_, inodes'.trans inodes, next'.trans next⟩
    · show (VolumeM.removeIfPresent _ >>= fun _ => gs.forM _).run.run v = _
      rw [VolumeM.run_bind, removed]
      exact rest
    · rw [List.filter_filter] at laid'
      convert laid' using 2
      funext f
      simp only [List.any_cons, Bool.not_or, Bool.and_comm, bne]

/-- In an ascending list, what lies at or below a bound is at the front. -/
theorem mem_takeWhile_of_le {l : List Nat} (sorted : l.Pairwise (· ≤ ·)) {x g : Nat} (hx : x ∈ l)
    (le : x ≤ g) : x ∈ l.takeWhile (· ≤ g) := by
  induction l with
  | nil => cases hx
  | cons y ys ih =>
    obtain ⟨below, rest⟩ := List.pairwise_cons.1 sorted
    rcases List.mem_cons.1 hx with rfl | hx
    · simp [le]
    · have first : y ≤ g := Nat.le_trans (below x hx) le
      simp only [List.takeWhile_cons, first, decide_true]
      exact List.mem_cons_of_mem y (ih rest hx)

/-- A checkpoint at generation `g` removes, from a log directory of the tree that holds only
segments, those of generation `g` and below, and keeps every other file and every inode's
contents. -/
theorem checkpoint_laid (h : v.Laid ds fs) (hd : d ∈ ds)
    (onlySegments : ∀ f ∈ fs, f.dir = d → ∃ x < 2 ^ 64, f.name = segmentName x) (g : Nat) :
    ∃ w, (checkpoint d g).run.run v = (.ok (), w) ∧
      w.Laid ds (fs.filter fun f => !(f.dir == d && (parseSegmentName? f.name).any (· ≤ g))) ∧
      w.inodes = v.inodes ∧ w.nextInode = v.nextInode := by
  set due := (segmentGens fs d).takeWhile (· ≤ g)
  have listed : ∀ x ∈ segmentGens fs d, ∃ f ∈ fs, f.dir = d ∧ parseSegmentName? f.name = some x := by
    intro x hx
    obtain ⟨f, hf, found⟩ := List.mem_filterMap.1 ((List.mergeSort_perm _ _).mem_iff.1 hx)
    by_cases same : f.dir = d
    · exact ⟨f, hf, same, by simpa [same] using found⟩
    · simp [same] at found
  have words : ∀ x ∈ due, x < 2 ^ 64 := fun x hx =>
    have ⟨_, _, _, parsed⟩ := listed x ((List.takeWhile_sublist _).subset hx)
    lt_of_parseSegmentName? parsed
  obtain ⟨w, removed, laid, inodes, next⟩ := forM_removeIfPresent_laid h hd due words
  refine ⟨w, ?_, ?_, inodes, next⟩
  · simp only [checkpoint, VolumeM.run_bind, VolumeM.run_get, VolumeM.lift_run, segments_laid h hd]
    exact removed
  · convert laid using 1
    refine List.filter_congr fun f hf => ?_
    by_cases same : f.dir = d
    · -- a segment goes exactly when its generation is due
      obtain ⟨x, hx, named⟩ := onlySegments f hf same
      have sorted : (segmentGens fs d).Pairwise (· ≤ ·) := List.pairwise_mergeSort' _ _
      have present : x ∈ segmentGens fs d :=
        (List.mergeSort_perm _ _).mem_iff.2
          (List.mem_filterMap.2 ⟨f, hf, by simp [same, named, parseSegmentName?_segmentName hx]⟩)
      have hits : due.any (fun g' => f.key == (d, segmentName g')) = decide (x ≤ g) := by
        rw [Bool.eq_iff_iff, List.any_eq_true, decide_eq_true_iff]
        constructor
        · rintro ⟨g', hg', hit⟩
          have : x = g' := by
            simpa [FileLink.key, same, named, segmentName_inj hx (words g' hg')] using hit
          subst this
          simpa using List.mem_takeWhile_imp hg'
        · intro le
          exact ⟨x, mem_takeWhile_of_le sorted present le, by simp [FileLink.key, same, named]⟩
      simp [hits, same, named, parseSegmentName?_segmentName hx]
    · have misses : due.any (fun g' => f.key == (d, segmentName g')) = false := by
        simp [FileLink.key, same]
      simp [misses, same]

end Wal

end LsmStore
