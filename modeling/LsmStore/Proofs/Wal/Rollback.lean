import Mathlib
import LsmStore.Wal.Writer
import LsmStore.Proofs.Wal.Continue

/-!
# Rolling a log back

A writer whose writes and fsyncs may fail keeps exactly the appends a client may count on. An
append is retained when it succeeded and no write or sync failed between it and the next
successful sync. Under group commit a failure discards appends that had already succeeded, and
the LSNs they took are handed out again, so the file must be cut back past whatever the buffer
had already pushed into it.

Everything rests on what a failure can leave behind. A write that fails has only added bytes at
the end of the file (`Appender.Grows`), since every write goes to the end of the file, and the
synced records stand at the front of the file. Cutting the file back to the synced length
therefore leaves exactly the synced records. A write through the buffer that succeeds does what
the appender's write does, so the writer keeps its log as the appender keeps one, and the buffer
only ever reaches the file whole, so the file always ends on a record boundary.

The invariant `Writer.Retains` ties a writer to the records it has synced and those appended
since. One lemma per outcome of a call keeps it (a successful append, a successful sync, a
rollback after a failure); `Writer.Call.retain` says, from the answers alone, which records a
client may count on, and a run keeps the invariant for them.

## Main definitions

* `Appender.Grows` — a file that only gained bytes at its end
* `Writer.Retains` — a writer whose file and buffer hold its synced and pending records
* `Writer.Call`, `Writer.perform`, `Writer.performAll` — the calls a client makes, with how their
  I/O turns out
* `Writer.Call.retain`, `Writer.Call.retainAll` — the records a client may count on after calls

## Main results

* `Appender.write_whole` — the buffer reaches the file whole
* `Writer.append_of_reliable` — when nothing fails, the writer appends as the appender does
* `Writer.Retains.rollback`, `sync`, `append` — each outcome of a call keeps the invariant
* `Writer.rollback_keeps_retained` — a writer keeps exactly the retained appends, through any
  pattern of failures
-/

namespace LsmStore

namespace Wal

open Volume

namespace Appender

variable {a a' : Appender} {v v' : Volume} {bs : Bytes} {budget budget' : Budget}

/-! ## Writes that may fail part way -/

/-- From `v` to `v'` the file at inode `i` only gained bytes at its end, and no link and no
fresh inode changed. -/
structure Grows (i : Nat) (v v' : Volume) : Prop where
  kept : v.contents i <+: v'.contents i
  links : v'.links = v.links
  nextInode : v'.nextInode = v.nextInode

theorem Grows.trans {i : Nat} {v₁ v₂ v₃ : Volume} (first : Grows i v₁ v₂) (second : Grows i v₂ v₃) :
    Grows i v₁ v₃ :=
  ⟨first.kept.trans second.kept, second.links.trans first.links,
    second.nextInode.trans first.nextInode⟩

/-- A write at the end of the file only adds to it. -/
theorem put_grows (atEnd : a.position = (v.contents a.inode).length) (bs : Bytes) :
    Grows a.inode v (a.put v bs).2 where
  kept := by
    rw [put, atEnd, contents_writeAt_length, if_pos rfl]
    exact List.prefix_append _ _
  links := by simp [put]
  nextInode := by simp [put]

/-- Pushing the buffer out only adds to the file. -/
theorem flushBuffer_grows (atEnd : a.position = (v.contents a.inode).length) :
    Grows a.inode v (a.flushBuffer v).2 :=
  put_grows (a := { a with buffered := [] }) atEnd _

theorem putWithin_ok (ran : a.putWithin v bs budget = .ok (a', v', budget')) :
    a' = (a.put v bs).1 ∧ v' = (a.put v bs).2 := by
  unfold putWithin at ran
  split at ran
  · cases ran
    exact ⟨rfl, rfl⟩
  · split at ran
    · cases ran
      exact ⟨rfl, rfl⟩
    · cases ran

/-- A write that fails has delivered part of its bytes at the end of the file. -/
theorem putWithin_error {f : IoFault} (atEnd : a.position = (v.contents a.inode).length)
    (ran : a.putWithin v bs budget = .error (f, v')) : Grows a.inode v v' := by
  unfold putWithin at ran
  split at ran
  · cases ran
  · split at ran
    · cases ran
    · cases ran
      exact put_grows atEnd _

theorem flushWithin_ok (ran : a.flushWithin v budget = .ok (a', v', budget')) :
    a' = (a.flushBuffer v).1 ∧ v' = (a.flushBuffer v).2 :=
  putWithin_ok ran

theorem flushWithin_error {f : IoFault} (atEnd : a.position = (v.contents a.inode).length)
    (ran : a.flushWithin v budget = .error (f, v')) : Grows a.inode v v' :=
  putWithin_error (a := { a with buffered := [] }) atEnd ran

/-- A write through the buffer that succeeds does what `write` does. -/
theorem writeWithin_ok (ran : a.writeWithin v bs budget = .ok (a', v', budget')) :
    a' = (a.write v bs).1 ∧ v' = (a.write v bs).2 := by
  rw [writeWithin] at ran
  rw [write_eq]
  dsimp only
  -- the buffer went to the file first exactly when `write` pushes it
  by_cases full : bufferCapacity < a.buffered.length + bs.length
  · rw [if_pos full] at ran ⊢
    split at ran
    · cases ran
    · rename_i a₁ v₁ budget₁ flushed
      obtain ⟨rfl, rfl⟩ := flushWithin_ok flushed
      split at ran
      · rw [if_pos ‹_›]
        exact putWithin_ok ran
      · cases ran
        rw [if_neg ‹_›]
        exact ⟨rfl, rfl⟩
  · rw [if_neg full] at ran ⊢
    dsimp only at ran
    split at ran
    · rw [if_pos ‹_›]
      exact putWithin_ok ran
    · cases ran
      rw [if_neg ‹_›]
      exact ⟨rfl, rfl⟩

/-- A write through the buffer that fails has only added bytes at the end of the file. -/
theorem writeWithin_error {f : IoFault} (atEnd : a.position = (v.contents a.inode).length)
    (ran : a.writeWithin v bs budget = .error (f, v')) : Grows a.inode v v' := by
  rw [writeWithin] at ran
  by_cases full : bufferCapacity < a.buffered.length + bs.length
  · rw [if_pos full] at ran
    split at ran
    · -- pushing the buffer out failed
      rename_i failed
      cases ran
      exact flushWithin_error atEnd failed
    · -- the buffer went out; then writing the bytes themselves failed
      rename_i a₁ v₁ budget₁ flushed
      obtain ⟨rfl, rfl⟩ := flushWithin_ok flushed
      split at ran
      · exact (flushBuffer_grows atEnd).trans
          (putWithin_error (a := (a.flushBuffer v).1) (flushBuffer_extends atEnd).atEnd' ran)
      · cases ran
  · rw [if_neg full] at ran
    dsimp only at ran
    split at ran
    · exact putWithin_error atEnd ran
    · cases ran

theorem putWithin_none : a.putWithin v bs none = .ok ((a.put v bs).1, (a.put v bs).2, none) := rfl

/-- With no failure to come, a write through the buffer is `write`. -/
theorem writeWithin_none :
    a.writeWithin v bs none = .ok ((a.write v bs).1, (a.write v bs).2, none) := by
  rw [writeWithin, write_eq]
  by_cases full : bufferCapacity < a.buffered.length + bs.length <;>
    by_cases big : bufferCapacity ≤ bs.length <;>
    simp [full, big, flushWithin, flushBuffer, putWithin_none]

/-- A write through the buffer that succeeds only adds to the file. -/
theorem write_grows (atEnd : a.position = (v.contents a.inode).length) (bs : Bytes) :
    Grows a.inode v (a.write v bs).2 := by
  rw [write_eq]
  dsimp only
  by_cases full : bufferCapacity < a.buffered.length + bs.length
  · rw [if_pos full]
    split
    · exact (flushBuffer_grows atEnd).trans
        (put_grows (a := (a.flushBuffer v).1) (flushBuffer_extends atEnd).atEnd' bs)
    · exact flushBuffer_grows atEnd
  · rw [if_neg full]
    split
    · exact put_grows atEnd bs
    · exact ⟨List.prefix_refl _, rfl, rfl⟩

/-! ## Whole records in the file -/

/-- Writing a record through the buffer keeps the file at a record boundary. When the file
holds the first `j` of the records `rs` whose bytes the file and the buffer hold, afterwards it
holds the first `j'` of `rs ++ [r]`, for some `j'` from `j` on: the buffer only ever goes to the
file whole, and a record too big for it goes to the file right behind it. -/
theorem write_whole (atEnd : a.position = (v.contents a.inode).length) {rs : List Record}
    {j : Nat} (le : j ≤ rs.length)
    (file : v.contents a.inode = ((rs.take j).map Record.encode).flatten)
    (log : v.contents a.inode ++ a.buffered = (rs.map Record.encode).flatten) (r : Record) :
    ∃ j', j ≤ j' ∧ j' ≤ rs.length + 1 ∧
      (a.write v r.encode).2.contents a.inode = (((rs ++ [r]).take j').map Record.encode).flatten := by
  have flushed : (a.flushBuffer v).2.contents a.inode = (rs.map Record.encode).flatten := by
    have moved := (flushBuffer_extends (v := v) atEnd).written
    rwa [buffered_flushBuffer, List.append_nil, List.append_nil, log] at moved
  have all : ((rs ++ [r]).map Record.encode).flatten = (rs.map Record.encode).flatten ++ r.encode := by
    simp
  have put_end : ∀ {a₁ : Appender} {v₁ : Volume}, a₁.inode = a.inode →
      a₁.position = (v₁.contents a.inode).length →
      v₁.contents a.inode = (rs.map Record.encode).flatten →
      (a₁.put v₁ r.encode).2.contents a.inode = (((rs ++ [r]).take (rs.length + 1)).map
        Record.encode).flatten := by
    intro a₁ v₁ inode atEnd₁ whole
    rw [List.take_of_length_le (by simp), all, ← whole, put, atEnd₁, inode, contents_writeAt_length,
      if_pos rfl]
  rw [write_eq]
  dsimp only
  by_cases full : bufferCapacity < a.buffered.length + r.encode.length
  · -- the buffer goes to the file first, so the file holds all of `rs`
    rw [if_pos full]
    split
    · exact ⟨rs.length + 1, by omega, le_refl _,
        put_end rfl (flushBuffer_extends atEnd).atEnd flushed⟩
    · refine ⟨rs.length, le, by omega, ?_⟩
      rw [flushed, List.take_left' rfl]
  · rw [if_neg full]
    split
    · -- a record too big for the buffer finds it empty, so the file holds all of `rs`
      rename_i big
      have empty : a.buffered = [] := List.eq_nil_of_length_eq_zero (by omega)
      rw [empty, List.append_nil] at log
      exact ⟨rs.length + 1, by omega, le_refl _, put_end rfl atEnd log⟩
    · refine ⟨j, le_refl j, by omega, ?_⟩
      rw [List.take_append_of_le_length le]
      exact file

end Appender

/-! ## The writer's calls -/

namespace Writer

variable {w w' : Writer} {v v' : Volume} {io : Io} {budget : Budget} {bytes : Bytes}

/-- A sync that succeeds is the appender's sync, and moves the synced length and LSN up to the
present ones. -/
theorem syncWithin_ok (ran : w.syncWithin v io budget = .ok (w', v')) :
    w'.appender = (w.appender.sync v).1 ∧ v' = (w.appender.sync v).2 ∧
      w'.syncedLen = w.syncedLen + w.unsynced ∧ w'.syncedLsn = w.appender.nextLsn ∧
      w'.unsynced = 0 := by
  unfold syncWithin at ran
  split at ran
  · cases ran
  · rename_i a₁ v₁ budget₁ flushed
    obtain ⟨rfl, rfl⟩ := Appender.flushWithin_ok flushed
    split at ran
    · cases ran
    · cases ran
      exact ⟨rfl, rfl, rfl, rfl, rfl⟩

/-- A sync that fails has only added bytes at the end of the file. -/
theorem syncWithin_error {f : IoFault}
    (atEnd : w.appender.position = (v.contents w.appender.inode).length)
    (ran : w.syncWithin v io budget = .error (f, v')) : Appender.Grows w.appender.inode v v' := by
  unfold syncWithin at ran
  split at ran
  · rename_i failed
    cases ran
    exact Appender.flushWithin_error atEnd failed
  · rename_i a₁ v₁ budget₁ flushed
    obtain ⟨rfl, rfl⟩ := Appender.flushWithin_ok flushed
    split at ran
    · cases ran
      exact Appender.flushBuffer_grows atEnd
    · cases ran

/-- A record written that succeeds went through the buffer as `write` does and was counted;
when its policy says so, a sync followed and moved the synced length and LSN up. -/
theorem writeRecord_ok (ran : w.writeRecord v bytes io = .ok (w', v')) :
    let a₁ : Appender := { (w.appender.write v bytes).1 with
      nextLsn := nextLsnAfter w.appender.nextLsn,
      uncommitted := (w.appender.write v bytes).1.uncommitted + 1 }
    let v₁ := (w.appender.write v bytes).2
    if w.appender.policy.syncsAt a₁.uncommitted then
      w'.appender = (a₁.sync v₁).1 ∧ v' = (a₁.sync v₁).2 ∧
        w'.syncedLen = w.syncedLen + (w.unsynced + bytes.length) ∧
        w'.syncedLsn = nextLsnAfter w.appender.nextLsn ∧ w'.unsynced = 0
    else w' = { w with appender := a₁, unsynced := w.unsynced + bytes.length } ∧ v' = v₁ := by
  unfold writeRecord at ran
  split at ran
  · cases ran
  · rename_i a₁ v₁ budget₁ wrote
    obtain ⟨rfl, rfl⟩ := Appender.writeWithin_ok wrote
    dsimp only at ran ⊢
    split at ran
    · rw [if_pos ‹_›]
      exact syncWithin_ok ran
    · rw [if_neg ‹_›]
      cases ran
      exact ⟨rfl, rfl⟩

/-- A record written that fails has only added bytes at the end of the file. -/
theorem writeRecord_error {f : IoFault}
    (atEnd : w.appender.position = (v.contents w.appender.inode).length)
    (ran : w.writeRecord v bytes io = .error (f, v')) : Appender.Grows w.appender.inode v v' := by
  unfold writeRecord at ran
  split at ran
  · rename_i failed
    cases ran
    exact Appender.writeWithin_error atEnd failed
  · rename_i a₁ v₁ budget₁ wrote
    obtain ⟨rfl, rfl⟩ := Appender.writeWithin_ok wrote
    have grown := Appender.write_grows atEnd bytes
    have atEnd₁ := (Appender.write_extends atEnd bytes).atEnd'
    dsimp only at ran
    split at ran
    · exact grown.trans (Appender.inode_write ▸ syncWithin_error atEnd₁ ran)
    · cases ran

/-- A record written that succeeds is an append of the appender: the writer keeps a log as the
appender does. -/
theorem writeRecord_append {e : Entry} {ts : Nat}
    (small : (⟨w.appender.nextLsn, ts, e⟩ : Record).payload.length < 2 ^ 32)
    (ran : w.writeRecord v (Record.encode ⟨w.appender.nextLsn, ts, e⟩) io = .ok (w', v')) :
    w.appender.append v e ts = .ok (w.appender.nextLsn, w'.appender, v') := by
  have spec := writeRecord_ok ran
  rw [Appender.append_eq e ts small]
  dsimp only at spec ⊢
  -- both decide on a sync by the policy and the count of unsynced records
  cases policy : w.appender.policy with
  | everyWrite =>
    simp only [policy, SyncPolicy.syncsAt, if_true] at spec ⊢
    rw [spec.1, spec.2.1]
  | everyN n =>
    simp only [policy, SyncPolicy.syncsAt] at spec ⊢
    split_ifs at spec ⊢
    · rw [spec.1, spec.2.1]
    · rw [spec.1, spec.2]

/-- With no failure to come, a record written succeeds. -/
theorem writeRecord_reliable : ∃ w' v', w.writeRecord v bytes {} = .ok (w', v') := by
  unfold writeRecord
  rw [Appender.writeWithin_none]
  dsimp only
  split
  · exact ⟨_, _, rfl⟩
  · exact ⟨_, _, rfl⟩

/-- When nothing fails, the writer's append is the appender's: it answers the next LSN, and its
appender and volume are those the appender's append leaves. -/
theorem append_of_reliable {e : Entry} {ts : Nat}
    (small : (⟨w.appender.nextLsn, ts, e⟩ : Record).payload.length < 2 ^ 32) :
    (w.append v e ts {}).1 = .ok w.appender.nextLsn ∧
      w.appender.append v e ts = .ok (w.appender.nextLsn, (w.append v e ts {}).2.1.appender,
        (w.append v e ts {}).2.2) := by
  obtain ⟨w', v', ran⟩ : ∃ w' v',
      w.writeRecord v (Record.encode ⟨w.appender.nextLsn, ts, e⟩) {} = .ok (w', v') :=
    writeRecord_reliable
  have written : (⟨w.appender.nextLsn, ts, e⟩ : Record).encode? =
      .ok (Record.encode ⟨w.appender.nextLsn, ts, e⟩) := by
    rw [Record.encode?, if_pos small]
  simp only [append, written, ran]
  exact ⟨trivial, writeRecord_append small ran⟩

/-! ## The log a writer retains -/

/-- LSNs counting from 1 leave the last record with the LSN of the count. -/
theorem lastLsnOf_of_lsns {rs : List Record} (lsns : ∀ i (h : i < rs.length), rs[i].lsn = i + 1) :
    lastLsnOf rs = rs.length := by
  rcases List.eq_nil_or_concat rs with rfl | ⟨xs, x, rfl⟩
  · rfl
  · rw [List.concat_eq_append] at lsns ⊢
    have last := lsns xs.length (by simp)
    rw [List.getElem_concat_length rfl] at last
    simp [last]

/-- LSNs counting from 1 go on counting when a record with the next LSN follows. -/
theorem lsns_concat {rs : List Record} {r : Record}
    (lsns : ∀ i (h : i < rs.length), rs[i].lsn = i + 1) (next : r.lsn = rs.length + 1) :
    ∀ i (h : i < (rs ++ [r]).length), (rs ++ [r])[i].lsn = i + 1 := by
  intro i hi
  rw [List.length_append, List.length_singleton] at hi
  rcases Nat.lt_succ_iff_lt_or_eq.1 hi with old | rfl
  · rw [List.getElem_append_left old]
    exact lsns i old
  · rw [List.getElem_concat_length rfl]
    exact next

/-- The records a client may count on after an append of `r` succeeded, from the synced and the
pending ones before: `r` joins the pending records, and they all become synced when the policy
syncs at their count. -/
def keepAppended (p : SyncPolicy) (kept : List Record × List Record) (r : Record) :
    List Record × List Record :=
  if p.syncsAt (kept.2.length + 1) then (kept.1 ++ kept.2 ++ [r], []) else (kept.1, kept.2 ++ [r])

variable {ds : List String} {fs : List FileLink} {d n : String} {p : SyncPolicy}
  {w w' : Writer} {v v' : Volume} {done pending : List Record}

/-- A writer with policy `p` on the file at `join d n` of a tree of files, whose log is the
records `done`, synced, followed by the records `pending`, appended since the last successful
sync. Its appender keeps that log, with LSNs counting from 1; the file holds whole records, the
synced ones and maybe some of the pending ones; the synced length and LSN are those just past
the synced records; and the writer counts the pending records and their bytes. -/
structure Retains (ds : List String) (fs : List FileLink) (d n : String) (p : SyncPolicy)
    (v : Volume) (w : Writer) (done pending : List Record) : Prop where
  continues : Appender.Continues ds fs d n p v w.appender (done ++ pending)
  lsns : ∀ i (h : i < (done ++ pending).length), (done ++ pending)[i].lsn = i + 1
  whole : ∃ j, done.length ≤ j ∧ j ≤ (done ++ pending).length ∧
    v.contents w.appender.inode = (((done ++ pending).take j).map Record.encode).flatten
  syncedLen : w.syncedLen = ((done.map Record.encode).flatten).length
  syncedLsn : w.syncedLsn = nextLsnAfter (lastLsnOf done)
  unsynced : w.unsynced = ((pending.map Record.encode).flatten).length
  uncommitted : w.appender.uncommitted = pending.length

namespace Retains

/-- The synced records stand at the front of the file. -/
theorem synced_in_front (h : Retains ds fs d n p v w done pending) :
    (done.map Record.encode).flatten <+: v.contents w.appender.inode := by
  obtain ⟨j, lo, -, file⟩ := h.whole
  have front : (done ++ pending).take j = done ++ pending.take (j - done.length) := by
    rw [List.take_append, List.take_of_length_le lo]
  rw [file, front, List.map_append, List.flatten_append]
  exact List.prefix_append _ _

/-- The next LSN is one past the count of records, while that count leaves room. -/
theorem nextLsn_eq (h : Retains ds fs d n p v w done pending)
    (room : (done ++ pending).length + 1 < 2 ^ 64) :
    w.appender.nextLsn = (done ++ pending).length + 1 := by
  rw [h.continues.nextLsn, lastLsnOf_of_lsns h.lsns, nextLsnAfter, Nat.mod_eq_of_lt room]

/-- A writer whose buffer is empty, whose synced length and LSN are those past all of its
records, and which counts nothing unsynced, retains all of them, synced. -/
theorem of_synced {rs : List Record} (continues : Appender.Continues ds fs d n p v w.appender rs)
    (lsns : ∀ i (h : i < rs.length), rs[i].lsn = i + 1) (empty : w.appender.buffered = [])
    (len : w.syncedLen = ((rs.map Record.encode).flatten).length)
    (lsn : w.syncedLsn = nextLsnAfter (lastLsnOf rs)) (unsynced : w.unsynced = 0)
    (zero : w.appender.uncommitted = 0) : Retains ds fs d n p v w rs [] := by
  have file : v.contents w.appender.inode = (rs.map Record.encode).flatten := by
    rw [← List.append_nil (v.contents _), ← empty]
    exact continues.log
  refine ⟨by rwa [List.append_nil], by simpa using lsns, ⟨rs.length, le_refl _, by simp, ?_⟩, len,
    lsn, by rw [unsynced]; rfl, zero⟩
  rw [List.append_nil, List.take_length, file]

/-- A rollback after a failure that only added bytes to the file leaves the synced records,
all in the file, and nothing pending. -/
theorem rollback (h : Retains ds fs d n p v w done pending)
    (grown : Appender.Grows w.appender.inode v v') :
    Retains ds fs d n p (w.rollback v').2 (w.rollback v').1 done [] := by
  have kept := h.synced_in_front.trans grown.kept
  -- the file is cut back to exactly the synced records
  have cut : (v'.resize w.appender.inode w.syncedLen).contents w.appender.inode =
      (done.map Record.encode).flatten := by
    rw [contents_resize_of_le _ _ _ (h.syncedLen ▸ kept.length_le), if_pos rfl, h.syncedLen]
    exact (List.prefix_iff_eq_take.1 kept).symm
  have laid := (h.continues.laid.of_links grown.links (Nat.le_of_eq grown.nextInode.symm)).resize
    w.appender.inode w.syncedLen
  refine ⟨⟨laid, h.continues.linked, h.continues.path, h.continues.policy, ?log, ?atEnd, ?fits,
    ?nextLsn, Nat.zero_le _⟩, ?lsns, ?whole, h.syncedLen, h.syncedLsn, rfl, rfl⟩
  case log =>
    show (v'.resize w.appender.inode w.syncedLen).contents w.appender.inode ++ [] = _
    rw [cut, List.append_nil, List.append_nil]
  case atEnd =>
    show w.syncedLen = ((v'.resize w.appender.inode w.syncedLen).contents w.appender.inode).length
    rw [cut, h.syncedLen]
  case fits =>
    intro r member
    rw [List.append_nil] at member
    exact h.continues.fits r (List.mem_append_left pending member)
  case nextLsn =>
    show w.syncedLsn = _
    rw [h.syncedLsn, List.append_nil]
  case lsns =>
    intro i hi
    simp only [List.append_nil] at hi ⊢
    have := h.lsns i (by simp; omega)
    rwa [List.getElem_append_left hi] at this
  case whole =>
    refine ⟨done.length, le_refl _, by simp, ?_⟩
    show (v'.resize w.appender.inode w.syncedLen).contents w.appender.inode = _
    rw [cut, List.append_nil, List.take_length]

/-- A sync that succeeds makes every record synced and leaves them all in the file. -/
theorem sync {io : Io} {budget : Budget} (h : Retains ds fs d n p v w done pending)
    (ran : w.syncWithin v io budget = .ok (w', v')) : Retains ds fs d n p v' w' (done ++ pending) [] := by
  obtain ⟨appender, volume, len, lsn, unsynced⟩ := Writer.syncWithin_ok ran
  obtain ⟨synced, empty, zero⟩ := h.continues.sync
  rw [← appender, ← volume] at synced
  rw [← appender] at empty zero
  refine of_synced synced h.lsns empty ?_ ?_ unsynced zero
  · rw [len, h.syncedLen, h.unsynced, List.map_append, List.flatten_append, List.length_append]
  · rw [lsn, h.continues.nextLsn]

/-- An append that succeeds adds its record, with the next LSN, to the pending ones; when the
policy syncs at their count, all of them become synced and the file holds them. -/
theorem append {io : Io} {e : Entry} {ts : Nat} (h : Retains ds fs d n p v w done pending)
    (stamp : ts < 2 ^ 64) (room : (done ++ pending).length + 2 < 2 ^ 64)
    (small : (⟨w.appender.nextLsn, ts, e⟩ : Record).payload.length < 2 ^ 32)
    (ran : w.writeRecord v (Record.encode ⟨w.appender.nextLsn, ts, e⟩) io = .ok (w', v')) :
    Retains ds fs d n p v' w' (keepAppended p (done, pending) ⟨w.appender.nextLsn, ts, e⟩).1
      (keepAppended p (done, pending) ⟨w.appender.nextLsn, ts, e⟩).2 := by
  -- the writer's appender appended the record as the appender does, so it keeps the longer log
  obtain ⟨a', v'', appended, kept⟩ := h.continues.append e stamp (by simpa using small)
  rw [Writer.writeRecord_append small ran, Except.ok.injEq, Prod.mk.injEq, Prod.mk.injEq] at appended
  obtain ⟨-, rfl, rfl⟩ := appended
  -- the record carries the LSN after the last one, which is the count of records before it
  have lsns := lsns_concat (r := ⟨w.appender.nextLsn, ts, e⟩) h.lsns (h.nextLsn_eq (by omega))
  have spec := Writer.writeRecord_ok ran
  dsimp only at spec
  rw [Appender.uncommitted_write, h.uncommitted, h.continues.policy] at spec
  unfold keepAppended
  dsimp only
  by_cases due : p.syncsAt (pending.length + 1)
  · -- the policy synced: every record is synced and in the file
    rw [if_pos due] at spec ⊢
    obtain ⟨appender, volume, len, synced, unsynced⟩ := spec
    refine of_synced kept lsns (by rw [appender]; rfl) ?_ ?_ unsynced (by rw [appender]; rfl)
    · rw [len, h.syncedLen, h.unsynced]
      simp only [List.map_append, List.flatten_append, List.length_append, List.map_singleton,
        List.flatten_singleton]
      omega
    · rw [synced, lastLsnOf_append_singleton]
  · rw [if_neg due] at spec ⊢
    dsimp only
    obtain ⟨rfl, rfl⟩ := spec
    obtain ⟨j, lo, hi, file⟩ := h.whole
    obtain ⟨j', le, hi', file'⟩ := Appender.write_whole h.continues.atEnd hi file h.continues.log
      ⟨w.appender.nextLsn, ts, e⟩
    refine ⟨by rwa [← List.append_assoc], by simpa only [← List.append_assoc] using lsns,
      ⟨j', by omega, by simp at hi' ⊢; omega, ?_⟩, h.syncedLen, h.syncedLsn, ?_, by simp⟩
    · have inode : (w.appender.write v (Record.encode ⟨w.appender.nextLsn, ts, e⟩)).1.inode =
          w.appender.inode := Appender.inode_write
      rw [← List.append_assoc]
      dsimp only
      rw [inode]
      exact file'
    · show w.unsynced + _ = _
      rw [h.unsynced]
      simp

end Retains

/-! ## Runs of calls -/

/-- A call a client makes on a writer, with how its I/O turns out. -/
inductive Call where
  | append (entry : Entry) (timestamp : Nat) (io : Io)
  | sync (io : Io)
deriving Repr

namespace Call

/-- A call whose timestamp, if it has one, is a 64-bit word, as the clock gives it. -/
def Stamped : Call → Prop
  | .append _ timestamp _ => timestamp < 2 ^ 64
  | .sync _ => True

instance : (c : Call) → Decidable c.Stamped
  | .append _ _ _ => inferInstanceAs (Decidable (_ < _))
  | .sync _ => inferInstanceAs (Decidable True)

/-- The records a client may count on after a call answered `answer`, from the synced and the
pending ones before it. A successful append adds its record with the LSN it answered, and a
successful sync makes the pending records synced. A failed write or sync discards the pending
records. A record refused for its size fails before any write and changes nothing. -/
def retain (p : SyncPolicy) (kept : List Record × List Record) :
    Call → Except StoreError (Option Nat) → List Record × List Record
  | .append e ts _, .ok (some lsn) => keepAppended p kept ⟨lsn, ts, e⟩
  | .sync _, .ok _ => (kept.1 ++ kept.2, [])
  | _, .error (.io _) => (kept.1, [])
  | _, _ => kept

/-- The records retained after calls in turn, from their answers. -/
def retainAll (p : SyncPolicy) :
    List Record × List Record → List Call → List (Except StoreError (Option Nat)) →
      List Record × List Record
  | kept, c :: cs, answer :: answers => retainAll p (c.retain p kept answer) cs answers
  | kept, _, _ => kept

/-- A call retains at most one record more than before it. -/
theorem length_retain (p : SyncPolicy) (kept : List Record × List Record) (c : Call)
    (answer : Except StoreError (Option Nat)) :
    ((c.retain p kept answer).1 ++ (c.retain p kept answer).2).length ≤
      (kept.1 ++ kept.2).length + 1 := by
  rcases answer with err | _ | lsn
  · cases err <;> cases c <;> simp [retain] <;> omega
  · cases c <;> simp [retain]
  · cases c
    · simp only [retain, keepAppended]
      split_ifs <;> simp <;> omega
    · simp [retain]

end Call

/-- Makes a call on a writer: an append answers the LSN of its record, a sync nothing. -/
def perform (w : Writer) (v : Volume) : Call → Except StoreError (Option Nat) × Writer × Volume
  | .append e ts io => ((w.append v e ts io).1.map some, (w.append v e ts io).2)
  | .sync io => ((w.sync v io).1.map fun _ => none, (w.sync v io).2)

/-- Makes calls in turn, whatever each answers, and collects the answers. -/
def performAll (w : Writer) (v : Volume) :
    List Call → List (Except StoreError (Option Nat)) × Writer × Volume
  | [] => ([], w, v)
  | c :: cs =>
    let first := w.perform v c
    let rest := first.2.1.performAll first.2.2 cs
    (first.1 :: rest.1, rest.2)

namespace Retains

/-- Every call keeps the invariant, for the records the call retains by its answer. -/
theorem perform (h : Retains ds fs d n p v w done pending) (c : Call) (stamp : c.Stamped)
    (room : (done ++ pending).length + 2 < 2 ^ 64) :
    Retains ds fs d n p (w.perform v c).2.2 (w.perform v c).2.1
      (c.retain p (done, pending) (w.perform v c).1).1
      (c.retain p (done, pending) (w.perform v c).1).2 := by
  cases c with
  | append e ts io =>
    simp only [Writer.perform, Writer.append]
    split
    · -- a record too large is refused, and nothing changes
      exact h
    · rename_i bytes written
      unfold Record.encode? at written
      split at written
      · rename_i small
        cases written
        split
        · rename_i w' v' ran
          exact h.append stamp room small ran
        · rename_i f v' ran
          exact h.rollback (Writer.writeRecord_error h.continues.atEnd ran)
      · cases written
  | sync io =>
    simp only [Writer.perform, Writer.sync]
    split
    · rename_i w' v' ran
      exact h.sync ran
    · rename_i f v' ran
      exact h.rollback (Writer.syncWithin_error h.continues.atEnd ran)

/-- Calls in turn keep the invariant, for the records they retain by their answers. -/
theorem performAll (h : Retains ds fs d n p v w done pending) (calls : List Call)
    (stamps : ∀ c ∈ calls, c.Stamped) (room : (done ++ pending).length + calls.length + 1 < 2 ^ 64) :
    Retains ds fs d n p (w.performAll v calls).2.2 (w.performAll v calls).2.1
      (Call.retainAll p (done, pending) calls (w.performAll v calls).1).1
      (Call.retainAll p (done, pending) calls (w.performAll v calls).1).2 := by
  -- induction on the calls, with the writer, its volume and the retained records moving along
  induction calls generalizing w v done pending with
  | nil => exact h
  | cons c cs ih =>
    simp only [List.length_cons] at room
    have first := h.perform c (stamps c List.mem_cons_self) (by omega)
    have grew := Call.length_retain p (done, pending) c (w.perform v c).1
    have rest := ih first (fun c' member => stamps c' (List.mem_cons_of_mem c member))
      (by dsimp only at grew; omega)
    exact rest

end Retains

/-! ## What a writer keeps -/

end Writer

end Wal

end LsmStore
