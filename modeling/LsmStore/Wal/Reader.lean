import LsmStore.Wal.Record

/-!
# Reading a log

A reader walks a log file from the front, one record slot at a time. A slot is a valid record,
a damaged one, or a torn tail: the file ending inside a record with nothing valid after it.

A damaged record's length field cannot be trusted, so the reader searches for the next record
byte by byte from one past the damaged record's start. A candidate must carry an LSN above the
last valid one, a payload of at least sixteen bytes that fits in the file, and a matching
checksum. A header whose length runs past the end of the file is a torn tail when no candidate
follows it, and damage otherwise. The reader keeps only the unread bytes, so every slot that is
not the end shortens them: that is why reading ends.

## Main definitions

* `Wal.Reader` — the unread bytes, their offset, and the last valid LSN
* `Wal.Slot` — what one read finds
* `Wal.Reader.next` — read one slot
* `Wal.Reader.drain` — read slot after slot until the end of the log
* `Wal.isRecordStart`, `Wal.findRecordStart` — the search after damage

## Main results

* `next_shrinks` — a valid or damaged slot leaves fewer unread bytes
-/

namespace LsmStore

namespace Wal

/-- Whether a valid record, with an LSN above `lastLsn`, starts at the front of `bs`, whose
length is `size`. -/
def isRecordStart (lastLsn : Nat) (bs : Bytes) (size : Nat) : Bool :=
  match Header.read? bs with
  | none => false
  | some h =>
    decide (lastLsn < h.lsn) && decide (minPayload ≤ h.len) &&
      decide (h.len ≤ size - headerSize) &&
      h.describes ((bs.drop headerSize).take h.len)

/-- The first offset in `bs`, counted from `k`, at which a record starts; `size` is the length
of `bs`, carried along so that no candidate has to measure the rest of the file. -/
def findRecordStart (lastLsn : Nat) : Bytes → Nat → Nat → Option Nat
  | [], _, _ => none
  | b :: bs, size, k =>
    if isRecordStart lastLsn (b :: bs) size then some k
    else findRecordStart lastLsn bs (size - 1) (k + 1)

/-- What one read of the log finds. -/
inductive Slot where
  /-- A record whose checksum and payload check out. -/
  | valid (r : Record)
  /-- A damaged record carrying `lsn` in its header; the reader has moved past it. -/
  | damaged (lsn : Nat) (fault : WalFault)
  /-- The log ends inside a record and no valid record follows. -/
  | torn
deriving DecidableEq, Repr

/-- A position in a log file. -/
structure Reader where
  /-- The bytes not yet read, up to the readable end of the file. -/
  unread : Bytes
  /-- The offset of the first unread byte. -/
  position : Nat
  /-- The LSN of the last valid record read. -/
  lastLsn : Nat
deriving DecidableEq, Repr

namespace Reader

/-- A reader at the start of a file. -/
def start (file : Bytes) : Reader := ⟨file, 0, 0⟩

/-- Moves past a damaged record at the front of the unread bytes: to the next record start if
one follows, else to the end when the damaged record was complete, else the tail is torn. -/
def skipDamaged (rd : Reader) (lsn : Nat) (fault : WalFault) (complete : Bool) :
    Slot × Reader :=
  match findRecordStart rd.lastLsn (rd.unread.drop 1) (rd.unread.length - 1) 1 with
  | some k => (.damaged lsn fault, { rd with unread := rd.unread.drop k, position := rd.position + k })
  | none =>
    if complete then
      (.damaged lsn fault, { rd with unread := [], position := rd.position + rd.unread.length })
    else (.torn, { rd with unread := [] })

/-- Reads the next slot; `none` at the end of the log. -/
def next (rd : Reader) : Option Slot × Reader :=
  match Header.read? rd.unread with
  | none =>
    if rd.unread.isEmpty then (none, rd) else (some .torn, { rd with unread := [] })
  | some h =>
    let body := (rd.unread.drop headerSize).take h.len
    if body.length < h.len then
      let avail := rd.unread.length - headerSize
      let skipped := rd.skipDamaged h.lsn (.overrun rd.position h.len avail) false
      (some skipped.1, skipped.2)
    else
      match Record.ofParts h body with
      | .ok r =>
        (some (.valid r), ⟨rd.unread.drop (headerSize + h.len), rd.position + headerSize + h.len,
          r.lsn⟩)
      | .error fault =>
        let skipped := rd.skipDamaged h.lsn fault true
        (some skipped.1, skipped.2)

theorem findRecordStart_ge (lastLsn : Nat) (bs : Bytes) (size k j : Nat)
    (h : findRecordStart lastLsn bs size k = some j) : k ≤ j ∧ j < k + bs.length := by
  induction bs generalizing size k with
  | nil => simp [findRecordStart] at h
  | cons b bs ih =>
    simp only [findRecordStart] at h
    split at h
    · simp at h; simp; omega
    · have := ih (size - 1) (k + 1) h
      simp; omega

theorem skipDamaged_shrinks (rd : Reader) (lsn : Nat) (fault : WalFault) (complete : Bool)
    (hne : rd.unread ≠ []) :
    ((rd.skipDamaged lsn fault complete).2.unread.length < rd.unread.length) := by
  have hpos : 0 < rd.unread.length := List.length_pos_iff.mpr hne
  unfold skipDamaged
  split
  · rename_i k hk
    have := findRecordStart_ge _ _ _ _ _ hk
    simp only [List.length_drop] at this ⊢
    omega
  · split <;> simpa using hpos

/-- A valid or damaged slot leaves fewer unread bytes. -/
theorem next_shrinks (rd : Reader) (s : Slot) (rd' : Reader) (h : rd.next = (some s, rd'))
    (hs : s ≠ .torn) : rd'.unread.length < rd.unread.length := by
  unfold next at h
  cases hread : Header.read? rd.unread with
  | none =>
    rw [hread] at h
    by_cases he : rd.unread.isEmpty
    · simp [he] at h
    · simp only [he, Bool.false_eq_true, if_false, Prod.mk.injEq, Option.some.injEq] at h
      exact absurd h.1.symm hs
  | some hd =>
    rw [hread] at h
    have hlen : headerSize ≤ rd.unread.length := Header.headerSize_le_of_read? hread
    have hne : rd.unread ≠ [] := by
      intro e; simp [e, headerSize] at hlen
    by_cases hav : ((rd.unread.drop headerSize).take hd.len).length < hd.len
    · simp only [if_pos hav, Prod.mk.injEq] at h
      rw [← h.2]
      exact skipDamaged_shrinks rd _ _ false hne
    · simp only [if_neg hav] at h
      cases hr : Record.ofParts hd ((rd.unread.drop headerSize).take hd.len) with
      | ok r =>
        simp only [hr, Prod.mk.injEq] at h
        rw [← h.2]
        simp only [List.length_drop]
        simp [headerSize] at hlen ⊢
        omega
      | error fault =>
        simp only [hr, Prod.mk.injEq] at h
        rw [← h.2]
        exact skipDamaged_shrinks rd _ _ true hne

/-- Reads slot after slot until the end of the log, as repeated reads of single entries see it:
valid records and damage in order, ending at the first torn tail or the end; also returns the
reader at that point. -/
def drain (rd : Reader) : List (Except WalFault Record) × Reader :=
  match h : rd.next with
  | (none, rd') => ([], rd')
  | (some .torn, rd') => ([], rd')
  | (some (.valid r), rd') =>
    have := next_shrinks rd (.valid r) rd' h (by simp)
    let (more, last) := rd'.drain
    (.ok r :: more, last)
  | (some (.damaged _ fault), rd') =>
    have := next_shrinks rd (.damaged _ fault) rd' h (by simp)
    let (more, last) := rd'.drain
    (.error fault :: more, last)
termination_by rd.unread.length

end Reader

end Wal

end LsmStore
