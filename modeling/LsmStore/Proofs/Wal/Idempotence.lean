import Mathlib
import LsmStore.Proofs.Wal.Prefix

/-!
# Recovering a recovered log

Recovery cuts a log back to the end of its last valid record when bytes follow it. Recovering
the cut file again returns the same records, the same last LSN and the same valid length; it
cuts nothing and leaves the file as it is. The number of records the second scan counts as lost
is at most the first one's, and it is zero exactly when the first one is.

The second scan reads a prefix of the file, and every valid record the first scan read lies in
that prefix, so the two scans read the same records. They part only after damage. The search
that follows damage looks for record starts, and a record start of the prefix is one of the
whole file, but not the other way round: a start whose announced payload runs past the cut is
not one of the prefix. The first scan visits such starts and counts each as damage, while the
second skips them and waits at the next start of the prefix, which the first scan reaches too.
A run of damage before a record then has a damaged slot in both scans, and no more in the second
than in the first.

The count of lost records is reported as a 64-bit word. Where the exact count of the first scan
passes `2 ^ 64`, the second, smaller count can wrap differently, and then the two recoveries
disagree on whether data was lost: `Wal.recover_again_hides_loss` is such a log.

## Main definitions

* `Wal.StartAt` — a record start for the search after damage, at an offset of a file
* `Wal.Report.Agrees` — two reports with the same records, last LSN and valid length, the second
  counting no more lost records than the first, and none exactly when the first counts none
* `Wal.Tracks` — how the scan of a prefix keeps pace with the scan of the whole file

## Main results

* `Wal.scanFrom_tracks` — the scan of the prefix reads the same records, with a report that
  agrees
* `Wal.recover_again` — recovering the recovered file changes nothing but, possibly, the count of
  lost records, which can only fall and stays zero or not
* `Wal.recover_again_hides_loss` — a log whose second recovery reports no loss where the first
  reports some
-/

namespace LsmStore

namespace Wal

/-! ## Records and record starts in a prefix -/

/-- A record reads at the front of any bytes that begin with its encoding. -/
theorem recordAt?_encode_append {r : Record} (fits : r.Fits) (rest : Bytes) :
    recordAt? (r.encode ++ rest) = some r := by
  unfold recordAt?
  simp only [Header.read?_encode_append fits, Record.header_len,
    Record.take_drop_headerSize_encode_append, Nat.lt_irrefl, if_false, Record.ofParts_header fits]

/-- A record read from a prefix of some bytes reads from the bytes themselves. -/
theorem recordAt?_of_take {bs : Bytes} {m : Nat} {r : Record} (reads : recordAt? (bs.take m) = some r) :
    recordAt? bs = some r := by
  obtain ⟨fits, split⟩ := recordAt?_eq_some reads
  have whole : bs = r.encode ++ ((bs.take m).drop r.encode.length ++ bs.drop m) := by
    rw [← List.append_assoc, ← split, List.take_append_drop]
  rw [whole]
  exact recordAt?_encode_append fits _

/-- Whether a record start for the search after damage, with an LSN above `last`, lies at offset
`q` of `file`. -/
def StartAt (file : Bytes) (last q : Nat) : Prop :=
  isRecordStart last (file.drop q) (file.length - q) = true

/-- A record start holds a whole header, so it lies before the end of the file. -/
theorem StartAt.lt_length {file : Bytes} {last q : Nat} (start : StartAt file last q) :
    q < file.length := by
  have := headerSize_le_of_isRecordStart start
  simp only [List.length_drop, headerSize] at this
  omega

/-- The record read at a record start carries an LSN above the last one read. -/
theorem StartAt.lt_lsn {file : Bytes} {last q : Nat} {r : Record} (start : StartAt file last q)
    (reads : recordAt? (file.drop q) = some r) : last < r.lsn := by
  obtain ⟨fits, split⟩ := recordAt?_eq_some reads
  unfold StartAt isRecordStart at start
  generalize file.drop q = bs at start split
  rw [split, Header.read?_encode_append fits] at start
  simp only [Record.header_lsn, Bool.and_eq_true] at start
  exact of_decide_eq_true start.1.1.1

/-- A record start of a prefix of a file is one of the file. -/
theorem StartAt.of_take {file : Bytes} {n last q : Nat} (within : n ≤ file.length)
    (start : StartAt (file.take n) last q) : StartAt file last q := by
  unfold StartAt isRecordStart at *
  rw [List.drop_take, List.length_take, Nat.min_eq_left within] at start
  cases read : Header.read? ((file.drop q).take (n - q)) with
  | none => simp [read] at start
  | some h =>
    have long : headerSize ≤ n - q := by
      have := Header.headerSize_le_of_read? read
      rw [List.length_take] at this
      omega
    have readFile : Header.read? (file.drop q) = some h := by
      rw [← Header.read?_take long]
      exact read
    rw [read] at start
    rw [readFile]
    dsimp only at start ⊢
    simp only [Bool.and_eq_true, decide_eq_true_eq] at start ⊢
    obtain ⟨⟨⟨above, minimal⟩, room⟩, sums⟩ := start
    -- the payload the header announces lies inside the prefix, so it is the same bytes
    have body : (((file.drop q).take (n - q)).drop headerSize).take h.len =
        ((file.drop q).drop headerSize).take h.len := by
      rw [List.drop_take, List.take_take, Nat.min_eq_left (by omega)]
    rw [body] at sums
    exact ⟨⟨⟨above, minimal⟩, by omega⟩, sums⟩

/-- A record start of a file at which a record reads, ending inside a prefix, is a record start
of the prefix. -/
theorem StartAt.take {file : Bytes} {n last q : Nat} {r : Record}
    (start : StartAt file last q) (reads : recordAt? (file.drop q) = some r)
    (room : q + r.encode.length ≤ n) : StartAt (file.take n) last q := by
  obtain ⟨fits, split⟩ := recordAt?_eq_some reads
  have front : (file.take n).drop q = r.encode ++ ((file.drop q).drop r.encode.length).take
      (n - q - r.encode.length) := by
    rw [List.drop_take, split, List.take_append, List.take_of_length_le (by omega), ← split]
  have size : (file.take n).length - q = (r.encode ++ ((file.drop q).drop r.encode.length).take
      (n - q - r.encode.length)).length := by
    rw [← front, List.length_drop]
  unfold StartAt
  rw [size, front]
  exact isRecordStart_encode_append fits (start.lt_lsn reads) _

/-! ## One read -/

namespace Reader

variable {rd rd' : Reader}

/-- A read that finds the end of the log had nothing left to read. -/
theorem unread_eq_nil_of_next (ends : rd.next = (none, rd')) : rd.unread = [] := by
  unfold next at ends
  split at ends
  · split at ends
    · exact List.isEmpty_iff.mp ‹_›
    · cases ends
  · dsimp only at ends
    split at ends
    · cases ends
    · split at ends <;> cases ends

end Reader

/-! ## Scans that read nothing more -/

/-- The valid part a scan ends with is never shorter than the one it starts with, as long as
that one ends at or before the reader. -/
theorem validLen_le_scanFrom {rd : Reader} {pending : Nat} {acc : Report}
    (behind : acc.validLen ≤ rd.position) : acc.validLen ≤ (scanFrom rd pending acc).2.validLen := by
  match next : rd.next with
  | (none, _) => rw [scanFrom_of_next_none next]
  | (some .torn, _) => rw [scanFrom_of_next_torn next]
  | (some (.valid r), rd') =>
    have := Reader.next_shrinks rd _ rd' next (by simp)
    obtain ⟨-, -, moved, -⟩ := Reader.next_eq_valid next
    rw [scanFrom_of_next_valid next]
    dsimp only
    refine Nat.le_trans ?_ (validLen_le_scanFrom (Nat.le_refl _))
    dsimp only
    omega
  | (some (.damaged lsn fault), rd') =>
    have := Reader.next_shrinks rd _ rd' next (by simp)
    obtain ⟨k, -, -, -, moved⟩ := Reader.next_eq_damaged next
    rw [scanFrom_of_next_damaged next]
    exact validLen_le_scanFrom
      (show ({ acc with corrupted := acc.corrupted + 1 } : Report).validLen ≤ rd'.position by
        dsimp only; omega)
termination_by rd.unread.length

section Scan

variable {rd : Reader} {pending : Nat} {acc : Report}

/-- Where no record reads at the front and no record start follows, the scan ends after at most
one more damaged read, returning no record. -/
theorem scanFrom_of_resync_none (unreadable : recordAt? rd.unread = none)
    (none : rd.resync = none) : ∃ c, scanFrom rd pending acc = ([], { acc with corrupted := c }) := by
  by_cases empty : rd.unread = []
  · exact ⟨acc.corrupted, scanFrom_of_next_none (Reader.next_of_unread_nil empty)⟩
  rcases Reader.next_of_resync_none unreadable empty none with torn | ⟨_, _, toEnd⟩
  · exact ⟨acc.corrupted, scanFrom_of_next_torn torn⟩
  · exact ⟨acc.corrupted + 1, by rw [scanFrom_of_next_damaged toEnd, scanFrom_of_unread_nil]⟩

end Scan

/-- The search after damage at offset `o` lands on a record start, the first after `o`. -/
theorem resync_eq_some_startAt {file : Bytes} {o last k : Nat}
    (found : Reader.resync ⟨file.drop o, o, last⟩ = some k) :
    StartAt file last (o + k) ∧ 0 < k ∧ ∀ q, o < q → q < o + k → ¬ StartAt file last q := by
  obtain ⟨pos, -, start, first⟩ := Reader.resync_drop_eq_some found
  exact ⟨start, pos, fun q above below start => by
    rw [StartAt, first q above below] at start
    cases start⟩

/-- The search after damage at offset `o` finds nothing when no record start follows `o`. -/
theorem resync_eq_none_startAt {file : Bytes} {o last : Nat}
    (none : Reader.resync ⟨file.drop o, o, last⟩ = none) :
    ∀ q, o < q → ¬ StartAt file last q := by
  intro q above start
  have := Reader.resync_drop_eq_none_iff.mp none q above start.lt_length
  rw [StartAt, this] at start
  cases start

/-- Where no record reads at an offset of a file, none reads there in a prefix of it. -/
theorem recordAt?_take_drop_eq_none {file : Bytes} {n o : Nat}
    (unreadable : recordAt? (file.drop o) = none) : recordAt? ((file.take n).drop o) = none := by
  cases reads : recordAt? ((file.take n).drop o) with
  | none => rfl
  | some r =>
    rw [List.drop_take] at reads
    rw [recordAt?_of_take reads] at unreadable
    cases unreadable

/-- Bytes that begin with some others are those, then what follows them. -/
theorem drop_eq_append_drop {bs pre : Bytes} {o : Nat} (front : (bs.drop o).take pre.length = pre) :
    bs.drop o = pre ++ bs.drop (o + pre.length) := by
  conv_lhs => rw [← List.take_append_drop pre.length (bs.drop o)]
  rw [front, List.drop_drop]

/-! ## Two scans that keep pace -/

namespace Report

/-- What a second report on a log shares with a first: the records recovered, the last LSN and
the valid length. It counts at most as many records lost as the first, and none exactly when the
first counts none. -/
structure Agrees (second first : Report) : Prop where
  recovered : second.recovered = first.recovered
  lastLsn : second.lastLsn = first.lastLsn
  validLen : second.validLen = first.validLen
  lost_le : second.lost ≤ first.lost
  lost_eq_zero : second.lost = 0 ↔ first.lost = 0

/-- Two reports that agree still agree once each reads the same record, when the runs of damage
before it are both empty or both not, the second no longer than the first. -/
theorem Agrees.valid {second first : Report} (h : second.Agrees first) {pG pF : Nat}
    (fewer : pG ≤ pF) (both : pG = 0 ↔ pF = 0) (r : Record) (len : Nat) :
    Agrees
      { second with
        lost := second.lost + if 0 < pG then max pG (r.lsn - expectedAfter second.lastLsn) else 0,
        recovered := second.recovered + 1, lastLsn := r.lsn, validLen := len }
      { first with
        lost := first.lost + if 0 < pF then max pF (r.lsn - expectedAfter first.lastLsn) else 0,
        recovered := first.recovered + 1, lastLsn := r.lsn, validLen := len } := by
  obtain ⟨recovered, lastLsn, -, lost_le, lost_eq_zero⟩ := h
  refine ⟨by simp only [recovered], rfl, rfl, ?_, ?_⟩ <;> dsimp only <;> rw [lastLsn] <;>
    split_ifs <;> omega

/-- Every report agrees with itself. -/
theorem Agrees.refl (report : Report) : report.Agrees report :=
  ⟨rfl, rfl, rfl, Nat.le_refl _, Iff.rfl⟩

/-- Agreement does not look at the count of damaged records. -/
theorem Agrees.corrupted {second first : Report} (h : second.Agrees first) (c c' : Nat) :
    Agrees { second with corrupted := c } { first with corrupted := c' } :=
  ⟨h.recovered, h.lastLsn, h.validLen, h.lost_le, h.lost_eq_zero⟩

end Report

/-- How the scan of the prefix `file.take n` keeps pace with the scan of `file`. The first scan
stands at offset `o`, with `pF` damaged reads since its last record and the report `aF`; the
second at `o'`, with `pG` and `aG`. Both have read the same records, the last with the LSN
`last`. Either they stand at the same offset, or the first stands, after damage, at a record start
of the file that the prefix lacks, and the second already waits at the next record start of the
prefix, or at its end. -/
structure Tracks (file : Bytes) (n o o' last pF pG : Nat) (aF aG : Report) : Prop where
  lastLsn : aF.lastLsn = last
  agrees : aG.Agrees aF
  fewer : pG ≤ pF
  both : pG = 0 ↔ pF = 0
  behind : aF.validLen ≤ o
  place : o = o' ∨ (StartAt file last o ∧ 0 < pG ∧
    (∀ q, o ≤ q → q < o' → ¬ StartAt (file.take n) last q) ∧
    (o < o' ∧ StartAt (file.take n) last o' ∨ n ≤ o'))

/-- Once the first scan has passed the end of the prefix, the second has nothing left to read. -/
theorem Tracks.drop_eq_nil {file : Bytes} {n o o' last pF pG : Nat} {aF aG : Report}
    (tracks : Tracks file n o o' last pF pG aF aG) (past : n ≤ o) : (file.take n).drop o' = [] := by
  apply List.drop_eq_nil_of_le
  rw [List.length_take]
  rcases tracks.place with rfl | ⟨-, -, -, ⟨later, -⟩ | waits⟩ <;> omega

/-- Where damage at `o` sends the first scan to `p`, the first record start of the file past `o`,
the second scan, waiting past `o` with no record start of the prefix before it, either stands at
`p` too or still waits further on: a record start of the prefix is one of the file, so it comes
no earlier than `p`. -/
theorem place_of_landing {file : Bytes} {n o o' p last pG : Nat} (within : n ≤ file.length)
    (start : StartAt file last p) (after : o < p)
    (first : ∀ q, o < q → q < p → ¬ StartAt file last q) (waiting : 0 < pG)
    (noStart : ∀ q, o < q → q < o' → ¬ StartAt (file.take n) last q)
    (waits : o < o' ∧ StartAt (file.take n) last o' ∨ n ≤ o') :
    p = o' ∨ (StartAt file last p ∧ 0 < pG ∧
      (∀ q, p ≤ q → q < o' → ¬ StartAt (file.take n) last q) ∧
      (p < o' ∧ StartAt (file.take n) last o' ∨ n ≤ o')) := by
  have stillWaiting : ∀ q, p ≤ q → q < o' → ¬ StartAt (file.take n) last q :=
    fun q low high => noStart q (by omega) high
  rcases waits with ⟨later, startG⟩ | past
  · have le : p ≤ o' := by
      by_contra beyond
      exact first o' later (by omega) (startG.of_take within)
    rcases Nat.lt_or_eq_of_le le with lt | eq
    · exact .inr ⟨start, waiting, stillWaiting, .inl ⟨lt, startG⟩⟩
    · exact .inl eq
  · exact .inr ⟨start, waiting, stillWaiting, .inr past⟩

/-- Every record's encoding holds at least its header. -/
theorem length_encode_pos (r : Record) : 0 < r.encode.length := by
  rw [Record.length_encode_eq]
  simp [headerSize]

/-- The scan of the prefix `file.take n`, where `n` is the valid length that the scan of the whole
file ends with, reads the same records as that scan, and ends with a report that agrees with its
report. The proof follows the scan of the whole file read by read, with the scan of the prefix
keeping pace as `Tracks` says. -/
theorem scanFrom_tracks {file : Bytes} {n : Nat} (within : n ≤ file.length)
    {o o' last pF pG : Nat} {aF aG : Report} (tracks : Tracks file n o o' last pF pG aF aG)
    (ends : (scanFrom ⟨file.drop o, o, last⟩ pF aF).2.validLen = n) :
    (scanFrom ⟨(file.take n).drop o', o', last⟩ pG aG).1 =
        (scanFrom ⟨file.drop o, o, last⟩ pF aF).1 ∧
      (scanFrom ⟨(file.take n).drop o', o', last⟩ pG aG).2.Agrees
        (scanFrom ⟨file.drop o, o, last⟩ pF aF).2 := by
  match next : (⟨file.drop o, o, last⟩ : Reader).next with
  | (none, _) =>
    -- the first scan has read the whole file, so the second has nothing left either
    have empty : file.drop o = [] := Reader.unread_eq_nil_of_next next
    have past : n ≤ o := by
      have := congrArg List.length empty
      simp only [List.length_drop, List.length_nil] at this
      omega
    rw [scanFrom_of_next_none next, tracks.drop_eq_nil past, scanFrom_of_unread_nil]
    exact ⟨rfl, tracks.agrees⟩
  | (some .torn, _) =>
    -- the valid part ends before the first scan's offset, so the prefix ends there too
    rw [scanFrom_of_next_torn next] at ends ⊢
    rw [tracks.drop_eq_nil (ends ▸ tracks.behind), scanFrom_of_unread_nil]
    exact ⟨rfl, tracks.agrees⟩
  | (some (.valid r), ⟨u, p, l⟩) =>
    obtain ⟨fits, split, moved, lsn⟩ := Reader.next_eq_valid next
    dsimp only at split moved lsn
    subst moved lsn
    have front : file.drop o = r.encode ++ file.drop (o + r.encode.length) := by
      apply drop_eq_append_drop
      rw [split]
      exact List.take_left' rfl
    have rest : u = file.drop (o + r.encode.length) := List.append_cancel_left (split.symm.trans front)
    subst rest
    -- the scan moves forward by the record, inside the file: this bounds the recursion
    have long := length_encode_pos r
    have inFile : o + r.encode.length ≤ file.length := by
      have := congrArg List.length front
      simp only [List.length_drop, List.length_append] at this
      omega
    rw [scanFrom_of_next_valid next] at ends ⊢
    dsimp only at ends ⊢
    -- the record ends inside the valid part, so inside the prefix
    have room : o + r.encode.length ≤ n := by
      rw [← ends]
      refine Nat.le_trans ?_ (validLen_le_scanFrom ?_) <;> exact Nat.le_refl _
    rcases tracks.place with rfl | ⟨start, -, noStart, waits⟩
    · -- the second scan reads the same record
      have frontG : (file.take n).drop o = r.encode ++ (file.take n).drop (o + r.encode.length) := by
        apply drop_eq_append_drop
        rw [List.drop_take, List.take_take, Nat.min_eq_left (by omega), front]
        exact List.take_left' rfl
      have nextG := Reader.next_encode_append fits
        (show Reader.unread ⟨(file.take n).drop o, o, last⟩ = _ from frontG)
      rw [scanFrom_of_next_valid nextG]
      dsimp only
      have tracks' : Tracks file n (o + r.encode.length) (o + r.encode.length) r.lsn 0 0 _ _ :=
        ⟨by rfl, tracks.agrees.valid tracks.fewer tracks.both r (o + r.encode.length),
          Nat.le_refl 0, Iff.rfl, Nat.le_refl _, .inl rfl⟩
      obtain ⟨same, agrees⟩ := scanFrom_tracks within tracks' ends
      exact ⟨by rw [same], agrees⟩
    · -- a record start of the file whose record lies in the prefix is one of the prefix
      have reads : recordAt? (file.drop o) = some r := by
        rw [front]
        exact recordAt?_encode_append fits _
      have before : o < o' := by rcases waits with ⟨later, -⟩ | past <;> omega
      exact absurd (start.take reads room) (noStart o (Nat.le_refl _) before)
  | (some (.damaged lsn fault), rd') =>
    obtain ⟨unreadable, lands⟩ := Reader.next_eq_damaged_lands next
    rw [scanFrom_of_next_damaged next] at ends ⊢
    rcases lands with ⟨k, found, rfl⟩ | ⟨missing, rfl⟩
    · -- the first scan moves to the next record start of the file
      obtain ⟨start, pos, first⟩ := resync_eq_some_startAt found
      -- it moves forward, inside the file: this bounds the recursion
      have inside := start.lt_length
      dsimp only at ends ⊢
      rw [List.drop_drop] at ends ⊢
      rcases tracks.place with rfl | ⟨-, waiting, noStart, waits⟩
      · -- no record reads at `o` in the prefix either
        have unreadableG := recordAt?_take_drop_eq_none (n := n) unreadable
        cases foundG : (⟨(file.take n).drop o, o, last⟩ : Reader).resync with
        | some k' =>
          -- the second scan moves to the next record start of the prefix, which is no earlier
          obtain ⟨startG, moves, firstG⟩ := resync_eq_some_startAt foundG
          obtain ⟨_, _, nextG⟩ := Reader.next_of_resync_some unreadableG foundG
          rw [scanFrom_of_next_damaged nextG]
          dsimp only
          rw [List.drop_drop]
          have place := place_of_landing within start (by omega) first (Nat.succ_pos pG) firstG
            (.inl ⟨by omega, startG⟩)
          exact scanFrom_tracks within ⟨tracks.lastLsn, tracks.agrees.corrupted _ _,
            Nat.succ_le_succ tracks.fewer, by simp, tracks.behind.trans (by omega), place⟩ ends
        | none =>
          -- the prefix holds no record start after `o`: the second scan ends here, and the
          -- first reads no record before the end of the prefix
          obtain ⟨c, ended⟩ : ∃ c, scanFrom ⟨(file.take n).drop o, o, last⟩ pG aG =
              ([], { aG with corrupted := c }) := scanFrom_of_resync_none unreadableG foundG
          have noneG := resync_eq_none_startAt foundG
          rw [ended]
          have tracks' : Tracks file n (o + k) n last (pF + 1) (pG + 1)
              { aF with corrupted := aF.corrupted + 1 } aG :=
            ⟨tracks.lastLsn, tracks.agrees.corrupted aG.corrupted _, Nat.succ_le_succ tracks.fewer,
              by simp, tracks.behind.trans (by omega),
              place_of_landing within start (by omega) first (Nat.succ_pos pG)
                (fun q low _ => noneG q low) (.inr (Nat.le_refl n))⟩
          have follows := scanFrom_tracks within tracks' ends
          rw [List.drop_eq_nil_of_le (by simp), scanFrom_of_unread_nil] at follows
          exact ⟨follows.1, follows.2.corrupted c _⟩
      · -- the second scan keeps waiting, at a record start the first reaches no later
        have place := place_of_landing within start (by omega) first waiting
          (fun q low high => noStart q (by omega) high) waits
        exact scanFrom_tracks within ⟨tracks.lastLsn, tracks.agrees.corrupted aG.corrupted _,
          Nat.le_succ_of_le tracks.fewer, by omega, tracks.behind.trans (by omega), place⟩ ends
    · -- the first scan finds no record start after `o` and reads to the end of the file
      have noneF := resync_eq_none_startAt missing
      dsimp only at ends ⊢
      rw [scanFrom_of_unread_nil] at ends ⊢
      rcases tracks.place with rfl | ⟨-, -, -, ⟨later, startG⟩ | past⟩
      · -- nor does the prefix, so the second scan ends too
        have unreadableG := recordAt?_take_drop_eq_none (n := n) unreadable
        have foundG : (⟨(file.take n).drop o, o, last⟩ : Reader).resync = none := by
          cases h : (⟨(file.take n).drop o, o, last⟩ : Reader).resync with
          | none => rfl
          | some k' =>
            obtain ⟨startG, pos, -⟩ := resync_eq_some_startAt h
            exact absurd (startG.of_take within) (noneF _ (by omega))
        obtain ⟨c, ended⟩ : ∃ c, scanFrom ⟨(file.take n).drop o, o, last⟩ pG aG =
            ([], { aG with corrupted := c }) := scanFrom_of_resync_none unreadableG foundG
        rw [ended]
        exact ⟨rfl, tracks.agrees.corrupted _ _⟩
      · exact absurd (startG.of_take within) (noneF o' later)
      · rw [List.drop_eq_nil_of_le (by simp; omega), scanFrom_of_unread_nil]
        exact ⟨rfl, tracks.agrees.corrupted aG.corrupted _⟩
termination_by file.length - o

/-! ## Recovering twice -/

/-- The scan of a file ends within it. -/
theorem validLen_scan_le (file : Bytes) :
    (scanFrom (Reader.start file) 0 {}).2.validLen ≤ file.length := by
  obtain ⟨rd, pending, s⟩ := scanned_scanFrom (Scanned.start file)
  exact Nat.le_trans s.validLen_le s.inFile

/-- The scan of the valid part of a file reads the records the scan of the whole file reads,
and ends with a report that agrees with its report. -/
theorem scanFrom_start_take (file : Bytes) :
    (scanFrom (Reader.start (file.take (scanFrom (Reader.start file) 0 {}).2.validLen)) 0 {}).1 =
        (scanFrom (Reader.start file) 0 {}).1 ∧
      (scanFrom (Reader.start (file.take (scanFrom (Reader.start file) 0 {}).2.validLen)) 0 {}).2.Agrees
        (scanFrom (Reader.start file) 0 {}).2 := by
  -- both scans start together at the front, with nothing read
  have tracks : Tracks file (scanFrom (Reader.start file) 0 {}).2.validLen 0 0 0 0 0 {} {} :=
    ⟨rfl, .refl _, Nat.le_refl 0, Iff.rfl, Nat.le_refl 0, .inl rfl⟩
  exact scanFrom_tracks (validLen_scan_le file) tracks rfl

/-- Recovery returns the records of the scan, its report with the count of lost records cut to
64 bits and the truncation flag set, and the valid part of the file. -/
theorem recover_eq_scanFrom (file : Bytes) :
    recover file = ((scanFrom (Reader.start file) 0 {}).1,
      { (scanFrom (Reader.start file) 0 {}).2 with
        lost := (scanFrom (Reader.start file) 0 {}).2.lost % 2 ^ (64 : Nat),
        truncated := decide ((scanFrom (Reader.start file) 0 {}).2.validLen < file.length) },
      file.take (scanFrom (Reader.start file) 0 {}).2.validLen) := by
  have within := validLen_scan_le file
  unfold recover scan
  generalize scanFrom (Reader.start file) 0 {} = result at within ⊢
  obtain ⟨records, report⟩ := result
  dsimp only at within ⊢
  -- without bytes after the valid part, the valid part is the whole file
  by_cases cut : report.validLen < file.length
  · simp [cut]
  · simp [cut, List.take_of_length_le (Nat.le_of_not_lt cut)]

/-- Recovering the file that recovery left gives the same records, with the same count, last LSN
and valid length, truncates nothing and leaves the file as it is. The second scan meets the
same records but can pass fewer damaged slots, as the shorter file ends some of them, so it
counts at most as many records lost as the first, and none exactly when the first counts none.
The reported loss, a 64-bit word, and with it `hasDataLoss`, agree when the first count fits 64
bits. -/
theorem recover_again (file : Bytes) :
    (recover (recover file).2.2).1 = (recover file).1 ∧
      (recover (recover file).2.2).2.1.recovered = (recover file).2.1.recovered ∧
      (recover (recover file).2.2).2.1.lastLsn = (recover file).2.1.lastLsn ∧
      (recover (recover file).2.2).2.1.validLen = (recover file).2.1.validLen ∧
      (recover (recover file).2.2).2.1.truncated = false ∧
      (recover (recover file).2.2).2.2 = (recover file).2.2 ∧
      lostCount (recover file).2.2 ≤ lostCount file ∧
      (lostCount (recover file).2.2 = 0 ↔ lostCount file = 0) ∧
      (lostCount file < 2 ^ (64 : Nat) →
        (recover (recover file).2.2).2.1.hasDataLoss = (recover file).2.1.hasDataLoss) := by
  have within := validLen_scan_le file
  obtain ⟨same, agrees⟩ := scanFrom_start_take file
  simp only [recover_eq_scanFrom, lostCount]
  refine ⟨same, agrees.recovered, agrees.lastLsn, agrees.validLen, ?whole, ?unchanged,
    agrees.lost_le, agrees.lost_eq_zero, ?loss⟩
  case whole =>
    rw [agrees.validLen, List.length_take, Nat.min_eq_left within]
    exact decide_eq_false (Nat.lt_irrefl _)
  case unchanged =>
    rw [agrees.validLen, List.take_take, Nat.min_self]
  case loss =>
    intro fits
    -- below `2 ^ 64` neither count wraps, and they are zero together
    have fitsAgain := Nat.lt_of_le_of_lt agrees.lost_le fits
    simp only [Report.hasDataLoss, Nat.mod_eq_of_lt fits, Nat.mod_eq_of_lt fitsAgain,
      Nat.pos_iff_ne_zero, ne_eq, agrees.lost_eq_zero]

/-- A frame with a correct checksum around any payload, whether or not it decodes. -/
def frame (lsn : Nat) (payload : Bytes) : Bytes :=
  Bytes.ofNatLE 8 lsn ++ Bytes.ofNatLE 4 (checksumOf lsn payload.length payload) ++
    Bytes.ofNatLE 4 payload.length ++ payload

/-- A log whose scan passes a damaged slot that the scan of its valid part does not: a damaged
record, records with LSNs `2 ^ 64 - 1` and 1, another damaged record, a frame whose payload
holds one byte after its entry, a header whose payload would run one byte past the next record,
a record with LSN 2, and one byte. -/
def shrinkingLog : Bytes :=
  zeroChecksum (smallRecord 2 120 48) ++ (smallRecord (2 ^ 64 - 1) 98 51).encode ++
    (smallRecord 1 99 52).encode ++ zeroChecksum (smallRecord 2 121 53) ++
    frame 2 ((smallRecord 2 116 55).payload ++ [0]) ++
    (frame 2 ((smallRecord 2 100 54).encode ++ [0])).take headerSize ++
    (smallRecord 2 100 54).encode ++ [0]

/-- The reported loss of a second recovery can differ from the first's once the first count
passes `2 ^ 64`. The scan of the whole log counts `2 ^ 64 + 1` records lost, the header near its
end being one more damaged slot; the scan of the valid part, where that header's payload no
longer fits, counts `2 ^ 64`, which wraps to no loss at all. -/
theorem recover_again_hides_loss :
    (recover shrinkingLog).2.1.validLen = 221 ∧ lostCount shrinkingLog = 2 ^ 64 + 1 ∧
      lostCount (recover shrinkingLog).2.2 = 2 ^ 64 ∧
      (recover shrinkingLog).2.1.hasDataLoss = true ∧
      (recover (recover shrinkingLog).2.2).2.1.hasDataLoss = false := by
  decide +kernel

end Wal

end LsmStore
