import Mathlib
import LsmStore.Proofs.Wal.Continue
import LsmStore.Proofs.Wal.Idempotence

/-!
# Reading a log makes progress

A reader stands inside its file: its unread bytes are the file's bytes from its position up to
a readable limit, and the limit never passes the end of the file. Every read keeps it there. A
valid or damaged slot moves the position forward past at least one byte and keeps the limit, a
torn tail keeps the position and pulls the limit back to it, and the end of the log leaves the
reader as it is. The unread bytes are what lies between the position and the limit, so every
read that does not end the log takes at least one of them.

The scan of a log and the search for its tail are loops of the same shape: they read slot after
slot, fold each valid or damaged slot into their state, and stop at the end of the log or at a
torn tail. `Wal.Reader.loop` is such a loop with a budget of reads. Any loop from a reader stops
within one read more than the reader has unread bytes, and the scan and the tail search are its
instances, so both stop within one read more than the file is long. Reading entry after entry
likewise ends, within as many reads, at a reader for which every further read finds the end of
the log.

## Main definitions

* `Wal.Reader.limit` — the offset past the last byte a reader may read
* `Wal.Reader.Within` — a reader whose unread bytes are the file's bytes up to its limit
* `Wal.Reader.loop` — a loop over the slots of a log, with a budget of reads
* `Wal.scanStep`, `Wal.tailStep` — one turn of the scan and of the search for the tail

## Main results

* `Wal.Reader.next_eq_none`, `Wal.Reader.next_eq_torn`, `Wal.Reader.next_moves` — one read
* `Wal.Reader.Within.next` — a read keeps the reader inside its file
* `Wal.Reader.loop_induction` — how a loop is reasoned about; it stops within one read more than
  the unread bytes
* `Wal.loop_scanStep`, `Wal.loop_tailStep` — the scan and the tail search are such loops
* `Wal.Reader.drain_ends` — reading entry after entry reaches a lasting end of the log
* `Wal.reading_makes_progress` — all of it, for the reads of any file from its start
-/

namespace LsmStore

namespace Wal

namespace Reader

/-- The offset just past the last byte the reader may read: its position and its unread bytes. -/
def limit (rd : Reader) : Nat := rd.position + rd.unread.length

/-- A reader inside `file`: the unread bytes are the file's bytes from the position up to the
limit, and the limit is not past the end of the file. -/
structure Within (file : Bytes) (rd : Reader) : Prop where
  slice : file.drop rd.position = rd.unread ++ file.drop rd.limit
  inFile : rd.limit ≤ file.length

variable {rd rd' : Reader}

/-! ## One read -/

/-- A read that finds the end of the log leaves the reader as it is. -/
theorem next_eq_none (ends : rd.next = (none, rd')) : rd' = rd := by
  rw [next_of_unread_nil (unread_eq_nil_of_next ends)] at ends
  exact (Prod.mk.inj ends).2.symm

/-- A read that finds a torn tail leaves nothing unread, and the position where it was. -/
theorem next_eq_torn (torn : rd.next = (some .torn, rd')) : rd' = { rd with unread := [] } := by
  cases reads : recordAt? rd.unread with
  | some r =>
    obtain ⟨fits, split⟩ := recordAt?_eq_some reads
    rw [next_encode_append fits split] at torn
    cases torn
  | none =>
    -- where no record reads, only the search after damage can end in a torn tail
    have nonempty : rd.unread ≠ [] := by
      intro empty
      rw [next_of_unread_nil empty] at torn
      cases torn
    cases found : rd.resync with
    | some k =>
      obtain ⟨_, _, damaged⟩ := next_of_resync_some reads found
      rw [damaged] at torn
      cases torn
    | none =>
      rcases next_of_resync_none reads nonempty found with cut | ⟨_, _, damaged⟩
      · rw [cut] at torn
        exact (Prod.mk.inj torn).2.symm
      · rw [damaged] at torn
        cases torn

/-- A read that returns a valid or damaged slot moves the reader forward over some of its unread
bytes, at least one. -/
theorem next_moves {s : Slot} (read : rd.next = (some s, rd')) (notTorn : s ≠ .torn) :
    ∃ k, 0 < k ∧ k ≤ rd.unread.length ∧ rd'.unread = rd.unread.drop k ∧
      rd'.position = rd.position + k := by
  cases s with
  | valid r =>
    obtain ⟨-, split, moved, -⟩ := next_eq_valid read
    refine ⟨r.encode.length, length_encode_pos r, ?_, ?_, moved⟩
    · rw [split, List.length_append]
      omega
    · rw [split, List.drop_left]
  | damaged lsn fault => exact next_eq_damaged read
  | torn => exact absurd rfl notTorn

/-- Moving forward over unread bytes keeps the limit. -/
theorem limit_of_moves {k : Nat} (within : k ≤ rd.unread.length)
    (unread : rd'.unread = rd.unread.drop k) (moved : rd'.position = rd.position + k) :
    rd'.limit = rd.limit := by
  rw [limit, limit, unread, moved, List.length_drop]
  omega

/-! ## Staying inside the file -/

variable {file : Bytes}

/-- A reader at the start of a file stands inside it, with the end of the file as its limit. -/
theorem within_start (file : Bytes) : (start file).Within file where
  slice := by simp [start, limit]
  inFile := by simp [start, limit]

/-- A read keeps the reader inside its file. -/
theorem Within.of_next (h : rd.Within file) {o : Option Slot} (read : rd.next = (o, rd')) :
    rd'.Within file := by
  cases o with
  | none => exact next_eq_none read ▸ h
  | some s =>
    by_cases torn : s = .torn
    · -- a torn tail pulls the limit back to the position
      subst torn
      rw [next_eq_torn read]
      have := h.inFile
      exact ⟨by simp [limit], by simp only [limit, List.length_nil, Nat.add_zero] at this ⊢; omega⟩
    · obtain ⟨k, -, within, unread, moved⟩ := next_moves read torn
      have same := limit_of_moves within unread moved
      refine ⟨?_, same ▸ h.inFile⟩
      rw [moved, ← List.drop_drop, h.slice, List.drop_append_of_le_length within, unread, same]

/-- A read keeps the reader inside its file. -/
theorem Within.next (h : rd.Within file) : rd.next.2.Within file :=
  h.of_next Prod.mk.eta.symm

/-- However many reads follow one another, the reader stays inside its file. -/
theorem Within.iterate (h : rd.Within file) (n : Nat) :
    ((fun rd : Reader => rd.next.2)^[n] rd).Within file := by
  induction n with
  | zero => exact h
  | succ n ih =>
    rw [Function.iterate_succ_apply']
    exact ih.next

/-! ## Loops over the slots of a log -/

section Loop

variable {σ : Type} (step : σ → Slot → Reader → σ)

/-- A loop over the slots of a log from `rd` and the state `s`: each valid or damaged slot, with
the reader after it, goes into the state through `step`, and the loop stops at the end of the
log or at a torn tail. It may read `n` times: `none` when it has not stopped by then. -/
def loop : Nat → Reader → σ → Option σ
  | 0, _, _ => none
  | n + 1, rd, s =>
    match rd.next with
    | (some (.valid r), rd') => loop n rd' (step s (.valid r) rd')
    | (some (.damaged lsn fault), rd') => loop n rd' (step s (.damaged lsn fault) rd')
    | _ => some s

variable {step} {s : σ}

theorem loop_of_none (ends : rd.next = (none, rd')) (n : Nat) : loop step (n + 1) rd s = some s := by
  simp only [loop, ends]

theorem loop_of_torn (torn : rd.next = (some .torn, rd')) (n : Nat) :
    loop step (n + 1) rd s = some s := by
  simp only [loop, torn]

theorem loop_of_moves {slot : Slot} (read : rd.next = (some slot, rd')) (notTorn : slot ≠ .torn)
    (n : Nat) : loop step (n + 1) rd s = loop step n rd' (step s slot rd') := by
  cases slot with
  | valid r => simp only [loop, read]
  | damaged lsn fault => simp only [loop, read]
  | torn => exact absurd rfl notTorn

/-- How a loop is reasoned about: a relation between a reader, a state and the loop's answer
from them, which holds where the loop stops at once and carries back over each turn, holds of
the answer the loop reaches. The loop reaches one within one read more than the reader has
unread bytes, since each read that does not stop it takes at least one of them. -/
theorem loop_induction (step : σ → Slot → Reader → σ) (motive : Reader → σ → σ → Prop)
    (stop : ∀ {rd rd' : Reader} {s : σ},
      rd.next = (none, rd') ∨ rd.next = (some .torn, rd') → motive rd s s)
    (turn : ∀ {rd rd' : Reader} {s t : σ} {slot : Slot}, rd.next = (some slot, rd') →
      slot ≠ .torn → motive rd' (step s slot rd') t → motive rd s t)
    {n : Nat} (enough : rd.unread.length < n) (s : σ) :
    ∃ t, loop step n rd s = some t ∧ motive rd s t := by
  -- induction on the budget, with the reader and the state moving along
  induction n generalizing rd s with
  | zero => exact absurd enough (Nat.not_lt_zero _)
  | succ n ih =>
    cases read : rd.next with
    | mk o rd' =>
      cases o with
      | none => exact ⟨s, loop_of_none read n, stop (.inl read)⟩
      | some slot =>
        by_cases torn : slot = .torn
        · subst torn
          exact ⟨s, loop_of_torn read n, stop (.inr read)⟩
        · have shorter := next_shrinks rd slot rd' read torn
          have within : rd'.unread.length < n := by omega
          obtain ⟨t, ran, holds⟩ := ih within (step s slot rd')
          exact ⟨t, (loop_of_moves read torn n).trans ran, turn read torn holds⟩

end Loop

/-! ## Reading entry after entry -/

theorem drain_of_none (ends : rd.next = (none, rd')) : rd.drain = ([], rd') := by
  rw [drain]
  split <;> simp_all

theorem drain_of_torn (torn : rd.next = (some .torn, rd')) : rd.drain = ([], rd') := by
  rw [drain]
  split <;> simp_all

theorem drain_of_valid {r : Record} (read : rd.next = (some (.valid r), rd')) :
    rd.drain = (.ok r :: rd'.drain.1, rd'.drain.2) := by
  rw [drain]
  split <;> simp_all

theorem drain_of_damaged {lsn : Nat} {fault : WalFault}
    (read : rd.next = (some (.damaged lsn fault), rd')) :
    rd.drain = (.error fault :: rd'.drain.1, rd'.drain.2) := by
  rw [drain]
  split <;> simp_all

/-- A read that moves the reader adds one entry or fault in front of what reading on from there
returns, and ends where reading on ends. -/
theorem drain_of_moves {slot : Slot} (read : rd.next = (some slot, rd')) (notTorn : slot ≠ .torn) :
    rd.drain.1.length = rd'.drain.1.length + 1 ∧ rd.drain.2 = rd'.drain.2 := by
  cases slot with
  | valid r =>
    rw [drain_of_valid read]
    exact ⟨rfl, rfl⟩
  | damaged lsn fault =>
    rw [drain_of_damaged read]
    exact ⟨rfl, rfl⟩
  | torn => exact absurd rfl notTorn

/-- Reading entry after entry returns at most as many entries and faults as there are unread
bytes, and ends at a reader with nothing left to read. -/
theorem drain_ends (rd : Reader) : rd.drain.1.length ≤ rd.unread.length ∧ rd.drain.2.unread = [] := by
  cases read : rd.next with
  | mk o rd' =>
    cases o with
    | none =>
      rw [drain_of_none read, next_eq_none read]
      exact ⟨Nat.zero_le _, unread_eq_nil_of_next read⟩
    | some slot =>
      by_cases torn : slot = .torn
      · subst torn
        rw [drain_of_torn read, next_eq_torn read]
        exact ⟨Nat.zero_le _, rfl⟩
      · -- one entry or fault for at least one byte, then the rest from the reader moved on
        have shorter := next_shrinks rd slot rd' read torn
        obtain ⟨count, ended⟩ := drain_ends rd'
        obtain ⟨added, same⟩ := drain_of_moves read torn
        exact ⟨by omega, same ▸ ended⟩
termination_by rd.unread.length

end Reader

/-! ## The scan and the tail search as loops -/

/-- One turn of the scan: the records read, the damaged slots read since the last of them, and
the report, after one more slot. A record after damage counts the damaged slots or the gap in
LSNs across them as lost, whichever is larger. -/
def scanStep : List Record × Nat × Report → Slot → Reader → List Record × Nat × Report
  | (done, pending, acc), .valid r, rd' =>
    let lostNow := if 0 < pending then max pending (r.lsn - expectedAfter acc.lastLsn) else 0
    (done ++ [r], 0, { acc with lost := acc.lost + lostNow, recovered := acc.recovered + 1,
                                lastLsn := r.lsn, validLen := rd'.position })
  | (done, pending, acc), .damaged _ _, _ =>
    (done, pending + 1, { acc with corrupted := acc.corrupted + 1 })
  | turn, .torn, _ => turn

/-- One turn of the search for the tail of a log: the LSN of the last valid record and the end
of it, after one more slot. -/
def tailStep : Nat × Nat → Slot → Reader → Nat × Nat
  | _, .valid r, rd' => (r.lsn, rd'.position)
  | last, _, _ => last

section Loops

variable {rd : Reader} {n : Nat}

/-- The scan is the loop of `scanStep`: with a read more than the reader has unread bytes, the
loop ends with the records and the report that `scanFrom` returns. -/
theorem loop_scanStep (enough : rd.unread.length < n) (done : List Record) (pending : Nat)
    (acc : Report) :
    ∃ pending', Reader.loop scanStep n rd (done, pending, acc) =
      some (done ++ (scanFrom rd pending acc).1, pending', (scanFrom rd pending acc).2) := by
  -- the answer holds the records read before a turn and what the scan returns from there
  refine (Reader.loop_induction scanStep
    (fun rd turn answer => answer.1 = turn.1 ++ (scanFrom rd turn.2.1 turn.2.2).1 ∧
      answer.2.2 = (scanFrom rd turn.2.1 turn.2.2).2) ?stop ?turn enough
    (done, pending, acc)).elim ?answer
  case answer =>
    rintro ⟨records, pending', report⟩ ⟨ran, rfl, rfl⟩
    exact ⟨pending', ran⟩
  case stop =>
    rintro rd rd' ⟨done, pending, acc⟩ (ends | torn)
    · simp [scanFrom_of_next_none ends]
    · simp [scanFrom_of_next_torn torn]
  case turn =>
    rintro rd rd' ⟨done, pending, acc⟩ answer slot read notTorn ⟨records, report⟩
    cases slot with
    | valid r =>
      rw [scanFrom_of_next_valid read]
      exact ⟨by simpa only [scanStep, List.append_assoc, List.singleton_append] using records, report⟩
    | damaged lsn fault =>
      rw [scanFrom_of_next_damaged read]
      exact ⟨records, report⟩
    | torn => exact absurd rfl notTorn

/-- The search for the tail is the loop of `tailStep`: with a read more than the reader has
unread bytes, the loop ends with the last valid record's LSN and end, and `tailFrom` answers the
LSN after that one and the same end. -/
theorem loop_tailStep (enough : rd.unread.length < n) (lastLsn validEnd : Nat) :
    ∃ last, Reader.loop tailStep n rd (lastLsn, validEnd) = some last ∧
      tailFrom rd lastLsn validEnd = (nextLsnAfter last.1, last.2) := by
  refine Reader.loop_induction tailStep
    (fun rd tail answer => tailFrom rd tail.1 tail.2 = (nextLsnAfter answer.1, answer.2)) ?stop ?turn
    enough (lastLsn, validEnd)
  case stop =>
    rintro rd rd' ⟨lastLsn, validEnd⟩ (ends | torn)
    · exact tailFrom_of_next_none ends
    · exact tailFrom_of_next_torn torn
  case turn =>
    rintro rd rd' ⟨lastLsn, validEnd⟩ answer slot read notTorn found
    cases slot with
    | valid r => exact (tailFrom_of_next_valid read).trans found
    | damaged lsn fault => exact (tailFrom_of_next_damaged read).trans found
    | torn => exact absurd rfl notTorn

end Loops

/-- Reading a log makes progress, whatever the bytes of its file. Every reader that reads from
the start of the file lead to stands inside the file, its limit not past the file's end. A read
that finds the end of the log leaves the reader as it is; a torn tail keeps the position and
pulls the limit back to it; a valid or damaged slot moves the position forward and keeps the
limit. So the scan of the file and the search for its tail each stop within one read more than
the file is long, with the answers `scanFrom` and `tailOf` give, and reading entry after entry
returns at most as many entries as the file has bytes and ends at a reader for which every
further read finds the end of the log and leaves it where it is. -/
theorem reading_makes_progress (file : Bytes) :
    (∀ n, ((fun rd : Reader => rd.next.2)^[n] (Reader.start file)).Within file) ∧
    (∀ rd rd' : Reader, rd.next = (none, rd') → rd' = rd) ∧
    (∀ rd rd' : Reader, rd.next = (some .torn, rd') →
      rd'.position = rd.position ∧ rd'.limit = rd'.position) ∧
    (∀ (rd rd' : Reader) (s : Slot), rd.next = (some s, rd') → s ≠ .torn →
      rd.position < rd'.position ∧ rd'.limit = rd.limit) ∧
    (∃ pending, Reader.loop scanStep (file.length + 1) (Reader.start file) ([], 0, {}) =
      some ((scanFrom (Reader.start file) 0 {}).1, pending, (scanFrom (Reader.start file) 0 {}).2)) ∧
    (∃ last, Reader.loop tailStep (file.length + 1) (Reader.start file) (0, 0) = some last ∧
      tailOf file = (nextLsnAfter last.1, last.2)) ∧
    (Reader.start file).drain.1.length ≤ file.length ∧
      (Reader.start file).drain.2.next = (none, (Reader.start file).drain.2) := by
  have enough : (Reader.start file).unread.length < file.length + 1 := Nat.lt_succ_self _
  obtain ⟨count, ended⟩ := Reader.drain_ends (Reader.start file)
  refine ⟨(Reader.within_start file).iterate, fun _ _ => Reader.next_eq_none, ?torn, ?moves,
    loop_scanStep enough [] 0 {}, loop_tailStep enough 0 0, count,
    Reader.next_of_unread_nil ended⟩
  case torn =>
    intro rd rd' torn
    rw [Reader.next_eq_torn torn]
    exact ⟨rfl, by simp [Reader.limit]⟩
  case moves =>
    intro rd rd' s read notTorn
    obtain ⟨k, pos, within, unread, moved⟩ := Reader.next_moves read notTorn
    exact ⟨by omega, Reader.limit_of_moves within unread moved⟩

/-- The log of one record of 34 bytes: the first read returns the record and moves the position
from the start to the end of the record, keeping the limit there. -/
theorem reading_makes_progress_oneRecord :
    (Reader.start (Record.encode ⟨1, 0, .put [97] [49]⟩)).next =
        (some (.valid ⟨1, 0, .put [97] [49]⟩), ⟨[], 34, 1⟩) ∧
      (Reader.start (Record.encode ⟨1, 0, .put [97] [49]⟩)).position < 34 ∧
      (⟨[], 34, 1⟩ : Reader).limit = (Reader.start (Record.encode ⟨1, 0, .put [97] [49]⟩)).limit := by
  have fits : (⟨1, 0, .put [97] [49]⟩ : Record).Fits := by
    decide
  have read : (Reader.start (Record.encode ⟨1, 0, .put [97] [49]⟩)).next =
      (some (.valid ⟨1, 0, .put [97] [49]⟩), ⟨[], 34, 1⟩) := by
    rw [@Reader.next_encode_append _ fits (Reader.start (Record.encode ⟨1, 0, .put [97] [49]⟩)) []
      (List.append_nil _).symm]
    rfl
  obtain ⟨-, -, -, moves, -⟩ := reading_makes_progress (Record.encode ⟨1, 0, .put [97] [49]⟩)
  exact ⟨read, moves _ _ _ read (by simp)⟩

end Wal

end LsmStore
