import LsmStore.Wal.Reader

/-!
# Recovering a log

Recovery reads a whole log and reports what it found. Damage followed by a valid record is
mid-log loss: those records had been acknowledged. A run of damage counts as many lost records
as it had damaged slots, or as the gap in LSNs across it, whichever is larger. Damage with no
valid record after it is a torn tail, and recovery cuts the file back to the end of the last
valid record.

The report's count of lost records is a 64-bit word that each run of damage adds to, so it holds
the number of lost records modulo `2 ^ 64`: the scan counts exactly, and the report stores the
count as such a word.

## Main definitions

* `Wal.Report` — counts of recovered, damaged and lost records, the last LSN and valid length
* `Wal.scan` — the records of a log and its report
* `Wal.recover` — `scan`, and the file as recovery leaves it
-/

namespace LsmStore

namespace Wal

/-- What a recovery pass found in a log. -/
structure Report where
  /-- Valid records read. -/
  recovered : Nat := 0
  /-- Damaged records skipped. -/
  corrupted : Nat := 0
  /-- Acknowledged records lost in the middle of the log, as a 64-bit word. -/
  lost : Nat := 0
  /-- The LSN of the last valid record, 0 without one. -/
  lastLsn : Nat := 0
  /-- Whether bytes follow the end of the last valid record. -/
  truncated : Bool := false
  /-- The offset just past the last valid record. -/
  validLen : Nat := 0
deriving DecidableEq, Repr

namespace Report

/-- Whether records were lost in the middle of the log. -/
def hasDataLoss (r : Report) : Bool := decide (0 < r.lost)

end Report

/-- The LSN expected after `lsn`; LSNs are 64-bit words, so after the largest comes zero. -/
def expectedAfter (lsn : Nat) : Nat := (lsn + 1) % 2 ^ (64 : Nat)

/-- Reads the rest of a log into `acc`, with `pending` damaged slots since the last valid
record; returns the valid records read and the report before its truncation flag is set, with
the lost records counted exactly. A run of damage before a valid record lost at least as many
records as it has damaged slots, and at least as many as the gap in LSNs says. -/
def scanFrom (rd : Reader) (pending : Nat) (acc : Report) : List Record × Report :=
  match h : rd.next with
  | (none, _) => ([], acc)
  | (some .torn, _) => ([], acc)
  | (some (.valid r), rd') =>
    have := Reader.next_shrinks rd (.valid r) rd' h (by simp)
    let lostNow := if 0 < pending then max pending (r.lsn - expectedAfter acc.lastLsn) else 0
    let acc' := { acc with lost := acc.lost + lostNow, recovered := acc.recovered + 1,
                           lastLsn := r.lsn, validLen := rd'.position }
    let (more, report) := scanFrom rd' 0 acc'
    (r :: more, report)
  | (some (.damaged lsn fault), rd') =>
    have := Reader.next_shrinks rd (.damaged lsn fault) rd' h (by simp)
    scanFrom rd' (pending + 1) { acc with corrupted := acc.corrupted + 1 }
termination_by rd.unread.length

/-- The valid records of a log file, and the report on it, with the count of lost records
stored as a 64-bit word. -/
def scan (file : Bytes) : List Record × Report :=
  let (records, report) := scanFrom (Reader.start file) 0 {}
  (records, { report with lost := report.lost % 2 ^ (64 : Nat),
                          truncated := decide (report.validLen < file.length) })

/-- The report on a log file, leaving the file as it is. -/
def verify (file : Bytes) : Report := (scan file).2

/-- Recovers a log file: its valid records, the report, and the file cut back to the end of
the last valid record when what follows it is not a valid record. -/
def recover (file : Bytes) : List Record × Report × Bytes :=
  let (records, report) := scan file
  (records, report, if report.truncated then file.take report.validLen else file)

end Wal

end LsmStore
