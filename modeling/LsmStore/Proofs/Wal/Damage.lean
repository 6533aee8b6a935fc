import Mathlib
import LsmStore.Proofs.Wal.Framing
import LsmStore.Wal.Recovery

/-!
# Recovering a damaged log

A log is written as records with LSNs `1, 2, …, n`, back to back. Damage then overwrites bytes
inside some of the records, in place, so that no record can be read at a damaged record's
offset, and a crash may cut the file inside the last record. Recovery reads every intact record
and nothing else, counts as lost exactly the damaged records that some intact record follows,
and cuts the file back to the end of the last intact record exactly when the last record is
damaged.

That holds as long as the search that follows damage does not stop inside a damaged record.
The search accepts any window whose header carries an LSN above the last one read, a length of
at least sixteen bytes that fits in the file, and a matching checksum; damaged bytes can hold
such a window, and so can the value of a record, since values are arbitrary bytes. Recovery
then returns that window as a record of its own. `recover_revives_record_inside_damage` is
such a log.

## Main definitions

* `Wal.logOffset` — where a record of a log written back to back starts
* `Wal.afterLastIntact` — the index past the last intact record below a point
* `Wal.DamagedLog` — a log of records numbered from 1, damaged in place and possibly cut
* `Wal.NoPhantom` — no record start inside a damaged record

## Main results

* `Wal.recover_damagedLog` — what recovery finds in a damaged log without phantom records
* `Wal.recover_revives_record_inside_damage` — a damaged record whose value holds a record
-/

namespace LsmStore

namespace Wal

/-! ## Logs written back to back -/

/-- The offset at which record `i` of a log of records written back to back starts; from the
last record on, the end of the log. -/
def logOffset (rs : List Record) (i : Nat) : Nat := ((rs.take i).map (·.encode.length)).sum

/-- The index just past the last record below `i` that is not in `D`, or 0 when every record
below `i` is. Records are numbered from 1, so it is also the LSN of that record. -/
def afterLastIntact (D : Finset Nat) : Nat → Nat
  | 0 => 0
  | i + 1 => if i ∈ D then afterLastIntact D i else i + 1

/-- The records of `rs` from index `i` on whose index is not in `D`, in order. -/
def intactFrom (rs : List Record) (D : Finset Nat) (i : Nat) : List Record :=
  ((rs.zipIdx.drop i).filter (·.2 ∉ D)).map (·.1)

/-- The records of `D` from `L` on that some record below `n` outside `D` follows. -/
def lostFrom (n : Nat) (D : Finset Nat) (L : Nat) : Nat :=
  (D.filter fun d => L ≤ d ∧ ∃ j < n, d < j ∧ j ∉ D).card

section Offsets

variable {rs : List Record}

@[simp] theorem logOffset_zero (rs : List Record) : logOffset rs 0 = 0 := by
  simp [logOffset]

theorem logOffset_succ {i : Nat} (hi : i < rs.length) :
    logOffset rs (i + 1) = logOffset rs i + rs[i].encode.length := by
  simp only [logOffset, List.take_add_one, List.getElem?_eq_getElem hi, Option.toList_some,
    List.map_append, List.map_cons, List.map_nil, List.sum_append, List.sum_cons, List.sum_nil,
    Nat.add_zero]

theorem logOffset_of_length_le {i : Nat} (hi : rs.length ≤ i) :
    logOffset rs i = logOffset rs rs.length := by
  simp [logOffset, List.take_of_length_le hi]

theorem logOffset_monotone : Monotone (logOffset rs) := by
  refine monotone_nat_of_le_succ fun i => ?_
  by_cases hi : i < rs.length
  · rw [logOffset_succ hi]
    omega
  · rw [logOffset_of_length_le (by omega), logOffset_of_length_le (by omega : rs.length ≤ i + 1)]

/-- Offsets of records grow strictly: every record takes some bytes. -/
theorem logOffset_lt_logOffset {i j : Nat} (hij : i < j) (hj : j ≤ rs.length) :
    logOffset rs i < logOffset rs j := by
  have step : logOffset rs i < logOffset rs (i + 1) := by
    rw [logOffset_succ (by omega), Record.length_encode_eq]
    simp only [headerSize]
    omega
  exact Nat.lt_of_lt_of_le step (logOffset_monotone (by omega))

/-- Every offset before the end of the log lies inside one record. -/
theorem exists_logOffset_le_lt {i q : Nat} (start : logOffset rs i ≤ q)
    (inside : q < logOffset rs rs.length) :
    ∃ j, i ≤ j ∧ j < rs.length ∧ logOffset rs j ≤ q ∧ q < logOffset rs (j + 1) := by
  have hi : i < rs.length := by
    by_contra past
    rw [logOffset_of_length_le (by omega)] at start
    omega
  by_cases here : q < logOffset rs (i + 1)
  · exact ⟨i, le_refl _, hi, start, here⟩
  · obtain ⟨j, hij, hj, low, high⟩ := exists_logOffset_le_lt (i := i + 1) (by omega) inside
    exact ⟨j, by omega, hj, low, high⟩
termination_by rs.length - i

end Offsets

section Intact

variable {D : Finset Nat}

theorem afterLastIntact_le (D : Finset Nat) (i : Nat) : afterLastIntact D i ≤ i := by
  induction i with
  | zero => rfl
  | succ i ih =>
    simp only [afterLastIntact]
    split <;> omega

/-- Every record from `afterLastIntact D i` up to `i` is damaged. -/
theorem mem_of_afterLastIntact_le {i d : Nat} (above : afterLastIntact D i ≤ d) (below : d < i) :
    d ∈ D := by
  induction i with
  | zero => omega
  | succ i ih =>
    simp only [afterLastIntact] at above
    split at above
    · rename_i damaged
      rcases Nat.lt_succ_iff_lt_or_eq.mp below with lt | rfl
      · exact ih above lt
      · exact damaged
    · omega

@[simp] theorem afterLastIntact_succ_of_not_mem {i : Nat} (intact : i ∉ D) :
    afterLastIntact D (i + 1) = i + 1 := by
  simp [afterLastIntact, intact]

/-- A run of damaged records leaves the last intact record where it was. -/
theorem afterLastIntact_of_run {i j : Nat} (le : i ≤ j) (run : ∀ m, i ≤ m → m < j → m ∈ D) :
    afterLastIntact D j = afterLastIntact D i := by
  induction j, le using Nat.le_induction with
  | base => rfl
  | succ j le ih =>
    rw [afterLastIntact, if_pos (run j le (by omega)), ih fun m hm hmj => run m hm (by omega)]

variable {rs : List Record}

theorem intactFrom_of_length_le {i : Nat} (hi : rs.length ≤ i) : intactFrom rs D i = [] := by
  have empty : rs.zipIdx.drop i = [] := List.drop_eq_nil_of_le (by rw [List.length_zipIdx]; exact hi)
  simp only [intactFrom, empty, List.filter_nil, List.map_nil]

theorem zipIdx_drop_eq_cons {i : Nat} (hi : i < rs.length) :
    rs.zipIdx.drop i = (rs[i], i) :: rs.zipIdx.drop (i + 1) := by
  rw [List.drop_eq_getElem_cons (by simpa using hi), List.getElem_zipIdx]
  simp

theorem intactFrom_of_not_mem {i : Nat} (hi : i < rs.length) (intact : i ∉ D) :
    intactFrom rs D i = rs[i] :: intactFrom rs D (i + 1) := by
  simp [intactFrom, zipIdx_drop_eq_cons hi, intact]

theorem intactFrom_of_mem {i : Nat} (hi : i < rs.length) (damaged : i ∈ D) :
    intactFrom rs D i = intactFrom rs D (i + 1) := by
  simp [intactFrom, zipIdx_drop_eq_cons hi, damaged]

/-- Skipping a run of damaged records skips no intact one. -/
theorem intactFrom_of_run {i j : Nat} (le : i ≤ j) (run : ∀ m, i ≤ m → m < j → m ∈ D) :
    intactFrom rs D i = intactFrom rs D j := by
  induction j, le using Nat.le_induction with
  | base => rfl
  | succ j le ih =>
    rw [ih fun m hm hmj => run m hm (by omega)]
    by_cases hj : j < rs.length
    · exact intactFrom_of_mem hj (run j le (by omega))
    · rw [intactFrom_of_length_le (by omega), intactFrom_of_length_le (by omega)]

/-- An intact record closes the run of damage before it: that run is lost, and the count goes
on after the intact record. -/
theorem lostFrom_of_not_mem {n L i : Nat} (hi : i < n) (intact : i ∉ D) (le : L ≤ i)
    (run : ∀ d, L ≤ d → d < i → d ∈ D) : lostFrom n D L = (i - L) + lostFrom n D (i + 1) := by
  have split : D.filter (fun d => L ≤ d ∧ ∃ j < n, d < j ∧ j ∉ D) =
      Finset.Ico L i ∪ D.filter (fun d => i + 1 ≤ d ∧ ∃ j < n, d < j ∧ j ∉ D) := by
    ext d
    simp only [Finset.mem_filter, Finset.mem_union, Finset.mem_Ico]
    constructor
    · rintro ⟨damaged, above, later⟩
      by_cases hd : d < i
      · exact .inl ⟨above, hd⟩
      · have : d ≠ i := fun h => intact (h ▸ damaged)
        exact .inr ⟨damaged, by omega, later⟩
    · rintro (⟨above, below⟩ | ⟨damaged, above, later⟩)
      · exact ⟨run d above below, above, i, hi, below, intact⟩
      · exact ⟨damaged, by omega, later⟩
  have disjoint : Disjoint (Finset.Ico L i)
      (D.filter fun d => i + 1 ≤ d ∧ ∃ j < n, d < j ∧ j ∉ D) := by
    rw [Finset.disjoint_left]
    intro d hd hd'
    simp only [Finset.mem_Ico, Finset.mem_filter] at hd hd'
    omega
  rw [lostFrom, split, Finset.card_union_of_disjoint disjoint, Nat.card_Ico, lostFrom]

/-- Damage that no intact record follows is not lost. -/
theorem lostFrom_eq_zero {n L : Nat} (run : ∀ d, L ≤ d → d < n → d ∈ D) : lostFrom n D L = 0 := by
  rw [lostFrom, Finset.card_eq_zero, Finset.filter_eq_empty_iff]
  rintro d - ⟨above, j, hj, later, intact⟩
  exact intact (run j (by omega) hj)

end Intact

/-! ## One read at a time -/

section Scan

variable {rd rd' : Reader} {pending : Nat} {acc : Report}

theorem scanFrom_of_next_none (next : rd.next = (none, rd')) : scanFrom rd pending acc = ([], acc) := by
  rw [scanFrom]
  split <;> simp_all

/-- Past the end of the file the scan reads nothing and leaves the report as it is. -/
theorem scanFrom_of_unread_nil {position lastLsn : Nat} :
    scanFrom ⟨[], position, lastLsn⟩ pending acc = ([], acc) :=
  scanFrom_of_next_none (Reader.next_of_unread_nil rfl)

theorem scanFrom_of_next_torn (next : rd.next = (some .torn, rd')) :
    scanFrom rd pending acc = ([], acc) := by
  rw [scanFrom]
  split <;> simp_all

theorem scanFrom_of_next_damaged {lsn : Nat} {fault : WalFault}
    (next : rd.next = (some (.damaged lsn fault), rd')) :
    scanFrom rd pending acc = scanFrom rd' (pending + 1) { acc with corrupted := acc.corrupted + 1 } := by
  rw [scanFrom]
  split <;> simp_all

theorem scanFrom_of_next_valid {r : Record} (next : rd.next = (some (.valid r), rd')) :
    scanFrom rd pending acc =
      let lostNow := if 0 < pending then max pending (r.lsn - expectedAfter acc.lastLsn) else 0
      let acc' := { acc with lost := acc.lost + lostNow, recovered := acc.recovered + 1,
                             lastLsn := r.lsn, validLen := rd'.position }
      (r :: (scanFrom rd' 0 acc').1, (scanFrom rd' 0 acc').2) := by
  rw [scanFrom]
  split <;> simp_all

end Scan

/-! ## Damaged logs -/

/-- The log of the records `rs`, numbered from 1 and fitting the format, written back to back
and then damaged in place: every record outside `D` is as written, no record can be read at the
offset of a record in `D`, and the file ends inside the last record, which a cut leaves
damaged. -/
structure DamagedLog (rs : List Record) (D : Finset Nat) (file : Bytes) : Prop where
  /-- Record `i` carries LSN `i + 1`. -/
  lsn : ∀ i (h : i < rs.length), rs[i].lsn = i + 1
  /-- Every record fits the format, so that writing it loses nothing. -/
  fits : ∀ r ∈ rs, r.Fits
  /-- Damage keeps the length and a cut only shortens. -/
  length_le : file.length ≤ logOffset rs rs.length
  /-- The file reaches past the start of the last record. -/
  last_lt : logOffset rs (rs.length - 1) < file.length
  /-- A cut damages the last record. -/
  cut : file.length < logOffset rs rs.length → rs.length - 1 ∈ D
  /-- Every record outside `D` is as written. -/
  intact : ∀ i (h : i < rs.length), i ∉ D →
    (file.drop (logOffset rs i)).take rs[i].encode.length = rs[i].encode
  /-- No record can be read at the offset of a damaged record. -/
  unreadable : ∀ i ∈ D, recordAt? (file.drop (logOffset rs i)) = none

/-- No record start lies strictly inside a damaged record, for the last LSN read before it. -/
def NoPhantom (rs : List Record) (D : Finset Nat) (file : Bytes) : Prop :=
  ∀ i ∈ D, ∀ p ∈ Finset.Ioo (logOffset rs i) (logOffset rs (i + 1)),
    isRecordStart (afterLastIntact D i) (file.drop p) (file.length - p) = false

instance (rs : List Record) (D : Finset Nat) (file : Bytes) : Decidable (NoPhantom rs D file) :=
  inferInstanceAs (Decidable (∀ i ∈ D, ∀ p ∈ Finset.Ioo (logOffset rs i) (logOffset rs (i + 1)),
    isRecordStart (afterLastIntact D i) (file.drop p) (file.length - p) = false))

namespace DamagedLog

variable {rs : List Record} {D : Finset Nat} {file : Bytes}

theorem length_pos (log : DamagedLog rs D file) : 0 < rs.length := by
  have inside := Nat.lt_of_lt_of_le log.last_lt log.length_le
  rcases Nat.eq_zero_or_pos rs.length with empty | pos
  · rw [empty, Nat.zero_sub] at inside
    exact absurd inside (Nat.lt_irrefl _)
  · exact pos

/-- The number of records is an LSN, so it is below `2 ^ 64`. -/
theorem length_lt (log : DamagedLog rs D file) : rs.length < 2 ^ 64 := by
  have hlast : rs.length - 1 < rs.length := by have := log.length_pos; omega
  have lsn := log.lsn (rs.length - 1) hlast
  have fits := (log.fits rs[rs.length - 1] (List.getElem_mem hlast)).1
  omega

/-- From an intact record on, the file is that record followed by the file after it. -/
theorem drop_of_not_mem (log : DamagedLog rs D file) {i : Nat} (hi : i < rs.length)
    (intact : i ∉ D) :
    file.drop (logOffset rs i) = rs[i].encode ++ file.drop (logOffset rs (i + 1)) := by
  have whole := List.take_append_drop rs[i].encode.length (file.drop (logOffset rs i))
  rw [log.intact i hi intact, List.drop_drop] at whole
  rw [logOffset_succ hi]
  exact whole.symm

theorem logOffset_succ_le_of_not_mem (log : DamagedLog rs D file) {i : Nat} (hi : i < rs.length)
    (intact : i ∉ D) : logOffset rs (i + 1) ≤ file.length := by
  have whole := congrArg List.length (log.intact i hi intact)
  have pos : 0 < rs[i].encode.length := by
    rw [Record.length_encode_eq]
    simp only [headerSize]
    omega
  rw [List.length_take, List.length_drop] at whole
  rw [logOffset_succ hi]
  omega

/-- An intact record is a record start for every last LSN below its own. -/
theorem isRecordStart_of_not_mem (log : DamagedLog rs D file) {i last : Nat} (hi : i < rs.length)
    (intact : i ∉ D) (below : last ≤ i) :
    isRecordStart last (file.drop (logOffset rs i)) (file.length - logOffset rs i) = true := by
  have start := isRecordStart_encode_append (log.fits _ (List.getElem_mem hi))
    (show last < rs[i].lsn by rw [log.lsn i hi]; omega) (file.drop (logOffset rs (i + 1)))
  rwa [← log.drop_of_not_mem hi intact, List.length_drop] at start

/-- After a damaged record the search finds a record start only if some record after it is
intact. -/
theorem run_of_resync_none (log : DamagedLog rs D file) {i : Nat}
    (none : Reader.resync ⟨file.drop (logOffset rs i), logOffset rs i, afterLastIntact D i⟩ = none) :
    ∀ m, i < m → m < rs.length → m ∈ D := by
  intro m above hm
  by_contra intact
  have start := log.isRecordStart_of_not_mem hm intact
    (Nat.le_trans (afterLastIntact_le D i) (by omega))
  rw [Reader.resync_drop_eq_none_iff.mp none (logOffset rs m)
    (logOffset_lt_logOffset above (by omega))
    (Nat.lt_of_lt_of_le (logOffset_lt_logOffset (Nat.lt_succ_self m) hm)
      (log.logOffset_succ_le_of_not_mem hm intact))] at start
  exact absurd start (by decide)

/-- After a damaged record, the search lands on the start of a later record, and every record
it passes over is damaged. -/
theorem resync_lands (log : DamagedLog rs D file) (clean : NoPhantom rs D file) {i k : Nat}
    (damaged : i ∈ D)
    (found : Reader.resync ⟨file.drop (logOffset rs i), logOffset rs i, afterLastIntact D i⟩ = some k) :
    ∃ j, i < j ∧ j < rs.length ∧ logOffset rs i + k = logOffset rs j ∧
      ∀ m, i ≤ m → m < j → m ∈ D := by
  obtain ⟨pos, inside, start, first⟩ := Reader.resync_drop_eq_some found
  -- an intact record after `i` starts at or after the landing point, since it is a record start
  have later : ∀ m, i < m → m < rs.length → m ∉ D → logOffset rs i + k ≤ logOffset rs m := by
    intro m above hm intact
    by_contra before
    have := first (logOffset rs m) (logOffset_lt_logOffset above (by omega)) (by omega)
    rw [log.isRecordStart_of_not_mem hm intact
      (Nat.le_trans (afterLastIntact_le D i) (by omega))] at this
    exact absurd this (by decide)
  obtain ⟨j, hij, hj, low, high⟩ :=
    exists_logOffset_le_lt (i := i) (q := logOffset rs i + k) (by omega)
      (Nat.lt_of_lt_of_le inside log.length_le)
  have run : ∀ m, i ≤ m → m < j → m ∈ D := by
    intro m hm hmj
    by_contra intact
    have := later m (by rcases Nat.eq_or_lt_of_le hm with rfl | lt; exact absurd damaged intact; exact lt)
      (by omega) intact
    have : logOffset rs m < logOffset rs j := logOffset_lt_logOffset hmj (by omega)
    omega
  rcases Nat.eq_or_lt_of_le low with here | inside'
  · refine ⟨j, ?_, hj, here.symm, run⟩
    rcases Nat.eq_or_lt_of_le hij with rfl | lt
    · omega
    · exact lt
  · -- the landing point lies strictly inside record `j`, which must then be damaged
    have damagedJ : j ∈ D := by
      by_contra intact
      rcases Nat.eq_or_lt_of_le hij with rfl | lt
      · exact intact damaged
      · have := later j lt hj intact
        omega
    have phantom := clean j damagedJ (logOffset rs i + k) (Finset.mem_Ioo.mpr ⟨inside', high⟩)
    rw [afterLastIntact_of_run hij run, start] at phantom
    exact absurd phantom (by decide)

/-- Where every record from `i` on is damaged, nothing intact is left, nothing more is lost, and
the last intact record stays the last one. -/
theorem tail_of_run {i : Nat} (hi : i ≤ rs.length) (run : ∀ m, i ≤ m → m < rs.length → m ∈ D) :
    intactFrom rs D i = [] ∧ lostFrom rs.length D (afterLastIntact D i) = 0 ∧
      afterLastIntact D rs.length = afterLastIntact D i := by
  refine ⟨?_, ?_, afterLastIntact_of_run hi run⟩
  · rw [intactFrom_of_run hi run, intactFrom_of_length_le (le_refl _)]
  · apply lostFrom_eq_zero
    intro d above below
    by_cases hd : d < i
    · exact mem_of_afterLastIntact_le above hd
    · exact run d (by omega) below

/-- Reading a damaged log from the start of record `i`, with `pending` damaged reads since the
last intact record: the reader returns the intact records from `i` on, adds to the lost count
the damaged records from the last intact one on that an intact record follows, and ends the
valid part of the log at the end of the last intact record. -/
theorem scanFrom_logOffset (log : DamagedLog rs D file) (clean : NoPhantom rs D file) (i : Nat)
    (hi : i ≤ rs.length) (pending : Nat) (few : pending ≤ i - afterLastIntact D i)
    (settled : pending = 0 → afterLastIntact D i = i) (acc : Report)
    (accLsn : acc.lastLsn = afterLastIntact D i)
    (accLen : acc.validLen = logOffset rs (afterLastIntact D i)) :
    (scanFrom ⟨file.drop (logOffset rs i), logOffset rs i, afterLastIntact D i⟩ pending acc).1 =
        intactFrom rs D i ∧
      (scanFrom ⟨file.drop (logOffset rs i), logOffset rs i, afterLastIntact D i⟩ pending acc).2.lost =
        acc.lost + lostFrom rs.length D (afterLastIntact D i) ∧
      (scanFrom ⟨file.drop (logOffset rs i), logOffset rs i, afterLastIntact D i⟩ pending
        acc).2.validLen = logOffset rs (afterLastIntact D rs.length) := by
  have lastLe := afterLastIntact_le D i
  rcases Nat.lt_or_ge i rs.length with hi' | hend
  · by_cases damaged : i ∈ D
    · have unreadable := log.unreadable i damaged
      cases found : Reader.resync ⟨file.drop (logOffset rs i), logOffset rs i,
          afterLastIntact D i⟩ with
      | some k =>
        -- reading goes on at the record the search lands on, with one more damaged read
        obtain ⟨j, hij, hj, landing, run⟩ := log.resync_lands clean damaged found
        obtain ⟨lsn, fault, next⟩ := Reader.next_of_resync_some unreadable found
        have sameLast := afterLastIntact_of_run hij.le run
        have next' : Reader.next ⟨file.drop (logOffset rs i), logOffset rs i, afterLastIntact D i⟩ =
            (some (.damaged lsn fault),
              ⟨file.drop (logOffset rs j), logOffset rs j, afterLastIntact D j⟩) := by
          rw [next]
          dsimp only
          rw [List.drop_drop, landing, sameLast]
        obtain ⟨records, lost, validLen⟩ := scanFrom_logOffset log clean j hj.le (pending + 1)
          (by rw [sameLast]; omega) (fun h => absurd h (by omega))
          { acc with corrupted := acc.corrupted + 1 } (by rw [sameLast]; exact accLsn)
          (by rw [sameLast]; exact accLen)
        rw [scanFrom_of_next_damaged next', records, lost, validLen, sameLast,
          ← intactFrom_of_run hij.le run]
        exact ⟨rfl, rfl, rfl⟩
      | none =>
        -- the search finds nothing: no intact record follows, and the log ends here
        have later := log.run_of_resync_none found
        have run : ∀ m, i ≤ m → m < rs.length → m ∈ D := by
          intro m hm hmn
          rcases Nat.eq_or_lt_of_le hm with rfl | lt
          · exact damaged
          · exact later m lt hmn
        obtain ⟨noneLeft, noLoss, sameLast⟩ := tail_of_run hi run
        have nonempty : file.drop (logOffset rs i) ≠ [] := by
          have := log.last_lt
          have : logOffset rs i ≤ logOffset rs (rs.length - 1) :=
            logOffset_monotone (show i ≤ rs.length - 1 by omega)
          simp only [ne_eq, List.drop_eq_nil_iff]
          omega
        rcases Reader.next_of_resync_none unreadable nonempty found with next | ⟨lsn, fault, next⟩
        · rw [scanFrom_of_next_torn next, noneLeft, noLoss, sameLast, accLen]
          exact ⟨rfl, rfl, rfl⟩
        · rw [scanFrom_of_next_damaged next, scanFrom_of_next_none (Reader.next_of_unread_nil rfl),
            noneLeft, noLoss, sameLast, accLen]
          exact ⟨rfl, rfl, rfl⟩
    · -- an intact record: it is read, and the run of damage before it is counted as lost
      have fits := log.fits _ (List.getElem_mem hi')
      have next := Reader.next_encode_append fits
        (show Reader.unread ⟨file.drop (logOffset rs i), logOffset rs i, afterLastIntact D i⟩ = _
          from log.drop_of_not_mem hi' damaged)
      have lsn := log.lsn i hi'
      have moved : (⟨file.drop (logOffset rs (i + 1)), logOffset rs i + rs[i].encode.length,
          rs[i].lsn⟩ : Reader) =
          ⟨file.drop (logOffset rs (i + 1)), logOffset rs (i + 1), afterLastIntact D (i + 1)⟩ := by
        rw [logOffset_succ hi', lsn, afterLastIntact_succ_of_not_mem damaged]
      rw [moved] at next
      have expected : expectedAfter acc.lastLsn = afterLastIntact D i + 1 := by
        rw [expectedAfter, accLsn, Nat.mod_eq_of_lt (by have := log.length_lt; omega)]
      have lostNow : (if 0 < pending then max pending (rs[i].lsn - expectedAfter acc.lastLsn)
          else 0) = i - afterLastIntact D i := by
        rw [lsn, expected]
        split
        · omega
        · have := settled (by omega)
          omega
      obtain ⟨records, lost, validLen⟩ := scanFrom_logOffset log clean (i + 1) (by omega) 0
        (Nat.zero_le _) (fun _ => afterLastIntact_succ_of_not_mem damaged)
        { acc with lost := acc.lost + (i - afterLastIntact D i), recovered := acc.recovered + 1,
                   lastLsn := rs[i].lsn, validLen := logOffset rs (i + 1) }
        (by rw [lsn, afterLastIntact_succ_of_not_mem damaged])
        (by rw [afterLastIntact_succ_of_not_mem damaged])
      rw [scanFrom_of_next_valid next]
      dsimp only
      rw [lostNow, records, lost, validLen, intactFrom_of_not_mem hi' damaged,
        afterLastIntact_succ_of_not_mem damaged,
        lostFrom_of_not_mem hi' damaged lastLe fun d above below =>
          mem_of_afterLastIntact_le above below]
      refine ⟨rfl, ?_, rfl⟩
      dsimp only
      omega
  · -- the end of the log: nothing is left to read
    obtain rfl : i = rs.length := by omega
    have empty : file.drop (logOffset rs rs.length) = [] := List.drop_eq_nil_of_le log.length_le
    obtain ⟨noneLeft, noLoss, -⟩ := tail_of_run (le_refl _) fun m hm hmn => absurd hmn (by omega)
    rw [scanFrom_of_next_none (Reader.next_of_unread_nil empty), noneLeft, noLoss, accLen]
    exact ⟨rfl, rfl, rfl⟩
termination_by rs.length - i

/-- Recovery cuts the file exactly when the last record is damaged. -/
theorem truncated_iff (log : DamagedLog rs D file) :
    logOffset rs (afterLastIntact D rs.length) < file.length ↔ rs.length - 1 ∈ D := by
  have last : rs.length = rs.length - 1 + 1 := by have := log.length_pos; omega
  constructor
  · intro short
    by_contra intact
    rw [last, afterLastIntact_succ_of_not_mem intact, ← last] at short
    exact absurd log.length_le (by omega)
  · intro damaged
    rw [last, afterLastIntact, if_pos damaged]
    exact Nat.lt_of_le_of_lt (logOffset_monotone (afterLastIntact_le D _)) log.last_lt

end DamagedLog

/-- Recovery of a damaged log in which no record start lies inside a damaged record. It returns
exactly the intact records, in order. It counts as lost exactly the damaged records that an
intact record follows, so it reports data loss exactly when damage comes before an intact
record. It reports a truncation exactly when the last record is damaged, and then cuts the
file to the end of the last intact record; otherwise it leaves the file as it is. -/
theorem recover_damagedLog {rs : List Record} {D : Finset Nat} {file : Bytes}
    (log : DamagedLog rs D file) (clean : NoPhantom rs D file) :
    (recover file).1 = (rs.zipIdx.filter (·.2 ∉ D)).map (·.1) ∧
      (recover file).2.1.lost = (D.filter fun i => ∃ j < rs.length, i < j ∧ j ∉ D).card ∧
      ((recover file).2.1.hasDataLoss ↔ ∃ i ∈ D, ∃ j < rs.length, i < j ∧ j ∉ D) ∧
      ((recover file).2.1.truncated ↔ rs.length - 1 ∈ D) ∧
      (recover file).2.2 =
        if rs.length - 1 ∈ D then file.take (logOffset rs (afterLastIntact D rs.length))
        else file := by
  obtain ⟨records, lost, validLen⟩ := log.scanFrom_logOffset clean 0 (Nat.zero_le _) 0 (le_refl _)
    (fun _ => rfl) {} rfl rfl
  have start : (⟨file.drop (logOffset rs 0), logOffset rs 0, afterLastIntact D 0⟩ : Reader) =
      Reader.start file := by
    simp [Reader.start, afterLastIntact]
  have lostCount : lostFrom rs.length D (afterLastIntact D 0) =
      (D.filter fun i => ∃ j < rs.length, i < j ∧ j ∉ D).card := by
    simp [lostFrom, afterLastIntact]
  -- at most one record of each LSN is lost, so the count fits the report's 64-bit word
  have fitsWord : (D.filter fun i => ∃ j < rs.length, i < j ∧ j ∉ D).card < 2 ^ 64 := by
    have below : (D.filter fun i => ∃ j < rs.length, i < j ∧ j ∉ D) ⊆ Finset.range rs.length := by
      intro i hi
      obtain ⟨-, j, hj, before, -⟩ := Finset.mem_filter.1 hi
      exact Finset.mem_range.2 (by omega)
    calc _ ≤ (Finset.range rs.length).card := Finset.card_le_card below
      _ = rs.length := Finset.card_range _
      _ < 2 ^ 64 := log.length_lt
  rw [start] at records lost validLen
  rw [lostCount] at lost
  unfold recover scan
  generalize scanFrom (Reader.start file) 0 {} = result at records lost validLen
  obtain ⟨found, report⟩ := result
  dsimp only at records lost validLen ⊢
  have stored : report.lost % 2 ^ 64 = (D.filter fun i => ∃ j < rs.length, i < j ∧ j ∉ D).card := by
    rw [lost, Nat.zero_add, Nat.mod_eq_of_lt fitsWord]
  refine ⟨by simp [records, intactFrom], stored, ?_, ?_, ?_⟩
  · simp only [Report.hasDataLoss, decide_eq_true_eq]
    rw [stored]
    simp [Finset.card_pos, Finset.filter_nonempty_iff]
  · rw [validLen, decide_eq_true_iff, log.truncated_iff]
  · rw [validLen]
    by_cases damaged : rs.length - 1 ∈ D
    · rw [if_pos damaged, if_pos (decide_eq_true (log.truncated_iff.mpr damaged))]
    · rw [if_neg damaged, if_neg (by simpa [log.truncated_iff] using damaged)]

/-- Three records numbered from 1, each binding a one-byte key to a one-byte value. -/
def sampleLog : List Record :=
  [⟨1, 0, .put [97] [118]⟩, ⟨2, 0, .put [98] [118]⟩, ⟨3, 0, .put [99] [118]⟩]

/-- `sampleLog` written back to back, with the last byte of the second record flipped. -/
def sampleDamaged : Bytes :=
  (sampleLog.map Record.encode).flatten.modify (logOffset sampleLog 2 - 1) (· ^^^ 0xFF)

/-- The middle record of three is damaged: recovery returns the other two and counts one record
lost. -/
theorem recover_sampleDamaged :
    DamagedLog sampleLog {1} sampleDamaged ∧ NoPhantom sampleLog {1} sampleDamaged ∧
      (recover sampleDamaged).1 = [sampleLog[0], sampleLog[2]] ∧
      (recover sampleDamaged).2.1.lost = 1 := by
  have log : DamagedLog sampleLog {1} sampleDamaged :=
    ⟨by decide, by decide, by decide, by decide, by decide, by decide +kernel, by decide +kernel⟩
  have clean : NoPhantom sampleLog {1} sampleDamaged := by decide +kernel
  obtain ⟨records, lost, -⟩ := recover_damagedLog log clean
  refine ⟨log, clean, ?_, ?_⟩
  · rw [records]
    decide
  · rw [lost]
    decide

/-- A record with LSN 5 that a value can hold. -/
def embeddedRecord : Record := ⟨5, 0, .put [120] [121]⟩

/-- Two records numbered from 1, the first of which holds `embeddedRecord` as its value. -/
def carrierLog : List Record :=
  [⟨1, 0, .put [97] embeddedRecord.encode⟩, ⟨2, 0, .put [98] [118]⟩]

/-- `carrierLog` written back to back, with one byte of the first record's checksum flipped. -/
def carrierDamaged : Bytes := (carrierLog.map Record.encode).flatten.modify 8 (· ^^^ 0xFF)

/-- Damage to a record whose value holds a record: the search after the damage stops at the
record inside the value, and recovery returns it although it was never written to the log,
counting four records lost for the one damaged. -/
theorem recover_revives_record_inside_damage :
    DamagedLog carrierLog {0} carrierDamaged ∧ ¬ NoPhantom carrierLog {0} carrierDamaged ∧
      (recover carrierDamaged).1 = [embeddedRecord, carrierLog[1]] ∧
      (recover carrierDamaged).2.1.lost = 4 :=
  ⟨⟨by decide, by decide, by decide, by decide, by decide, by decide +kernel, by decide +kernel⟩,
    by decide +kernel, by decide +kernel, by decide +kernel⟩

end Wal

end LsmStore
