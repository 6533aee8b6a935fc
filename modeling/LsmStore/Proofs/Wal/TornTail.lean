import LsmStore.Proofs.Wal.Damage
import LsmStore.Session

/-!
# A crash inside a record of the log

A crash keeps a prefix of a log file: the records written before it in whole, and possibly the
first bytes of the next one, which is then torn. Recovery reads the whole records. At the torn
record the header announces more bytes than the file holds, so the reader searches byte by byte
for a record start; every start at which no record reads is skipped as damage. When a record
does read at one of them, recovery takes it as a valid record that follows damage, returns it
beside the whole records, and counts acknowledged records as lost. When none does, the torn
bytes are cut off and nothing counts as lost.

Record values are arbitrary bytes, so the torn record's value may hold a whole serialized
record with a higher LSN. A crash that loses no more than the unsynced end of the log then
makes recovery report lost records, and an engine refuses to open over it:
`torn_phantom_blocks_reopen` is such a run.

## Main results

* `Wal.recover_crashedLog` — recovery of a log cut inside a record returns more than the whole
  records exactly when a record reads at a record start inside the torn bytes, reports data loss
  only then, and otherwise returns every whole record, reports no loss, and cuts the file back
* `torn_phantom_blocks_reopen` — a crash that tears a record holding a serialized record makes
  the next opening fail
-/

namespace LsmStore

namespace Wal

/-! ## Reading at the front of the unread bytes -/

/-- A header is read from the first sixteen bytes alone. -/
theorem Header.read?_take {bs : Bytes} {n : Nat} (long : headerSize ≤ n) :
    Header.read? (bs.take n) = Header.read? bs := by
  unfold Header.read?
  rw [List.take_take, Nat.min_eq_left long]

/-- A record is never read from a proper prefix of a written record: either the header is
incomplete or the payload it announces runs past the end. -/
theorem recordAt?_take_encode {r : Record} (fits : r.Fits) {c : Nat} (cut : c < r.encode.length) :
    recordAt? (r.encode.take c) = none := by
  unfold recordAt?
  by_cases short : c < headerSize
  · have shortHead : ((r.encode.take c).take headerSize).length ≠ headerSize := by
      rw [List.length_take, List.length_take]
      omega
    have noHeader : Header.read? (r.encode.take c) = none := by
      unfold Header.read?
      dsimp only
      rw [if_neg shortHead]
    rw [noHeader]
  · have header : Header.read? (r.encode.take c) = some r.header := by
      rw [Header.read?_take (Nat.le_of_not_lt short), ← List.append_nil r.encode,
        Header.read?_encode_append fits]
    have bodyShort : (((r.encode.take c).drop headerSize).take r.header.len).length <
        r.header.len := by
      rw [Record.length_encode_eq] at cut
      simp only [Record.header_len, List.length_take, List.length_drop]
      omega
    simp only [header, if_pos bodyShort]

namespace Reader

variable {rd : Reader}

/-- The search after damage lands on the first record start past the reader's front byte. -/
theorem resync_eq_some {k : Nat} (found : rd.resync = some k) :
    0 < k ∧ k < rd.unread.length ∧
      isRecordStart rd.lastLsn (rd.unread.drop k) (rd.unread.length - k) = true ∧
      ∀ q, 0 < q → q < k →
        isRecordStart rd.lastLsn (rd.unread.drop q) (rd.unread.length - q) = false := by
  rw [resync_eq] at found
  obtain ⟨m, rfl, inside, start, first⟩ := findRecordStart_eq_some found
  simp only [List.length_drop, List.drop_drop] at inside start first
  refine ⟨by omega, by omega, ?_, ?_⟩
  · rw [show rd.unread.length - (1 + m) = rd.unread.length - 1 - m by omega]
    exact start
  · intro q pos below
    have := first (q - 1) (by omega)
    rwa [show 1 + (q - 1) = q by omega, show rd.unread.length - 1 - (q - 1) =
      rd.unread.length - q by omega] at this

/-- The search after damage finds nothing exactly when no record start lies past the front
byte. -/
theorem resync_eq_none_iff :
    rd.resync = none ↔ ∀ q, 0 < q → q < rd.unread.length →
      isRecordStart rd.lastLsn (rd.unread.drop q) (rd.unread.length - q) = false := by
  rw [resync_eq, findRecordStart_eq_none_iff]
  simp only [List.length_drop, List.drop_drop]
  constructor
  · intro none q pos below
    have := none (q - 1) (by omega)
    rwa [show 1 + (q - 1) = q by omega, show rd.unread.length - 1 - (q - 1) =
      rd.unread.length - q by omega] at this
  · intro none m below
    rw [show rd.unread.length - 1 - m = rd.unread.length - (1 + m) by omega]
    exact none (1 + m) (by omega) (by omega)

/-- Where a record reads at the front, the reader returns it as valid and moves past it. -/
theorem next_of_recordAt {r : Record} (reads : recordAt? rd.unread = some r) :
    ∃ n, rd.next = (some (.valid r), ⟨rd.unread.drop n, rd.position + n, r.lsn⟩) := by
  unfold recordAt? at reads
  cases read : Header.read? rd.unread with
  | none => simp [read] at reads
  | some h =>
    rw [read] at reads
    dsimp only at reads
    by_cases short : ((rd.unread.drop headerSize).take h.len).length < h.len
    · rw [if_pos short] at reads
      cases reads
    · rw [if_neg short] at reads
      cases parts : Record.ofParts h ((rd.unread.drop headerSize).take h.len) with
      | error fault => simp [parts] at reads
      | ok r' =>
        simp only [parts, Option.some.injEq] at reads
        subst reads
        refine ⟨headerSize + h.len, ?_⟩
        unfold next
        simp only [read, if_neg short, parts, Nat.add_assoc]

end Reader

/-! ## Scanning -/

section Scan

/-- Records written back to back are read one after another, each valid, whatever their LSNs:
the reader goes on past the last of them, with its LSN, and the report counts each as recovered
and nothing as damaged or lost. -/
theorem scanFrom_encodes_append {rs : List Record} (fits : ∀ r ∈ rs, r.Fits) {rd : Reader}
    {rest : Bytes} (unread : rd.unread = (rs.map Record.encode).flatten ++ rest) {acc : Report}
    (accLen : acc.validLen = rd.position) :
    scanFrom rd 0 acc =
      let rd' : Reader := ⟨rest, rd.position + ((rs.map Record.encode).flatten).length,
        (rs.getLast?.map (·.lsn)).getD rd.lastLsn⟩
      let acc' : Report := { acc with recovered := acc.recovered + rs.length,
                                      lastLsn := (rs.getLast?.map (·.lsn)).getD acc.lastLsn,
                                      validLen := rd'.position }
      (rs ++ (scanFrom rd' 0 acc').1, (scanFrom rd' 0 acc').2) := by
  induction rs generalizing rd acc with
  | nil =>
    obtain ⟨unreadBytes, position, lastLsn⟩ := rd
    simp only at unread accLen
    subst unread
    simp only [List.map_nil, List.flatten_nil, List.nil_append, List.length_nil, Nat.add_zero,
      List.getLast?_nil, Option.map_none, Option.getD_none]
    rw [← accLen]
  | cons r rs ih =>
    have next := Reader.next_encode_append (fits r (List.mem_cons_self ..))
      (show rd.unread = r.encode ++ ((rs.map Record.encode).flatten ++ rest) by
        rw [unread, List.map_cons, List.flatten_cons, List.append_assoc])
    rw [scanFrom_of_next_valid next]
    dsimp only
    rw [ih (fun x hx => fits x (List.mem_cons_of_mem r hx)) rfl rfl]
    -- the last LSN is the last record's, or this record's when no other follows
    have last : ∀ n, ((r :: rs).getLast?.map (·.lsn)).getD n = (rs.getLast?.map (·.lsn)).getD r.lsn := by
      intro n
      rw [List.getLast?_cons]
      cases rs.getLast? <;> rfl
    simp only [last, List.cons_append, List.map_cons, List.flatten_cons, List.length_append,
      List.length_cons, Record.length_encode_eq, Nat.lt_irrefl, if_false, Nat.add_zero]
    simp only [Nat.add_assoc, Nat.add_comm 1 rs.length]

/-- Records numbered one after another end at the number before the first plus their count. -/
theorem lsn_getLast_of_consecutive {rs : List Record} {base : Nat}
    (lsn : ∀ i (h : i < rs.length), rs[i].lsn = base + i + 1) :
    (rs.getLast?.map (·.lsn)).getD base = base + rs.length := by
  rw [List.getLast?_eq_getElem?]
  cases rs with
  | nil => rfl
  | cons r rs =>
    have last := lsn rs.length (by simp)
    rw [List.length_cons, Nat.add_sub_cancel, List.getElem?_eq_getElem (by simp), Option.map_some,
      Option.getD_some, last]
    omega

/-- Records written back to back and numbered one after another from the reader's LSN are read
one after another, each valid, with nothing lost: the reader ends just past the last of them,
with its LSN. -/
theorem scanFrom_records_append {rs : List Record} (fits : ∀ r ∈ rs, r.Fits) {rd : Reader}
    {rest : Bytes} (unread : rd.unread = (rs.map Record.encode).flatten ++ rest)
    (lsn : ∀ i (h : i < rs.length), rs[i].lsn = rd.lastLsn + i + 1)
    {acc : Report} (accLsn : acc.lastLsn = rd.lastLsn) (accLen : acc.validLen = rd.position) :
    scanFrom rd 0 acc =
      let rd' : Reader :=
        ⟨rest, rd.position + ((rs.map Record.encode).flatten).length, rd.lastLsn + rs.length⟩
      let acc' : Report :=
        { acc with recovered := acc.recovered + rs.length, lastLsn := rd'.lastLsn, validLen := rd'.position }
      (rs ++ (scanFrom rd' 0 acc').1, (scanFrom rd' 0 acc').2) := by
  rw [scanFrom_encodes_append fits unread accLen, accLsn, lsn_getLast_of_consecutive lsn]

/-- While no record reads at any record start, the reader sees only damage and the torn tail:
no record is read, and the report changes in its count of damaged records alone. -/
theorem scanFrom_of_unreadable (rd : Reader) (unreadable : recordAt? rd.unread = none)
    (quiet : ∀ q, 0 < q → q < rd.unread.length →
      isRecordStart rd.lastLsn (rd.unread.drop q) (rd.unread.length - q) = true →
        recordAt? (rd.unread.drop q) = none)
    (pending : Nat) (acc : Report) :
    ∃ j, scanFrom rd pending acc = ([], { acc with corrupted := acc.corrupted + j }) := by
  by_cases empty : rd.unread = []
  · exact ⟨0, by rw [scanFrom_of_next_none (Reader.next_of_unread_nil empty)]; rfl⟩
  cases found : rd.resync with
  | none =>
    rcases Reader.next_of_resync_none unreadable empty found with torn | ⟨lsn, fault, damaged⟩
    · exact ⟨0, by rw [scanFrom_of_next_torn torn]; rfl⟩
    · refine ⟨1, ?_⟩
      rw [scanFrom_of_next_damaged damaged, scanFrom_of_next_none (Reader.next_of_unread_nil rfl)]
  | some k =>
    obtain ⟨lsn, fault, damaged⟩ := Reader.next_of_resync_some unreadable found
    obtain ⟨pos, below, start, -⟩ := Reader.resync_eq_some found
    have := Reader.next_shrinks rd _ _ damaged (by simp)
    -- the search stopped at a record start, where by `quiet` nothing reads either
    let rd' : Reader := { rd with unread := rd.unread.drop k, position := rd.position + k }
    obtain ⟨j, rest⟩ := scanFrom_of_unreadable rd' (quiet k pos below start)
      (by
        intro q inside beyond isStart
        simp only [rd', List.length_drop, List.drop_drop] at beyond isStart ⊢
        exact quiet (k + q) (by omega) (by omega)
          (by rwa [show rd.unread.length - (k + q) = rd.unread.length - k - q by omega]))
      (pending + 1) { acc with corrupted := acc.corrupted + 1 }
    refine ⟨1 + j, ?_⟩
    rw [scanFrom_of_next_damaged damaged, rest, Nat.add_assoc]
termination_by rd.unread.length

/-- Where a record reads at a record start past the front, and none reads at the front, the
scan reads a record: the search after damage stops no later than that start, and reading goes
on from where it stops. -/
theorem scanFrom_ne_nil_of_reads (rd : Reader) (unreadable : recordAt? rd.unread = none) (q : Nat)
    (inside : 0 < q) (beyond : q < rd.unread.length)
    (start : isRecordStart rd.lastLsn (rd.unread.drop q) (rd.unread.length - q) = true)
    (reads : (recordAt? (rd.unread.drop q)).isSome) (pending : Nat) (acc : Report) :
    (scanFrom rd pending acc).1 ≠ [] := by
  have empty : rd.unread ≠ [] := List.ne_nil_of_length_pos (by omega)
  cases found : rd.resync with
  | none =>
    have := Reader.resync_eq_none_iff.mp found q inside beyond
    rw [start] at this
    cases this
  | some k =>
    obtain ⟨lsn, fault, damaged⟩ := Reader.next_of_resync_some unreadable found
    obtain ⟨pos, below, landed, first⟩ := Reader.resync_eq_some found
    have := Reader.next_shrinks rd _ _ damaged (by simp)
    rw [scanFrom_of_next_damaged damaged]
    let rd' : Reader := { rd with unread := rd.unread.drop k, position := rd.position + k }
    -- the search stops at the first record start, so no later than `q`
    have notAfter : k ≤ q := by
      by_contra after
      have := first q inside (by omega)
      rw [start] at this
      cases this
    cases readsHere : recordAt? rd'.unread with
    | some r =>
      obtain ⟨n, valid⟩ := Reader.next_of_recordAt readsHere
      rw [scanFrom_of_next_valid valid]
      exact List.cons_ne_nil _ _
    | none =>
      have later : k < q := by
        rcases Nat.lt_or_eq_of_le notAfter with lt | rfl
        · exact lt
        · simp [rd', readsHere] at reads
      exact scanFrom_ne_nil_of_reads rd' readsHere (q - k) (by omega)
        (by simp only [rd', List.length_drop]; omega)
        (by
          simp only [rd', List.length_drop, List.drop_drop]
          rwa [Nat.add_sub_cancel' notAfter, show rd.unread.length - k - (q - k) =
            rd.unread.length - q by omega])
        (by simpa only [rd', List.drop_drop, Nat.add_sub_cancel' notAfter] using reads)
        (pending + 1) _
termination_by rd.unread.length

end Scan

/-! ## Recovering a crashed log -/

/-- Scanning a file from its start reads the records numbered `1, 2, …` written back to back at
its front, and then goes on over what follows them. -/
theorem scanFrom_start_records_append {rs : List Record} (fits : ∀ r ∈ rs, r.Fits)
    (lsns : ∀ i (h : i < rs.length), rs[i].lsn = i + 1) (rest : Bytes) :
    scanFrom (Reader.start ((rs.map Record.encode).flatten ++ rest)) 0 {} =
      let rd : Reader := ⟨rest, ((rs.map Record.encode).flatten).length, rs.length⟩
      let acc : Report := { recovered := rs.length, lastLsn := rs.length,
                            validLen := ((rs.map Record.encode).flatten).length }
      (rs ++ (scanFrom rd 0 acc).1, (scanFrom rd 0 acc).2) := by
  have read := @scanFrom_records_append rs fits (Reader.start _) rest rfl
    (by simpa [Reader.start] using lsns) {} rfl rfl
  simpa only [Reader.start, Nat.zero_add] using read

/-- A record start past the front part of a file is one at the matching offset of the rest. -/
theorem exists_start_append_iff (front rest : Bytes) (lastLsn : Nat) :
    (∃ q, front.length < q ∧ q < (front ++ rest).length ∧
      isRecordStart lastLsn ((front ++ rest).drop q) ((front ++ rest).length - q) = true ∧
      (recordAt? ((front ++ rest).drop q)).isSome) ↔
    ∃ q, 0 < q ∧ q < rest.length ∧ isRecordStart lastLsn (rest.drop q) (rest.length - q) = true ∧
      (recordAt? (rest.drop q)).isSome := by
  have dropFile : ∀ q, front.length ≤ q → (front ++ rest).drop q = rest.drop (q - front.length) := by
    intro q hq
    simp only [List.drop_append, List.drop_eq_nil_of_le hq, List.nil_append]
  have length : (front ++ rest).length = front.length + rest.length := List.length_append
  constructor
  · rintro ⟨q, after, before, start, reads⟩
    refine ⟨q - front.length, by omega, by omega, ?_, ?_⟩
    · rwa [dropFile q (by omega), show (front ++ rest).length - q = rest.length - (q - front.length) by
        omega] at start
    · rwa [dropFile q (by omega)] at reads
  · rintro ⟨q, inside, before, start, reads⟩
    refine ⟨front.length + q, by omega, by omega, ?_, ?_⟩
    · rwa [dropFile _ (by omega), Nat.add_sub_cancel_left,
        show (front ++ rest).length - (front.length + q) = rest.length - q by omega]
    · rwa [dropFile _ (by omega), Nat.add_sub_cancel_left]

/-- Recovery of records numbered `1, 2, …` written back to back and followed by bytes in which
no record reads, at their front or at any record start inside them, returns the records, reports
nothing lost, and cuts the bytes after them off. -/
theorem recover_records_append_unreadable {rs : List Record} (fits : ∀ r ∈ rs, r.Fits)
    (lsns : ∀ i (h : i < rs.length), rs[i].lsn = i + 1) {rest : Bytes}
    (unreadable : recordAt? rest = none)
    (quiet : ∀ q, 0 < q → q < rest.length →
      isRecordStart rs.length (rest.drop q) (rest.length - q) = true → recordAt? (rest.drop q) = none) :
    ∃ j, recover ((rs.map Record.encode).flatten ++ rest) =
      (rs, { recovered := rs.length, corrupted := j, lastLsn := rs.length,
             validLen := ((rs.map Record.encode).flatten).length,
             truncated := decide (0 < rest.length) },
        (rs.map Record.encode).flatten) := by
  obtain ⟨j, quietScan⟩ := scanFrom_of_unreadable
    ⟨rest, ((rs.map Record.encode).flatten).length, rs.length⟩ unreadable quiet 0
    { recovered := rs.length, lastLsn := rs.length, validLen := ((rs.map Record.encode).flatten).length }
  have cut : decide (((rs.map Record.encode).flatten).length <
      ((rs.map Record.encode).flatten ++ rest).length) = decide (0 < rest.length) := by
    simp
  refine ⟨j, ?_⟩
  simp only [recover, scan, scanFrom_start_records_append fits lsns rest, quietScan, List.append_nil, cut]
  -- the bytes after the records are cut off exactly when there are some
  by_cases some : 0 < rest.length
  · simp [some]
  · simp [List.eq_nil_of_length_eq_zero (Nat.eq_zero_of_not_pos some)]

/-- Where a record reads at a record start inside the bytes that follow records numbered
`1, 2, …`, and none at their front, recovery returns more than those records. -/
theorem recover_records_append_reads {rs : List Record} (fits : ∀ r ∈ rs, r.Fits)
    (lsns : ∀ i (h : i < rs.length), rs[i].lsn = i + 1) {rest : Bytes}
    (unreadable : recordAt? rest = none) {q : Nat} (inside : 0 < q) (before : q < rest.length)
    (start : isRecordStart rs.length (rest.drop q) (rest.length - q) = true)
    (reads : (recordAt? (rest.drop q)).isSome) :
    (recover ((rs.map Record.encode).flatten ++ rest)).1 ≠ rs := by
  have more := scanFrom_ne_nil_of_reads ⟨rest, ((rs.map Record.encode).flatten).length, rs.length⟩
    unreadable q inside before start reads 0
    { recovered := rs.length, lastLsn := rs.length, validLen := ((rs.map Record.encode).flatten).length }
  simp only [recover, scan, scanFrom_start_records_append fits lsns rest]
  exact fun same => more (List.append_right_eq_self.mp same)

/-- A log of records with LSNs `1, 2, …` that a crash cut inside record `k`, keeping its first
`c` bytes. Recovery returns more than the whole records exactly when a record reads at a record
start inside the torn bytes, for the LSN of the last whole record, and only then does it report
lost records. Otherwise it returns the whole records, reports no loss, cuts the torn bytes off,
and reports a truncation exactly when there were torn bytes. -/
theorem recover_crashedLog {rs : List Record} (lsn : ∀ i (h : i < rs.length), rs[i].lsn = i + 1)
    (fits : ∀ r ∈ rs, r.Fits) {k c : Nat} (hk : k < rs.length) (cut : c < rs[k].encode.length) :
    let whole := ((rs.take k).map Record.encode).flatten
    let file := whole ++ rs[k].encode.take c
    let phantom := ∃ q, whole.length < q ∧ q < file.length ∧
      isRecordStart k (file.drop q) (file.length - q) = true ∧ (recordAt? (file.drop q)).isSome
    ((recover file).1 = rs.take k ↔ ¬ phantom) ∧
      ((recover file).2.1.hasDataLoss = true → phantom) ∧
      (¬ phantom → (recover file).2.1.hasDataLoss = false ∧ (recover file).2.2 = whole ∧
        ((recover file).2.1.truncated = true ↔ 0 < c)) := by
  intro whole file phantom
  let torn := rs[k].encode.take c
  have tornLength : torn.length = c := List.length_take_of_le (Nat.le_of_lt cut)
  have unreadable : recordAt? torn = none :=
    recordAt?_take_encode (fits _ (List.getElem_mem hk)) cut
  -- the whole records are the first `k`, numbered `1, …, k`
  have takeLength : (rs.take k).length = k := List.length_take_of_le (Nat.le_of_lt hk)
  have fitsTake : ∀ r ∈ rs.take k, r.Fits := fun r hr => fits r (List.mem_of_mem_take hr)
  have lsnsTake : ∀ i (h : i < (rs.take k).length), (rs.take k)[i].lsn = i + 1 := by
    intro i h
    simp only [List.length_take] at h
    simp only [List.getElem_take]
    exact lsn i (by omega)
  by_cases reads : phantom
  · -- a record reads inside the torn bytes, so recovery returns it too
    obtain ⟨q, inside, before, start, readsAt⟩ := (exists_start_append_iff whole torn k).1 reads
    have records : (recover file).1 ≠ rs.take k :=
      recover_records_append_reads fitsTake lsnsTake unreadable inside before
        (by rwa [takeLength]) readsAt
    exact ⟨⟨fun same => absurd same records, fun no => absurd reads no⟩, fun _ => reads,
      fun no => absurd reads no⟩
  · have quiet : ∀ q, 0 < q → q < torn.length →
        isRecordStart (rs.take k).length (torn.drop q) (torn.length - q) = true →
          recordAt? (torn.drop q) = none := by
      intro q inside before start
      cases readsAt : recordAt? (torn.drop q) with
      | none => rfl
      | some r =>
        rw [takeLength] at start
        exact absurd ((exists_start_append_iff whole torn k).2
          ⟨q, inside, before, start, by rw [readsAt]; rfl⟩) reads
    obtain ⟨j, recovered⟩ := recover_records_append_unreadable fitsTake lsnsTake unreadable quiet
    refine ⟨⟨fun _ => reads, fun _ => by rw [recovered]⟩, fun loss => ?_,
      fun _ => ⟨by rw [recovered]; rfl, by rw [recovered], ?_⟩⟩
    · rw [recovered] at loss
      cases loss
    rw [recovered, tornLength, decide_eq_true_iff]

end Wal

/-- A file that loses its last `n` bytes, as a crash leaves a file whose end was never synced;
nothing else changes. -/
def Volume.loseTail (v : Volume) (path : String) (n : Nat) : Volume :=
  match v.inode? path with
  | some i => v.resize i ((v.contents i).length - n)
  | none => v

/-- A session that syncs its log every ten records, opened on an empty directory, writes
`a = 1`, then `b` set to a value that holds a serialized record with LSN 9, key `x` and value
`y`, followed by two bytes, and is then dropped: the crash. -/
def phantomRun : Session :=
  let s := (Session.start { sync := .everyN 10 } {}).2
  let s := (s.withEngine (Engine.put [97] [49])).2
  (s.withEngine (Engine.put [98] ((⟨9, 0, .put [120] [121]⟩ : Wal.Record).encode ++ [122, 122]))).2

/-- The directory that crash leaves when the log loses its last byte, written after the last
sync. -/
def phantomImage : Session :=
  let s := phantomRun.release
  { s with host := { s.host with volume := s.host.volume.loseTail "wal/000001.log" 1 } }

set_option maxRecDepth 2000 in
/-- Neither write of `phantomRun` was synced, and after a crash that loses the last byte of
the log, opening an engine fails: recovery takes the record inside the torn value for a record
that follows damage, and reports seven acknowledged records lost. -/
theorem torn_phantom_blocks_reopen :
    phantomRun.engine.map (·.wal.uncommitted) = some 2 ∧
      (phantomImage.reopen none).1 = .error (.walDataLoss 1 7) := by
  decide +kernel

end LsmStore
