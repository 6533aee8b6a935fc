import Mathlib
import LsmStore.Proofs.Wal.TornTail

/-!
# The valid part of a log

Whatever the bytes of a log file, recovery reads them front to back and ends the valid part of
the file at the end of the last record it reads. This module shows that the records it returns
account for that part byte for byte exactly when the scan counts nothing as lost.

Two facts carry it. The reader only accepts the bytes it would write: a header, payload and
entry that pass every check are the encoding of the record read (`recordAt?_eq_some`), so a
record read is followed by the rest of the file. And a damaged read always moves the reader
forward, so damage before a record leaves bytes in the valid part that belong to no record
returned, while the scan counts that record's run of damage as lost.

The report stores the count as a 64-bit word, so the count it shows is the scan's modulo
`2 ^ 64`. Records read one after another may carry any LSNs, and a run of damage counts the gap
in LSNs across it: two runs can add up to `2 ^ 64` lost records, and the report then shows none
(`recover_hides_wrapped_loss`).

## Main definitions

* `Wal.lostCount` — the records a scan counts as lost, before the report stores the count
* `Wal.Scanned` — what a scan keeps between reads

## Main results

* `Entry.decode_eq_ok` — an entry decoded fits the encoding and was written where it was read
* `Wal.recordAt?_eq_some` — the bytes a reader accepts as a record are its encoding
* `Wal.Reader.next_eq_valid`, `Wal.Reader.next_eq_damaged` — what one read does
* `Wal.scanned_scanFrom` — the scan keeps `Scanned` to the end of the log
* `Wal.recover_prefix_exact` — the valid part is the records returned exactly when the scan
  counts nothing lost
* `Wal.recover_hides_wrapped_loss` — a damaged log whose report shows no loss
-/

namespace LsmStore

/-! ## Reading back what was written -/

namespace Bytes

/-- A little-endian word read from some bytes is below `256` to the power of their number. -/
theorem toNatLE_lt (bs : Bytes) : toNatLE bs < 256 ^ bs.length := by
  induction bs with
  | nil => simp [toNatLE]
  | cons b bs ih =>
    have byte : b.toNat < 256 := UInt8.toNat_lt b
    rw [toNatLE, List.length_cons, Nat.pow_succ]
    omega

/-- Writing back a word read from some bytes gives those bytes. -/
theorem ofNatLE_toNatLE (bs : Bytes) : ofNatLE bs.length (toNatLE bs) = bs := by
  induction bs with
  | nil => rfl
  | cons b bs ih =>
    have byte : b.toNat < 256 := UInt8.toNat_lt b
    have low : (b.toNat + 256 * toNatLE bs) % 256 = b.toNat := by omega
    have high : (b.toNat + 256 * toNatLE bs) / 256 = toNatLE bs := by omega
    rw [List.length_cons, ofNatLE, toNatLE, low, high, ih, UInt8.ofNat_toNat]

theorem ofNatLE_toNatLE_of_length {bs : Bytes} {w : Nat} (width : bs.length = w) :
    ofNatLE w (toNatLE bs) = bs :=
  width ▸ ofNatLE_toNatLE bs

/-- A word split off the front of some bytes is written back as those bytes. -/
theorem eq_of_takeWord {w n : Nat} {bs rest : Bytes} (split : takeWord w bs = some (n, rest)) :
    bs = ofNatLE w n ++ rest ∧ n < 256 ^ w := by
  unfold takeWord at split
  split at split
  · rename_i long
    simp only [Option.some.injEq, Prod.mk.injEq] at split
    obtain ⟨rfl, rfl⟩ := split
    have width : (bs.take w).length = w := List.length_take_of_le long
    have small := toNatLE_lt (bs.take w)
    rw [width] at small
    have back := ofNatLE_toNatLE (bs.take w)
    rw [width] at back
    rw [back, List.take_append_drop]
    exact ⟨rfl, small⟩
  · cases split

end Bytes

namespace Entry

/-- An entry whose lengths fit its encoding: the key length fits its 32-bit word, and a value is
shorter than the tombstone mark, so that it is never read back as a deletion. -/
def Fits (e : Entry) : Prop :=
  e.key.length < 2 ^ 32 ∧ ∀ v, e.value = some v → v.length < tombstoneMark

/-- An entry decoded from the front of a buffer fits the encoding and was written there: the
buffer is its encoding followed by what decoding leaves. -/
theorem decode_eq_ok {buf rest : Bytes} {e : Entry} (decoded : decode buf = (.ok e, rest)) :
    e.Fits ∧ buf = e.encode ++ rest := by
  unfold decode at decoded
  cases keyWord : Bytes.takeWord 4 buf with
  | none => simp [keyWord] at decoded
  | some split =>
    obtain ⟨keyLen, afterKeyLen⟩ := split
    obtain ⟨bufEq, keyWidth⟩ := Bytes.eq_of_takeWord keyWord
    rw [keyWord] at decoded
    dsimp only at decoded
    split at decoded
    · cases decoded
    rename_i roomForKey
    have keyLength : (afterKeyLen.take keyLen).length = keyLen :=
      List.length_take_of_le (Nat.le_of_not_lt roomForKey)
    cases valueWord : Bytes.takeWord 4 (afterKeyLen.drop keyLen) with
    | none => simp [valueWord] at decoded
    | some split =>
      obtain ⟨valLen, afterValLen⟩ := split
      obtain ⟨afterKeyEq, valueWidth⟩ := Bytes.eq_of_takeWord valueWord
      rw [valueWord] at decoded
      dsimp only at decoded
      -- the buffer is the key length, the key, the value length and what follows
      have whole : buf = Bytes.ofNatLE 4 (afterKeyLen.take keyLen).length ++
          afterKeyLen.take keyLen ++ (Bytes.ofNatLE 4 valLen ++ afterValLen) := by
        rw [keyLength, List.append_assoc, ← afterKeyEq, List.take_append_drop, bufEq]
      -- the key's length is the word read, which is below 2 ^ 32
      have keyFits : (afterKeyLen.take keyLen).length < 2 ^ 32 := by
        rw [keyLength]
        simpa using keyWidth
      split at decoded
      · rename_i tombstone
        simp only [Prod.mk.injEq, Except.ok.injEq] at decoded
        obtain ⟨rfl, rfl⟩ := decoded
        refine ⟨⟨keyFits, fun _ none => nomatch none⟩, ?_⟩
        rw [whole, tombstone]
        simp only [encode, List.append_assoc]
      · rename_i live
        split at decoded
        · cases decoded
        rename_i roomForValue
        simp only [Prod.mk.injEq, Except.ok.injEq] at decoded
        obtain ⟨rfl, rfl⟩ := decoded
        have valueLength : (afterValLen.take valLen).length = valLen :=
          List.length_take_of_le (Nat.le_of_not_lt roomForValue)
        -- a value length word that is not the tombstone mark is below it
        have valueFits : valLen < tombstoneMark := by
          have : valLen < 256 ^ 4 := valueWidth
          simp only [tombstoneMark] at live ⊢
          omega
        refine ⟨⟨keyFits, fun v some => ?_⟩, ?_⟩
        · cases some
          rwa [valueLength]
        · rw [whole]
          simp only [encode, valueLength, List.append_assoc, List.take_append_drop]

end Entry

namespace Wal

/-- A header read from some bytes is written back as their first sixteen bytes, and its fields
fit their words. -/
theorem Header.eq_of_read? {bs : Bytes} {h : Header} (read : Header.read? bs = some h) :
    bs.take headerSize = Bytes.ofNatLE 8 h.lsn ++ Bytes.ofNatLE 4 h.crc ++ Bytes.ofNatLE 4 h.len ∧
      h.lsn < 2 ^ 64 ∧ h.len < 2 ^ 32 := by
  unfold Header.read? at read
  dsimp only at read
  split at read
  · rename_i whole
    simp only [Option.some.injEq] at read
    subst read
    generalize bs.take headerSize = head at whole ⊢
    simp only [headerSize] at whole
    -- the sixteen bytes split into words of eight, four and four bytes
    have first : (head.take 8).length = 8 := by simp [whole]
    have second : ((head.drop 8).take 4).length = 4 := by simp [whole]
    have third : ((head.drop 12).take 4).length = 4 := by simp [whole]
    have split : head = head.take 8 ++ (head.drop 8).take 4 ++ (head.drop 12).take 4 := by
      have last : (head.drop 12).take 4 = head.drop 12 := List.take_of_length_le (by simp [whole])
      rw [last, show head.drop 12 = (head.drop 8).drop 4 by rw [List.drop_drop], List.append_assoc,
        List.take_append_drop, List.take_append_drop]
    refine ⟨?_, ?_, ?_⟩
    · dsimp only
      rw [Bytes.ofNatLE_toNatLE_of_length first, Bytes.ofNatLE_toNatLE_of_length second,
        Bytes.ofNatLE_toNatLE_of_length third]
      exact split
    · have := Bytes.toNatLE_lt (head.take 8)
      rw [first] at this
      simpa using this
    · have := Bytes.toNatLE_lt ((head.drop 12).take 4)
      rw [third] at this
      simpa using this
  · cases read

/-- A payload that passes `ofParts` is the payload of the record it gives, which carries the
header's LSN and checksum. -/
theorem Record.eq_of_ofParts {h : Header} {body : Bytes} {r : Record}
    (parts : Record.ofParts h body = .ok r) (whole : body.length = h.len) :
    r.lsn = h.lsn ∧ r.payload = body ∧ r.crc = h.crc ∧ r.timestamp < 2 ^ 64 := by
  unfold Record.ofParts at parts
  dsimp only at parts
  split at parts
  · cases parts
  rename_i sums
  cases word : Bytes.takeWord 8 body with
  | none => simp [word] at parts
  | some split =>
    obtain ⟨timestamp, afterTimestamp⟩ := split
    obtain ⟨bodyEq, small⟩ := Bytes.eq_of_takeWord word
    rw [word] at parts
    dsimp only at parts
    cases decoded : Entry.decode afterTimestamp with
    | mk result rest =>
      rw [decoded] at parts
      cases result with
      | error fault => cases parts
      | ok entry =>
        dsimp only at parts
        split at parts
        · rename_i empty
          simp only [Except.ok.injEq] at parts
          subst parts
          have entryEq := (Entry.decode_eq_ok decoded).2
          rw [List.isEmpty_iff.mp empty, List.append_nil] at entryEq
          have payloadEq : (⟨h.lsn, timestamp, entry⟩ : Record).payload = body := by
            rw [Record.payload, ← entryEq, ← bodyEq]
          refine ⟨rfl, payloadEq, ?_, by simpa using small⟩
          rw [Record.crc, payloadEq, whole]
          exact not_not.mp sums
        · cases parts

/-- The bytes a reader accepts as a record are that record's encoding, followed by the rest, and
the record fits the format. -/
theorem recordAt?_eq_some {bs : Bytes} {r : Record} (reads : recordAt? bs = some r) :
    r.Fits ∧ bs = r.encode ++ bs.drop r.encode.length := by
  unfold recordAt? at reads
  cases read : Header.read? bs with
  | none => simp [read] at reads
  | some h =>
    rw [read] at reads
    dsimp only at reads
    split at reads
    · cases reads
    rename_i long
    cases parts : Record.ofParts h ((bs.drop headerSize).take h.len) with
    | error fault => simp [parts] at reads
    | ok found =>
      simp only [parts, Option.some.injEq] at reads
      subst reads
      have whole : ((bs.drop headerSize).take h.len).length = h.len := by
        have := List.length_take_le h.len (bs.drop headerSize)
        omega
      obtain ⟨head, lsnWord, lenWord⟩ := Header.eq_of_read? read
      obtain ⟨lsn, payload, crc, stamp⟩ := Record.eq_of_ofParts parts whole
      have encodeEq : found.encode = bs.take (headerSize + h.len) := by
        rw [Record.encode, lsn, crc, payload, whole, ← head, List.take_add]
      refine ⟨⟨lsn ▸ lsnWord, stamp, by rw [payload, whole]; exact lenWord⟩, ?_⟩
      have room := whole
      rw [List.length_take, List.length_drop] at room
      have := Header.headerSize_le_of_read? read
      rw [encodeEq, List.length_take_of_le (by omega), List.take_append_drop]

/-! ## One read -/

namespace Reader

variable {rd rd' : Reader}

/-- A read that returns a record took the record's encoding off the front of the unread bytes;
the record fits the format. -/
theorem next_eq_valid {r : Record} (valid : rd.next = (some (.valid r), rd')) :
    r.Fits ∧ rd.unread = r.encode ++ rd'.unread ∧ rd'.position = rd.position + r.encode.length ∧
      rd'.lastLsn = r.lsn := by
  cases reads : recordAt? rd.unread with
  | some found =>
    obtain ⟨fits, split⟩ := recordAt?_eq_some reads
    rw [next_encode_append fits split] at valid
    simp only [Prod.mk.injEq, Option.some.injEq, Slot.valid.injEq] at valid
    obtain ⟨rfl, rfl⟩ := valid
    exact ⟨fits, split, rfl, rfl⟩
  | none =>
    -- where no record reads, a read ends the log or reports damage
    exfalso
    by_cases empty : rd.unread = []
    · rw [next_of_unread_nil empty] at valid
      cases valid
    cases found : rd.resync with
    | some k =>
      obtain ⟨lsn, fault, damaged⟩ := next_of_resync_some reads found
      rw [damaged] at valid
      cases valid
    | none =>
      rcases next_of_resync_none reads empty found with torn | ⟨lsn, fault, damaged⟩
      · rw [torn] at valid
        cases valid
      · rw [damaged] at valid
        cases valid

/-- Where a read reports damage, no record reads at the front, and the reader lands on the
first record start past the front byte, or at the end of the file when there is none. -/
theorem next_eq_damaged_lands {lsn : Nat} {fault : WalFault}
    (damaged : rd.next = (some (.damaged lsn fault), rd')) :
    recordAt? rd.unread = none ∧
      ((∃ k, rd.resync = some k ∧
          rd' = { rd with unread := rd.unread.drop k, position := rd.position + k }) ∨
        (rd.resync = none ∧
          rd' = { rd with unread := [], position := rd.position + rd.unread.length })) := by
  cases reads : recordAt? rd.unread with
  | some r =>
    obtain ⟨fits, split⟩ := recordAt?_eq_some reads
    rw [next_encode_append fits split] at damaged
    cases damaged
  | none =>
    refine ⟨rfl, ?_⟩
    cases found : rd.resync with
    | some k =>
      obtain ⟨_, _, landed⟩ := next_of_resync_some reads found
      rw [landed] at damaged
      simp only [Prod.mk.injEq] at damaged
      exact .inl ⟨k, rfl, damaged.2.symm⟩
    | none =>
      have nonempty : rd.unread ≠ [] := by
        intro empty
        rw [next_of_unread_nil empty] at damaged
        cases damaged
      rcases next_of_resync_none reads nonempty found with torn | ⟨_, _, toEnd⟩
      · rw [torn] at damaged
        cases damaged
      · rw [toEnd] at damaged
        simp only [Prod.mk.injEq] at damaged
        exact .inr ⟨rfl, damaged.2.symm⟩

/-- A read that reports damage moves the reader forward over some of the unread bytes, keeping
the last LSN read. -/
theorem next_eq_damaged {lsn : Nat} {fault : WalFault}
    (damaged : rd.next = (some (.damaged lsn fault), rd')) :
    ∃ k, 0 < k ∧ k ≤ rd.unread.length ∧ rd'.unread = rd.unread.drop k ∧
      rd'.position = rd.position + k := by
  obtain ⟨-, landed | ⟨-, rfl⟩⟩ := next_eq_damaged_lands damaged
  · obtain ⟨k, found, rfl⟩ := landed
    obtain ⟨pos, below, -⟩ := resync_eq_some found
    exact ⟨k, pos, Nat.le_of_lt below, rfl, rfl⟩
  · -- the search found nothing: the reader skips to the end of what was left, which was not empty
    have nonempty : rd.unread ≠ [] := by
      intro empty
      rw [next_of_unread_nil empty] at damaged
      cases damaged
    exact ⟨rd.unread.length, List.length_pos_iff.mpr nonempty, le_refl _, List.drop_length.symm, rfl⟩

end Reader

/-! ## A scan, read by read -/

/-- The LSN of the last of some records, 0 without one. -/
def lastLsnOf (rs : List Record) : Nat := (rs.getLast?.map (·.lsn)).getD 0

@[simp] theorem lastLsnOf_nil : lastLsnOf [] = 0 := rfl

@[simp] theorem lastLsnOf_append_singleton (rs : List Record) (r : Record) :
    lastLsnOf (rs ++ [r]) = r.lsn := by
  simp [lastLsnOf]

/-- The records a scan of `file` counts as lost, before the report stores the count. -/
def lostCount (file : Bytes) : Nat := (scanFrom (Reader.start file) 0 {}).2.lost

/-- What a scan of `file` keeps between reads, having read the records `done` with `pending`
damaged reads since the last of them, into the report `acc`. The reader stands at its position
in the file. The valid part ends there when no damage was read since the last record, and
before it otherwise. The records read fit the format, the report holds the last one's LSN, and
back to back they are at most as long as the valid part: they are all of it while nothing counts
as lost, and strictly shorter once something does. -/
structure Scanned (file : Bytes) (done : List Record) (rd : Reader) (pending : Nat) (acc : Report) :
    Prop where
  unread : rd.unread = file.drop rd.position
  inFile : rd.position ≤ file.length
  caughtUp : pending = 0 → acc.validLen = rd.position
  behind : 0 < pending → acc.validLen < rd.position
  fits : ∀ r ∈ done, r.Fits
  last : acc.lastLsn = lastLsnOf done
  covered : ((done.map Record.encode).flatten).length ≤ acc.validLen
  exact : acc.lost = 0 → file.take acc.validLen = (done.map Record.encode).flatten
  lossy : 0 < acc.lost → ((done.map Record.encode).flatten).length < acc.validLen

namespace Scanned

variable {file : Bytes} {done : List Record} {rd rd' : Reader} {pending : Nat} {acc : Report}

theorem validLen_le (s : Scanned file done rd pending acc) : acc.validLen ≤ rd.position := by
  rcases Nat.eq_zero_or_pos pending with none | some
  · exact Nat.le_of_eq (s.caughtUp none)
  · exact Nat.le_of_lt (s.behind some)

/-- A scan starts at the front of the file with nothing read. -/
theorem start (file : Bytes) : Scanned file [] (Reader.start file) 0 {} where
  unread := rfl
  inFile := Nat.zero_le _
  caughtUp _ := rfl
  behind none := absurd none (Nat.lt_irrefl 0)
  fits _ member := absurd member List.not_mem_nil
  last := rfl
  covered := Nat.le_refl _
  exact _ := rfl
  lossy none := absurd none (Nat.lt_irrefl 0)

/-- Reading a record adds it to the records read and ends the valid part after it. Damage read
since the last record makes it count as lost, and leaves bytes in the valid part that no record
read covers. -/
theorem valid (s : Scanned file done rd pending acc) {r : Record}
    (next : rd.next = (some (.valid r), rd')) :
    Scanned file (done ++ [r]) rd' 0
      { acc with
        lost := acc.lost + if 0 < pending then max pending (r.lsn - expectedAfter acc.lastLsn) else 0,
        recovered := acc.recovered + 1, lastLsn := r.lsn, validLen := rd'.position } := by
  obtain ⟨fits, split, moved, -⟩ := Reader.next_eq_valid next
  have front : file.drop rd.position = r.encode ++ rd'.unread := s.unread ▸ split
  have room : rd.position + r.encode.length ≤ file.length := by
    have := congrArg List.length front
    rw [List.length_drop, List.length_append] at this
    have := s.inFile
    omega
  have behind := s.validLen_le
  have grows : ((done ++ [r]).map Record.encode).flatten =
      (done.map Record.encode).flatten ++ r.encode := by simp
  refine ⟨?unread, moved ▸ room, fun _ => rfl, fun none => absurd none (Nat.lt_irrefl 0), ?fits,
    lastLsnOf_append_singleton done r ▸ rfl, ?covered, ?exact, ?lossy⟩
  case unread =>
    rw [moved, ← List.drop_drop, front, List.drop_left]
  case fits =>
    intro x hx
    rcases List.mem_append.1 hx with old | new
    · exact s.fits x old
    · rw [List.mem_singleton.1 new]
      exact fits
  case covered =>
    dsimp only
    rw [grows, List.length_append, moved]
    have := s.covered
    omega
  case exact =>
    dsimp only
    intro clean
    -- nothing lost so far and no damage since the last record: the record follows the valid part
    have quiet : pending = 0 := by
      by_contra damage
      have : 0 < pending := Nat.pos_of_ne_zero damage
      simp only [this, if_true] at clean
      omega
    have before : acc.lost = 0 := by omega
    rw [grows, moved, ← s.caughtUp quiet, List.take_add, s.exact before, s.caughtUp quiet, front,
      List.take_left]
  case lossy =>
    dsimp only
    intro lost
    rw [grows, List.length_append, moved]
    have := s.covered
    by_cases damage : 0 < pending
    · have := s.behind damage
      omega
    · simp only [damage, if_false, Nat.add_zero] at lost
      have := s.lossy lost
      omega

/-- Reading damage moves the reader forward and leaves the records read and the report's counts
as they were, but for the damaged count. -/
theorem damaged (s : Scanned file done rd pending acc) {lsn : Nat} {fault : WalFault}
    (next : rd.next = (some (.damaged lsn fault), rd')) :
    Scanned file done rd' (pending + 1) { acc with corrupted := acc.corrupted + 1 } := by
  obtain ⟨k, pos, within, unread, moved⟩ := Reader.next_eq_damaged next
  have length := congrArg List.length s.unread
  rw [List.length_drop] at length
  have behind := s.validLen_le
  have inFile := s.inFile
  refine ⟨by rw [unread, s.unread, List.drop_drop, moved], by rw [moved]; omega,
    fun none => absurd none (Nat.succ_ne_zero pending), fun _ => ?_, s.fits, s.last, s.covered,
    s.exact, s.lossy⟩
  dsimp only
  omega

end Scanned

/-- A scan keeps `Scanned` to the end of the log, for the records it returns. -/
theorem scanned_scanFrom {file : Bytes} {done : List Record} {rd : Reader} {pending : Nat}
    {acc : Report} (s : Scanned file done rd pending acc) :
    ∃ rd' pending', Scanned file (done ++ (scanFrom rd pending acc).1) rd' pending'
      (scanFrom rd pending acc).2 := by
  match next : rd.next with
  | (none, _) =>
    rw [scanFrom_of_next_none next, List.append_nil]
    exact ⟨rd, pending, s⟩
  | (some .torn, _) =>
    rw [scanFrom_of_next_torn next, List.append_nil]
    exact ⟨rd, pending, s⟩
  | (some (.valid r), rd') =>
    have := Reader.next_shrinks rd _ rd' next (by simp)
    rw [scanFrom_of_next_valid next]
    obtain ⟨rd'', pending', kept⟩ := scanned_scanFrom (s.valid next)
    refine ⟨rd'', pending', ?_⟩
    simpa only [List.append_assoc, List.singleton_append] using kept
  | (some (.damaged lsn fault), rd') =>
    have := Reader.next_shrinks rd _ rd' next (by simp)
    rw [scanFrom_of_next_damaged next]
    exact scanned_scanFrom (s.damaged next)
termination_by rd.unread.length

/-! ## The valid part of a log -/

/-- Whatever the bytes of a log file, the valid part recovery finds lies within the file, and it
reports a truncation exactly when bytes follow it; verifying reports as recovering does. The
count of lost records it reports is the scan's count as a 64-bit word, and the scan counts
nothing as lost exactly when the valid part is the records it returns, back to back. -/
theorem recover_prefix_exact (file : Bytes) :
    (recover file).2.1.validLen ≤ file.length ∧
      ((recover file).2.1.truncated = true ↔ (recover file).2.1.validLen < file.length) ∧
      verify file = (recover file).2.1 ∧
      (recover file).2.1.lost = lostCount file % 2 ^ 64 ∧
      (lostCount file = 0 ↔
        file.take (recover file).2.1.validLen = ((recover file).1.map Record.encode).flatten) := by
  obtain ⟨rd, pending, s⟩ := scanned_scanFrom (Scanned.start file)
  rw [List.nil_append] at s
  unfold verify recover scan lostCount
  generalize scanFrom (Reader.start file) 0 {} = result at s
  obtain ⟨records, report⟩ := result
  dsimp only at s ⊢
  have within : report.validLen ≤ file.length := Nat.le_trans s.validLen_le s.inFile
  refine ⟨within, decide_eq_true_iff, rfl, rfl, ⟨s.exact, fun same => ?_⟩⟩
  -- the records back to back are as long as the valid part, so damage cannot come before them
  by_contra lost
  have shorter := s.lossy (Nat.pos_of_ne_zero lost)
  have length := congrArg List.length same
  rw [List.length_take, Nat.min_eq_left within] at length
  omega

/-- A record with a one-byte key and value, stamped 0. -/
def smallRecord (lsn : Nat) (key value : UInt8) : Record := ⟨lsn, 0, .put [key] [value]⟩

/-- A record written with a checksum of zero, which no record here has: it reads as damage. -/
def zeroChecksum (r : Record) : Bytes := r.encode.take 8 ++ Bytes.ofNatLE 4 0 ++ r.encode.drop 12

/-- A record with LSN 1, a damaged one, a record with the last LSN there is, a record with LSN 1
again, another damaged one, and a record with LSN 5. The first run of damage counts
`2 ^ 64 - 3` records lost and the second 3. -/
def wrapLog : Bytes :=
  (smallRecord 1 97 49).encode ++ zeroChecksum (smallRecord 2 120 50) ++
    (smallRecord (2 ^ 64 - 1) 98 51).encode ++ (smallRecord 1 99 52).encode ++
    zeroChecksum (smallRecord 2 121 53) ++ (smallRecord 5 100 54).encode

set_option maxRecDepth 4000 in
/-- Two runs of damage that count `2 ^ 64` lost records between them: the report shows none,
although the valid part holds bytes that no record returned covers. -/
theorem recover_hides_wrapped_loss :
    lostCount wrapLog = 2 ^ 64 ∧ (recover wrapLog).2.1.lost = 0 ∧
      wrapLog.take (recover wrapLog).2.1.validLen ≠
        ((recover wrapLog).1.map Record.encode).flatten := by
  decide +kernel

end Wal

end LsmStore
