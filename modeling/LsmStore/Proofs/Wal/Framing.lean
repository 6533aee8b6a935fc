import Mathlib
import LsmStore.Wal.Reader

/-!
# Framing of log records

A record written to the log reads back as itself. Its header gives back the LSN, checksum and
payload length that were written, its payload passes `ofParts`, and a reader standing at it
returns it and moves exactly past it. A written record is also a record start for the search
that follows damage, provided its LSN is above the last one read.

The other half is what a reader does where no record can be read. It reports damage and moves
to the first record start after the damaged record's first byte; when there is none, the log
ends there, as damage or as a torn tail.

## Main definitions

* `Wal.Record.Fits` — a record whose fields fit the widths of the log format
* `Wal.recordAt?` — the record a reader accepts at the front of some bytes, if any

## Main results

* `Wal.Reader.next_encode_append` — a reader at a written record reads it and moves past it
* `Wal.isRecordStart_encode_append` — a written record is a record start for any lower LSN
* `Wal.findRecordStart_eq_some`, `Wal.findRecordStart_eq_none_iff` — the search after damage
  finds the first record start
* `Wal.Reader.next_of_resync_some`, `Wal.Reader.next_of_resync_none` — a read where no record
  can be read
-/

namespace LsmStore

namespace Wal

/-- A record whose fields fit the log format: the LSN and the timestamp are 64-bit words and the
payload length is a 32-bit word, which is what `encode?` requires. -/
def Record.Fits (r : Record) : Prop :=
  r.lsn < 2 ^ 64 ∧ r.timestamp < 2 ^ 64 ∧ r.payload.length < 2 ^ 32

instance (r : Record) : Decidable r.Fits := inferInstanceAs (Decidable (_ ∧ _ ∧ _))

/-- The header written in front of a record's payload. -/
def Record.header (r : Record) : Header := ⟨r.lsn, r.crc, r.payload.length⟩

/-- The record a reader accepts at the front of `bs`: a whole header, the payload it announces
inside `bs`, and a header and payload that `ofParts` accepts. -/
def recordAt? (bs : Bytes) : Option Record :=
  match Header.read? bs with
  | none => none
  | some h =>
    let body := (bs.drop headerSize).take h.len
    if body.length < h.len then none
    else match Record.ofParts h body with
      | .ok r => some r
      | .error _ => none

/-! ## A written record reads back -/

namespace Record

/-- The sixteen header bytes of a record. -/
def headerBytes (r : Record) : Bytes :=
  Bytes.ofNatLE 8 r.lsn ++ Bytes.ofNatLE 4 r.crc ++ Bytes.ofNatLE 4 r.payload.length

theorem encode_eq_headerBytes_append (r : Record) : r.encode = r.headerBytes ++ r.payload := rfl

@[simp] theorem length_headerBytes (r : Record) : r.headerBytes.length = headerSize := by
  simp [headerBytes, headerSize]

theorem length_encode_eq (r : Record) : r.encode.length = headerSize + r.payload.length := by
  rw [encode_eq_headerBytes_append, List.length_append, length_headerBytes]

/-- Past its header, a record's bytes and what follows them are its payload and what follows. -/
theorem drop_headerSize_encode_append (r : Record) (rest : Bytes) :
    (r.encode ++ rest).drop headerSize = r.payload ++ rest := by
  rw [encode_eq_headerBytes_append, List.append_assoc]
  exact List.drop_left' (length_headerBytes r)

theorem take_drop_headerSize_encode_append (r : Record) (rest : Bytes) :
    ((r.encode ++ rest).drop headerSize).take r.payload.length = r.payload := by
  rw [drop_headerSize_encode_append]
  exact List.take_left' rfl

theorem crc_lt (r : Record) : r.crc < 2 ^ 32 := UInt32.toNat_lt _

/-- A payload holds a timestamp and an entry, so it is never below the smallest payload. -/
theorem minPayload_le_length_payload (r : Record) : minPayload ≤ r.payload.length := by
  simp [minPayload, Entry.encodedLen]
  omega

@[simp] theorem header_lsn (r : Record) : r.header.lsn = r.lsn := rfl

@[simp] theorem header_crc (r : Record) : r.header.crc = r.crc := rfl

@[simp] theorem header_len (r : Record) : r.header.len = r.payload.length := rfl

/-- A key of a record that fits has a length that fits its 32-bit length word. -/
theorem Fits.key_length_lt {r : Record} (fits : r.Fits) : r.entry.key.length < 2 ^ 32 := by
  have payload := fits.2.2
  simp only [length_payload, Entry.encodedLen] at payload
  omega

/-- A value of a record that fits is shorter than the tombstone mark, so it is never read as a
deletion. -/
theorem Fits.value_length_lt {r : Record} (fits : r.Fits) :
    ∀ v, r.entry.value = some v → v.length < Entry.tombstoneMark := by
  intro v hv
  have payload := fits.2.2
  simp only [length_payload, Entry.encodedLen, hv, Option.map_some, Option.getD_some] at payload
  simp only [Entry.tombstoneMark]
  omega

end Record

/-- The header of a written record is read back from its first sixteen bytes. -/
theorem Header.read?_encode_append {r : Record} (fits : r.Fits) (rest : Bytes) :
    Header.read? (r.encode ++ rest) = some r.header := by
  have head : (r.encode ++ rest).take headerSize = r.headerBytes := by
    rw [Record.encode_eq_headerBytes_append, List.append_assoc]
    exact List.take_left' (Record.length_headerBytes r)
  have lsn : r.lsn % 256 ^ 8 = r.lsn := Nat.mod_eq_of_lt (Nat.lt_of_lt_of_eq fits.1 (by decide))
  have crc : r.crc % 256 ^ 4 = r.crc :=
    Nat.mod_eq_of_lt (Nat.lt_of_lt_of_eq r.crc_lt (by decide))
  have len : r.payload.length % 256 ^ 4 = r.payload.length :=
    Nat.mod_eq_of_lt (Nat.lt_of_lt_of_eq fits.2.2 (by decide))
  unfold Header.read?
  simp only [head, Record.headerBytes, List.append_assoc]
  rw [List.take_left' (Bytes.length_ofNatLE 8 _), List.drop_left' (Bytes.length_ofNatLE 8 _),
    List.take_left' (Bytes.length_ofNatLE 4 _)]
  have drop12 : (Bytes.ofNatLE 8 r.lsn ++ (Bytes.ofNatLE 4 r.crc ++
      Bytes.ofNatLE 4 r.payload.length)).drop 12 = Bytes.ofNatLE 4 r.payload.length := by
    rw [← List.append_assoc]
    exact List.drop_left' (by simp)
  rw [drop12, List.take_of_length_le (by simp), Bytes.toNatLE_ofNatLE, Bytes.toNatLE_ofNatLE,
    Bytes.toNatLE_ofNatLE, lsn, crc, len]
  rfl

/-- The payload of a record that fits passes every check of `ofParts` and gives the record
back. -/
theorem Record.ofParts_header {r : Record} (fits : r.Fits) : ofParts r.header r.payload = .ok r := by
  have timestamp : r.timestamp % 256 ^ 8 = r.timestamp :=
    Nat.mod_eq_of_lt (Nat.lt_of_lt_of_eq fits.2.1 (by decide))
  have word : Bytes.takeWord 8 r.payload = some (r.timestamp, r.entry.encode) := by
    rw [payload, Bytes.takeWord_ofNatLE_append, timestamp]
  have entry : Entry.decode r.entry.encode = (.ok r.entry, []) := by
    simpa using Entry.decode_encode_append r.entry [] fits.key_length_lt fits.value_length_lt
  unfold ofParts
  simp only [header, crc, ne_eq, not_true_eq_false, if_false, word, entry, List.isEmpty_nil,
    if_true]

/-- A reader standing at a record that fits reads it, moves to the byte after it, and takes its
LSN as the last one read. -/
theorem Reader.next_encode_append {r : Record} (fits : r.Fits) {rd : Reader} {rest : Bytes}
    (unread : rd.unread = r.encode ++ rest) :
    rd.next = (some (.valid r), ⟨rest, rd.position + r.encode.length, r.lsn⟩) := by
  have after : (r.encode ++ rest).drop (headerSize + r.payload.length) = rest := by
    rw [← List.drop_drop, r.drop_headerSize_encode_append rest]
    exact List.drop_left' rfl
  unfold next
  rw [unread, Header.read?_encode_append fits]
  simp only [Record.header_len, Record.header_lsn, Record.take_drop_headerSize_encode_append,
    Nat.lt_irrefl, if_false, Record.ofParts_header fits, after, Record.length_encode_eq,
    Nat.add_assoc]

/-- A record that fits is a record start for the search after damage, for any last LSN below
its own. -/
theorem isRecordStart_encode_append {r : Record} (fits : r.Fits) {last : Nat} (above : last < r.lsn)
    (rest : Bytes) : isRecordStart last (r.encode ++ rest) (r.encode ++ rest).length = true := by
  have fitsFile : r.payload.length ≤ (r.encode ++ rest).length - headerSize := by
    rw [List.length_append, Record.length_encode_eq]
    omega
  unfold isRecordStart
  rw [Header.read?_encode_append fits]
  simp only [Record.header_len, Record.header_lsn, Record.header_crc, Header.describes,
    Record.drop_headerSize_encode_append, List.take_left', Record.crc, beq_self_eq_true,
    Bool.and_true, Bool.and_eq_true]
  exact ⟨⟨decide_eq_true above, decide_eq_true r.minPayload_le_length_payload⟩,
    decide_eq_true fitsFile⟩

/-! ## The search after damage -/

/-- A header is only read from sixteen bytes or more. -/
theorem Header.read?_eq_none {bs : Bytes} (none : Header.read? bs = none) :
    bs.length < headerSize := by
  unfold Header.read? at none
  dsimp only at none
  split at none
  · simp at none
  · rename_i short
    rw [List.length_take] at short
    simp only [headerSize] at short ⊢
    omega

/-- A record start holds a whole header. -/
theorem headerSize_le_of_isRecordStart {last size : Nat} {bs : Bytes}
    (start : isRecordStart last bs size = true) : headerSize ≤ bs.length := by
  unfold isRecordStart at start
  split at start
  · simp at start
  · exact Header.headerSize_le_of_read? ‹_›

/-- The search finds nothing exactly when no offset of `bs` is a record start. -/
theorem findRecordStart_eq_none_iff {last k : Nat} {bs : Bytes} :
    findRecordStart last bs bs.length k = none ↔
      ∀ m < bs.length, isRecordStart last (bs.drop m) (bs.length - m) = false := by
  induction bs generalizing k with
  | nil => simp [findRecordStart]
  | cons b bs ih =>
    simp only [findRecordStart, List.length_cons, Nat.add_sub_cancel]
    split
    · rename_i start
      simp only [reduceCtorEq, false_iff]
      intro all
      simpa [start] using all 0 (by omega)
    · rename_i notStart
      rw [ih]
      constructor
      · intro rest m hm
        cases m with
        | zero => simpa using notStart
        | succ m => simpa using rest m (by omega)
      · intro all m hm
        simpa using all (m + 1) (by omega)

/-- What the search finds is the first record start of `bs`, counted from `k`. -/
theorem findRecordStart_eq_some {last k j : Nat} {bs : Bytes}
    (found : findRecordStart last bs bs.length k = some j) :
    ∃ m, j = k + m ∧ m < bs.length ∧ isRecordStart last (bs.drop m) (bs.length - m) = true ∧
      ∀ m' < m, isRecordStart last (bs.drop m') (bs.length - m') = false := by
  induction bs generalizing k with
  | nil => simp [findRecordStart] at found
  | cons b bs ih =>
    simp only [findRecordStart, List.length_cons, Nat.add_sub_cancel] at found
    split at found
    · rename_i start
      cases found
      exact ⟨0, rfl, by simp, by simpa using start, fun _ h => absurd h (Nat.not_lt_zero _)⟩
    · rename_i notStart
      obtain ⟨m, rfl, hm, start, first⟩ := ih found
      refine ⟨m + 1, by omega, by simpa using hm, by simpa using start, ?_⟩
      intro m' hm'
      cases m' with
      | zero => simpa using notStart
      | succ m' => simpa using first m' (by omega)

namespace Reader

/-- The search a reader makes after a damaged record at the front of its unread bytes: from the
second byte on, for a record above the last LSN read. -/
def resync (rd : Reader) : Option Nat :=
  findRecordStart rd.lastLsn (rd.unread.drop 1) (rd.unread.length - 1) 1

theorem resync_eq (rd : Reader) :
    rd.resync = findRecordStart rd.lastLsn (rd.unread.drop 1) (rd.unread.drop 1).length 1 := by
  rw [resync, List.length_drop]

theorem skipDamaged_of_resync_some {rd : Reader} {k : Nat} (found : rd.resync = some k)
    (lsn : Nat) (fault : WalFault) (complete : Bool) :
    rd.skipDamaged lsn fault complete =
      (.damaged lsn fault, { rd with unread := rd.unread.drop k, position := rd.position + k }) := by
  unfold skipDamaged
  rw [show findRecordStart _ _ _ _ = rd.resync from rfl, found]

theorem skipDamaged_of_resync_none {rd : Reader} (none : rd.resync = none) (lsn : Nat)
    (fault : WalFault) (complete : Bool) :
    rd.skipDamaged lsn fault complete =
      if complete then
        (.damaged lsn fault, { rd with unread := [], position := rd.position + rd.unread.length })
      else (.torn, { rd with unread := [] }) := by
  unfold skipDamaged
  rw [show findRecordStart _ _ _ _ = rd.resync from rfl, none]

/-- The search after damage at offset `o` of a file looks at the offsets after `o`. -/
theorem resync_drop (file : Bytes) (o last : Nat) :
    resync ⟨file.drop o, o, last⟩ =
      findRecordStart last (file.drop (o + 1)) (file.drop (o + 1)).length 1 := by
  rw [resync_eq, List.drop_drop]

/-- The search after damage at offset `o` finds nothing exactly when no offset after `o` is a
record start. -/
theorem resync_drop_eq_none_iff {file : Bytes} {o last : Nat} :
    resync ⟨file.drop o, o, last⟩ = none ↔
      ∀ q, o < q → q < file.length → isRecordStart last (file.drop q) (file.length - q) = false := by
  rw [resync_drop, findRecordStart_eq_none_iff]
  simp only [List.length_drop, List.drop_drop]
  constructor
  · intro none q above below
    have := none (q - (o + 1)) (by omega)
    rwa [show o + 1 + (q - (o + 1)) = q by omega, Nat.sub_sub,
      show o + 1 + (q - (o + 1)) = q by omega] at this
  · intro none t inside
    rw [Nat.sub_sub]
    exact none (o + 1 + t) (by omega) (by omega)

/-- The search after damage at offset `o` lands on the first record start after `o`. -/
theorem resync_drop_eq_some {file : Bytes} {o last k : Nat}
    (found : resync ⟨file.drop o, o, last⟩ = some k) :
    0 < k ∧ o + k < file.length ∧ isRecordStart last (file.drop (o + k)) (file.length - (o + k)) = true ∧
      ∀ q, o < q → q < o + k → isRecordStart last (file.drop q) (file.length - q) = false := by
  rw [resync_drop] at found
  obtain ⟨t, rfl, inside, start, first⟩ := findRecordStart_eq_some found
  simp only [List.length_drop, List.drop_drop, Nat.sub_sub] at inside start first
  refine ⟨by omega, by omega, by rwa [Nat.add_assoc] at start, ?_⟩
  intro q above below
  have := first (q - (o + 1)) (by omega)
  rwa [show o + 1 + (q - (o + 1)) = q by omega] at this

/-- A search that finds something needs a whole header after the first byte. -/
theorem headerSize_lt_of_resync_some {rd : Reader} {k : Nat} (found : rd.resync = some k) :
    headerSize < rd.unread.length := by
  rw [resync_eq] at found
  obtain ⟨m, -, -, start, -⟩ := findRecordStart_eq_some found
  have := headerSize_le_of_isRecordStart start
  simp only [List.length_drop, headerSize] at this ⊢
  omega

/-- A reader with nothing left to read is at the end of the log. -/
theorem next_of_unread_nil {rd : Reader} (empty : rd.unread = []) : rd.next = (none, rd) := by
  unfold next
  rw [empty]
  rfl

/-- Where no record can be read and the search finds a record start, the reader reports damage
and moves to that record start. -/
theorem next_of_resync_some {rd : Reader} (unreadable : recordAt? rd.unread = none) {k : Nat}
    (found : rd.resync = some k) :
    ∃ lsn fault, rd.next =
      (some (.damaged lsn fault), { rd with unread := rd.unread.drop k, position := rd.position + k }) := by
  have long := headerSize_lt_of_resync_some found
  unfold next
  unfold recordAt? at unreadable
  cases read : Header.read? rd.unread with
  | none => exact absurd (Header.read?_eq_none read) (by omega)
  | some h =>
    rw [read] at unreadable
    dsimp only at unreadable ⊢
    by_cases short : ((rd.unread.drop headerSize).take h.len).length < h.len
    · simp only [if_pos short, skipDamaged_of_resync_some found]
      exact ⟨_, _, rfl⟩
    · rw [if_neg short] at unreadable ⊢
      cases parts : Record.ofParts h ((rd.unread.drop headerSize).take h.len) with
      | ok r => simp [parts] at unreadable
      | error fault =>
        simp only [skipDamaged_of_resync_some found]
        exact ⟨_, _, rfl⟩

/-- Where no record can be read and the search finds nothing, the log ends: as damage read to
the end of the file, or as a torn tail. -/
theorem next_of_resync_none {rd : Reader} (unreadable : recordAt? rd.unread = none)
    (nonempty : rd.unread ≠ []) (none : rd.resync = none) :
    rd.next = (some .torn, { rd with unread := [] }) ∨
      ∃ lsn fault, rd.next = (some (.damaged lsn fault),
        { rd with unread := [], position := rd.position + rd.unread.length }) := by
  unfold next
  unfold recordAt? at unreadable
  cases read : Header.read? rd.unread with
  | none =>
    left
    simp [List.isEmpty_iff, nonempty]
  | some h =>
    rw [read] at unreadable
    dsimp only at unreadable ⊢
    by_cases short : ((rd.unread.drop headerSize).take h.len).length < h.len
    · left
      rw [if_pos short, skipDamaged_of_resync_none none]
      rfl
    · rw [if_neg short] at unreadable ⊢
      cases parts : Record.ofParts h ((rd.unread.drop headerSize).take h.len) with
      | ok r => simp [parts] at unreadable
      | error fault =>
        right
        simp only [skipDamaged_of_resync_none none, if_true]
        exact ⟨_, _, rfl⟩

end Reader

end Wal

end LsmStore
