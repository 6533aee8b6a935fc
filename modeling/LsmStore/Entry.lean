import LsmStore.Bytes

/-!
# Entries and their encoding

An entry is the unit of data that moves between the in-memory table, the write-ahead log and
the table files: a key with either a value or no value, the latter being a deletion marker
(a tombstone). Both the log payload and the table data files hold entries in one
length-prefixed encoding:

    [key length, u32 LE][key][value length, u32 LE, or 0xFFFFFFFF for a tombstone][value]

Decoding reads from the front of a buffer and reports what is left of the buffer, also when it
fails: a length prefix that was read stays consumed.

## Main definitions

* `LsmStore.Entry` — a key and an optional value
* `Entry.encode`, `Entry.encodedLen` — the encoding and its length
* `Entry.decode` — one entry from the front of a buffer, with the rest of the buffer
* `EntryFault` — why an encoding could not be read

## Main results

* `length_encode` — the encoding is `encodedLen` bytes long
* `decode_encode_append` — decoding an encoding returns the entry and exactly the bytes after it
-/

namespace LsmStore

/-- A key with its value; a missing value marks the key as deleted. -/
structure Entry where
  key : Bytes
  value : Option Bytes
deriving DecidableEq, Repr, Inhabited

/-- Why an encoded entry could not be read. -/
inductive EntryFault where
  /-- Fewer than four bytes were left for the key length. -/
  | keyLengthTruncated (left : Nat)
  /-- The key length exceeds the bytes left. -/
  | keyTruncated (need avail : Nat)
  /-- Fewer than four bytes were left for the value length. -/
  | valueLengthTruncated (left : Nat)
  /-- The value length exceeds the bytes left. -/
  | valueTruncated (need avail : Nat)
deriving DecidableEq, Repr

namespace EntryFault

/-- The detail text of a decoding fault. -/
def message : EntryFault → String
  | .keyLengthTruncated n => "entry key length truncated: " ++ Bytes.decimal n ++ " byte(s) left"
  | .keyTruncated need avail =>
    "entry key truncated: need " ++ Bytes.decimal need ++ " bytes, have " ++ Bytes.decimal avail
  | .valueLengthTruncated n =>
    "entry value length truncated: " ++ Bytes.decimal n ++ " byte(s) left"
  | .valueTruncated need avail =>
    "entry value truncated: need " ++ Bytes.decimal need ++ " bytes, have " ++ Bytes.decimal avail

end EntryFault

namespace Entry

/-- The value length that marks a tombstone: all 32 bits set. -/
def tombstoneMark : Nat := 0xFFFFFFFF

/-- A live binding of `key` to `value`. -/
def put (key value : Bytes) : Entry := ⟨key, some value⟩

/-- A deletion marker for `key`. -/
def tombstone (key : Bytes) : Entry := ⟨key, none⟩

/-- Whether the entry is a deletion marker. -/
def isTombstone (e : Entry) : Bool := e.value.isNone

/-- The number of bytes the encoding of `e` takes: two length words, the key and the value. -/
def encodedLen (e : Entry) : Nat :=
  8 + e.key.length + (e.value.map List.length).getD 0

/-- The length-prefixed encoding of an entry. -/
def encode (e : Entry) : Bytes :=
  Bytes.ofNatLE 4 e.key.length ++ e.key ++
    match e.value with
    | some v => Bytes.ofNatLE 4 v.length ++ v
    | none => Bytes.ofNatLE 4 tombstoneMark

/-- Reads one entry from the front of `buf`. The second component is the buffer as decoding
left it: after the entry on success, after the last length word read on failure. -/
def decode (buf : Bytes) : Except EntryFault Entry × Bytes :=
  match Bytes.takeWord 4 buf with
  | none => (.error (.keyLengthTruncated buf.length), buf)
  | some (keyLen, afterKeyLen) =>
    if afterKeyLen.length < keyLen then
      (.error (.keyTruncated keyLen afterKeyLen.length), afterKeyLen)
    else
      let key := afterKeyLen.take keyLen
      let afterKey := afterKeyLen.drop keyLen
      match Bytes.takeWord 4 afterKey with
      | none => (.error (.valueLengthTruncated afterKey.length), afterKey)
      | some (valLen, afterValLen) =>
        if valLen = tombstoneMark then (.ok ⟨key, none⟩, afterValLen)
        else if afterValLen.length < valLen then
          (.error (.valueTruncated valLen afterValLen.length), afterValLen)
        else (.ok ⟨key, some (afterValLen.take valLen)⟩, afterValLen.drop valLen)

/-- Decodes entries one after another while bytes are left, stopping after the first fault;
`fuel` bounds the number of entries read. -/
def decodeManyFuel : Nat → Bytes → List (Except EntryFault Entry) × Bytes
  | 0, buf => ([], buf)
  | fuel + 1, buf =>
    if buf.isEmpty then ([], buf)
    else
      match decode buf with
      | (.ok e, rest) =>
        let (more, last) := decodeManyFuel fuel rest
        (.ok e :: more, last)
      | (.error f, rest) => ([.error f], rest)

/-- Decodes entries one after another until the buffer is empty or a fault occurs. Every
successful decode consumes at least eight bytes, so the length of the buffer is enough fuel. -/
def decodeMany (buf : Bytes) : List (Except EntryFault Entry) × Bytes :=
  decodeManyFuel (buf.length + 1) buf

@[simp] theorem length_encode (e : Entry) : e.encode.length = e.encodedLen := by
  rcases e with ⟨k, _ | v⟩ <;> simp [encode, encodedLen] <;> omega

theorem decode_encode_append (e : Entry) (rest : Bytes) (hk : e.key.length < 2 ^ (32 : Nat))
    (hv : ∀ v, e.value = some v → v.length < tombstoneMark) :
    decode (e.encode ++ rest) = (.ok e, rest) := by
  have hk4 : e.key.length % 256 ^ 4 = e.key.length := Nat.mod_eq_of_lt (Nat.lt_of_lt_of_eq hk rfl)
  rcases e with ⟨k, _ | v⟩
  · have ht4 : tombstoneMark % 256 ^ 4 = tombstoneMark := rfl
    simp only [encode, List.append_assoc]
    rw [decode, Bytes.takeWord_ofNatLE_append, hk4]
    dsimp only
    have hkl : ¬ ((k ++ (Bytes.ofNatLE 4 tombstoneMark ++ rest)).length < k.length) := by
      rw [List.length_append]; omega
    rw [if_neg hkl, List.take_left', List.drop_left', Bytes.takeWord_ofNatLE_append]
    dsimp only
    rw [ht4, if_pos rfl]
    all_goals rfl
  · have hv' : v.length < tombstoneMark := hv v rfl
    have hv4 : v.length % 256 ^ 4 = v.length :=
      Nat.mod_eq_of_lt (Nat.lt_trans hv' (by decide))
    simp only [encode, List.append_assoc]
    rw [decode, Bytes.takeWord_ofNatLE_append, hk4]
    dsimp only
    have hkl : ¬ ((k ++ (Bytes.ofNatLE 4 v.length ++ (v ++ rest))).length < k.length) := by
      rw [List.length_append]; omega
    rw [if_neg hkl, List.take_left', List.drop_left', Bytes.takeWord_ofNatLE_append]
    dsimp only
    rw [hv4, if_neg (Nat.ne_of_lt hv')]
    have hlt : ¬ ((v ++ rest).length < v.length) := by rw [List.length_append]; omega
    rw [if_neg hlt, List.take_left', List.drop_left']
    all_goals rfl

end Entry

end LsmStore
