import LsmStore.Crc32
import LsmStore.Error

/-!
# Write-ahead log records

The log is a sequence of records, each one update stamped with a log sequence number (LSN) and
a wall-clock timestamp:

    [LSN, u64 LE][CRC, u32 LE][payload length, u32 LE][timestamp, u64 LE][entry]

The checksum is CRC-32 over the LSN, the length and the payload, so a damaged header is caught
as surely as a damaged payload. Decoding checks, in this order: a whole header, the payload
length, the checksum, room for the timestamp, the entry, and no bytes after the entry.

## Main definitions

* `Wal.Record` — one logged update
* `Wal.Record.encode?` — the bytes of a record; refused when the payload outgrows 32 bits
* `Wal.Header` — the sixteen header bytes, read before the payload is trusted
* `Wal.Record.ofParts`, `Wal.Record.decode` — checking a header with its payload, or a whole record

## Main results

* `length_encode` — a record takes `serializedSize` bytes
-/

namespace LsmStore

namespace Wal

/-- Bytes of a record header: LSN, checksum and payload length. -/
def headerSize : Nat := 16

/-- The smallest payload: a timestamp and an entry with empty key and value. -/
def minPayload : Nat := 16

/-- The checksum of a record: CRC-32 over its LSN, payload length and payload. -/
def checksumOf (lsn len : Nat) (payload : Bytes) : Nat :=
  (Crc32.checksum (Bytes.ofNatLE 8 lsn ++ Bytes.ofNatLE 4 len ++ payload)).toNat

/-- One logged update. -/
structure Record where
  lsn : Nat
  timestamp : Nat
  entry : Entry
deriving DecidableEq, Repr

/-- The sixteen header bytes of a record, read before its payload is trusted. -/
structure Header where
  lsn : Nat
  crc : Nat
  len : Nat
deriving DecidableEq, Repr

namespace Header

/-- Reads a header from the first sixteen bytes of `bs`, if there are sixteen. Only those
bytes are looked at, so reading a header costs the same however long the file is. -/
def read? (bs : Bytes) : Option Header :=
  let head := bs.take headerSize
  if head.length = headerSize then
    some ⟨Bytes.toNatLE (head.take 8), Bytes.toNatLE ((head.drop 8).take 4),
      Bytes.toNatLE ((head.drop 12).take 4)⟩
  else none

/-- A header is read only from at least sixteen bytes. -/
theorem headerSize_le_of_read? {bs : Bytes} {h : Header} (hr : read? bs = some h) :
    headerSize ≤ bs.length := by
  unfold read? at hr
  dsimp only at hr
  split at hr
  · rename_i hlen
    rw [List.length_take] at hlen
    omega
  · simp at hr

/-- Whether `payload` is exactly what the header's length and checksum describe. -/
def describes (h : Header) (payload : Bytes) : Bool :=
  payload.length == h.len && checksumOf h.lsn h.len payload == h.crc

end Header

namespace Record

/-- The payload: the timestamp followed by the encoded entry. -/
def payload (r : Record) : Bytes :=
  Bytes.ofNatLE 8 r.timestamp ++ r.entry.encode

/-- The number of bytes the record takes in the log. -/
def serializedSize (r : Record) : Nat :=
  headerSize + 8 + r.entry.encodedLen

/-- The checksum stored in the record's header. -/
def crc (r : Record) : Nat :=
  checksumOf r.lsn r.payload.length r.payload

/-- The bytes of the record, without checking the payload length. -/
def encode (r : Record) : Bytes :=
  Bytes.ofNatLE 8 r.lsn ++ Bytes.ofNatLE 4 r.crc ++ Bytes.ofNatLE 4 r.payload.length ++ r.payload

/-- The bytes of the record; refused when the payload does not fit the 32-bit length field. -/
def encode? (r : Record) : Except WalFault Bytes :=
  if r.payload.length < 2 ^ (32 : Nat) then .ok r.encode else .error (.payloadTooLarge r.payload.length)

/-- Checks a header against its payload and decodes the payload: checksum first, then the
timestamp, then the entry, then that nothing follows the entry. -/
def ofParts (h : Header) (payload : Bytes) : Except WalFault Record :=
  let actual := checksumOf h.lsn h.len payload
  if actual ≠ h.crc then .error (.checksumMismatch h.lsn h.crc actual)
  else match Bytes.takeWord 8 payload with
    | none => .error (.missingTimestamp h.lsn)
    | some (timestamp, body) =>
      match Entry.decode body with
      | (.error fault, _) => .error (.badEntry h.lsn fault)
      | (.ok entry, rest) =>
        if rest.isEmpty then .ok ⟨h.lsn, timestamp, entry⟩
        else .error (.trailingBytes h.lsn rest.length)

/-- Decodes exactly one record from `bs`. -/
def decode (bs : Bytes) : Except WalFault Record :=
  match Header.read? bs with
  | none => .error (.headerTruncated bs.length)
  | some h =>
    let payload := bs.drop headerSize
    if payload.length ≠ h.len then .error (.lengthMismatch h.len payload.length)
    else ofParts h payload

@[simp] theorem length_payload (r : Record) : r.payload.length = 8 + r.entry.encodedLen := by
  simp [payload]

theorem length_encode (r : Record) : r.encode.length = r.serializedSize := by
  simp [encode, serializedSize, headerSize]
  omega

end Record

end Wal

end LsmStore
