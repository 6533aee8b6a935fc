import LsmStore.Entry
import LsmStore.Table.Id

/-!
# Errors

Every failure of the store is one value of `StoreError`, built from the cause, and its text is
made in one place, `StoreError.message`. The detail types say what went wrong in each layer:
the file system (`IoFault`), a log record (`WalFault`), a table file (`TableFault`) and the
configuration (`ConfigFault`).

## Main definitions

* `IoFault`, `WalFault`, `TableFault`, `ConfigFault` — causes, each with its detail text
* `LsmStore.StoreError` — every error the store reports
* `StoreError.message` — the text of an error
* `Bytes.escaped` — a byte string written as a quoted byte literal, as messages show keys
-/

namespace LsmStore

/-- A failed file-system call. -/
inductive IoFault where
  /-- The path, or a directory on the way to it, does not exist. -/
  | notFound
  /-- Something already exists where a directory was to be created. -/
  | alreadyExists
  /-- A file operation was applied to a directory. -/
  | isDirectory
  /-- A path goes through something that is not a directory. -/
  | notDirectory
  /-- A name in the path is longer than a directory entry allows. -/
  | nameTooLong
  /-- A read reached the end of the file before it had all the bytes it asked for. -/
  | shortRead
  /-- What was to be mapped into memory cannot be, as a directory cannot. -/
  | noDevice
deriving DecidableEq, Repr

namespace IoFault

/-- The operating system's text for the fault, with its error number; a short read has none. -/
def message : IoFault → String
  | .notFound => "No such file or directory (os error 2)"
  | .alreadyExists => "File exists (os error 17)"
  | .isDirectory => "Is a directory (os error 21)"
  | .notDirectory => "Not a directory (os error 20)"
  | .nameTooLong => "File name too long (os error 36)"
  | .shortRead => "failed to fill whole buffer"
  | .noDevice => "No such device (os error 19)"

end IoFault

/-- Why a log record was rejected. -/
inductive WalFault where
  /-- Fewer than sixteen bytes, so not even a header. -/
  | headerTruncated (got : Nat)
  /-- The payload is not as long as the header says. -/
  | lengthMismatch (declared got : Nat)
  /-- The stored checksum differs from the one computed over the record. -/
  | checksumMismatch (lsn stored computed : Nat)
  /-- The payload is too short to hold the timestamp. -/
  | missingTimestamp (lsn : Nat)
  /-- The entry inside the payload cannot be decoded. -/
  | badEntry (lsn : Nat) (fault : EntryFault)
  /-- Bytes follow the entry inside the payload. -/
  | trailingBytes (lsn extra : Nat)
  /-- A header at `offset` claims more payload than the file has left. -/
  | overrun (offset declared avail : Nat)
  /-- A payload too long for the 32-bit length field. -/
  | payloadTooLarge (len : Nat)
deriving DecidableEq, Repr

/-- Why a table file cannot be read. -/
inductive TableFault where
  /-- An entry in the data file cannot be decoded. -/
  | entry (fault : EntryFault)
  /-- The index is not a whole number of eight-byte offsets. -/
  | indexLength (id : TableId) (len : Nat)
  /-- The last offset of the index is not inside the data file. -/
  | lastOffset (id : TableId) (offset dataLen : Nat)
  /-- The offset of an entry is below the offset of the entry before it. -/
  | offsetsDecrease (id : TableId) (pos : Nat)
  /-- An entry leaves bytes before the next entry's offset. -/
  | strayBytes (id : TableId) (pos extra : Nat)
  /-- A read runs past the end of the file. -/
  | readPastEnd (len offset total : Nat)
  /-- A data file was found without its index. -/
  | missingIndex (id : TableId)
deriving DecidableEq, Repr

/-- Why a configuration is refused. -/
inductive ConfigFault where
  | zeroMemtableLimit
  | zeroSyncCount
  | compactThresholdTooLow (threshold : Nat)
deriving DecidableEq, Repr

namespace Bytes

/-- One byte inside a quoted byte literal: the usual escapes, printable ASCII as itself, every
other byte as a two-digit hexadecimal escape. -/
def escapeByte (b : UInt8) : String :=
  if b = 10 then "\\n"
  else if b = 13 then "\\r"
  else if b = 9 then "\\t"
  else if b = 92 then "\\\\"
  else if b = 34 then "\\\""
  else if b = 0 then "\\0"
  else if 32 ≤ b ∧ b ≤ 126 then String.singleton (Char.ofNat b.toNat)
  else "\\x" ++ String.singleton (hexDigit (b.toNat / 16)) ++
    String.singleton (hexDigit (b.toNat % 16))

/-- A byte string as a quoted byte literal, `b"..."`. -/
def escaped (bs : Bytes) : String :=
  "b\"" ++ String.join (bs.map escapeByte) ++ "\""

end Bytes

namespace WalFault

/-- The detail text of a rejected log record. -/
def message : WalFault → String
  | .headerTruncated got => "record header truncated: " ++ Bytes.decimal got ++ " of 16 bytes"
  | .lengthMismatch declared got =>
    "record payload length mismatch: header says " ++ Bytes.decimal declared ++ ", got " ++
      Bytes.decimal got
  | .checksumMismatch lsn stored computed =>
    "CRC mismatch at LSN " ++ Bytes.decimal lsn ++ ": expected " ++ Bytes.hexWord stored ++
      ", got " ++ Bytes.hexWord computed
  | .missingTimestamp lsn => "record " ++ Bytes.decimal lsn ++ " payload too short for timestamp"
  | .badEntry lsn fault =>
    "record " ++ Bytes.decimal lsn ++ ": SSTable corruption: " ++ fault.message
  | .trailingBytes lsn extra =>
    "record " ++ Bytes.decimal lsn ++ " has " ++ Bytes.decimal extra ++ " trailing payload bytes"
  | .overrun offset declared avail =>
    "record at offset " ++ Bytes.decimal offset ++ " claims " ++ Bytes.decimal declared ++
      " payload bytes, " ++ Bytes.decimal avail ++ " left"
  | .payloadTooLarge len => "record payload too large: " ++ Bytes.decimal len ++ " bytes"

end WalFault

namespace TableFault

/-- The detail text of an unreadable table. -/
def message : TableFault → String
  | .entry fault => fault.message
  | .indexLength id len =>
    "SSTable " ++ id.display ++ " index length " ++ Bytes.decimal len ++ " is not a multiple of 8"
  | .lastOffset id offset dataLen =>
    "SSTable " ++ id.display ++ " last offset " ++ Bytes.decimal offset ++
      " beyond data length " ++ Bytes.decimal dataLen
  | .offsetsDecrease id pos =>
    "SSTable " ++ id.display ++ " offsets decrease at entry " ++ Bytes.decimal pos
  | .strayBytes id pos extra =>
    "SSTable " ++ id.display ++ " entry " ++ Bytes.decimal pos ++ " has " ++ Bytes.decimal extra ++
      " stray bytes"
  | .readPastEnd len offset total =>
    "read of " ++ Bytes.decimal len ++ " bytes at offset " ++ Bytes.decimal offset ++
      " past end of file (" ++ Bytes.decimal total ++ " bytes)"
  | .missingIndex id => "SSTable " ++ id.display ++ " has a data file but no index"

end TableFault

namespace ConfigFault

/-- The detail text of a refused configuration. -/
def message : ConfigFault → String
  | .zeroMemtableLimit => "memtable_size_limit must be greater than zero"
  | .zeroSyncCount => "EveryNEntries sync count must be greater than zero"
  | .compactThresholdTooLow n =>
    "auto_compact_threshold must be at least 2, got " ++ Bytes.decimal n

end ConfigFault

/-- Every error the store reports. -/
inductive StoreError where
  /-- A file-system call failed. -/
  | io (fault : IoFault)
  /-- A log record is damaged. -/
  | wal (fault : WalFault)
  /-- Replaying a log segment found acknowledged records lost in the middle of it. -/
  | walDataLoss (segment lost : Nat)
  /-- A table file is damaged. -/
  | table (fault : TableFault)
  /-- A table was given keys that are not strictly ascending. -/
  | outOfOrder (id : TableId) (key last : Bytes)
  /-- Writing an in-memory table to disk failed with `cause`. -/
  | flushFailed (cause : StoreError)
  /-- The engine has been closed. -/
  | closed
  /-- The configuration is refused. -/
  | config (fault : ConfigFault)
deriving DecidableEq, Repr

namespace StoreError

/-- The text of an error. -/
def message : StoreError → String
  | .io fault => "IO error: " ++ fault.message
  | .wal fault => "WAL corruption detected: " ++ fault.message
  | .walDataLoss segment lost =>
    "WAL segment " ++ Bytes.decimal segment ++ " lost " ++ Bytes.decimal lost ++
      " acknowledged record(s)"
  | .table fault => "SSTable corruption: " ++ fault.message
  | .outOfOrder id key last =>
    "Storage error: SSTable " ++ id.display ++ " input out of order: " ++ Bytes.escaped key ++
      " after " ++ Bytes.escaped last
  | .flushFailed cause => "Background flush failed: " ++ cause.message
  | .closed => "Engine is closed"
  | .config fault => "Configuration error: " ++ fault.message

end StoreError

end LsmStore
