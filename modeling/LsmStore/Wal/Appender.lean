import LsmStore.Wal.Recovery
import LsmStore.Config
import LsmStore.Volume

/-!
# Appending to a log

An appender owns one log file. Opening it continues the log: the LSN goes on after the last
valid record, and whatever follows that record is cut off, so new records start on a record
boundary. Records go through an 8 KiB write buffer: a record that does not fit beside the
buffered bytes first pushes them to the file, and a record of 8 KiB or more goes to the file
directly. A sync pushes the buffer out; the sync policy says after how many appends that
happens by itself. Closing an appender, or losing it in a crash, also pushes the buffer out.

The appender holds its file open and writes at its own position, which only its own writes
move: bytes that something else put in the file meanwhile are written over, a file cut shorter
gets a gap of zeros, and a file whose path was removed keeps receiving the records where no
path reaches them.

## Main definitions

* `Wal.Appender` — the file, the next LSN, the records since the last sync, the write buffer
* `Wal.Appender.open`, `append`, `sync`, `truncate`, `close`
* `Wal.tailOf` — the next LSN and the valid length of an existing log
-/

namespace LsmStore

namespace Wal

/-- The capacity of the write buffer. -/
def bufferCapacity : Nat := 8192

/-- The LSNs are 64-bit words: the one after the largest is zero. -/
def nextLsnAfter (lsn : Nat) : Nat := (lsn + 1) % 2 ^ (64 : Nat)

/-- Reads a log to its end: the LSN after the last valid record (1 without one) and the offset
just past that record. Damaged records are read past; a torn tail ends the log. -/
def tailFrom (rd : Reader) (lastLsn validEnd : Nat) : Nat × Nat :=
  match h : rd.next with
  | (none, _) => (nextLsnAfter lastLsn, validEnd)
  | (some .torn, _) => (nextLsnAfter lastLsn, validEnd)
  | (some (.valid r), rd') =>
    have := Reader.next_shrinks rd (.valid r) rd' h (by simp)
    tailFrom rd' r.lsn rd'.position
  | (some (.damaged lsn fault), rd') =>
    have := Reader.next_shrinks rd (.damaged lsn fault) rd' h (by simp)
    tailFrom rd' lastLsn validEnd
termination_by rd.unread.length

/-- The LSN after the last valid record of a log file and the end of that record. -/
def tailOf (file : Bytes) : Nat × Nat := tailFrom (Reader.start file) 0 0

/-- A log file open for appending. -/
structure Appender where
  path : String
  /-- The file the appender holds open; it keeps writing there even once the path is gone. -/
  inode : Nat
  /-- Where the next bytes are written. -/
  position : Nat
  /-- The LSN the next record receives. -/
  nextLsn : Nat
  policy : SyncPolicy
  /-- Records appended since the last sync. -/
  uncommitted : Nat := 0
  /-- Bytes written but still in the buffer. -/
  buffered : Bytes := []
deriving Repr

namespace Appender

/-- Opens the log at `path`, creating it if missing; an existing log is continued after its
last valid record and cut to the end of it. Writing starts at the end of the file. -/
def «open» (v : Volume) (path : String) (policy : SyncPolicy) :
    Except StoreError (Appender × Volume) := do
  let (nextLsn, validEnd) ← match v.find? path with
    | none => pure (1, 0)
    | some .dir => throw (.io .isDirectory)
    | some (.file bs) => pure (tailOf bs)
  let (inode, v) ← (v.touch path).mapError .io
  let len := (v.contents inode).length
  let v := if validEnd < len then v.resize inode validEnd else v
  pure ({ path, inode, position := min len validEnd, nextLsn, policy }, v)

/-- Writes bytes to the file at the appender's position, past the buffer. -/
def put (a : Appender) (v : Volume) (bs : Bytes) : Appender × Volume :=
  ({ a with position := a.position + bs.length }, v.writeAt a.inode a.position bs)

/-- Pushes the buffered bytes to the file. -/
def flushBuffer (a : Appender) (v : Volume) : Appender × Volume :=
  { a with buffered := [] }.put v a.buffered

/-- Writes bytes through the buffer. -/
def write (a : Appender) (v : Volume) (bs : Bytes) : Appender × Volume :=
  let (a, v) := if bufferCapacity < a.buffered.length + bs.length then a.flushBuffer v else (a, v)
  if bufferCapacity ≤ bs.length then a.put v bs
  else ({ a with buffered := a.buffered ++ bs }, v)

/-- Forces the appended records to the file. -/
def sync (a : Appender) (v : Volume) : Appender × Volume :=
  let (a, v) := a.flushBuffer v
  ({ a with uncommitted := 0 }, v)

/-- Appends a record for `e` stamped `timestamp`; returns its LSN. -/
def append (a : Appender) (v : Volume) (e : Entry) (timestamp : Nat) :
    Except StoreError (Nat × Appender × Volume) := do
  let r : Record := ⟨a.nextLsn, timestamp, e⟩
  let bytes ← r.encode?.mapError .wal
  let (a', v') := a.write v bytes
  let a' := { a' with nextLsn := nextLsnAfter a.nextLsn, uncommitted := a'.uncommitted + 1 }
  let due := match a.policy with
    | .everyWrite => true
    | .everyN n => decide (n ≤ a'.uncommitted)
  let (a', v') := if due then a'.sync v' else (a', v')
  pure (r.lsn, a', v')

/-- Drops every record and restarts the LSNs at 1: the file is emptied and writing starts
again at its beginning. -/
def truncate (a : Appender) (v : Volume) : Appender × Volume :=
  let (a, v) := a.flushBuffer v
  ({ a with nextLsn := 1, uncommitted := 0, position := 0 }, v.resize a.inode 0)

/-- Lets go of the appender: the buffer reaches the file, without a sync. -/
def close (a : Appender) (v : Volume) : Volume := (a.flushBuffer v).2

end Appender

end Wal

end LsmStore
