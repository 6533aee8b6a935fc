import LsmStore.Wal.Appender

/-!
# A log writer that rolls back

A writer is an appender that remembers where its log stood at the last successful sync: the
length of the file and the next LSN then, and how many bytes it has written since. Any write to
the file and any fsync may fail, a write after delivering part of its bytes. A failed append or
sync rolls back to the last successful sync: the write buffer is dropped unwritten, the file is
cut back to the synced length, writing goes on there, and the LSNs handed out since the sync are
handed out again. Cutting the file back is taken never to fail. A record too large for the
format is refused before anything is written, and the writer stays as it was.

How the I/O of a call turns out comes with the call, as an `Io`: after how many more bytes
one of its writes fails, if one does, and whether its fsync fails. When nothing fails, the
writer does exactly what the appender does.

## Main definitions

* `Wal.Io` — how the I/O of one call turns out
* `Wal.Appender.putWithin`, `flushWithin`, `writeWithin` — the appender's writes, which may
  fail part way
* `Wal.Writer` — an appender with the length and the next LSN of its last successful sync
* `Wal.Writer.open`, `append`, `sync`, `rollback`, `close`
-/

namespace LsmStore

/-- Whether a policy syncs once `count` records are unsynced. -/
def SyncPolicy.syncsAt : SyncPolicy → Nat → Bool
  | .everyWrite, _ => true
  | .everyN n, count => decide (n ≤ count)

namespace Wal

/-- How the I/O of one call turns out. With `spill = some (k, f)` the call's writes to the file
deliver `k` more bytes, and then the write under way fails with `f`; with `none` no write
fails. `fsyncFault` is the fault of the call's fsync, if that fails. -/
structure Io where
  spill : Option (Nat × IoFault) := none
  fsyncFault : Option IoFault := none
deriving DecidableEq, Repr

/-- What is left of a call's writes before one fails, and the fault it fails with. -/
abbrev Budget := Option (Nat × IoFault)

namespace Appender

/-- Writes bytes at the appender's position while the budget lasts. A write it does not cover
delivers the bytes it covers and fails; the volume as the failure leaves it comes with the
fault. -/
def putWithin (a : Appender) (v : Volume) (bs : Bytes) :
    Budget → Except (IoFault × Volume) (Appender × Volume × Budget)
  | none => .ok ((a.put v bs).1, (a.put v bs).2, none)
  | some (k, f) =>
    if bs.length ≤ k then .ok ((a.put v bs).1, (a.put v bs).2, some (k - bs.length, f))
    else .error (f, (a.put v (bs.take k)).2)

/-- Pushes the buffered bytes to the file while the budget lasts. -/
def flushWithin (a : Appender) (v : Volume) (budget : Budget) :
    Except (IoFault × Volume) (Appender × Volume × Budget) :=
  { a with buffered := [] }.putWithin v a.buffered budget

/-- Writes bytes through the buffer while the budget lasts: `write`, with writes that may fail. -/
def writeWithin (a : Appender) (v : Volume) (bs : Bytes) (budget : Budget) :
    Except (IoFault × Volume) (Appender × Volume × Budget) :=
  let flushed := if bufferCapacity < a.buffered.length + bs.length then a.flushWithin v budget
    else .ok (a, v, budget)
  match flushed with
  | .error failed => .error failed
  | .ok (a, v, budget) =>
    if bufferCapacity ≤ bs.length then a.putWithin v bs budget
    else .ok ({ a with buffered := a.buffered ++ bs }, v, budget)

end Appender

/-- A log writer: an appender, with the length of its file and its next LSN as of its last
successful sync, and the number of bytes it has written since. -/
structure Writer where
  appender : Appender
  /-- The file's length as of the last successful sync. -/
  syncedLen : Nat
  /-- The next LSN as of the last successful sync. -/
  syncedLsn : Nat
  /-- Bytes written since the last successful sync. -/
  unsynced : Nat := 0
deriving Repr

namespace Writer

/-- Opens the log at `path` as the appender does. The appender starts writing at the end of the
last valid record, which is where the log stands synced. -/
def «open» (v : Volume) (path : String) (policy : SyncPolicy) :
    Except StoreError (Writer × Volume) := do
  let (a, v) ← Appender.open v path policy
  pure ({ appender := a, syncedLen := a.position, syncedLsn := a.nextLsn }, v)

/-- Discards everything written since the last successful sync: the buffer is dropped without
being written, the file is cut back to the synced length and writing goes on there, and the
next LSN is the one of the last sync again. -/
def rollback (w : Writer) (v : Volume) : Writer × Volume :=
  let a := { w.appender with
    position := w.syncedLen
    nextLsn := w.syncedLsn
    uncommitted := 0
    buffered := [] }
  ({ w with appender := a, unsynced := 0 }, v.resize w.appender.inode w.syncedLen)

/-- Pushes the buffer to the file and syncs it, while the budget lasts and unless the fsync
fails; a sync moves the synced length and LSN up to the present ones. -/
def syncWithin (w : Writer) (v : Volume) (io : Io) (budget : Budget) :
    Except (IoFault × Volume) (Writer × Volume) :=
  match w.appender.flushWithin v budget with
  | .error failed => .error failed
  | .ok (a, v, _) =>
    match io.fsyncFault with
    | some f => .error (f, v)
    | none =>
      let synced : Writer := {
        appender := { a with uncommitted := 0 }
        syncedLen := w.syncedLen + w.unsynced
        syncedLsn := a.nextLsn
        unsynced := 0 }
      .ok (synced, v)

/-- Writes a record's bytes through the buffer and counts it; syncs when the policy says so. -/
def writeRecord (w : Writer) (v : Volume) (bytes : Bytes) (io : Io) :
    Except (IoFault × Volume) (Writer × Volume) :=
  match w.appender.writeWithin v bytes io.spill with
  | .error failed => .error failed
  | .ok (a, v', budget) =>
    let a := { a with nextLsn := nextLsnAfter w.appender.nextLsn, uncommitted := a.uncommitted + 1 }
    let w' := { w with appender := a, unsynced := w.unsynced + bytes.length }
    if w.appender.policy.syncsAt a.uncommitted then w'.syncWithin v' io budget else .ok (w', v')

/-- Appends a record for `e` stamped `timestamp` and answers its LSN. A record too large for the
format is refused with the writer as it was; a failed write or sync rolls the log back to the
last successful sync. -/
def append (w : Writer) (v : Volume) (e : Entry) (timestamp : Nat) (io : Io) :
    Except StoreError Nat × Writer × Volume :=
  let r : Record := ⟨w.appender.nextLsn, timestamp, e⟩
  match r.encode? with
  | .error fault => (.error (.wal fault), w, v)
  | .ok bytes =>
    match w.writeRecord v bytes io with
    | .ok (w', v') => (.ok r.lsn, w', v')
    | .error (fault, v') => (.error (.io fault), (w.rollback v').1, (w.rollback v').2)

/-- Forces the appended records to disk; a failed write or fsync rolls the log back to the last
successful sync. -/
def sync (w : Writer) (v : Volume) (io : Io) : Except StoreError Unit × Writer × Volume :=
  match w.syncWithin v io io.spill with
  | .ok (w', v') => (.ok (), w', v')
  | .error (fault, v') => (.error (.io fault), (w.rollback v').1, (w.rollback v').2)

/-- Lets go of the writer: the buffer reaches the file, without a sync. -/
def close (w : Writer) (v : Volume) : Volume := w.appender.close v

end Writer

end Wal

end LsmStore
