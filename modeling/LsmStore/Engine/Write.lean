import LsmStore.Engine.Flush
import LsmStore.Engine.Read

/-!
# Writing, flushing and closing

A write first makes room: when the active in-memory table is already full it is frozen and
flushed, or, when the flushing slot still holds a table whose flush failed, that flush is tried
again and the write fails with the earlier failure. The write then goes to the log and into the
active table. When that fills the table and the slot is free, the table is frozen and flushed
at once; the write has already succeeded, so a failure there is not reported.

An explicit flush first retries a failed flush and reports how the retry went, then freezes and
flushes the active table unless it is empty. Closing flushes, marks the engine closed and
syncs the log; a closed engine refuses everything. Dropping an engine without closing it is a
crash as far as the data directory goes: the write buffer reaches the log, nothing more.

## Main definitions

* `Engine.upsert`, `Engine.put`, `Engine.delete` — writes
* `Engine.flush`, `Engine.close` — explicit flush and close
* `Engine.drop` — let go of an engine without closing it
-/

namespace LsmStore

namespace Engine

open EngineM

/-- Freezes the active table and flushes it; a failed flush is only parked in the slot. -/
def freezeAndFlush : EngineM Unit := do
  let m ← freeze
  attempt (flushMemtable m)

/-- Makes room for one more write in the active table. -/
def makeRoom : EngineM Unit := do
  let e ← engine
  if e.active.isFull then
    match e.stalled with
    | none => freezeAndFlush
    | some s =>
      attempt (flushMemtable s.memtable)
      throw (.flushFailed s.failure)

/-- Writes an entry; a tombstone deletes its key. -/
def upsert (en : Entry) : EngineM Unit := do
  checkOpen
  makeRoom
  let e ← engine
  let (_, wal, v) ← lift (e.wal.append (← volume) en (← host).clock)
  setVolume v
  let (full, active) := e.active.put en
  modifyEngine fun e => { e with wal, active }
  if full && (← engine).stalled.isNone then attempt freezeAndFlush

/-- Sets `key` to `value`. -/
def put (key value : Bytes) : EngineM Unit := upsert (.put key value)

/-- Deletes `key`. -/
def delete (key : Bytes) : EngineM Unit := upsert (.tombstone key)

/-- Retries a failed flush, then freezes and flushes the active table unless it is empty. -/
def flush : EngineM Unit := do
  checkOpen
  if let some s := (← engine).stalled then flushMemtable s.memtable
  if (← engine).active.isEmpty then return
  let m ← freeze
  flushMemtable m

/-- Flushes, then closes the engine and syncs its log. -/
def close : EngineM Unit := do
  checkOpen
  flush
  modifyEngine fun e => { e with closed := true }
  let (wal, v) := (← engine).wal.sync (← volume)
  setVolume v
  modifyEngine fun e => { e with wal }

/-- Lets go of an engine without closing it: the log's write buffer reaches the file, scans go
on reading the active table as it is now, and replaced tables that no scan holds are deleted. -/
def drop (e : Engine) (h : Host) : Host :=
  let h := { h with volume := e.wal.close h.volume }
  (h.detach e.active).release

end Engine

end LsmStore
