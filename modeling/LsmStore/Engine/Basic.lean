import LsmStore.Wal.Segments
import LsmStore.Table.Directory
import LsmStore.Memtable
import LsmStore.Merge

/-!
# The engine's state

An engine keeps recent writes in an active in-memory table backed by a log segment of the same
generation, and older data in tables on disk, newest first. When the active table fills up it
is frozen: a new generation with a fresh table and segment takes over, and the frozen table is
written to disk as the table of its generation. Background work runs to completion within the
operation that starts it, so between operations nothing is in flight. A frozen table whose write
failed stays in the flushing slot, with the failure, until a later attempt succeeds.

Scans outlive the operations that open them and hold the tiers they read. A scan reads the
active in-memory table as it is at each step, until that table is frozen; from then on it reads
the table as frozen. Tables replaced by a compaction are deleted from disk once no scan holds
them any more. The engine and its scans share a host: the volume, the open scans, the supply of
fresh identities and the tables waiting for deletion.

## Main definitions

* `Held` — a table as an engine holds it, with the identity of this opening
* `Stalled` — the flushing slot: a frozen in-memory table whose write failed
* `TierCursor`, `Scan` — what a scan reads, and how
* `LsmStore.Engine` — the engine's state
* `Host` — volume, scans, identities, and tables awaiting deletion
* `EngineM` — operations on an engine and its host that may fail
* `Engine.stats` — the engine's counters
-/

namespace LsmStore

/-- The log directory inside the data directory. -/
def walDir : String := "wal"

/-- The table directory inside the data directory. -/
def tableDir : String := "sstables"

/-- A table as an engine holds it; `handle` tells this opening from any other opening of the
same table. -/
structure Held where
  handle : Nat
  table : Table
deriving Repr

/-- The flushing slot: a frozen in-memory table whose write to disk failed, and why. -/
structure Stalled where
  memtable : Memtable
  failure : StoreError
deriving Repr

/-- A scan's position in one tier. -/
inductive TierCursor where
  /-- In the in-memory table with this serial, read as it is at each step. -/
  | live (serial : Nat) (cursor : Memtable.Cursor)
  /-- In an in-memory table that no longer changes. -/
  | frozen (memtable : Memtable) (cursor : Memtable.Cursor)
  /-- In the table opened as `handle`. -/
  | table (handle : Nat) (cursor : Table.Cursor)
deriving Repr

/-- An open scan: a merge over the tiers it holds. -/
abbrev Scan := Merge TierCursor

/-- The tiers as a stream source: in-memory tables that are still live are looked up by
serial in `live`, and tables are read from their files as they are in `v`. -/
def tierStream (live : Nat → Option Memtable) (v : Volume) : Stream TierCursor StoreError where
  pull
    | .live s c =>
      match live s with
      | some m => let (x, c') := c.next m; (x.map .ok, .live s c')
      | none => (none, .live s c)
    | .frozen m c => let (x, c') := c.next m; (x.map .ok, .frozen m c')
    | .table h c => let (x, c') := c.next v; (x, .table h c')
  size
    | .live s _ => ((live s).map Memtable.entryCount).getD 0 + 1
    | .frozen m _ => m.entryCount + 1
    | .table _ c => c.remaining + 1

/-- The handles of the tables a scan holds. -/
def Scan.handles (s : Scan) : List Nat :=
  s.sources.filterMap fun
    | .table h _ => some h
    | _ => none

/-- What an engine shares with the scans it opened. -/
structure Host where
  volume : Volume := {}
  /-- Open scans by number. -/
  scans : List (Nat × Scan) := []
  /-- The number the next scan gets. -/
  nextScan : Nat := 0
  /-- The next fresh identity for an in-memory table or a table opening. -/
  nextSerial : Nat := 0
  /-- Openings of tables replaced by a compaction, whose files go once nothing holds them. -/
  obsolete : List (Nat × TableId) := []
  /-- The wall clock, in milliseconds, that log records are stamped with. -/
  clock : Nat := 0
deriving Repr

namespace Host

/-- A fresh identity. -/
def fresh (h : Host) : Nat × Host := (h.nextSerial, { h with nextSerial := h.nextSerial + 1 })

/-- Scans stop reading the in-memory table `m` live: from now on they read it as it is. -/
def detach (h : Host) (m : Memtable) : Host :=
  { h with scans := h.scans.map fun (i, s) => (i, { s with sources := s.sources.map fun
      | .live serial c => if serial == m.serial then .frozen m c else .live serial c
      | c => c }) }

/-- Deletes the files of every replaced table that no scan holds: data file first, then index,
ignoring failures. An engine never holds a replaced table, so the scans are all there is to
ask. -/
def release (h : Host) : Host :=
  let inUse := h.scans.flatMap (·.2.handles)
  let (gone, kept) := h.obsolete.partition fun (k, _) => !inUse.contains k
  let volume := gone.foldl (fun v (_, id) =>
    let drop (w : Volume) (p : String) : Volume :=
      match w.removeIfExists p with
      | .ok (_, w') => w'
      | .error _ => w
    drop (drop v (Volume.join tableDir (id.fileName .data))) (Volume.join tableDir (id.fileName .index)))
    h.volume
  { h with volume, obsolete := kept }

end Host

/-- An open engine. -/
structure Engine where
  config : Config
  /-- The in-memory table taking writes. -/
  active : Memtable
  /-- A frozen in-memory table whose write failed. -/
  stalled : Option Stalled := none
  /-- The tables on disk, newest first. -/
  tables : List Held
  /-- The log segment of the active generation. -/
  wal : Wal.Appender
  /-- The generation the next frozen table hands to its successor. -/
  nextGeneration : Nat
  closed : Bool := false
deriving Repr

/-- Operations on an engine and its host that may fail. -/
abbrev EngineM := ExceptT StoreError (StateM (Engine × Host))

namespace EngineM

/-- The engine. -/
def engine : EngineM Engine := do return (← get).1

/-- Changes the engine. -/
def modifyEngine (f : Engine → Engine) : EngineM Unit := modify fun (e, h) => (f e, h)

/-- The host. -/
def host : EngineM Host := do return (← get).2

/-- Changes the host. -/
def modifyHost (f : Host → Host) : EngineM Unit := modify fun (e, h) => (e, f h)

/-- The volume. -/
def volume : EngineM Volume := do return (← host).volume

/-- Replaces the volume. -/
def setVolume (v : Volume) : EngineM Unit := modifyHost fun h => { h with volume := v }

/-- Fails with `err` when `r` failed. -/
def lift {α : Type} (r : Except StoreError α) : EngineM α :=
  match r with
  | .ok a => pure a
  | .error e => throw e

/-- Runs work on the volume, keeping its effects up to a failure. -/
def onVolume {α : Type} (m : VolumeM α) : EngineM α := do
  let (r, v) := m.run.run (← volume)
  setVolume v
  lift r

/-- A fresh identity. -/
def fresh : EngineM Nat := do
  let (n, h) := (← host).fresh
  modifyHost fun _ => h
  pure n

/-- Runs `m` and ignores its failure; what it changed before failing stays changed. -/
def attempt (m : EngineM Unit) : EngineM Unit := tryCatch m fun _ => pure ()

end EngineM

namespace Engine

/-- Fails with `closed` once the engine is closed. -/
def checkOpen : EngineM Unit := do
  if (← EngineM.engine).closed then throw .closed

/-- The in-memory table a live scan cursor reads, looked up by serial: only the active table
changes, so only it is read live. -/
def liveTable (e : Engine) (serial : Nat) : Option Memtable :=
  if e.active.serial == serial then some e.active else none

/-- The engine's counters. -/
structure Stats where
  memtableSize : Nat
  memtableEntries : Nat
  flushing : Bool
  tableCount : Nat
  tableEntries : Nat
  tableBytes : Nat
  activeGeneration : Nat
  compactionRunning : Bool
  closed : Bool
deriving Repr

/-- The engine's counters: the active in-memory table, the flushing slot and the tables. -/
def stats (e : Engine) : Stats where
  memtableSize := e.active.size
  memtableEntries := e.active.entryCount
  flushing := e.stalled.isSome
  tableCount := e.tables.length
  tableEntries := (e.tables.map (·.table.entryCount)).foldr (· + ·) 0
  tableBytes := (e.tables.map (·.table.dataSize)).foldr (· + ·) 0
  activeGeneration := e.active.generation
  compactionRunning := false
  closed := e.closed

/-- Sorts held tables newest first. -/
def sortTables (ts : List Held) : List Held :=
  ts.mergeSort fun a b => TableId.newestFirst a.table.id b.table.id

end Engine

end LsmStore
