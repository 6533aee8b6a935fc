import LsmStore.Engine.Flush

/-!
# Opening an engine

Opening recovers whatever a previous engine left in the data directory. The table directory is
cleaned and its tables are opened; the log segments that those tables already cover are
deleted; every remaining segment is replayed, in ascending order, and whatever it still holds is
written as the table of its generation, after which the segment goes. A segment that lost
records in the middle of the log stops the opening, unless the configuration tolerates the
loss. The engine then starts the generation after the newest one seen, with an empty in-memory
table and a fresh segment.

Every step changes the data directory as it goes, so an opening that fails leaves behind what
it did up to the failure.

## Main definitions

* `HostM` — work on the host alone that may fail
* `Engine.replaySegment` — replay one segment into a table
* `Engine.open` — recover the data directory and start an engine
-/

namespace LsmStore

/-- Work on the host alone that may fail; what it changed before failing stays changed. -/
abbrev HostM := ExceptT StoreError (StateM Host)

namespace HostM

/-- The volume. -/
def volume : HostM Volume := do return (← get).volume

/-- Replaces the volume. -/
def setVolume (v : Volume) : HostM Unit := modify fun h => { h with volume := v }

/-- Fails with the error of `r`, if any. -/
def lift {α : Type} (r : Except StoreError α) : HostM α :=
  match r with
  | .ok a => pure a
  | .error e => throw e

/-- Runs work on the volume, keeping its effects up to a failure. -/
def onVolume {α : Type} (m : VolumeM α) : HostM α := do
  let (r, v) := m.run.run (← volume)
  setVolume v
  lift r

/-- A fresh identity. -/
def fresh : HostM Nat := do
  let (n, h) := (← get).fresh
  set h
  pure n

/-- Opens tables, giving each opening a fresh handle. -/
def hold (tables : List Table) : HostM (List Held) :=
  tables.mapM fun t => do pure ⟨← fresh, t⟩

end HostM

namespace Engine

open HostM

/-- Replays the segment of `generation` and writes what it holds as the table of that
generation; fails on lost records unless `config` tolerates the loss. -/
def replaySegment (config : Config) (generation : Nat) : HostM (Option Table) := do
  let (records, report, v) ← lift (Wal.replay (← volume) walDir generation)
  setVolume v
  if report.hasDataLoss && !config.tolerateWalDataLoss then
    throw (.walDataLoss generation report.lost)
  if records.isEmpty then return none
  let m := records.foldl (fun m r => (m.put r.entry).2)
    ({ generation, sizeLimit := config.memtableSizeLimit } : Memtable)
  let (written, v) := Table.write id (← volume) tableDir (.flushed generation)
    config.readBackend (m.entries.map .ok)
  setVolume v
  some <$> lift written

/-- Replays the segments in turn, checkpointing after each; returns the tables written and the
newest generation seen. -/
def replayAll (config : Config) : List Nat → Nat → HostM (List Table × Nat)
  | [], newest => pure ([], newest)
  | g :: gs, newest => do
    let t ← replaySegment config g
    onVolume (Wal.checkpoint walDir g)
    let (ts, newest) ← replayAll config gs (max newest g)
    pure (t.toList ++ ts, newest)

/-- Recovers the data directory and starts an engine on it. -/
def «open» (config : Config) : HostM Engine := do
  match config.validate with
  | .error f => throw (.config f)
  | .ok () => pure ()
  setVolume (← lift (((← volume).createDirAll tableDir).mapError .io))
  setVolume (← lift (((← volume).createDirAll walDir).mapError .io))
  let tables ← onVolume (Table.openAll tableDir config.readBackend)
  let newest := (tables.map (·.id.generation)).max?.getD 0
  onVolume (Wal.checkpoint walDir newest)
  let segments ← lift (Wal.segments (← volume) walDir)
  let (replayed, newest) ← replayAll config segments newest
  let generation := generationAfter newest
  let (wal, v) ← lift (Wal.Appender.open (← volume) (segmentPath generation) config.sync)
  setVolume v
  let serial ← fresh
  let held ← hold (tables ++ replayed)
  pure {
    config
    active := { generation, sizeLimit := config.memtableSizeLimit, serial }
    tables := sortTables held
    wal
    nextGeneration := generationAfter generation }

end Engine

end LsmStore
