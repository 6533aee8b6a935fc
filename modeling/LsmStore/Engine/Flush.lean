import LsmStore.Engine.Compaction

/-!
# Freezing and flushing

Freezing ends a generation: the log of the active in-memory table is synced, the segment of the
next generation is opened, and a fresh table of that generation takes writes. The frozen table
is then flushed, written to disk as the table of its generation, after which every segment up to
that generation is deleted. A flush that fails leaves the frozen table in the flushing slot with
its failure, to be retried by the next flush or write that needs the room. After a flush, once
the number of tables reaches the configured threshold, a compaction runs; its failure is the
compaction's own business and is not reported.

## Main definitions

* `Engine.freeze` — start a new generation and hand back the frozen table
* `Engine.flushMemtable` — write a frozen table to disk and publish it
-/

namespace LsmStore

namespace Engine

open EngineM

/-- The log segment of a generation. -/
def segmentPath (generation : Nat) : String := Volume.join walDir (Wal.segmentName generation)

/-- Starts a new generation: syncs the active log, opens the next segment, and puts a fresh
in-memory table in place of the active one, which is handed back. Scans that read the active
table live go on reading it as frozen. -/
def freeze : EngineM Memtable := do
  let e ← engine
  let generation := e.nextGeneration
  let (wal, v) := e.wal.sync (← volume)
  setVolume v
  modifyEngine fun e => { e with wal }
  let (next, v) ← lift (Wal.Appender.open (← volume) (segmentPath generation) e.config.sync)
  setVolume (wal.close v)
  let serial ← fresh
  let frozen := e.active
  modifyEngine fun e => { e with
    wal := next
    nextGeneration := generationAfter e.nextGeneration
    active := { generation, sizeLimit := e.config.memtableSizeLimit, serial } }
  modifyHost (·.detach frozen)
  pure frozen

/-- Whether a compaction is due: the number of tables has reached the threshold. -/
def wantsCompaction (e : Engine) : Bool :=
  match e.config.autoCompactThreshold with
  | some threshold => decide (threshold ≤ e.tables.length)
  | none => false

/-- Writes frozen table `m` as the table of its generation and publishes it, then deletes the
segments it covers and compacts if that is due. A failed write parks `m` in the flushing slot
with its failure. -/
def flushMemtable (m : Memtable) : EngineM Unit := do
  let e ← engine
  let (written, v) := Table.write id (← volume) tableDir (.flushed m.generation)
    e.config.readBackend (m.entries.map .ok)
  setVolume v
  match written with
  | .error failure =>
    modifyEngine fun e => { e with stalled := some ⟨m, failure⟩ }
    throw (.flushFailed failure)
  | .ok table =>
    let handle ← fresh
    modifyEngine fun e => { e with
      stalled := none
      tables := sortTables (e.tables ++ [⟨handle, table⟩]) }
    attempt (onVolume (Wal.checkpoint walDir m.generation))
    if wantsCompaction (← engine) then attempt compactTables

end Engine

end LsmStore
