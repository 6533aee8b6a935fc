import LsmStore.Engine.Basic

/-!
# Compaction

A compaction merges every table into one, newest first so that the newest version of each key
wins, and drops deleted keys. The output is named after the oldest base and the newest
generation of its inputs, so it covers every input, and it replaces them. The inputs' files are
deleted once no scan holds them. With no table, or with one table that is already compacted,
there is nothing to do.

## Main definitions

* `Table.stream` — a table scan as a merge source
* `Engine.compactTables` — merge every table into one
* `Engine.compact` — the same, on an engine that is not closed
-/

namespace LsmStore

/-- A table scan as a merge source, reading the files as they are in `v`. -/
def Table.stream (v : Volume) : Stream Table.Cursor StoreError where
  pull c := c.next v
  size c := c.remaining

namespace Engine

open EngineM

/-- The identity of the table that replaces `inputs`: the oldest base and the newest
generation among them. -/
def compactedId (inputs : List Held) : TableId :=
  .compacted ((inputs.map (·.table.id.base)).min?.getD 0)
    ((inputs.map (·.table.id.generation)).max?.getD 0)

/-- Whether the tables are already as compact as they get. -/
def compacted : List Held → Bool
  | [] => true
  | [only] => only.table.id.isCompacted
  | _ => false

/-- Merges every table into one without deleted keys, replacing them; their files go once no
scan holds them. -/
def compactTables : EngineM Unit := do
  let e ← engine
  let inputs := e.tables
  if compacted inputs then return
  let target := compactedId inputs
  let v ← volume
  let merge ← lift (Merge.start (Table.stream v) (inputs.map (Table.scan ·.table)))
  let (out, v) := Table.write id v tableDir target e.config.readBackend
    (Merge.toList (Table.stream v) merge)
  setVolume v
  let out ← lift out
  let handle ← fresh
  let gone := inputs.map (·.handle)
  modifyEngine fun e => { e with
    tables := sortTables (e.tables.filter (!gone.contains ·.handle) ++ [⟨handle, out⟩]) }
  modifyHost fun h =>
    { h with obsolete := h.obsolete ++ inputs.map fun i => (i.handle, i.table.id) }
  modifyHost Host.release

/-- Compacts the tables of an engine that is not closed. -/
def compact : EngineM Unit := do
  checkOpen
  compactTables

end Engine

end LsmStore
