import LsmStore.Engine.Open
import LsmStore.Engine.Write

/-!
# Sessions

A session is what a process using the store holds: the configuration it opens engines with,
the engine if one is open, and the host the engine shares with the scans opened through it.
Scans are numbered from zero in the order they are opened, and they close with the engine
that opened them: letting go of an engine, or replacing it, closes its scans and starts the
numbering again.

## Main definitions

* `LsmStore.Session` — configuration, engine, host
* `Session.withEngine` — run an engine operation, if an engine is open
* `Session.reopen`, `Session.release` — replace or let go of the engine
* `Session.openScan`, `Session.readScan`, `Session.dropScan` — numbered scans
* `Session.range` — every live pair of a key range, read at once
-/

namespace LsmStore

/-- A process's use of the store. -/
structure Session where
  config : Config
  engine : Option Engine := none
  host : Host := {}
deriving Repr

namespace Session

/-- Runs an engine operation, or answers `none` when no engine is open. -/
def withEngine {α : Type} (s : Session) (m : EngineM α) : Option (Except StoreError α) × Session :=
  match s.engine with
  | none => (none, s)
  | some e =>
    let (r, e', h') := m.run.run (e, s.host)
    (some r, { s with engine := some e', host := h' })

/-- Lets go of the engine, if one is open, without closing it, and closes its scans. -/
def release (s : Session) : Session :=
  match s.engine with
  | none => s
  | some e => { s with engine := none, host := e.drop { s.host with scans := [], nextScan := 0 } }

/-- Lets go of the engine and opens a new one, with `config` if one is given. -/
def reopen (s : Session) (config : Option Config) : Except StoreError Unit × Session :=
  let s := { s.release with config := config.getD s.config }
  let (r, host) := (Engine.open s.config).run.run s.host
  match r with
  | .ok e => (.ok (), { s with engine := some e, host })
  | .error err => (.error err, { s with host })

/-- A session with `config` and data directory `volume` that opens its first engine. -/
def start (config : Config) (volume : Volume) : Except StoreError Unit × Session :=
  reopen { config, host := { volume } } none

/-- The in-memory tables that scans read live, by serial. -/
def liveTable (s : Session) (serial : Nat) : Option Memtable :=
  s.engine.bind (·.liveTable serial)

/-- Opens a scan over `[lower, upper)` and numbers it. -/
def openScan (s : Session) (lower upper : Option Bytes) : Option (Except StoreError Nat) × Session :=
  match s.withEngine (Engine.scan lower upper) with
  | (some (.ok scan), s) =>
    let n := s.host.nextScan
    (some (.ok n), { s with host := { s.host with
      scans := s.host.scans ++ [(n, scan)], nextScan := n + 1 } })
  | (some (.error err), s) => (some (.error err), s)
  | (none, s) => (none, s)

/-- Reads `n` times from a scan: a pair, an error, or `none` past the end each time. -/
def readFrom (live : Nat → Option Memtable) (v : Volume) :
    Nat → Scan → List (Option (Except StoreError (Bytes × Bytes))) × Scan
  | 0, scan => ([], scan)
  | n + 1, scan =>
    let (x, scan) := scan.next live v
    let (xs, scan) := readFrom live v n scan
    (x :: xs, scan)

/-- Reads `n` times from scan `id`; `none` when there is no such scan. -/
def readScan (s : Session) (id n : Nat) :
    Option (List (Option (Except StoreError (Bytes × Bytes)))) × Session :=
  match s.host.scans.lookup id with
  | none => (none, s)
  | some scan =>
    let (xs, scan) := readFrom s.liveTable s.host.volume n scan
    (some xs, { s with host := { s.host with
      scans := s.host.scans.map fun (i, sc) => if i == id then (i, scan) else (i, sc) } })

/-- Closes scan `id`, deleting the replaced tables only it held; closing a scan already closed
does nothing. `false` when no scan of that number was ever opened. -/
def dropScan (s : Session) (id : Nat) : Bool × Session :=
  if id < s.host.nextScan then
    (true, { s with host := { s.host with scans := s.host.scans.filter (·.1 != id) }.release })
  else (false, s)

/-- Every live pair of `[lower, upper)`, up to and including an error, read through a scan
that is closed again at once. -/
def range (s : Session) (lower upper : Option Bytes) :
    Option (Except StoreError (List (Except StoreError (Bytes × Bytes)))) :=
  match (s.withEngine (Engine.scan lower upper)).1 with
  | some (.ok scan) =>
    let stream := tierStream s.liveTable s.host.volume
    some (.ok ((Merge.toList stream scan).map fun x => x.map fun e => (e.key, e.value.getD [])))
  | some (.error err) => some (.error err)
  | none => none

end Session

end LsmStore
