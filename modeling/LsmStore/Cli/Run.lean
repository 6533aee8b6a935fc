import LsmStore.Cli.Commands
import LsmStore.Engine.Open
import LsmStore.Engine.Write
import LsmStore.Utf8

/-!
# Running a command

A run opens an engine on the data directory, runs the command, and closes the engine, which
flushes the in-memory table. What the command prints goes to standard output, one line per
item; keys and values are printed as text, with replacement characters where they are not
UTF-8. A run that fails stops at once with exit code 1, keeping what it printed so far and
without letting go of the engine, so the log's write buffer never reaches the file.

## Main definitions

* `Cli.Outcome` — exit code and standard output
* `Cli.perform` — run one command on an open engine
* `Cli.execute` — open, run, close
* `Cli.main` — a whole command line against a data directory
-/

namespace LsmStore

namespace Cli

/-- How a run ends: its exit code and what it printed. -/
structure Outcome where
  code : Nat
  stdout : String
deriving Repr, DecidableEq

/-- The engine configuration the options give. Sizes are machine words, so the limit wraps. -/
def Options.config (o : Options) : Config where
  memtableSizeLimit := o.memtableMb * 1024 * 1024 % 2 ^ (64 : Nat)
  readBackend := o.backend
  tolerateWalDataLoss := o.tolerateWalDataLoss

/-- The lines of a scan, up to its first error, and that error. -/
def pairLines : List (Except StoreError Entry) → String × Option StoreError
  | [] => ("", none)
  | .error e :: _ => ("", some e)
  | .ok e :: rest =>
    let (out, err) := pairLines rest
    (Bytes.toStringLossy e.key ++ "\t" ++ Bytes.toStringLossy (e.value.getD []) ++ "\n" ++ out, err)

/-- The counters, one per line, names padded to one column. -/
def statsLines (st : Engine.Stats) : String := lines [
  "memtable_size       " ++ toString st.memtableSize,
  "memtable_entries    " ++ toString st.memtableEntries,
  "flushing            " ++ toString st.flushing,
  "sstable_count       " ++ toString st.tableCount,
  "sstable_entries     " ++ toString st.tableEntries,
  "sstable_bytes       " ++ toString st.tableBytes,
  "active_generation   " ++ toString st.activeGeneration]

open EngineM in
/-- Runs a command on an open engine: what it prints, and the failure that cut it short. -/
def perform : Command → EngineM (String × Option StoreError)
  | .get key => do
    let v ← Engine.get (Bytes.ofString key)
    pure (((v.map Bytes.toStringLossy).getD "(nil)") ++ "\n", none)
  | .put key value => do
    Engine.put (Bytes.ofString key) (Bytes.ofString value)
    pure ("OK\n", none)
  | .delete key => do
    Engine.delete (Bytes.ofString key)
    pure ("OK\n", none)
  | .scan lower upper limit => do
    let s ← Engine.scan (lower.map Bytes.ofString) (upper.map Bytes.ofString)
    let items := Merge.toList ((← engine).tiers (← volume)) s
    pure (pairLines (match limit with
      | some n => items.take n
      | none => items))
  | .flush => do
    Engine.flush
    pure ("OK\n", none)
  | .compact => do
    Engine.compact
    pure ("OK\n", none)
  | .stats => do pure (statsLines (← engine).stats, none)

/-- Runs a command and closes the engine; the output so far and the failure, if any. -/
def performAndClose (c : Command) : EngineM (String × Option StoreError) := do
  let (out, err) ← tryCatch (perform c) fun e => pure ("", some e)
  match err with
  | some e => pure (out, some e)
  | none => tryCatch (do Engine.close; pure (out, none)) fun e => pure (out, some e)

/-- Opens an engine on data directory `v`, runs the command and closes the engine. -/
def execute (o : Options) (c : Command) (v : Volume) : Outcome × Volume :=
  match (Engine.open o.config).run.run { volume := v } with
  | (.error _, host) => (⟨1, ""⟩, host.volume)
  | (.ok e, host) =>
    match (performAndClose c).run.run (e, host) with
    | (.ok (out, none), e, host) => (⟨0, out⟩, (e.drop host).volume)
    | (.ok (out, some _), _, host) => (⟨1, out⟩, host.volume)
    | (.error _, _, host) => (⟨1, ""⟩, host.volume)

/-- The exit code of a command line that does not fit. -/
def usageExit : Nat := 2

/-- A whole command line, the program name left out, against data directory `v`. -/
def main (args : List String) (v : Volume) : Outcome × Volume :=
  match parse args with
  | .error _ => (⟨usageExit, ""⟩, v)
  | .ok (.show text) => (⟨0, text⟩, v)
  | .ok (.run o c) => execute o c v

end Cli

end LsmStore
