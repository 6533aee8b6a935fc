import LsmStore.Cli.Syntax

/-!
# The commands of the tool

The tool opens a data directory, runs one command against it, and closes it. Its options say
where the data directory is, how large the in-memory table may grow (in MiB), how tables are
read, and whether an opening may go past lost log records; they come before the command. The
commands are `get`, `put`, `delete`, `scan`, `flush`, `compact` and `stats`, with `help` to show
the help of the tool or of one command.

## Main definitions

* `Cli.Options`, `Cli.Command` — what a command line asks for
* `Cli.Request` — run a command, or show a text
* `Cli.parse` — read a command line
* `Cli.helpText`, `Cli.versionText` — the texts the tool shows
-/

namespace LsmStore

namespace Cli

/-- A command of the tool. -/
inductive Command where
  | get (key : String)
  | put (key value : String)
  | delete (key : String)
  /-- The live pairs in `[lower, upper)`, at most `limit` of them. -/
  | scan (lower upper : Option String) (limit : Option Nat)
  | flush
  | compact
  | stats
deriving Repr, DecidableEq

/-- The options that come before the command. -/
structure Options where
  dataDir : String := "./tierkv_data"
  /-- The in-memory table's size limit, in MiB. -/
  memtableMb : Nat := 4
  backend : ReadBackend := .buffered
  tolerateWalDataLoss : Bool := false
deriving Repr, DecidableEq

/-- What a command line asks for. -/
inductive Request where
  /-- Run a command with these options. -/
  | run (options : Options) (command : Command)
  /-- Print this text and stop. -/
  | show (text : String)
deriving Repr, DecidableEq

/-- Whether a value reads as a machine-sized count: an optional `+`, then decimal digits. -/
def isCount (s : String) : Bool := (FileName.parseNumber? s).isSome

/-- The read back end a value names. -/
def backendOf? : String → Option ReadBackend
  | "buffered" => some .buffered
  | "mmap" => some .mapped
  | _ => none

/-- `-h, --help`. -/
def helpOption : OptionSpec := { long := "help", short := some 'h', kind := .help }

/-- The subcommands, in the order the help lists them. -/
def commandNames : List String := ["get", "put", "delete", "scan", "flush", "compact", "stats", "help"]

/-- The options of the tool itself. -/
def toolSpec : Spec where
  options := [
    { long := "data-dir", short := some 'd', kind := .value fun _ => true },
    { long := "memtable-mb", short := some 'm', kind := .value isCount },
    { long := "backend", kind := .value fun s => (backendOf? s).isSome },
    { long := "tolerate-wal-data-loss", kind := .flag },
    helpOption,
    { long := "version", short := some 'V', kind := .version }]
  subcommands := commandNames

/-- The options and arguments of a subcommand. -/
def commandSpec : String → Spec
  | "get" | "delete" => { options := [helpOption], arguments := ["KEY"] }
  | "put" => { options := [helpOption], arguments := ["KEY", "VALUE"] }
  | "scan" => { options := [
      { long := "from", kind := .value fun _ => true },
      { long := "to", kind := .value fun _ => true },
      { long := "limit", short := some 'l', kind := .value isCount },
      helpOption] }
  | _ => { options := [helpOption] }

/-- Lines joined, each ending in a newline. -/
def lines (ls : List String) : String := String.join (ls.map (· ++ "\n"))

/-- The help of the tool. -/
def toolHelp : String := lines [
  "Embeddable LSM key-value store",
  "",
  "Usage: tierkv [OPTIONS] <COMMAND>",
  "",
  "Commands:",
  "  get      Get a value by key",
  "  put      Set a key-value pair",
  "  delete   Delete a key",
  "  scan     Print live pairs in [from, to)",
  "  flush    Write the memtable to an SSTable",
  "  compact  Merge all SSTables into one",
  "  stats    Print engine counters",
  "  help     Print this message or the help of the given subcommand(s)",
  "",
  "Options:",
  "  -d, --data-dir <DATA_DIR>        Data directory [default: ./tierkv_data]",
  "  -m, --memtable-mb <MEMTABLE_MB>  MemTable size limit in MB before flush [default: 4]",
  "      --backend <BACKEND>          How SSTables are read [default: buffered] [possible values: buffered, mmap]",
  "      --tolerate-wal-data-loss     Open even if a WAL segment lost acknowledged records",
  "  -h, --help                       Print help",
  "  -V, --version                    Print version"]

/-- The help of a subcommand that takes only `--help`. -/
def plainHelp (about usage : String) (arguments : List String) : String :=
  lines ([about, "", "Usage: tierkv " ++ usage, ""] ++
    (if arguments.isEmpty then [] else ["Arguments:"] ++ arguments ++ [""]) ++
    ["Options:", "  -h, --help  Print help"])

/-- The help of a subcommand. -/
def helpText : String → String
  | "get" => plainHelp "Get a value by key" "get <KEY>" ["  <KEY>  The key to get"]
  | "put" => plainHelp "Set a key-value pair" "put <KEY> <VALUE>"
      ["  <KEY>    The key to set", "  <VALUE>  The value to set"]
  | "delete" => plainHelp "Delete a key" "delete <KEY>" ["  <KEY>  The key to delete"]
  | "scan" => lines [
      "Print live pairs in [from, to)",
      "",
      "Usage: tierkv scan [OPTIONS]",
      "",
      "Options:",
      "      --from <FROM>    Inclusive lower bound",
      "      --to <TO>        Exclusive upper bound",
      "  -l, --limit <LIMIT>  Stop after this many pairs",
      "  -h, --help           Print help"]
  | "flush" => plainHelp "Write the memtable to an SSTable" "flush" []
  | "compact" => plainHelp "Merge all SSTables into one" "compact" []
  | "stats" => plainHelp "Print engine counters" "stats" []
  | "help" => lines [
      "Print this message or the help of the given subcommand(s)",
      "",
      "Usage: tierkv help [COMMAND]...",
      "",
      "Arguments:",
      "  [COMMAND]...  Print help for the subcommand(s)"]
  | _ => toolHelp

/-- The version line. -/
def versionText : String := "tierkv 0.1.0\n"

/-- The value given for an option, if any. -/
def Matches.value? (m : Matches) (long : String) : Option String := m.values.lookup long

/-- A count that passed `isCount`. -/
def countOf (s : String) : Nat := (FileName.parseNumber? s).getD 0

/-- The options a command line gave the tool. -/
def optionsOf (m : Matches) : Options where
  dataDir := (m.value? "data-dir").getD "./tierkv_data"
  memtableMb := ((m.value? "memtable-mb").map countOf).getD 4
  backend := ((m.value? "backend").bind backendOf?).getD .buffered
  tolerateWalDataLoss := m.flags.contains "tolerate-wal-data-loss"

/-- The command a subcommand's tokens give. -/
def commandOf (name : String) (m : Matches) : Command :=
  let arg (i : Nat) := (m.arguments[i]?).getD ""
  match name with
  | "get" => .get (arg 0)
  | "put" => .put (arg 0) (arg 1)
  | "delete" => .delete (arg 0)
  | "scan" => .scan (m.value? "from") (m.value? "to") ((m.value? "limit").map countOf)
  | "flush" => .flush
  | "compact" => .compact
  | _ => .stats

/-- What the `help` subcommand shows for the names after it. -/
def helpFor : List String → Except UsageError String
  | [] => .ok toolHelp
  | [name] => if commandNames.contains name then .ok (helpText name) else .error (.unknownSubcommand name)
  | name :: next :: _ =>
    if commandNames.contains name then .error (.unknownSubcommand next)
    else .error (.unknownSubcommand name)

/-- Reads a command line, the program name left out. -/
def parse (args : List String) : Except UsageError Request := do
  match ← scan toolSpec args {} with
  | .help => pure (.show toolHelp)
  | .version => pure (.show versionText)
  | .helpFor names => .show <$> helpFor names
  | .matched _ => throw .missingSubcommand
  | .enter st name rest =>
    match ← scan (commandSpec name) rest {} with
    | .help => pure (.show (helpText name))
    | .version => pure (.show versionText)
    | .helpFor names => .show <$> helpFor names
    | .enter _ sub _ => throw (.unexpectedArgument sub)
    | .matched m => do
      let top ← complete st
      pure (.run (optionsOf top.found) (commandOf name m))

end Cli

end LsmStore
