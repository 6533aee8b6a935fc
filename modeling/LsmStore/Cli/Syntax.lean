import LsmStore.FileName
import LsmStore.Config

/-!
# Command-line syntax

The command line is a list of options, a subcommand, and the subcommand's own options and
arguments. Parsing follows the usual conventions of such tools, token by token:

* `--name` and `--name=value` are long options, `-x` a short one; short flags cluster (`-hV`)
  and a short option takes the rest of its token as its value (`-l5`, `-l=5`), or else the
  next token;
* a token that names a subcommand starts it, wherever it stands among the options, unless an
  option is waiting for its value: then the token is that value;
* after `--` every token is an argument;
* a value is checked when the option is complete, which is at the next option or at the end;
  an option still pending where a subcommand starts is completed after the subcommand's tokens;
  a second use of an option is an error;
* `--help` and `--version` stop parsing at once and answer with a text; errors found before them
  win;
* the `help` subcommand shows the help of the subcommand it names, or of the whole tool.

## Main definitions

* `Cli.Spec` — the options, arguments and subcommands of one command
* `Cli.Matches` — the values found for them
* `Cli.UsageError` — a command line that does not fit
* `Cli.scan` — parse the tokens of one command
-/

namespace LsmStore

namespace Cli

/-- What an option does when it appears. -/
inductive OptionKind where
  /-- Takes one value, which must pass the check. -/
  | value (accepts : String → Bool)
  /-- Sets a flag. -/
  | flag
  /-- Asks for the help text. -/
  | help
  /-- Asks for the version. -/
  | version

/-- An option: its long name, its short letter if any, and what it does. -/
structure OptionSpec where
  long : String
  short : Option Char := none
  kind : OptionKind

/-- One command: its options, its required arguments by name, and its subcommands. -/
structure Spec where
  options : List OptionSpec
  arguments : List String := []
  subcommands : List String := []

/-- What a command line gave for one command. -/
structure Matches where
  /-- Options with their values, by long name. -/
  values : List (String × String) := []
  /-- Flags that were set, by long name. -/
  flags : List String := []
  /-- Arguments, in order. -/
  arguments : List String := []
deriving Repr, DecidableEq

/-- A command line that does not fit the syntax. -/
inductive UsageError where
  | unknownOption (token : String)
  | unexpectedArgument (token : String)
  | unknownSubcommand (name : String)
  | missingValue (option : String)
  | invalidValue (option value : String)
  | valueNotAllowed (option value : String)
  | repeated (option : String)
  | missingArgument (name : String)
  | missingSubcommand
deriving Repr, DecidableEq

/-- The one-line description of a usage error. -/
def UsageError.message : UsageError → String
  | .unknownOption t => "unexpected argument '" ++ t ++ "' found"
  | .unexpectedArgument t => "unexpected argument '" ++ t ++ "' found"
  | .unknownSubcommand n => "unrecognized subcommand '" ++ n ++ "'"
  | .missingValue o => "a value is required for '--" ++ o ++ "' but none was supplied"
  | .invalidValue o v => "invalid value '" ++ v ++ "' for '--" ++ o ++ "'"
  | .valueNotAllowed o v => "unexpected value '" ++ v ++ "' for '--" ++ o ++ "' found"
  | .repeated o => "the argument '--" ++ o ++ "' cannot be used multiple times"
  | .missingArgument n => "the following required arguments were not provided: <" ++ n ++ ">"
  | .missingSubcommand => "a subcommand is required but one was not provided"

/-- An option waiting to be completed, with its value once it has one. -/
structure Pending where
  option : OptionSpec
  value : Option String

/-- Where parsing stands. -/
structure State where
  found : Matches := {}
  pending : Option Pending := none
  /-- Whether `--` has been seen. -/
  trailing : Bool := false

/-- How parsing one command ends. -/
inductive Parsed where
  /-- The tokens fit and name no subcommand. -/
  | matched (m : Matches)
  /-- A subcommand was named: where this command stood, and the tokens after the name. The
  option still pending here is completed only once the subcommand's own tokens fit, so that
  the subcommand's help wins over a bad value given before it. -/
  | enter (st : State) (name : String) (rest : List String)
  /-- `--help` or `-h`. -/
  | help
  /-- `--version` or `-V`. -/
  | version
  /-- The `help` subcommand, with the tokens after it. -/
  | helpFor (names : List String)

/-- Completes the pending option: it needs a value, the value must pass its check, and the
option must not have been given before. -/
def complete (st : State) : Except UsageError State :=
  match st.pending with
  | none => .ok st
  | some ⟨o, none⟩ => .error (.missingValue o.long)
  | some ⟨o, some v⟩ =>
    if st.found.values.any (·.1 == o.long) then .error (.repeated o.long)
    else match o.kind with
      | .value accepts =>
        if accepts v then
          .ok { st with pending := none,
                        found := { st.found with values := st.found.values ++ [(o.long, v)] } }
        else .error (.invalidValue o.long v)
      | _ => .ok { st with pending := none }

/-- An option without a value appears: the pending option is completed first. -/
def react (st : State) (o : OptionSpec) : Except UsageError (Parsed ⊕ State) := do
  let st ← complete st
  match o.kind with
  | .help => pure (.inl .help)
  | .version => pure (.inl .version)
  | .value _ => pure (.inr { st with pending := some ⟨o, none⟩ })
  | .flag =>
    if st.found.flags.contains o.long then throw (.repeated o.long)
    pure (.inr { st with found := { st.found with flags := st.found.flags ++ [o.long] } })

/-- An option that takes a value appears with its value attached. -/
def attach (st : State) (o : OptionSpec) (v : String) : Except UsageError State := do
  let st ← complete st
  complete { st with pending := some ⟨o, some v⟩ }

/-- A cluster of short options, letter by letter. -/
def shorts (spec : Spec) : List Char → State → Except UsageError (Parsed ⊕ State)
  | [], st => .ok (.inr st)
  | c :: cs, st =>
    match spec.options.find? (·.short == some c) with
    | none => .error (.unknownOption (String.ofList ['-', c]))
    | some o =>
      match o.kind, cs with
      | .value _, [] => react st o
      | .value _, '=' :: v => .inr <$> attach st o (String.ofList v)
      | .value _, v => .inr <$> attach st o (String.ofList v)
      | _, _ => do
        match ← react st o with
        | .inl out => pure (.inl out)
        | .inr st => shorts spec cs st

/-- A long option, `name` or `name=value`. -/
def long (spec : Spec) (body : String) (st : State) : Except UsageError (Parsed ⊕ State) :=
  let (name, value) := match FileName.splitFirst? '=' body.toList with
    | some (n, v) => (String.ofList n, some (String.ofList v))
    | none => (body, none)
  match spec.options.find? (·.long == name), value with
  | none, _ => .error (.unknownOption ("--" ++ name))
  | some o, none => react st o
  | some o, some v =>
    match o.kind with
    | .value _ => .inr <$> attach st o v
    | _ => .error (.valueNotAllowed name v)

/-- Whether the pending option still waits for its value. -/
def State.awaiting (st : State) : Bool :=
  match st.pending with
  | some ⟨_, none⟩ => true
  | _ => false

/-- Checks that nothing required is missing once the tokens are used up. -/
def finish (spec : Spec) (st : State) : Except UsageError Parsed := do
  let st ← complete st
  if let some name := spec.arguments.drop st.found.arguments.length |>.head? then
    throw (.missingArgument name)
  if !spec.subcommands.isEmpty then throw .missingSubcommand
  pure (.matched st.found)

/-- Parses the tokens of one command. -/
def scan (spec : Spec) : List String → State → Except UsageError Parsed
  | [], st => finish spec st
  | t :: rest, st =>
    if !st.trailing && !st.awaiting && spec.subcommands.contains t then
      if t == "help" then .ok (.helpFor rest)
      else .ok (.enter st t rest)
    else if !st.trailing && t == "--" then scan spec rest { st with trailing := true }
    else
      let step : Except UsageError (Parsed ⊕ State) :=
        if !st.trailing && "--".isPrefixOf t then long spec (t.drop 2).toString st
        else if !st.trailing && "-".isPrefixOf t && t != "-" then shorts spec (t.drop 1).toString.toList st
        else if !st.trailing && st.awaiting then
          .ok (.inr { st with pending := st.pending.map fun p => { p with value := some t } })
        else if st.found.arguments.length < spec.arguments.length then do
          let st ← complete st
          pure (.inr { st with found := { st.found with arguments := st.found.arguments ++ [t] } })
        else if spec.subcommands.isEmpty then .error (.unexpectedArgument t)
        else .error (.unknownSubcommand t)
      match step with
      | .error e => .error e
      | .ok (.inl out) => .ok out
      | .ok (.inr st) => scan spec rest st

end Cli

end LsmStore
