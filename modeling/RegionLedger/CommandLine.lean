import RegionLedger.Trace.Comparison

/-!
# The command line

Two commands: `replay` reports on one trace, `diff` on the change from one trace to another.

* `Arguments.Grammar`, `Arguments.scan` — how a command takes in its arguments, one after the other.
* `Command`, `Command.ofArguments` — the command that arguments stand for.
* `Command.run` — what a command prints, given the contents of the files it names.
-/

namespace RegionLedger

/-- What the program is asked to do. -/
inductive Command where
  /-- Replay a trace and print the report. -/
  | replay (trace : String) (config : Config) (scale : Scale) (detail : Bool)
  /-- Replay two traces and print the change from the first to the second. -/
  | diff (baseline current : String) (scale : Scale)
deriving DecidableEq, Repr

/-- What arguments stand for. -/
inductive Request where
  /-- A command. -/
  | command (command : Command)
  /-- The usage text. -/
  | help
  /-- Nothing: the arguments are wrong. -/
  | misuse
deriving DecidableEq, Repr

/-! ## Arguments

Arguments are taken in from left to right, and the first wrong one decides: the usage text asked for
after it is not given.  What is missing shows only at the end, so the usage text comes before that. -/

namespace Arguments

/-- How a command takes in its arguments, with what it has gathered so far as `σ`.  Taking one in
fails if it is wrong or was given before. -/
structure Grammar (σ : Type) where
  /-- Takes in an argument that is no option. -/
  operand : σ → String → Option σ
  /-- Takes in the value of an option, where an option of this name has one. -/
  setting? : String → Option (σ → String → Option σ)
  /-- Takes in an option without a value, where there is one of this name. -/
  switch? : String → Option (σ → Option σ)

/-- How a scan of arguments ended. -/
inductive Scan (σ : Type) where
  /-- All were taken in. -/
  | done (gathered : σ)
  /-- The usage text was asked for. -/
  | help
  /-- One of them was wrong. -/
  | misuse
deriving DecidableEq, Repr

/-- What a single argument looks like. -/
inductive Shape where
  /-- The mark after which there are no more options. -/
  | separator
  /-- An option by its long name, with the value after the equals sign, if there is one. -/
  | long (name : String) (value : Option String)
  /-- A dash with letters. -/
  | short (letters : String)
  /-- No option. -/
  | operand
deriving DecidableEq, Repr

/-- The text before and after the first equals sign. -/
def splitEquals (cs : List Char) : String × Option String :=
  match cs.dropWhile (· != '=') with
  | [] => (String.ofList cs, none)
  | _ :: value => (String.ofList (cs.takeWhile (· != '=')), some (String.ofList value))

/-- The shape of an argument.  A dash alone is no option. -/
def shape (argument : String) : Shape :=
  match argument.toList with
  | ['-', '-'] => .separator
  | '-' :: '-' :: name => let (name, value) := splitEquals name; .long name value
  | ['-'] => .operand
  | '-' :: letters => .short (String.ofList letters)
  | _ => .operand

/-- Whether letters after a dash ask for the usage text: the first of them counts. -/
def asksHelp (letters : String) : Bool := letters.toList.head? == some 'h'

variable {σ : Type}

/-- Takes in all arguments as operands. -/
def scanOperands (g : Grammar σ) (a : σ) : List String → Scan σ
  | [] => .done a
  | argument :: rest =>
    match g.operand a argument with
    | some a => scanOperands g a rest
    | none => .misuse

/-- Takes in arguments.  The value of an option is in the same argument or the next one, which then
must be no option itself. -/
def scan (g : Grammar σ) (a : σ) : List String → Scan σ
  | [] => .done a
  | argument :: rest =>
    match shape argument with
    | .separator => scanOperands g a rest
    | .operand =>
      match g.operand a argument with
      | some a => scan g a rest
      | none => .misuse
    | .short letters => if asksHelp letters then .help else .misuse
    | .long name value =>
      match g.switch? name, g.setting? name with
      | some take, _ =>
        match value, take a with
        | none, some a => scan g a rest
        | _, _ => .misuse
      | none, some take =>
        match value, rest with
        | some value, rest =>
          match take a value with
          | some a => scan g a rest
          | none => .misuse
        | none, [] => .misuse
        | none, value :: rest =>
          if shape value = .operand then
            match take a value with
            | some a => scan g a rest
            | none => .misuse
          else .misuse
      | none, none => if name = "help" ∧ value = none then .help else .misuse

/-- Fills a place that must be free with a value that must be there. -/
def fill {α : Type} (place value : Option α) : Option (Option α) :=
  if place.isSome || value.isNone then none else some value

/-- A path, which must not be empty. -/
def path? (s : String) : Option String := if s.isEmpty then none else some s

/-- The seed that a decimal numeral stands for. -/
def seed? (s : String) : Option UInt64 := (Text.readWord .decimal s.toList).toOption

end Arguments

/-- What the arguments of `replay` have said so far. -/
structure ReplayArguments where
  /-- The trace. -/
  trace : Option String := none
  /-- The level asked for. -/
  level : Option Level := none
  /-- The scale asked for. -/
  scale : Option Scale := none
  /-- The seed asked for. -/
  seed : Option UInt64 := none
  /-- Whether every region is to be listed. -/
  detail : Bool := false
  /-- Whether updates may be lost. -/
  bestEffort : Bool := false
deriving DecidableEq, Repr

namespace ReplayArguments

open Arguments

/-- How `replay` takes in its arguments: one trace, and any of the options once. -/
def grammar : Grammar ReplayArguments where
  operand a s := (fill a.trace (path? s)).map fun trace => { a with trace }
  setting?
    | "level" => some fun a s =>
      (fill a.level (Level.ofName s).toOption).map fun level => { a with level }
    | "scale" => some fun a s =>
      (fill a.scale (Scale.ofName s).toOption).map fun scale => { a with scale }
    | "seed" => some fun a s => (fill a.seed (seed? s)).map fun seed => { a with seed }
    | _ => none
  switch?
    | "detail" => some fun a => if a.detail then none else some { a with detail := true }
    | "best-effort" => some fun a =>
      if a.bestEffort then none else some { a with bestEffort := true }
    | _ => none

/-- The command, once the trace is named.  An option that was not given has its default. -/
def command? (a : ReplayArguments) : Option Command :=
  a.trace.map fun trace =>
    .replay trace
      { level := a.level.getD .detail, seed := a.seed.getD defaultSeed, bestEffort := a.bestEffort }
      (a.scale.getD .kilo) a.detail

end ReplayArguments

/-- What the arguments of `diff` have said so far. -/
structure DiffArguments where
  /-- The trace compared with. -/
  baseline : Option String := none
  /-- The trace that is compared. -/
  current : Option String := none
  /-- The scale asked for. -/
  scale : Option Scale := none
deriving DecidableEq, Repr

namespace DiffArguments

open Arguments

/-- How `diff` takes in its arguments: two traces, and its option once. -/
def grammar : Grammar DiffArguments where
  operand a s :=
    if a.baseline.isNone then (path? s).map fun path => { a with baseline := some path }
    else (fill a.current (path? s)).map fun current => { a with current }
  setting?
    | "scale" => some fun a s =>
      (fill a.scale (Scale.ofName s).toOption).map fun scale => { a with scale }
    | _ => none
  switch? _ := none

/-- The command, once both traces are named. -/
def command? (a : DiffArguments) : Option Command :=
  match a.baseline, a.current with
  | some baseline, some current => some (.diff baseline current (a.scale.getD .kilo))
  | _, _ => none

end DiffArguments

namespace Command

/-- The request that a scan of arguments makes. -/
def requestOf {σ : Type} (scan : Arguments.Scan σ) (command? : σ → Option Command) : Request :=
  match scan with
  | .help => .help
  | .misuse => .misuse
  | .done a =>
    match command? a with
    | some command => .command command
    | none => .misuse

/-- The names that `help` can be asked about. -/
def topics : List String := ["replay", "diff", "help"]

/-- The request that arguments make.  `help` takes one topic at most. -/
def ofArguments : List String → Request
  | [] => .misuse
  | "replay" :: rest =>
    requestOf (Arguments.scan ReplayArguments.grammar {} rest) ReplayArguments.command?
  | "diff" :: rest =>
    requestOf (Arguments.scan DiffArguments.grammar {} rest) DiffArguments.command?
  | ["help"] => .help
  | ["help", topic] => if topics.contains topic then .help else .misuse
  | "help" :: _ => .misuse
  | first :: _ =>
    match Arguments.shape first with
    | .long "help" none => .help
    | .short letters => if Arguments.asksHelp letters then .help else .misuse
    | _ => .misuse

/-! ## Running -/

/-- Why a command failed. -/
inductive Failure where
  /-- A trace could not be read. -/
  | unreadable (path : String)
  /-- A trace holds a line that is no record. -/
  | unparsable (path : String) (cause : TraceError)
  /-- A record of a trace was refused. -/
  | refused (path : String) (cause : RunError)
  /-- Byte counts could not be added up or compared. -/
  | stopped (cause : Overflow)
deriving DecidableEq, Repr

/-- The wordings of a failure, the outermost first. -/
def Failure.chain : Failure → List String
  | unreadable path => ["failed to read trace " ++ path]
  | unparsable path cause => ("failed to parse trace " ++ path) :: cause.chain
  | refused path cause => ("failed to replay " ++ path) :: cause.chain
  | stopped cause => [cause.message]

/-- The failure that ends the replay of a trace.  An overflow is no refusal. -/
def Failure.ofRun (path : String) (cause : RunError) : Failure :=
  match cause.cause.overflow? with
  | some overflow => .stopped overflow
  | none => .refused path cause

/-- Reads a trace from the contents of the files. -/
def readTrace (files : String → Option String) (path : String) : Except Failure (List Record) :=
  match files path with
  | none => .error (.unreadable path)
  | some text => (Trace.read text).mapError (.unparsable path)

/-- The counts of a replay as printed under its report. -/
def statsLine (s : ReplayStats) : String :=
  let records := s.records
  let operations := s.operations
  let spaces := s.spaces
  let dropped := s.dropped
  s!"{records} records, {operations} operations, {spaces} spaces, {dropped} dropped"

/-- The settings that traces are compared under: call stacks do not matter there. -/
def comparisonConfig : Config := { level := .summary }

/-- What a command prints, given the contents of the files. -/
def run (files : String → Option String) : Command → Except Failure String
  | replay path config scale detail => do
    let records ← readTrace files path
    match (Replay.create config .initial).run records with
    | (.error cause, _) => throw (.ofRun path cause)
    | (.ok (), r) =>
      let report ← (r.tracker.report r.names scale detail).mapError .stopped
      return report ++ "\n" ++ statsLine r.stats ++ "\n"
  | diff basePath currentPath scale => do
    let base ← readTrace files basePath
    let current ← readTrace files currentPath
    match Comparison.ofRecords comparisonConfig base current with
    | .error (.baseline cause) => throw (.ofRun basePath cause)
    | .error (.current cause) => throw (.ofRun currentPath cause)
    | .ok comparison => (comparison.render scale).mapError .stopped

/-- The files that a command reads. -/
def files : Command → List String
  | replay trace .. => [trace]
  | diff baseline current _ => [baseline, current]

end Command

end RegionLedger
