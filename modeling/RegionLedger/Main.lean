import RegionLedger.CommandLine

/-!
# Main

Reads the files that the command names, prints what it answers, and exits with code 0, with 1 after
a failure, with 2 if the arguments are wrong, or with 101 if an overflow stopped it.
-/

namespace RegionLedger

/-- How the program is called. -/
def usage : String :=
  "usage: replay TRACE [--level L] [--scale S] [--detail] [--best-effort] [--seed N]\n" ++
  "       diff BASELINE CURRENT [--scale S]"

/-- The lines on the causes of a failure. -/
def causeLines : List String → List String
  | [] => []
  | [cause] => ["", "Caused by:", "    " ++ cause]
  | causes =>
    "" :: "Caused by:" :: causes.zipIdx.map fun (cause, i) => s!"    {i}: " ++ cause

/-- The contents of a file, unless it cannot be read as text. -/
def readFile? (path : String) : IO (Option String) := do
  try return some (← IO.FS.readFile path)
  catch _ => return none

/-- Runs a command and returns the exit code. -/
def runCommand (command : Command) : IO UInt32 := do
  let contents ← command.files.mapM fun path => return (path, ← readFile? path)
  match command.run fun path => (contents.lookup path).join with
  | .ok text =>
    IO.print text
    return 0
  | .error (.stopped cause) =>
    IO.eprintln cause.message
    return 101
  | .error failure =>
    match failure.chain with
    | [] => return 1
    | message :: causes =>
      IO.eprintln ("Error: " ++ message)
      for line in causeLines causes do
        IO.eprintln line
      return 1

end RegionLedger

/-- The program. -/
def main (arguments : List String) : IO UInt32 :=
  match RegionLedger.Command.ofArguments arguments with
  | .command command => RegionLedger.runCommand command
  | .help => do
    IO.println RegionLedger.usage
    return 0
  | .misuse => do
    IO.eprintln RegionLedger.usage
    return 2
