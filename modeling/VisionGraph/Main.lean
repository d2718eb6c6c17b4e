import Std.Time
import VisionGraph.Command.Measure
/-!
The command line. The word `bench` in front selects the benchmark.
-/

namespace VisionGraph

/-- The options and subcommands in short. -/
def usage : String :=
  "Usage: vxforge [--config PATH] [--cache-dir PATH] [--opt-level N] [--no-optimize] COMMAND\n" ++
  "  emit-c [--demo DEMO] [--width N] [--height N] [--report]\n" ++
  "  run-demo [--demo DEMO] [--width N] [--height N] [--iterations N]\n" ++
  "  parity [--output PATH] [--baseline PATH] [--seed N] [--demo DEMO]\n" ++
  "Usage: vxforge bench [--config PATH] [--demo DEMO] [--size WxH]... [--iterations N] [--output PATH]\n" ++
  "Demos: threshold, fusion, edges\n"

/-- The text of a file, if it can be read. -/
def readFile? (path : String) : IO (Option String) := do
  try
    return some (← IO.FS.readFile path)
  catch _ => return none

def writeFile? (path text : String) : IO (Option String) := do
  try
    IO.FS.writeFile path text
    return none
  catch e => return some (toString e)

/-- The values of the variables that matter, read once. -/
def readEnvironment : IO Environment := do
  let names := [Store.directoryVariable, CompilerConfig.levelVariable, ToolchainConfig.compilerVariable, "CC"]
  let values ← names.filterMapM fun name => do return (← IO.getEnv name).map (name, ·)
  return fun name => values.lookup name

def systemIO : IO (System IO) := do
  return {
    readText := readFile?
    writeText := writeFile?
    exists? := fun path => do return (← readFile? path).isSome
    print := fun text => do IO.print text
    printError := fun text => do IO.eprint text
    environment := ← readEnvironment
    temporary := "/tmp"
    programs := .plain
    clock :=
      { nanoseconds := IO.monoNanosNow
        unixMillis := do return (← Std.Time.Timestamp.now).toMillisecondsSinceUnixEpoch.toInt.toNat }
    measured := measuredText
    moment := toString }

/-- Runs a command whose words were read, and gives the exit code. -/
def execute {α : Type} (words : Except UsageError α) (command : α → ExceptT Failure IO Unit) : IO UInt32 := do
  match words with
  | .error .help =>
    IO.print usage
    return 0
  | .error e =>
    IO.eprint s!"error: {e.message}\n{usage}"
    return e.exitCode
  | .ok a =>
    match ← (command a).run with
    | .ok () => return 0
    | .error f =>
      IO.eprintln s!"Error: {f.message}"
      return 1

end VisionGraph

open VisionGraph in
def main (words : List String) : IO UInt32 := do
  let sys ← systemIO
  match words with
  | "bench" :: rest => execute (Benchmark.ofWords rest) sys.measure
  | _ => execute (Invocation.ofWords words) sys.run
