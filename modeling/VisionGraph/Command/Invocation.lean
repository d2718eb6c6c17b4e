import VisionGraph.Command.Usage
import VisionGraph.Parity.Suite
/-!
The command lines of the compiler and of the benchmark.
-/

namespace VisionGraph

inductive Command where
  /-- Prints the source of a demo. -/
  | emitC (demo : Demo) (width height : UInt32) (report : Bool)
  /-- Compiles a demo and runs it on noise. -/
  | runDemo (demo : Demo) (width height : UInt32) (iterations : Nat)
  /-- Compares programs with and without optimisation. -/
  | parity (output baseline : Option String) (seed : UInt64) (demo : Option Demo)
deriving DecidableEq, Repr

structure Invocation where
  config : Option String
  cacheDir : Option String
  optLevel : Option Nat
  noOptimize : Bool
  command : Command
deriving DecidableEq, Repr

open Usage

namespace Invocation

def word? : String → Option Nat := below? UInt32.size

def options : List OptionSpec :=
  [path "config", path "cache-dir", value "opt-level" (below? UInt8.size), flag "no-optimize"]

def subcommands : List (String × List OptionSpec) :=
  let size := [value "width" word?, value "height" word?]
  [("emit-c", choice "demo" Demo.ofName? :: flag "report" :: size),
    ("run-demo", choice "demo" Demo.ofName? :: value "iterations" (naturalBelow? UInt64.size) :: size),
    ("parity", [path "output", path "baseline", value "seed" (naturalBelow? UInt64.size), choice "demo" Demo.ofName?])]

def sizeOf (g : Given) (name : String) (standard : UInt32) : UInt32 :=
  ((g.value? name).bind word?).elim standard UInt32.ofNat

def commandOf (name : String) (g : Given) : Command :=
  let demo := (g.value? "demo").bind Demo.ofName?
  let width := sizeOf g "width" 640
  let height := sizeOf g "height" 480
  match name with
  | "emit-c" => .emitC (demo.getD .fusion) width height (g.has "report")
  | "run-demo" =>
    .runDemo (demo.getD .threshold) width height (((g.value? "iterations").bind natural?).getD 10)
  | _ =>
    .parity (g.value? "output") (g.value? "baseline")
      (((g.value? "seed").bind natural?).elim ParitySuite.defaultSeed UInt64.ofNat) demo

/-- Reads the words of a command line. -/
def ofWords (words : List String) : Except UsageError Invocation := do
  let (g, name, inner) ← readWith options subcommands words
  return {
    config := g.value? "config"
    cacheDir := g.value? "cache-dir"
    optLevel := (g.value? "opt-level").bind (below? UInt8.size)
    noOptimize := g.has "no-optimize"
    command := commandOf name inner }

end Invocation

/-- Width and height. -/
structure Resolution where
  width : UInt32
  height : UInt32
deriving DecidableEq, Repr

namespace Resolution

def text (r : Resolution) : String := s!"{r.width.toNat}x{r.height.toNat}"

/-- A side of at least one pixel, possibly between blanks. -/
def side? (cs : List Char) : Option UInt32 :=
  ((naturalBelow? UInt32.size (String.ofList (trimBlanks cs))).filter (0 < ·)).map UInt32.ofNat

/-- Two sides around an x. -/
def ofWord? (word : String) : Option Resolution :=
  let cs := word.toList
  match cs.dropWhile (· != 'x') with
  | [] => none
  | _ :: rest => (side? (cs.takeWhile (· != 'x'))).bind fun w => (side? rest).map fun h => ⟨w, h⟩

end Resolution

/-- What to measure. -/
structure Benchmark where
  config : Option String
  demo : Option Demo
  sizes : List Resolution
  iterations : Nat
  output : Option String
deriving DecidableEq, Repr

namespace Benchmark

def options : List OptionSpec :=
  [path "config", choice "demo" Demo.ofName?, { value "size" Resolution.ofWord? with arity := .many },
    value "iterations" (naturalBelow? UInt64.size), path "output"]

def standardSizes : List Resolution := [⟨64, 48⟩, ⟨640, 480⟩, ⟨1920, 1080⟩]

/-- Reads the words of a command line. -/
def ofWords (words : List String) : Except UsageError Benchmark := do
  let g ← read options words
  let sizes := (g.all "size").filterMap Resolution.ofWord?
  return {
    config := g.value? "config"
    demo := (g.value? "demo").bind Demo.ofName?
    sizes := if sizes.isEmpty then standardSizes else sizes
    iterations := ((g.value? "iterations").bind natural?).getD 20
    output := g.value? "output" }

end Benchmark

end VisionGraph
