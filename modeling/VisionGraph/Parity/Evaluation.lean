import VisionGraph.Demo.Basic
import VisionGraph.Failure
/-!
Evaluation reports: for each case how much optimised and plain programs differ and how long they take.
-/

namespace VisionGraph

open Json

/-- A demo at a size. -/
structure ParityCase where
  demo : Demo
  width : UInt32
  height : UInt32
deriving DecidableEq, Repr

namespace ParityCase

def name (c : ParityCase) : String := s!"{c.demo.name}_{c.width.toNat}x{c.height.toNat}"

def toJson (c : ParityCase) : Json :=
  record [("demo", c.demo.toJson), ("width", wordJson c.width), ("height", wordJson c.height)]

def ofJson? (j : Json) : Option ParityCase := do
  let fs ← j.fields? ["demo", "width", "height"]
  return {
    demo := ← fs.required "demo" Demo.ofJson?
    width := ← fs.required "width" word?
    height := ← fs.required "height" word? }

end ParityCase

/-- Replaces the entry of a name, or adds it at its place in the order of names. -/
def insertNamed {α : Type} (name : String) (a : α) : List (String × α) → List (String × α)
  | [] => [(name, a)]
  | (k, x) :: rest =>
    if name < k then (name, a) :: (k, x) :: rest
    else if name = k then (name, a) :: rest
    else (k, x) :: insertNamed name a rest

/-- Entries in the order of their names; of equal names the last counts. -/
def sortNamed {α : Type} (entries : List (String × α)) : List (String × α) :=
  entries.foldl (fun sorted (name, a) => insertNamed name a sorted) []

/-- The outcome of one case. -/
structure ParityResult where
  case : String
  nodesReference : Nat
  nodesOptimized : Nat
  fusions : Nat
  removedNodes : Nat
  /-- The largest difference of each output, by its name. -/
  outputErrors : List (String × Float)
  maxError : Float
  /-- Milliseconds a call of the plain program takes. -/
  referenceLatency : Float
  optimizedLatency : Float

namespace ParityResult

def toJson (r : ParityResult) : Json :=
  record [("case", ofText r.case), ("nodes_reference", ofNat r.nodesReference),
    ("nodes_optimized", ofNat r.nodesOptimized), ("fusions", ofNat r.fusions),
    ("removed_nodes", ofNat r.removedNodes),
    ("output_max_abs_error", record (r.outputErrors.map fun (name, x) => (name, ofReal x))),
    ("max_abs_error", ofReal r.maxError), ("reference_latency_ms", ofReal r.referenceLatency),
    ("optimized_latency_ms", ofReal r.optimizedLatency)]

/-- Numbers by name. -/
def errors? : Json → Option (List (String × Float))
  | .object members =>
    (members.mapM fun m => (member? m).bind fun (name, j) => j.real?.map fun x => (name, x)).map sortNamed
  | _ => none

def ofJson? (j : Json) : Option ParityResult := do
  let fs ← j.fields? ["case", "nodes_reference", "nodes_optimized", "fusions", "removed_nodes",
    "output_max_abs_error", "max_abs_error", "reference_latency_ms", "optimized_latency_ms"]
  return {
    case := ← fs.required "case" text?
    nodesReference := ← fs.required "nodes_reference" (nat? UInt64.size)
    nodesOptimized := ← fs.required "nodes_optimized" (nat? UInt64.size)
    fusions := ← fs.required "fusions" (nat? UInt64.size)
    removedNodes := ← fs.required "removed_nodes" (nat? UInt64.size)
    outputErrors := ← fs.required "output_max_abs_error" errors?
    maxError := ← fs.required "max_abs_error" real?
    referenceLatency := ← fs.required "reference_latency_ms" real?
    optimizedLatency := ← fs.required "optimized_latency_ms" real? }

end ParityResult

structure Evaluation where
  target : String
  /-- Milliseconds since 1970. -/
  generatedAt : Nat
  seed : Nat
  cases : List ParityResult

/-- How a case changed since another evaluation. -/
structure EvaluationDelta where
  current : ParityResult
  baseline : ParityResult
  latency : Float
  error : Float

namespace Evaluation

def toJson (e : Evaluation) : Json :=
  record [("target", ofText e.target), ("generated_at_unix_ms", ofNat e.generatedAt), ("seed", ofNat e.seed),
    ("cases", ofList ParityResult.toJson e.cases)]

def fieldNames : List String := ["target", "generated_at_unix_ms", "seed", "cases"]

def ofJson? (j : Json) : Option Evaluation := do
  let fs ← j.fields? fieldNames
  return {
    target := ← fs.required "target" text?
    generatedAt := ← fs.required "generated_at_unix_ms" long?
    seed := ← fs.required "seed" (nat? UInt64.size)
    cases := ← fs.required "cases" (list? ParityResult.ofJson?) }

/-- Line and column of the last character that is not blank; columns count bytes. -/
def lastPlace (text : String) : Nat × Nat :=
  let upTo := (text.toList.reverse.dropWhile isGap).reverse
  let line := upTo.reverse.takeWhile (· != '\n')
  (upTo.count '\n' + 1, (String.ofList line).utf8ByteSize)

/-- Why the text of a file is no report. -/
def fault (text : String) : Failure :=
  match (Json.parse? text).bind (·.fields? fieldNames) with
  | some fs =>
    match fieldNames.find? fun name => (fs.values.lookup name).isNone with
    | some name => .reportField name (lastPlace text).1 (lastPlace text).2
    | none => .reportInvalid
  | none => .reportInvalid

/-- The report in the text of a file. -/
def ofText (text : String) : Except Failure Evaluation :=
  match (Json.parse? text).bind ofJson? with
  | some e => .ok e
  | none => .error (fault text)

/-- The cases in the order of their names; of equal names the last counts. -/
def byName (e : Evaluation) : List (String × ParityResult) := sortNamed (e.cases.map fun r => (r.case, r))

/-- The cases that both reports have. -/
def diff (e baseline : Evaluation) : List (String × EvaluationDelta) :=
  e.byName.filterMap fun (name, r) =>
    (baseline.byName.lookup name).map fun old =>
      (name, ⟨r, old, r.optimizedLatency - old.optimizedLatency, r.maxError - old.maxError⟩)

/-- Whether optimisation changed nothing in any case. -/
def isExact (e : Evaluation) : Bool := e.cases.all (·.maxError == 0)

end Evaluation

end VisionGraph
