import VisionGraph.Command.Invocation
import VisionGraph.Config
/-!
What the commands do, over any system that has files, an environment, clocks and two streams of text.
-/

namespace VisionGraph

/-- What a command needs of the system it runs on. -/
structure System (m : Type → Type) where
  /-- The text of a file, if it can be read. -/
  readText : String → m (Option String)
  /-- Writes a file; the result is what went wrong. -/
  writeText : String → String → m (Option String)
  /-- Whether there is anything at a path. -/
  exists? : String → m Bool
  print : String → m Unit
  printError : String → m Unit
  environment : Environment
  /-- The directory for temporary files. -/
  temporary : String
  programs : Programs
  clock : Clock m
  /-- How a measured number is written with some digits behind the point, with its sign if asked. -/
  measured : (places : Nat) → (plus : Bool) → Float → String
  /-- How a moment is written. -/
  moment : Nat → String

/-- How measured numbers are usually written. -/
def measuredText (places : Nat) (plus : Bool) (x : Float) : String :=
  let text := Decimal.fixed places x
  if plus && !text.startsWith "-" then "+" ++ text else text

namespace System

variable {m : Type → Type} [Monad m] (sys : System m)

def line (text : String) : ExceptT Failure m Unit := ExceptT.lift (sys.print (text ++ "\n"))

/-- Writes a file or fails. -/
def save (path text : String) : ExceptT Failure m Unit := do
  match ← ExceptT.lift (sys.writeText path text) with
  | none => return
  | some reason => throw (.output reason)

/-- The configuration from a file, if one is named, and from the environment. -/
def configuration (path : Option String) : ExceptT Failure m CompilerConfig := do
  let base ← match path with
    | none => pure .standard
    | some path =>
      match ← ExceptT.lift (sys.readText path) with
      | none => throw (.configUnreadable path)
      | some text => CompilerConfig.ofText path text
  return base.override sys.environment

/-- The paths of the directories above a path, and the path itself. -/
def pathPrefixes (path : String) : List String :=
  let parts := path.splitOn "/"
  (List.range parts.length).map fun k => String.intercalate "/" (parts.take (k + 1))

/-- The compiler that a configuration describes. Its store cannot be used where a file is in the way. -/
def pipeline (c : CompilerConfig) : ExceptT Failure m Pipeline := do
  let path := c.storePath sys.environment sys.temporary
  let files ← ExceptT.lift ((pathPrefixes path).mapM fun p => sys.readText p)
  let store := Store.fresh path
  return {
    registry := .standard
    optimizer := c.optimizer
    toolchain := .ofCall sys.programs (.ofConfig c.toolchain sys.environment)
    store := if files.any Option.isSome then store.block else store }

/-- Compiles a graph and tells how long it took. -/
def compile (l : Pipeline) (g : Graph) : ExceptT Failure m (Float × Artifacts × Pipeline) :=
  sys.clock.timed fun _ =>
    match l.compile g with
    | (.ok a, l) => .ok (a, l)
    | (.error e, _) => .error (.graph e)

def emitC (l : Pipeline) (d : DemoGraph) (report : Bool) : ExceptT Failure m Unit := do
  let verified ← ParitySuite.lift (l.verify d.graph)
  let (optimized, r) := l.optimize verified
  let unit ← ParitySuite.lift (l.generate optimized)
  sys.line unit.source
  if report then
    ExceptT.lift (sys.printError (r.toJson.pretty ++ "\n"))

/-- How many samples of an output are not zero. -/
def summary (b : Bindings) (o : ObjectId) : Option String :=
  (b.image? o).map fun x =>
    let set := (x.reals.filter (· != 0)).size
    s!"- {o.text}: {set} of {x.size} elements non-zero"

def runDemo (l : Pipeline) (demo : Demo) (width height : UInt32) (iterations : Nat) : ExceptT Failure m Unit := do
  let d := demo.build width height
  let (_, a, _) ← sys.compile l d.graph
  let (bound, _) ← d.fill (← ParitySuite.lift a.program.allocate) (.ofSeed ParitySuite.defaultSeed)
  let iterations := max iterations 1
  let (elapsed, bound) ← sys.clock.timed fun _ => ParitySuite.runTimes iterations a bound
  let perCall := sys.measured 3 false (elapsed / Float.ofNat iterations)
  let size := (Resolution.mk width height).text
  sys.line (s!"demo={demo.name} size={size} nodes={a.optimized.stages.length} " ++
    s!"fingerprint={a.unit.fingerprint} per_call_ms={perCall}")
  (d.outputs.filterMap (summary bound)).forM sys.line

/-- One line for a case of the parity suite. -/
def caseLine (r : ParityResult) : String :=
  let error := Decimal.scaled 3 false r.maxError
  s!"- {r.case}: nodes={r.nodesReference}->{r.nodesOptimized} fusions={r.fusions} max_abs_error={error} " ++
    s!"latency_ms={sys.measured 3 false r.optimizedLatency} (reference {sys.measured 3 false r.referenceLatency})"

def deltaLine (entry : String × EvaluationDelta) : String :=
  let error := Decimal.scaled 3 true entry.2.error
  s!"Δ {entry.1}: latency_ms={sys.measured 3 true entry.2.latency} max_abs_error={error}"

/-- Compares with an earlier report, if it is there. -/
def compare (e : Evaluation) (path : String) : ExceptT Failure m Unit := do
  if ← ExceptT.lift (sys.exists? path) then
    match ← ExceptT.lift (sys.readText path) with
    | none => throw (.reportUnreadable path)
    | some text => (e.diff (← Evaluation.ofText text)).forM fun entry => sys.line (sys.deltaLine entry)

def parity (l : Pipeline) (output baseline : Option String) (seed : UInt64) (demo : Option Demo) :
    ExceptT Failure m Unit := do
  let suite := demo.elim ParitySuite.smoke fun d => .ofCases (ParitySuite.casesOf d)
  let e ← ParitySuite.run sys.clock { suite with seed := seed } l
  sys.line (s!"target={e.target}, cases={e.cases.length}, seed={e.seed}, generated_at={sys.moment e.generatedAt}")
  e.cases.forM fun r => sys.line (sys.caseLine r)
  match baseline with
  | some path => sys.compare e path
  | none => pure ()
  match output with
  | some path => sys.save path e.toJson.pretty
  | none => pure ()
  if !e.isExact then
    throw .disagreement

/-- Runs a command of the compiler. -/
def run (i : Invocation) : ExceptT Failure m Unit := do
  let c ← sys.configuration i.config
  let c := { c with
    cacheDir := i.cacheDir <|> c.cacheDir
    toolchain := i.optLevel.elim c.toolchain c.toolchain.withOptLevel
    optimizer := if i.noOptimize then .disabled else c.optimizer }
  let l ← sys.pipeline c
  match i.command with
  | .emitC demo width height report => sys.emitC l (demo.build width height) report
  | .runDemo demo width height iterations => sys.runDemo l demo width height iterations
  | .parity output baseline seed demo => sys.parity l output baseline seed demo

end System

end VisionGraph
