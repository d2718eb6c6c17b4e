import VisionGraph.Plan.Optimize
import VisionGraph.Plan.Verify
import VisionGraph.Run.Program
/-!
Pipelines: kernels, optimisation and toolchain, and the way from a graph to a program.
-/

namespace VisionGraph

structure Pipeline where
  registry : Registry
  optimizer : OptimizerConfig
  toolchain : Toolchain
  store : Store

/-- Everything that compilation makes of a graph. -/
structure Artifacts where
  verified : Plan
  optimized : Plan
  report : Report
  unit : CUnit
  program : Program

namespace Pipeline

def verify (l : Pipeline) (g : Graph) : Except Error Plan := g.verify l.registry

def optimize (l : Pipeline) (p : Plan) : Plan × Report := p.optimize l.optimizer

def generate (l : Pipeline) (p : Plan) : Except Error CUnit := p.generate l.registry

/-- Builds and loads a unit that was written for a plan. -/
def build (l : Pipeline) (p : Plan) (u : CUnit) : Except Error Program × Pipeline :=
  match l.store.request u l.toolchain with
  | (.error e, store) => (.error e, { l with store := store })
  | (.ok m, store) => (Program.make l.registry p u m, { l with store := store })

/-- The unit of a graph, after verification and optimisation. -/
def emit (l : Pipeline) (g : Graph) : Except Error CUnit := do
  l.generate (l.optimize (← l.verify g)).1

def compile (l : Pipeline) (g : Graph) : Except Error Artifacts × Pipeline :=
  match l.verify g with
  | .error e => (.error e, l)
  | .ok verified =>
    let (optimized, report) := l.optimize verified
    match l.generate optimized with
    | .error e => (.error e, l)
    | .ok unit =>
      let (result, l) := l.build optimized unit
      (result.map fun program => ⟨verified, optimized, report, unit, program⟩, l)

/-- Compiles graphs one after the other. -/
def compileAll (l : Pipeline) : List Graph → List (Except Error Artifacts) × Pipeline
  | [] => ([], l)
  | g :: rest =>
    let (result, l) := l.compile g
    let (results, l) := l.compileAll rest
    (result :: results, l)

end Pipeline

end VisionGraph
