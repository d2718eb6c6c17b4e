import VisionGraph.Command.Run
/-!
The benchmark: every demo at every size is compiled twice and run a number of times.
-/

namespace VisionGraph

open Json

/-- The measurements of one demo at one size, in milliseconds. -/
structure Measurement where
  demo : Demo
  size : Resolution
  nodes : Nat
  fusions : Nat
  compile : Float
  recompile : Float
  minCall : Float
  meanCall : Float
  /-- Millions of pixels a second. -/
  throughput : Float

namespace Measurement

def toJson (r : Measurement) : Json :=
  record [("demo", ofText r.demo.name),
    ("resolution", record [("width", wordJson r.size.width), ("height", wordJson r.size.height)]),
    ("nodes", ofNat r.nodes), ("fusions", ofNat r.fusions), ("compile_ms", ofReal r.compile),
    ("recompile_ms", ofReal r.recompile), ("min_call_ms", ofReal r.minCall), ("mean_call_ms", ofReal r.meanCall),
    ("megapixels_per_s", ofReal r.throughput)]

/-- Text filled up with blanks at its end. -/
def padded (width : Nat) (text : String) : String :=
  text ++ String.ofList (List.replicate (width - text.length) ' ')

/-- The shortest time that is not taken for zero, in seconds. -/
def instant : Float := Float.ofScientific 2220446049250313 true 31

end Measurement

namespace System

variable {m : Type → Type} [Monad m] (sys : System m)

/-- Runs a program some times and lists how long each run took. The runs after one that changes nothing
would only repeat it, so its time stands for theirs. -/
def calls (a : Artifacts) : (left : Nat) → Bindings → List Float → ExceptT Failure m (List Float)
  | 0, _, times => return times.reverse
  | left + 1, b, times => do
    let (t, next) ← sys.clock.timed fun _ => ParitySuite.runTimes 1 a b
    if next = b then return times.reverse ++ List.replicate (left + 1) t
    calls a left next (t :: times)

def measureOne (l : Pipeline) (demo : Demo) (size : Resolution) (iterations : Nat) :
    ExceptT Failure m (Measurement × Pipeline) := do
  let d := demo.build size.width size.height
  let (compile, a, l) ← sys.compile l d.graph
  let (recompile, _, l) ← sys.compile l d.graph
  let (bound, _) ← d.fill (← ParitySuite.lift a.program.allocate) (.ofSeed ParitySuite.defaultSeed)
  let bound ← ParitySuite.runTimes 1 a bound
  let times ← sys.calls a iterations bound []
  let mean := times.foldl (· + ·) 0 / Float.ofNat iterations
  let least := times.foldl (fun x y => if y < x then y else x) (times.headD 0)
  let seconds := mean / 1000.0
  let pixels := Float.ofNat size.width.toNat * Float.ofNat size.height.toNat
  return ({
    demo := demo
    size := size
    nodes := a.optimized.stages.length
    fusions := a.report.fusions.length
    compile := compile
    recompile := recompile
    minCall := least
    meanCall := mean
    throughput := pixels / (if seconds < Measurement.instant then Measurement.instant else seconds) / 1000000.0 }, l)

def measurementLine (r : Measurement) : String :=
  s!"{Measurement.padded 10 r.demo.name} {r.size.text} nodes={r.nodes} fusions={r.fusions} " ++
    s!"compile_ms={sys.measured 1 false r.compile} recompile_ms={sys.measured 3 false r.recompile} " ++
    s!"call_ms={sys.measured 3 false r.meanCall} (min {sys.measured 3 false r.minCall}) " ++
    s!"{sys.measured 1 false r.throughput} MP/s"

/-- Runs the benchmark. -/
def measure (i : Benchmark) : ExceptT Failure m Unit := do
  let l ← sys.pipeline (← sys.configuration i.config)
  let demos := i.demo.elim Demo.all fun d => [d]
  if i.sizes.isEmpty then
    throw .noSizes
  let tasks := demos.flatMap fun d => i.sizes.map fun size => (d, size)
  let (records, _) ← tasks.foldlM (fun (records, l) (d, size) => do
    let (r, l) ← sys.measureOne l d size (max i.iterations 1)
    sys.line (sys.measurementLine r)
    return (records ++ [r], l)) (([] : List Measurement), l)
  match i.output with
  | some path => sys.save path (ofList Measurement.toJson records).pretty
  | none => return

end System

end VisionGraph
