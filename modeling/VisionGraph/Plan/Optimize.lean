import VisionGraph.Plan.Passes
/-!
Optimisation: the enabled passes run over a plan until nothing changes or the limit is reached.
-/

namespace VisionGraph

/-- Which passes run, and how many sweeps there may be. -/
structure OptimizerConfig where
  prune : Bool
  fuse : Bool
  maxIterations : Nat
deriving DecidableEq, Repr

namespace OptimizerConfig

def standard : OptimizerConfig := ⟨true, true, 8⟩

/-- No passes at all. -/
def disabled : OptimizerConfig := ⟨false, false, 8⟩

def passes (c : OptimizerConfig) : List Pass :=
  (if c.prune then [.prune] else []) ++ (if c.fuse then [.fuse] else [])

end OptimizerConfig

instance : Inhabited OptimizerConfig := ⟨.standard⟩

/-- Two stages that became one. -/
structure Fusion where
  producer : List NodeId
  consumer : List NodeId
  intermediate : ObjectId
deriving DecidableEq, Repr

/-- What optimisation did to a plan. -/
structure Report where
  nodesBefore : Nat
  nodesAfter : Nat
  iterations : Nat
  removedNodes : List NodeId
  removedObjects : List ObjectId
  fusions : List Fusion
  failedPasses : List String
deriving DecidableEq, Repr, Inhabited

namespace Report

def start (nodes : Nat) : Report := ⟨nodes, nodes, 0, [], [], [], []⟩

def absorbEvent (r : Report) : Event → Report
  | .nodeRemoved n => { r with removedNodes := r.removedNodes ++ [n] }
  | .objectRemoved o => { r with removedObjects := r.removedObjects ++ [o] }
  | .fused producer consumer o => { r with fusions := r.fusions ++ [⟨producer, consumer, o⟩] }

def absorb (r : Report) (events : List Event) : Report := events.foldl absorbEvent r

def changed (r : Report) : Bool :=
  !r.removedNodes.isEmpty || !r.removedObjects.isEmpty || !r.fusions.isEmpty

end Report

namespace Plan

/-- Sweeps until a sweep changes nothing. -/
def improve (passes : List Pass) : (left : Nat) → Plan → Report → Plan × Report
  | 0, p, r => (p, r)
  | left + 1, p, r =>
    let (q, outcomes) := Pass.sweep passes p
    let events := outcomes.flatMap (·.2)
    let r := { r with iterations := r.iterations + 1 }
    if events.isEmpty then (p, r) else improve passes left q (r.absorb events)

/-- The improved plan and what was done. -/
def optimize (c : OptimizerConfig) (p : Plan) : Plan × Report :=
  let start := Report.start p.stages.length
  if c.passes.isEmpty then (p, start)
  else
    let (q, r) := improve c.passes c.maxIterations p start
    (q, { r with nodesAfter := q.stages.length })

end Plan

end VisionGraph
