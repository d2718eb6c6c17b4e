import VisionGraph.Data.IdMap
import VisionGraph.Graph.Access
import VisionGraph.Graph.Basic
/-!
Plans: checked graphs whose objects have resolved metadata and whose stages are in execution order.

A stage is a chain of steps. Chains of more than one step come from fusion and run inside one loop over
the samples; the images between their steps are internal to the stage.
-/

namespace VisionGraph

/-- An object with the metadata that verification found for it. -/
structure Resolved where
  object : DataObject
  info : Meta
deriving DecidableEq, Repr, Inhabited

/-- One kernel of a stage. -/
structure Step where
  origin : NodeId
  kernel : String
  params : List (Option ObjectId)
  directions : List Direction
  border : Border
deriving DecidableEq, Repr, Inhabited

namespace Step

/-- The objects bound to parameters of some directions. -/
def boundBy (keep : Direction → Bool) (s : Step) : List ObjectId :=
  (s.params.zip s.directions).filterMap fun (param, direction) => if keep direction then param else none

def reads (s : Step) : List ObjectId := s.boundBy Direction.reads

def writes (s : Step) : List ObjectId := s.boundBy Direction.writes

end Step

structure Stage where
  steps : List Step
  internal : List ObjectId
  pixelwise : Bool
deriving DecidableEq, Repr, Inhabited

namespace Stage

def single (step : Step) (pixelwise : Bool) : Stage := ⟨[step], [], pixelwise⟩

def origins (s : Stage) : List NodeId := s.steps.map (·.origin)

def kernels (s : Stage) : List String := s.steps.map (·.kernel)

/-- The first node of the stage. -/
def first (s : Stage) : NodeId := (s.steps.head?.map (·.origin)).getD ⟨0⟩

def isFused (s : Stage) : Bool := 1 < s.steps.length

/-- What the stage reads from outside, each object once. -/
def reads (s : Stage) : List ObjectId :=
  ((s.steps.flatMap Step.reads).filter (!s.internal.contains ·)).eraseDups

/-- What the stage writes to the outside, each object once. -/
def writes (s : Stage) : List ObjectId :=
  ((s.steps.flatMap Step.writes).filter (!s.internal.contains ·)).eraseDups

/-- Every object of any step, each once. -/
def referenced (s : Stage) : List ObjectId :=
  (s.steps.flatMap fun step => step.params.filterMap fun param => param).eraseDups

def access (s : Stage) : Access := ⟨s.reads, s.writes⟩

end Stage

structure Plan where
  objects : IdMap Resolved
  stages : List Stage
deriving DecidableEq, Repr, Inhabited

namespace Plan

def empty : Plan := ⟨.empty, []⟩

def object? (p : Plan) (o : ObjectId) : Option Resolved := p.objects.get? o

def info? (p : Plan) (o : ObjectId) : Option Meta := (p.objects.get? o).map (·.info)

def isExternal (p : Plan) (o : ObjectId) : Bool :=
  match p.objects.get? o with
  | some r => r.object.isExternal
  | none => false

/-- The objects that the caller binds, in the order of their numbers. -/
def entries (p : Plan) : List ObjectId :=
  (p.objects.values.filter (·.object.isEntry)).map (·.object.id)

def accesses (p : Plan) : List Access := p.stages.map Stage.access

end Plan

end VisionGraph
