import VisionGraph.Buffer.Host
import VisionGraph.Data.Merge
import VisionGraph.Kernel.Template
import VisionGraph.Plan.Placement
/-!
Errors of every stage, from the construction of a graph to its execution, as causes with one wording
each.
-/

namespace VisionGraph

/-- Why a parameter of a node is refused. -/
inductive ParameterFault where
  | rejected (cause : RejectionCause)
  | noSlot (count : Nat)
  | arity (kernel : String) (expected given : Nat)
  | unknownObject (object : ObjectId)
  | required (name : String)
  | wrongKind (expected found : Kind) (object : ObjectId)
  | constantWritten (object : ObjectId)
  | virtualBidirectional (name : String)
  | secondWriter (object : ObjectId)
  | neverWritten (object : ObjectId)
  | declared (conflict : Conflict) (object : ObjectId)
deriving DecidableEq, Repr

def ParameterFault.message : ParameterFault → String
  | .rejected cause => cause.message
  | .noSlot count => s!"node has {count} parameters"
  | .arity kernel expected given => s!"{kernel} takes {expected} parameters, {given} given"
  | .unknownObject object => s!"unknown {object.text}"
  | .required name => s!"required parameter `{name}` is not bound"
  | .wrongKind expected found object => s!"expected {expected.name}, got {found.name} ({object.text})"
  | .constantWritten object => s!"{object.text} is a constant and cannot be written"
  | .virtualBidirectional name => s!"bidirectional parameter `{name}` needs a non-virtual object"
  | .secondWriter object => s!"{object.text} is already written by another node"
  | .neverWritten object => s!"virtual {object.text} is read but never written"
  | .declared conflict object =>
    s!"declared {conflict.field.name} {conflict.existing} of {object.text} does not match {conflict.inferred}"

/-- Why a graph or a plan cannot do what is asked. -/
inductive StateFault where
  | noDelaySlots
  | openTemplate
  | notDelay (object : ObjectId)
  | noSuchAge (delay : ObjectId) (slots age : UInt32)
  | unknownObject (object : ObjectId)
  | unknownNode (node : NodeId)
  | constantOutput (object : ObjectId)
  | notVerified
  | notInPlan (object : ObjectId)
  | noStorage (object : ObjectId)
  | openObject (object : ObjectId)
  | cannotPlace (object : ObjectId) (kind : Kind) (placement : Placement)
  | slotWithoutEntry (object delay : ObjectId)
  | noMeta (object : ObjectId)
  | noFormat (object : ObjectId)
  | noScalarType (object : ObjectId)
  | noLevels (object : ObjectId)
  | delayInside (object : ObjectId)
  | openScratch (object : ObjectId)
  | entryNotInPlan (object : ObjectId)
deriving DecidableEq, Repr

def StateFault.message : StateFault → String
  | .noDelaySlots => "a delay needs at least one slot"
  | .openTemplate => "a delay template must fix width, height and format"
  | .notDelay object => s!"{object.text} is not a delay"
  | .noSuchAge delay slots age => s!"{delay.text} has {slots.toNat} slots, age {age.toNat} requested"
  | .unknownObject object => s!"unknown {object.text}"
  | .unknownNode node => s!"unknown {node.text}"
  | .constantOutput object => s!"{object.text} is a constant and cannot be a graph output"
  | .notVerified => "optimize requires a verified graph"
  | .notInPlan object => s!"{object.text} is not part of the verified graph"
  | .noStorage object => s!"{object.text} has no storage"
  | .openObject object => s!"{object.text} reached code generation unresolved"
  | .cannotPlace object kind placement => s!"{object.text} ({kind.name}) cannot be placed as {placement.inspect}"
  | .slotWithoutEntry object delay => s!"{object.text} belongs to {delay.text} which is not an entry"
  | .noMeta object => s!"{object.text} has no metadata"
  | .noFormat object => s!"{object.text} has no format"
  | .noScalarType object => s!"{object.text} has no scalar type"
  | .noLevels object => s!"{object.text} has no level count"
  | .delayInside object => s!"{object.text}: delays are never graph-local"
  | .openScratch object => s!"{object.text} is not fully resolved"
  | .entryNotInPlan object => s!"entry {object.text} is not in the verified graph"

/-- Why no library could be built. -/
inductive BuildFault where
  | refused (diagnostics : String)
  | spawn (compiler : String)
  | exited (compiler : String) (status : Nat) (diagnostics : String)
  | createDirectory (path : String)
  | install (path : String)
  | clearDirectory (path : String)
deriving DecidableEq, Repr

def BuildFault.message : BuildFault → String
  | .refused diagnostics => diagnostics
  | .spawn compiler => s!"failed to spawn {compiler}: No such file or directory (os error 2)"
  | .exited compiler status diagnostics =>
    s!"{compiler} exited with exit status: {status}" ++ (if diagnostics.isEmpty then "" else "\n" ++ diagnostics)
  | .createDirectory path => s!"failed to create {path}: File exists (os error 17)"
  | .install path => s!"failed to install {path}: No such file or directory (os error 2)"
  | .clearDirectory path => s!"failed to clear {path}: Not a directory (os error 20)"

/-- Why a library could not be loaded. -/
inductive LoadFault where
  | notFound (path : String)
  | tooShort (path : String)
  | badHeader (path : String)
  | missingSymbol (path : String) (symbol : String)
  | version (path : String) (found : Nat)
  | objectCount (path : Option String) (found expected : Nat)
deriving DecidableEq, Repr

def LoadFault.message : LoadFault → String
  | .notFound path => s!"{path}: {path}: cannot open shared object file: No such file or directory"
  | .tooShort path => s!"{path}: {path}: file too short"
  | .badHeader path => s!"{path}: {path}: invalid ELF header"
  | .missingSymbol path symbol => s!"{path}: missing {symbol}: {path}: undefined symbol: {symbol}"
  | .version path found => s!"{path}: ABI version {found}, expected 1"
  | .objectCount path found expected =>
    (match path with
      | some path => path ++ ": "
      | none => "") ++ s!"module expects {found} objects, graph has {expected}"

/-- What a status of the entry point means when no node failed. -/
inductive StatusFault where
  | handleCount
  | nullHandle
  | allocation
  | noSuchPosition (position count : Nat)
  | unknown
  | astray
deriving DecidableEq, Repr

def StatusFault.message : StatusFault → String
  | .handleCount => "entry point rejected the handle count"
  | .nullHandle => "entry point received a null handle"
  | .allocation => "graph-local allocation failed"
  | .noSuchPosition position count => s!"status names schedule position {position}, graph has {count}"
  | .unknown => "unknown status"
  | .astray => "access outside of host storage"

inductive Error where
  | parameter (node : NodeId) (slot : Nat) (fault : ParameterFault)
  | cyclic (nodes : List NodeId)
  | conflict (object : ObjectId) (node : NodeId) (conflict : Conflict)
  | unresolved (object : ObjectId) (node : NodeId)
  | unknownKernel (node : NodeId) (kernel : String)
  | template (node : NodeId) (fault : TemplateError)
  | build (fault : BuildFault)
  | load (fault : LoadFault)
  | binding (object : ObjectId) (fault : BindingFault)
  | nodeFailure (position : Nat) (nodes : List NodeId)
  | execution (status : Int) (fault : StatusFault)
  | buffer (fault : BufferFault)
  | state (fault : StateFault)
deriving DecidableEq, Repr

/-- The stage that an error belongs to. -/
inductive ErrorClass where
  | verification | build | other
deriving DecidableEq, Repr

namespace Error

def message : Error → String
  | .parameter node slot fault => s!"{node.text} parameter {slot}: {fault.message}"
  | .cyclic nodes => s!"graph contains a cycle; unschedulable nodes: {NodeId.inspectList nodes}"
  | .conflict object node c =>
    s!"conflicting {c.field.name} for {object.text} inferred by {node.text}: {c.existing} vs {c.inferred}"
  | .unresolved object node => s!"{object.text} used by {node.text} is still unresolved after verification"
  | .unknownKernel node kernel => s!"{node.text} references unknown kernel `{kernel}`"
  | .template node fault => s!"code template for {node.text} failed: {fault.message}"
  | .build fault => s!"native build failed:\n{fault.message}"
  | .load fault => s!"failed to load compiled graph: {fault.message}"
  | .binding object fault => s!"binding for {object.text} rejected: {fault.message}"
  | .nodeFailure position nodes =>
    s!"node at schedule position {position} failed (nodes {NodeId.inspectList nodes})"
  | .execution status fault => s!"native entry point returned status {status}: {fault.message}"
  | .buffer fault => s!"host buffer error: {fault.message}"
  | .state fault => s!"invalid graph state: {fault.message}"

/-- The stage: checking, building, or anything else. -/
def stage : Error → ErrorClass
  | .parameter .. | .cyclic .. | .conflict .. | .unresolved .. | .unknownKernel .. => .verification
  | .build .. | .load .. | .template .. => .build
  | _ => .other

end Error

end VisionGraph
