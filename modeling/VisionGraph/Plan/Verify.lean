import VisionGraph.Kernel.Registry
import VisionGraph.Plan.Basic
/-!
Verification turns a graph into a plan: kernels are looked up, nodes are put in execution order,
bindings are checked, and metadata is inferred along that order.
-/

namespace VisionGraph

/-- A node with its kernel. -/
structure Checked where
  node : Node
  kernel : Kernel

namespace Checked

def directions (c : Checked) : List Direction := c.kernel.signature.directions

/-- What the node reads and writes, each object once. -/
def access (c : Checked) : Access :=
  let bound (keep : Direction → Bool) :=
    ((c.node.params.zip c.directions).filterMap fun (param, direction) =>
      if keep direction then param else none).eraseDups
  ⟨bound Direction.reads, bound Direction.writes⟩

end Checked

namespace Graph

/-- The kernel of a node, if the node has the right number of parameters and names known objects. -/
def lookUp (r : Registry) (g : Graph) (n : Node) : Except Error Checked :=
  match r.find? n.kernel with
  | none => .error (.unknownKernel n.id n.kernel)
  | some kernel =>
    let expected := kernel.signature.params.length
    if n.params.length ≠ expected then
      .error (.parameter n.id (min n.params.length expected) (.arity kernel.name expected n.params.length))
    else
      let unknown := n.params.zipIdx.findSome? fun (param, slot) =>
        param.bind fun o => if (g.object? o).isNone then some (slot, o) else none
      match unknown with
      | some (slot, o) => .error (.parameter n.id slot (.unknownObject o))
      | none => .ok ⟨n, kernel⟩

/-- Checks one bound parameter of the node at a position. -/
def checkBound (g : Graph) (accesses : List Access) (position : Nat) (n : Node) (slot : Nat) (spec : Param)
    (o : ObjectId) : Except Error Unit := do
  let refuse (fault : ParameterFault) : Except Error Unit := .error (.parameter n.id slot fault)
  match g.object? o with
  | none => refuse (.unknownObject o)
  | some object =>
    let writers := Access.producers accesses o
    if object.kind ≠ spec.kind then
      refuse (.wrongKind spec.kind object.kind o)
    else if spec.direction.writes && object.isConstant then
      refuse (.constantWritten o)
    else if spec.direction == .bidirectional && object.isVirtual then
      refuse (.virtualBidirectional spec.name)
    else if spec.direction.writes && writers.head?.getD position != position then
      refuse (.secondWriter o)
    else if spec.direction == .input && object.isVirtual && !object.isConstant && writers.isEmpty then
      refuse (.neverWritten o)
    else .ok ()

/-- Checks the parameters of the node at a position in turn. -/
def checkNodeBindings (g : Graph) (accesses : List Access) (position : Nat) (c : Checked) : Except Error Unit :=
  ((c.kernel.signature.params.zip c.node.params).zipIdx).forM fun ((spec, param), slot) =>
    match param with
    | some o => g.checkBound accesses position c.node slot spec o
    | none =>
      if spec.optional then .ok ()
      else .error (.parameter c.node.id slot (.required spec.name))

/-- Merges one inference of a node into what is known. -/
def absorb (g : Graph) (c : Checked) (known : Array Meta) (inference : Inference) : Except Error (Array Meta) :=
  if !((c.directions[inference.slot]?).any Direction.writes) then
    .error (.template c.node.id (.inferredInput c.node.kernel inference.slot))
  else
    match (c.node.params[inference.slot]?).getD none with
    | none => .ok known
    | some o =>
      match g.object? o, known[o.index]? with
      | some object, some current =>
        let merged := current.merge inference.info
        match merged.outcome with
        | .ok _ => .ok (known.setIfInBounds o.index merged.after)
        | .error conflict =>
          if object.isVirtual then .error (.conflict o c.node.id conflict)
          else .error (.parameter c.node.id inference.slot (.declared conflict o))
      | _, _ => .error (.parameter c.node.id inference.slot (.unknownObject o))

/-- Runs the rule of a node on what is known and merges what it infers. -/
def infer (g : Graph) (known : Array Meta) (c : Checked) : Except Error (Array Meta) :=
  match c.kernel.rule (c.node.params.map fun param => param.bind fun o => known[o.index]?) with
  | .error r => .error (.parameter c.node.id r.slot (.rejected r.cause))
  | .ok inferences => inferences.foldlM (g.absorb c) known

/-- The first object of a node whose metadata is still incomplete. -/
def firstUnresolved (known : Array Meta) (n : Node) : Option ObjectId :=
  n.bound.find? fun o => !((known[o.index]?).any Meta.isResolved)

def step (c : Checked) : Step := ⟨c.node.id, c.node.kernel, c.node.params, c.directions, c.node.border⟩

/-- Objects with what is known of them; a virtual object that no node uses and that is not resolved is
left out. -/
def resolvedObjects (g : Graph) (known : Array Meta) : IdMap Resolved :=
  let referenced := g.nodes.flatMap Node.bound
  .ofList ((g.objects.toList.zip known.toList).filterMap fun (object, info) =>
    if object.isVirtual && !info.isResolved && !referenced.contains object.id then none
    else some (object.id, ⟨object, info⟩))

/-- Checks a graph against a registry and puts it in execution order. -/
def verify (r : Registry) (g : Graph) : Except Error Plan := do
  let checked ← g.nodes.mapM (g.lookUp r)
  let accesses := checked.map Checked.access
  match Access.order accesses with
  | .error stuck => throw (.cyclic (stuck.filterMap fun i => (checked[i]?).map (·.node.id)))
  | .ok order =>
    let scheduled := order.filterMap fun i => (checked[i]?).map fun c => (i, c)
    scheduled.forM fun (i, c) => g.checkNodeBindings accesses i c
    let known ← (scheduled.map (·.2)).foldlM g.infer (g.objects.map (·.info))
    scheduled.forM fun (_, c) =>
      match firstUnresolved known c.node with
      | some o => .error (.unresolved o c.node.id)
      | none => .ok ()
    return {
      objects := g.resolvedObjects known
      stages := scheduled.map fun (_, c) => .single (step c) c.kernel.isPixelwise }

end Graph

end VisionGraph
