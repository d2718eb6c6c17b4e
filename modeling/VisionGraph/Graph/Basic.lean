import VisionGraph.Error
/-!
Graphs under construction: data objects in the order of their creation and nodes in the order of their
insertion. An operation that fails leaves the graph as it was.
-/

namespace VisionGraph

/-- A kernel applied to objects. -/
structure Node where
  id : NodeId
  kernel : String
  params : List (Option ObjectId)
  border : Border
deriving DecidableEq, Repr, Inhabited

/-- The objects bound to parameters. -/
def Node.bound (n : Node) : List ObjectId := n.params.filterMap fun param => param

structure Graph where
  objects : Array DataObject
  nodes : List Node
  nextNode : Nat
deriving DecidableEq, Repr, Inhabited

namespace Graph

def empty : Graph := ⟨#[], [], 0⟩

def object? (g : Graph) (o : ObjectId) : Option DataObject := g.objects[o.index]?

def node? (g : Graph) (n : NodeId) : Option Node := g.nodes.find? (·.id == n)

/-- Adds an object; its number is its position. -/
def register (g : Graph) (info : Meta) (isVirtual : Bool) (slot : Option DelaySlot) : ObjectId × Graph :=
  let o : ObjectId := ⟨g.objects.size⟩
  (o, { g with objects := g.objects.push ⟨o, info, isVirtual, false, slot⟩ })

def createImage (g : Graph) (width height : UInt32) (format : Format) : ObjectId × Graph :=
  g.register (.image (.known width height format)) false none

/-- An image of the graph's own; what is not given is inferred. -/
def createVirtualImage (g : Graph) (info : ImageMeta) : ObjectId × Graph :=
  g.register (.image info) true none

def createArray (g : Graph) (itemType : ItemType) (capacity : UInt32) : ObjectId × Graph :=
  g.register (.array (.known itemType capacity)) false none

def createVirtualArray (g : Graph) (info : ArrayMeta) : ObjectId × Graph :=
  g.register (.array info) true none

/-- A scalar that the caller supplies or receives. -/
def createScalar (g : Graph) (type : ScalarType) : ObjectId × Graph :=
  g.register (.scalar (.typed type)) false none

def createVirtualScalar (g : Graph) (type : Option ScalarType) : ObjectId × Graph :=
  g.register (.scalar ⟨type, none⟩) true none

/-- A scalar with a value, which becomes part of the code. -/
def createConstant (g : Graph) (v : Scalar) : ObjectId × Graph :=
  g.register (.scalar (.constant v)) true none

def createPyramid (g : Graph) (levels width height : UInt32) (format : Format) : ObjectId × Graph :=
  g.register (.pyramid (.known levels width height format)) false none

/-- A pyramid of the graph's own, with a given number of levels. -/
def createVirtualPyramid (g : Graph) (levels : UInt32) (base : ImageMeta) : ObjectId × Graph :=
  g.register (.pyramid ⟨some levels, base.width, base.height, base.format⟩) true none

/-- Adds the images of a delay, from a given age on. -/
def registerSlots (delay : ObjectId) (template : ImageMeta) : (left age : Nat) → Graph → Graph
  | 0, _, g => g
  | left + 1, age, g =>
    registerSlots delay template left (age + 1)
      (g.register (.image template) false (some ⟨delay, UInt32.ofNat age⟩)).2

/-- A delay and, after it, one image for each age. -/
def createDelay (g : Graph) (slots : UInt32) (template : ImageMeta) : Except Error (ObjectId × Graph) :=
  if slots = 0 then .error (.state .noDelaySlots)
  else if !template.isResolved then .error (.state .openTemplate)
  else
    let (delay, g) := g.register (.delay ⟨slots, template⟩) false none
    .ok (delay, registerSlots delay template slots.toNat 0 g)

def checkObject (g : Graph) (o : ObjectId) : Except Error DataObject :=
  match g.object? o with
  | some object => .ok object
  | none => .error (.state (.unknownObject o))

/-- The image of a delay at an age. -/
def delaySlot (g : Graph) (delay : ObjectId) (age : UInt32) : Except Error ObjectId := do
  match (← g.checkObject delay).info.delay? with
  | none => .error (.state (.notDelay delay))
  | some m =>
    if age < m.slots then .ok ⟨delay.index + 1 + age.toNat⟩
    else .error (.state (.noSuchAge delay m.slots age))

/-- Adds a node; its parameters are checked when the graph is verified. -/
def addNode (g : Graph) (kernel : String) (params : List (Option ObjectId)) : NodeId × Graph :=
  let id : NodeId := ⟨g.nextNode⟩
  (id, { g with nodes := g.nodes ++ [⟨id, kernel, params, .replicate⟩], nextNode := g.nextNode + 1 })

/-- Changes the first node with a number. -/
def updateNode (id : NodeId) (change : Node → Node) : List Node → List Node
  | [] => []
  | n :: rest => if n.id = id then change n :: rest else n :: updateNode id change rest

def checkNode (g : Graph) (id : NodeId) : Except Error Node :=
  match g.node? id with
  | some n => .ok n
  | none => .error (.state (.unknownNode id))

def setBorder (g : Graph) (id : NodeId) (border : Border) : Except Error Graph := do
  let _ ← g.checkNode id
  return { g with nodes := updateNode id (fun n => { n with border := border }) g.nodes }

/-- Binds a parameter of a node to an object, or to none. -/
def bind (g : Graph) (id : NodeId) (slot : Nat) (object : Option ObjectId) : Except Error Graph := do
  match object with
  | some o =>
    let _ ← g.checkObject o
  | none => pure ()
  let n ← g.checkNode id
  if slot < n.params.length then
    return { g with nodes := updateNode id (fun n => { n with params := n.params.set slot object }) g.nodes }
  else throw (.parameter id slot (.noSlot n.params.length))

def removeNode (g : Graph) (id : NodeId) : Except Error (Node × Graph) := do
  let n ← g.checkNode id
  return (n, { g with nodes := g.nodes.eraseP (·.id == id) })

/-- Makes an object visible from outside. -/
def markOutput (g : Graph) (o : ObjectId) : Except Error Graph := do
  let object ← g.checkObject o
  if object.isConstant then
    throw (.state (.constantOutput o))
  return { g with objects := g.objects.modify o.index fun object => { object with markedOutput := true } }

end Graph

end VisionGraph
