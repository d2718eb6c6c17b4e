import VisionGraph.Buffer.Image
import VisionGraph.Buffer.Items
import VisionGraph.Data.IdMap
/-!
Host storage of every kind of data object, and whether it fits the metadata of an object.
-/

namespace VisionGraph

/-- The levels of a pyramid, each an image of its own. -/
structure PyramidBuffer where
  info : PyramidMeta
  levels : Array ImageBuffer
deriving DecidableEq

namespace PyramidBuffer

def zero (levels width height : UInt32) (format : Format) : PyramidBuffer where
  info := .known levels width height format
  levels := (Array.range levels.toNat).map fun k =>
    ImageBuffer.zero (PyramidMeta.shrink width (UInt32.ofNat k)) (PyramidMeta.shrink height (UInt32.ofNat k)) format

def ofMeta (m : PyramidMeta) : Except BufferFault PyramidBuffer :=
  match m.levels, m.width, m.height, m.format with
  | some n, some w, some h, some f => .ok (zero n w h f)
  | _, _, _, _ => .error (.unresolved .pyramid)

def level? (p : PyramidBuffer) (k : Nat) : Option ImageBuffer := p.levels[k]?

def setLevel (p : PyramidBuffer) (k : Nat) (b : ImageBuffer) : PyramidBuffer :=
  { p with levels := p.levels.setIfInBounds k b }

end PyramidBuffer

/-- A ring of images. The image of age `k` stands `k` places after the head. -/
structure DelayBuffer where
  template : ImageMeta
  ring : Array ImageBuffer
  head : Nat
  head_lt : head < ring.size
deriving DecidableEq

namespace DelayBuffer

def make (slots : UInt32) (template : ImageMeta) : Except BufferFault DelayBuffer := do
  if h : 0 < slots.toNat then
    let slot ← ImageBuffer.ofMeta template
    return { template := template, ring := Array.replicate slots.toNat slot, head := 0, head_lt := by simpa using h }
  else throw .noSlots

def ofMeta (m : DelayMeta) : Except BufferFault DelayBuffer := make m.slots m.template

def size (d : DelayBuffer) : Nat := d.ring.size

def info (d : DelayBuffer) : DelayMeta := ⟨UInt32.ofNat d.size, d.template⟩

/-- Where the image of an age stands in the ring. -/
def index (d : DelayBuffer) (age : Nat) : Nat := (d.head + age) % d.ring.size

def slot? (d : DelayBuffer) (age : Nat) : Option ImageBuffer :=
  if age < d.ring.size then d.ring[d.index age]? else none

def setSlot (d : DelayBuffer) (age : Nat) (b : ImageBuffer) : DelayBuffer :=
  if age < d.ring.size then
    { d with
      ring := d.ring.setIfInBounds (d.index age) b
      head_lt := by rw [Array.size_setIfInBounds]; exact d.head_lt }
  else d

/-- Makes every image one age older; the oldest becomes the newest. -/
def advance (d : DelayBuffer) : DelayBuffer :=
  { d with
    head := (d.head + d.ring.size - 1) % d.ring.size
    head_lt := Nat.mod_lt _ (Nat.zero_lt_of_lt d.head_lt) }

/-- The images from the newest to the oldest. -/
def slots (d : DelayBuffer) : List ImageBuffer := (List.range d.size).filterMap d.slot?

end DelayBuffer

/-- Host storage of one data object. -/
inductive Host where
  | image (b : ImageBuffer)
  | scalar (v : Scalar)
  | array (a : ArrayBuffer)
  | pyramid (p : PyramidBuffer)
  | delay (d : DelayBuffer)
deriving DecidableEq

/-- Reasons for which host storage cannot stand for an object. -/
inductive BindingFault where
  | missing (expected : Kind)
  | image (bound expected : ImageMeta)
  | scalar (bound : ScalarType) (expected : Option ScalarType)
  | array (itemType : ItemType) (capacity : Nat) (expected : ArrayMeta)
  | pyramid (bound expected : PyramidMeta)
  | delay (slots : Nat) (template : ImageMeta) (expected : DelayMeta)
  | kind (expected bound : Kind)
deriving DecidableEq, Repr

def ImageMeta.text (m : ImageMeta) : String :=
  match m.width, m.height, m.format with
  | some w, some h, some f => s!"{w.toNat}x{h.toNat} {f.name}"
  | _, _, _ => m.inspect

def BindingFault.message : BindingFault → String
  | .missing expected => s!"no {expected.name} bound"
  | .image bound expected => s!"image is {bound.text}, expected {expected.text}"
  | .scalar bound expected =>
    s!"scalar type {bound.name}, expected {inspectOption ScalarType.label expected}"
  | .array itemType capacity expected =>
    s!"{itemType.name} items with capacity {capacity}, expected " ++
      s!"{inspectOption ItemType.label expected.itemType} with capacity " ++
      inspectOption inspectWord expected.capacity
  | .pyramid bound expected => s!"pyramid {bound.inspect}, expected {expected.inspect}"
  | .delay slots template expected =>
    s!"{slots} slots of {template.text}, expected {expected.slots.toNat} slots of {expected.template.text}"
  | .kind expected bound => s!"expected {expected.name} object, bound {bound.name} object"

namespace Host

def kind : Host → Kind
  | .image _ => .image
  | .scalar _ => .scalar
  | .array _ => .array
  | .pyramid _ => .pyramid
  | .delay _ => .delay

/-- Fresh storage for an object; a scalar with a value holds it. -/
def ofMeta : Meta → Except BufferFault Host
  | .image m => (ImageBuffer.ofMeta m).map .image
  | .scalar m =>
    match m.type with
    | none => .error (.unresolved .scalar)
    | some t => .ok (.scalar (m.value.getD (Scalar.zero t)))
  | .array m => (ArrayBuffer.ofMeta m).map .array
  | .pyramid m => (PyramidBuffer.ofMeta m).map .pyramid
  | .delay m => (DelayBuffer.ofMeta m).map .delay

/-- Why the storage cannot stand for an object with the given metadata. -/
def mismatch : Host → Meta → Option BindingFault
  | .image b, .image m => if b.info = m then none else some (.image b.info m)
  | .scalar v, .scalar m => if some v.type = m.type then none else some (.scalar v.type m.type)
  | .array a, .array m => if a.info = m then none else some (.array a.itemType a.capacity m)
  | .pyramid p, .pyramid m => if p.info = m then none else some (.pyramid p.info m)
  | .delay d, .delay m => if d.info = m then none else some (.delay d.size d.template m)
  | h, m => some (.kind m.kind h.kind)

/-- Replaces the value of a scalar by one of its type. -/
def setScalar (held v : Scalar) : Except BufferFault Scalar :=
  if v.type = held.type then .ok v else .error (.scalarStore v.type held.type)

end Host

/-- Host storage of a run, by object. -/
abbrev Bindings := IdMap Host

namespace Bindings

def image? (b : Bindings) (o : ObjectId) : Option ImageBuffer :=
  match b.get? o with
  | some (.image x) => some x
  | _ => none

end Bindings

end VisionGraph
