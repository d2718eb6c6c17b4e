import VisionGraph.Data.Scalar
/-!
Metadata of data objects. A field that is not known yet is `none`, and a known field never changes:
`Meta.merge` only fills the gaps.
-/

namespace VisionGraph

structure ImageMeta where
  width : Option UInt32
  height : Option UInt32
  format : Option Format
deriving DecidableEq, Repr, Inhabited

structure ArrayMeta where
  itemType : Option ItemType
  capacity : Option UInt32
deriving DecidableEq, Repr, Inhabited

/-- A scalar with a value is a constant of the graph. -/
structure ScalarMeta where
  type : Option ScalarType
  value : Option Scalar
deriving DecidableEq, Repr, Inhabited

/-- A pyramid of images, each level half the size of the one before. -/
structure PyramidMeta where
  levels : Option UInt32
  width : Option UInt32
  height : Option UInt32
  format : Option Format
deriving DecidableEq, Repr, Inhabited

/-- A ring of images of one shape. -/
structure DelayMeta where
  slots : UInt32
  template : ImageMeta
deriving DecidableEq, Repr, Inhabited

inductive Meta where
  | image (m : ImageMeta)
  | array (m : ArrayMeta)
  | scalar (m : ScalarMeta)
  | pyramid (m : PyramidMeta)
  | delay (m : DelayMeta)
deriving DecidableEq, Repr, Inhabited

namespace ImageMeta

def known (width height : UInt32) (format : Format) : ImageMeta :=
  ⟨some width, some height, some format⟩

def isResolved (m : ImageMeta) : Bool :=
  m.width.isSome && m.height.isSome && m.format.isSome

def dims (m : ImageMeta) : Option (UInt32 × UInt32) := do
  return (← m.width, ← m.height)

/-- Number of pixels, whatever the number of channels. -/
def pixelCount (m : ImageMeta) : Option Nat := do
  let (w, h) ← m.dims
  return w.toNat * h.toNat

def byteSize (m : ImageMeta) : Option Nat := do
  return (← m.pixelCount) * (← m.format).pixelSize

end ImageMeta

namespace ArrayMeta

def known (itemType : ItemType) (capacity : UInt32) : ArrayMeta := ⟨some itemType, some capacity⟩

def isResolved (m : ArrayMeta) : Bool := m.itemType.isSome && m.capacity.isSome

end ArrayMeta

namespace ScalarMeta

def typed (t : ScalarType) : ScalarMeta := ⟨some t, none⟩

def constant (v : Scalar) : ScalarMeta := ⟨some v.type, some v⟩

def isResolved (m : ScalarMeta) : Bool := m.type.isSome

end ScalarMeta

namespace PyramidMeta

def known (levels width height : UInt32) (format : Format) : PyramidMeta :=
  ⟨some levels, some width, some height, some format⟩

def isResolved (m : PyramidMeta) : Bool :=
  m.levels.isSome && m.width.isSome && m.height.isSome && m.format.isSome

/-- Half of an extent taken `level` times, rounded up and never below one. Levels past 31 shrink no further. -/
def shrink (extent level : UInt32) : UInt32 :=
  let scale := Nat.pow 2 (min level.toNat 31)
  UInt32.ofNat (max ((extent.toNat + scale - 1) / scale) 1)

def levelDims (m : PyramidMeta) (level : UInt32) : Option (UInt32 × UInt32) := do
  return (shrink (← m.width) level, shrink (← m.height) level)

def levelMeta (m : PyramidMeta) (level : UInt32) : Option ImageMeta := do
  let (w, h) ← m.levelDims level
  return .known w h (← m.format)

end PyramidMeta

namespace Meta

def kind : Meta → Kind
  | .image _ => .image
  | .array _ => .array
  | .scalar _ => .scalar
  | .pyramid _ => .pyramid
  | .delay _ => .delay

/-- Whether every field that storage needs is known. -/
def isResolved : Meta → Bool
  | .image m => m.isResolved
  | .array m => m.isResolved
  | .scalar m => m.isResolved
  | .pyramid m => m.isResolved
  | .delay m => m.template.isResolved

def image? : Meta → Option ImageMeta
  | .image m => some m
  | _ => none

def array? : Meta → Option ArrayMeta
  | .array m => some m
  | _ => none

def scalar? : Meta → Option ScalarMeta
  | .scalar m => some m
  | _ => none

def pyramid? : Meta → Option PyramidMeta
  | .pyramid m => some m
  | _ => none

def delay? : Meta → Option DelayMeta
  | .delay m => some m
  | _ => none

end Meta

/-! ### Spelling in messages -/

/-- An optional field as messages spell it. -/
def inspectOption {α : Type} (text : α → String) : Option α → String
  | none => "None"
  | some a => s!"Some({text a})"

def inspectWord (n : UInt32) : String := toString n.toNat

/-- A record as messages spell it. -/
def inspectRecord (name : String) (fields : List (String × String)) : String :=
  let body := String.intercalate ", " (fields.map fun (field, text) => field ++ ": " ++ text)
  name ++ " \x7b " ++ body ++ " \x7d"

def ImageMeta.inspect (m : ImageMeta) : String :=
  inspectRecord "ImageMeta" [
    ("width", inspectOption inspectWord m.width),
    ("height", inspectOption inspectWord m.height),
    ("format", inspectOption Format.label m.format)]

def ArrayMeta.inspect (m : ArrayMeta) : String :=
  inspectRecord "ArrayMeta" [
    ("item_type", inspectOption ItemType.label m.itemType),
    ("capacity", inspectOption inspectWord m.capacity)]

def ScalarMeta.inspect (m : ScalarMeta) : String :=
  inspectRecord "ScalarMeta" [
    ("scalar_type", inspectOption ScalarType.label m.type),
    ("value", inspectOption Scalar.inspect m.value)]

def PyramidMeta.inspect (m : PyramidMeta) : String :=
  inspectRecord "PyramidMeta" [
    ("levels", inspectOption inspectWord m.levels),
    ("width", inspectOption inspectWord m.width),
    ("height", inspectOption inspectWord m.height),
    ("format", inspectOption Format.label m.format)]

def DelayMeta.inspect (m : DelayMeta) : String :=
  inspectRecord "DelayMeta" [
    ("slots", inspectWord m.slots),
    ("template", m.template.inspect)]

def Meta.inspect : Meta → String
  | .image m => s!"Image({m.inspect})"
  | .array m => s!"Array({m.inspect})"
  | .scalar m => s!"Scalar({m.inspect})"
  | .pyramid m => s!"Pyramid({m.inspect})"
  | .delay m => s!"Delay({m.inspect})"

end VisionGraph
