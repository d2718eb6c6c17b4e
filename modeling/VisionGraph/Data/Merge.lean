import VisionGraph.Data.Meta
/-!
Merging of metadata. Gaps are filled from the newcomer, fields known on both sides have to agree, and the
first field that does not is reported. Fields before it stay filled.
-/

namespace VisionGraph

/-- The fields of metadata, in the words of messages. -/
inductive MetaField where
  | kind | width | height | format | itemType | capacity | scalarType | value | levels
deriving DecidableEq, Repr

def MetaField.name : MetaField → String
  | .kind => "kind"
  | .width => "width"
  | .height => "height"
  | .format => "format"
  | .itemType => "item type"
  | .capacity => "capacity"
  | .scalarType => "scalar type"
  | .value => "value"
  | .levels => "levels"

/-- A field that is already known with another value. -/
structure Conflict where
  field : MetaField
  existing : String
  inferred : String
deriving DecidableEq, Repr

/-- The metadata after a merge, and whether anything was filled in. -/
structure Merged (α : Type) where
  after : α
  outcome : Except Conflict Bool

namespace Merged

def map {α β : Type} (f : α → β) (m : Merged α) : Merged β := ⟨f m.after, m.outcome⟩

end Merged

/-- The known value, or the newcomer's. -/
def fill {α : Type} (current next : Option α) : Option α :=
  match current with
  | some a => some a
  | none => next

/-- Whether filling changes the field. -/
def fills {α : Type} (current next : Option α) : Bool := current.isNone && next.isSome

/-- The conflict of two known values that disagree. -/
def clash {α : Type} (agree : α → α → Bool) (field : MetaField) (text : α → String)
    (current next : Option α) : Option Conflict :=
  match current, next with
  | some a, some b => if agree a b then none else some ⟨field, text a, text b⟩
  | _, _ => none

namespace ImageMeta

def merge (m next : ImageMeta) : Merged ImageMeta :=
  let wide := { m with width := fill m.width next.width }
  let sized := { wide with height := fill m.height next.height }
  let full := { sized with format := fill m.format next.format }
  match clash (· == ·) .width inspectWord m.width next.width with
  | some c => ⟨m, .error c⟩
  | none => match clash (· == ·) .height inspectWord m.height next.height with
    | some c => ⟨wide, .error c⟩
    | none => match clash (· == ·) .format Format.label m.format next.format with
      | some c => ⟨sized, .error c⟩
      | none => ⟨full, .ok (fills m.width next.width || fills m.height next.height ||
          fills m.format next.format)⟩

end ImageMeta

namespace ArrayMeta

def merge (m next : ArrayMeta) : Merged ArrayMeta :=
  let typed := { m with itemType := fill m.itemType next.itemType }
  let full := { typed with capacity := fill m.capacity next.capacity }
  match clash (· == ·) .itemType ItemType.label m.itemType next.itemType with
  | some c => ⟨m, .error c⟩
  | none => match clash (· == ·) .capacity inspectWord m.capacity next.capacity with
    | some c => ⟨typed, .error c⟩
    | none => ⟨full, .ok (fills m.itemType next.itemType || fills m.capacity next.capacity)⟩

end ArrayMeta

namespace ScalarMeta

def merge (m next : ScalarMeta) : Merged ScalarMeta :=
  let typed := { m with type := fill m.type next.type }
  let full := { typed with value := fill m.value next.value }
  match clash (· == ·) .scalarType ScalarType.label m.type next.type with
  | some c => ⟨m, .error c⟩
  | none => match clash Scalar.sameValue .value Scalar.inspect m.value next.value with
    | some c => ⟨typed, .error c⟩
    | none => ⟨full, .ok (fills m.type next.type || fills m.value next.value)⟩

end ScalarMeta

namespace PyramidMeta

def merge (m next : PyramidMeta) : Merged PyramidMeta :=
  let levelled := { m with levels := fill m.levels next.levels }
  let wide := { levelled with width := fill m.width next.width }
  let sized := { wide with height := fill m.height next.height }
  let full := { sized with format := fill m.format next.format }
  match clash (· == ·) .levels inspectWord m.levels next.levels with
  | some c => ⟨m, .error c⟩
  | none => match clash (· == ·) .width inspectWord m.width next.width with
    | some c => ⟨levelled, .error c⟩
    | none => match clash (· == ·) .height inspectWord m.height next.height with
      | some c => ⟨wide, .error c⟩
      | none => match clash (· == ·) .format Format.label m.format next.format with
        | some c => ⟨sized, .error c⟩
        | none => ⟨full, .ok (fills m.levels next.levels || fills m.width next.width ||
            fills m.height next.height || fills m.format next.format)⟩

end PyramidMeta

namespace Meta

/-- Fills the gaps of `m` from `next`. Objects of different kinds, and different delays, conflict as a whole. -/
def merge (m next : Meta) : Merged Meta :=
  match m, next with
  | .image a, .image b => (a.merge b).map .image
  | .array a, .array b => (a.merge b).map .array
  | .scalar a, .scalar b => (a.merge b).map .scalar
  | .pyramid a, .pyramid b => (a.merge b).map .pyramid
  | .delay a, .delay b =>
    if a = b then ⟨.delay a, .ok false⟩
    else ⟨.delay a, .error ⟨.kind, (Meta.delay a).inspect, (Meta.delay b).inspect⟩⟩
  | a, b => ⟨a, .error ⟨.kind, a.inspect, b.inspect⟩⟩

end Meta

end VisionGraph
