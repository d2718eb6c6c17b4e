import VisionGraph.Data.Object
import VisionGraph.Json.Decode
/-!
Data objects and their metadata as JSON.
-/

namespace VisionGraph

open Json

namespace Scalar

def toJson (v : Scalar) : Json :=
  tagged v.type.label <|
    match v with
    | .u8 v => ofNat v.toNat
    | .u16 v => ofNat v.toNat
    | .s16 v => ofInt v.toInt
    | .u32 v | .enum v => ofNat v.toNat
    | .s32 v => ofInt v.toInt
    | .f32 v => ofSingle v
    | .bool v => .bool v

/-- A value of a type. -/
def ofTyped? (t : ScalarType) (j : Json) : Option Scalar :=
  match t with
  | .u8 => (j.nat? UInt8.size).map fun n => .u8 (UInt8.ofNat n)
  | .u16 => (j.nat? UInt16.size).map fun n => .u16 (UInt16.ofNat n)
  | .s16 => (j.int? Int16.minValue.toInt Int16.maxValue.toInt).map fun n => .s16 (Int16.ofInt n)
  | .u32 => j.word?.map .u32
  | .s32 => (j.int? Int32.minValue.toInt Int32.maxValue.toInt).map fun n => .s32 (Int32.ofInt n)
  | .f32 => j.single?.map .f32
  | .bool => j.bool?.map .bool
  | .enum => j.word?.map .enum

def ofJson? (j : Json) : Option Scalar :=
  match j.variant? with
  | some (name, some content) => (ScalarType.ofLabel? name).bind (ofTyped? · content)
  | _ => none

end Scalar

def Format.ofJson? (j : Json) : Option Format := j.bareVariant?.bind Format.ofLabel?

def ScalarType.ofJson? (j : Json) : Option ScalarType := j.bareVariant?.bind ScalarType.ofLabel?

def ItemType.ofJson? (j : Json) : Option ItemType := j.bareVariant?.bind ItemType.ofLabel?

def Kind.ofJson? (j : Json) : Option Kind := j.bareVariant?.bind Kind.ofLabel?

def wordJson (w : UInt32) : Json := ofNat w.toNat

def formatJson (f : Format) : Json := ofText f.label

namespace ImageMeta

def toJson (m : ImageMeta) : Json :=
  record [("width", ofOption wordJson m.width), ("height", ofOption wordJson m.height),
    ("format", ofOption formatJson m.format)]

def ofJson? (j : Json) : Option ImageMeta := do
  let fs ← j.fields? ["width", "height", "format"]
  return {
    width := ← fs.optional "width" word?
    height := ← fs.optional "height" word?
    format := ← fs.optional "format" Format.ofJson? }

end ImageMeta

namespace ArrayMeta

def toJson (m : ArrayMeta) : Json :=
  record [("item_type", ofOption (fun t => ofText t.label) m.itemType), ("capacity", ofOption wordJson m.capacity)]

def ofJson? (j : Json) : Option ArrayMeta := do
  let fs ← j.fields? ["item_type", "capacity"]
  return {
    itemType := ← fs.optional "item_type" ItemType.ofJson?
    capacity := ← fs.optional "capacity" word? }

end ArrayMeta

namespace ScalarMeta

def toJson (m : ScalarMeta) : Json :=
  record [("scalar_type", ofOption (fun t => ofText t.label) m.type), ("value", ofOption Scalar.toJson m.value)]

def ofJson? (j : Json) : Option ScalarMeta := do
  let fs ← j.fields? ["scalar_type", "value"]
  return {
    type := ← fs.optional "scalar_type" ScalarType.ofJson?
    value := ← fs.optional "value" Scalar.ofJson? }

end ScalarMeta

namespace PyramidMeta

def toJson (m : PyramidMeta) : Json :=
  record [("levels", ofOption wordJson m.levels), ("width", ofOption wordJson m.width),
    ("height", ofOption wordJson m.height), ("format", ofOption formatJson m.format)]

def ofJson? (j : Json) : Option PyramidMeta := do
  let fs ← j.fields? ["levels", "width", "height", "format"]
  return {
    levels := ← fs.optional "levels" word?
    width := ← fs.optional "width" word?
    height := ← fs.optional "height" word?
    format := ← fs.optional "format" Format.ofJson? }

end PyramidMeta

namespace DelayMeta

def toJson (m : DelayMeta) : Json :=
  record [("slots", wordJson m.slots), ("template", m.template.toJson)]

def ofJson? (j : Json) : Option DelayMeta := do
  let fs ← j.fields? ["slots", "template"]
  return {
    slots := ← fs.required "slots" word?
    template := ← fs.required "template" ImageMeta.ofJson? }

end DelayMeta

namespace Meta

def toJson (m : Meta) : Json :=
  tagged m.kind.label <|
    match m with
    | .image m => m.toJson
    | .array m => m.toJson
    | .scalar m => m.toJson
    | .pyramid m => m.toJson
    | .delay m => m.toJson

/-- Metadata of a kind. -/
def ofKind? (k : Kind) (j : Json) : Option Meta :=
  match k with
  | .image => (ImageMeta.ofJson? j).map .image
  | .array => (ArrayMeta.ofJson? j).map .array
  | .scalar => (ScalarMeta.ofJson? j).map .scalar
  | .pyramid => (PyramidMeta.ofJson? j).map .pyramid
  | .delay => (DelayMeta.ofJson? j).map .delay

def ofJson? (j : Json) : Option Meta :=
  match j.variant? with
  | some (name, some content) => (Kind.ofLabel? name).bind (ofKind? · content)
  | _ => none

end Meta

namespace ObjectId

def toJson (o : ObjectId) : Json := ofNat o.index

def ofJson? (j : Json) : Option ObjectId := (j.nat? UInt32.size).map (⟨·⟩)

end ObjectId

namespace NodeId

def toJson (n : NodeId) : Json := ofNat n.index

def ofJson? (j : Json) : Option NodeId := (j.nat? UInt32.size).map (⟨·⟩)

end NodeId

namespace DelaySlot

def toJson (s : DelaySlot) : Json := record [("delay", s.delay.toJson), ("age", wordJson s.age)]

def ofJson? (j : Json) : Option DelaySlot := do
  let fs ← j.fields? ["delay", "age"]
  return {
    delay := ← fs.required "delay" ObjectId.ofJson?
    age := ← fs.required "age" word? }

end DelaySlot

namespace DataObject

def toJson (o : DataObject) : Json :=
  record [("id", o.id.toJson), ("meta", o.info.toJson), ("is_virtual", .bool o.isVirtual),
    ("marked_output", .bool o.markedOutput), ("delay_slot", ofOption DelaySlot.toJson o.slot)]

def ofJson? (j : Json) : Option DataObject := do
  let fs ← j.fields? ["id", "meta", "is_virtual", "marked_output", "delay_slot"]
  return {
    id := ← fs.required "id" ObjectId.ofJson?
    info := ← fs.required "meta" Meta.ofJson?
    isVirtual := ← fs.required "is_virtual" bool?
    markedOutput := ← fs.required "marked_output" bool?
    slot := ← fs.optional "delay_slot" DelaySlot.ofJson? }

end DataObject

end VisionGraph
