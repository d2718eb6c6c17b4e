import VisionGraph.Data.Element
/-!
Kinds of data objects and the types of what they hold, with their names in reports, in data files
and in generated code.
-/

namespace VisionGraph

inductive Kind where
  | image | array | scalar | pyramid | delay
deriving DecidableEq, Repr, Inhabited

namespace Kind

def all : List Kind := [.image, .array, .scalar, .pyramid, .delay]

def name : Kind → String
  | .image => "image"
  | .array => "array"
  | .scalar => "scalar"
  | .pyramid => "pyramid"
  | .delay => "delay"

/-- The capitalised name used in data files. -/
def label : Kind → String
  | .image => "Image"
  | .array => "Array"
  | .scalar => "Scalar"
  | .pyramid => "Pyramid"
  | .delay => "Delay"

def ofLabel? (s : String) : Option Kind := all.find? (·.label == s)

end Kind

/-- Pixel formats; the colour formats have several byte channels a pixel. -/
inductive Format where
  | u8 | u16 | s16 | u32 | s32 | f32 | rgb | rgbx
deriving DecidableEq, Repr, Inhabited

namespace Format

def all : List Format := [.u8, .u16, .s16, .u32, .s32, .f32, .rgb, .rgbx]

def name : Format → String
  | .u8 => "u8"
  | .u16 => "u16"
  | .s16 => "s16"
  | .u32 => "u32"
  | .s32 => "s32"
  | .f32 => "f32"
  | .rgb => "rgb"
  | .rgbx => "rgbx"

def label : Format → String
  | .u8 => "U8"
  | .u16 => "U16"
  | .s16 => "S16"
  | .u32 => "U32"
  | .s32 => "S32"
  | .f32 => "F32"
  | .rgb => "Rgb"
  | .rgbx => "Rgbx"

def ofLabel? (s : String) : Option Format := all.find? (·.label == s)

def channels : Format → Nat
  | .rgb => 3
  | .rgbx => 4
  | _ => 1

def element : Format → Element
  | .u8 | .rgb | .rgbx => .u8
  | .u16 => .u16
  | .s16 => .s16
  | .u32 => .u32
  | .s32 => .s32
  | .f32 => .f32

/-- Bytes of one channel. -/
def elementSize (f : Format) : Nat := f.element.bytes

/-- Bytes of one pixel. -/
def pixelSize (f : Format) : Nat := f.channels * f.elementSize

def cType : Format → String
  | .u8 | .rgb | .rgbx => "uint8_t"
  | .u16 => "uint16_t"
  | .s16 => "int16_t"
  | .u32 => "uint32_t"
  | .s32 => "int32_t"
  | .f32 => "float"

def isSingleChannel (f : Format) : Bool := f.channels == 1

def isFloat (f : Format) : Bool := f == .f32

end Format

inductive ScalarType where
  | u8 | u16 | s16 | u32 | s32 | f32 | bool | enum
deriving DecidableEq, Repr, Inhabited

namespace ScalarType

def all : List ScalarType := [.u8, .u16, .s16, .u32, .s32, .f32, .bool, .enum]

def name : ScalarType → String
  | .u8 => "u8"
  | .u16 => "u16"
  | .s16 => "s16"
  | .u32 => "u32"
  | .s32 => "s32"
  | .f32 => "f32"
  | .bool => "bool"
  | .enum => "enum"

def label : ScalarType → String
  | .u8 => "U8"
  | .u16 => "U16"
  | .s16 => "S16"
  | .u32 => "U32"
  | .s32 => "S32"
  | .f32 => "F32"
  | .bool => "Bool"
  | .enum => "Enum"

def ofLabel? (s : String) : Option ScalarType := all.find? (·.label == s)

def element : ScalarType → Element
  | .u8 => .u8
  | .u16 => .u16
  | .s16 => .s16
  | .u32 | .enum => .u32
  | .s32 | .bool => .s32
  | .f32 => .f32

def cType : ScalarType → String
  | .u8 => "uint8_t"
  | .u16 => "uint16_t"
  | .s16 => "int16_t"
  | .u32 | .enum => "uint32_t"
  | .s32 | .bool => "int32_t"
  | .f32 => "float"

def size (t : ScalarType) : Nat := t.element.bytes

/-- The scalar type that holds one sample of a single-channel format. -/
def ofFormat? : Format → Option ScalarType
  | .u8 => some .u8
  | .u16 => some .u16
  | .s16 => some .s16
  | .u32 => some .u32
  | .s32 => some .s32
  | .f32 => some .f32
  | .rgb | .rgbx => none

end ScalarType

/-- Types of array items. -/
inductive ItemType where
  | u8 | u16 | s16 | u32 | s32 | f32 | coordinates2d
deriving DecidableEq, Repr, Inhabited

namespace ItemType

def all : List ItemType := [.u8, .u16, .s16, .u32, .s32, .f32, .coordinates2d]

def name : ItemType → String
  | .u8 => "u8"
  | .u16 => "u16"
  | .s16 => "s16"
  | .u32 => "u32"
  | .s32 => "s32"
  | .f32 => "f32"
  | .coordinates2d => "coordinates2d"

def label : ItemType → String
  | .u8 => "U8"
  | .u16 => "U16"
  | .s16 => "S16"
  | .u32 => "U32"
  | .s32 => "S32"
  | .f32 => "F32"
  | .coordinates2d => "Coordinates2d"

def ofLabel? (s : String) : Option ItemType := all.find? (·.label == s)

def element : ItemType → Element
  | .u8 => .u8
  | .u16 => .u16
  | .s16 => .s16
  | .u32 => .u32
  | .s32 => .s32
  | .f32 => .f32
  | .coordinates2d => .pair

def cType : ItemType → String
  | .u8 => "uint8_t"
  | .u16 => "uint16_t"
  | .s16 => "int16_t"
  | .u32 => "uint32_t"
  | .s32 => "int32_t"
  | .f32 => "float"
  | .coordinates2d => "vxf_coordinates2d_t"

def size (t : ItemType) : Nat := t.element.bytes

end ItemType

end VisionGraph
