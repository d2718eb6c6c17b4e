import VisionGraph.Data.Object
import VisionGraph.Kernel.Rule
import VisionGraph.Kernel.Signature
/-!
Templates of generated code. A template sees the operands of a node: their metadata, the expression that
names each one in the code, and the values of constants.
-/

namespace VisionGraph

/-- Reasons for which no code can be written for a node. -/
inductive TemplateError where
  | unbound (slot : Nat)
  | notImage (slot : Nat)
  | openImage (slot : Nat)
  | notScalar (slot : Nat)
  | notArray (slot : Nat)
  | notPyramid (slot : Nat)
  | notEnum (slot : Nat)
  | noLane (slot : Nat)
  | unknownPolicy (policy : UInt32)
  | colour (format : Format)
  | unknownChannel
  | emptyExtrema
  | openLevels
  | openBase
  | noBlock (kernel : String)
  | notPixelwise (kernel : String)
  | noExtent
  | openLane (object : ObjectId)
  | inferredInput (kernel : String) (slot : Nat)
deriving DecidableEq, Repr

def TemplateError.message : TemplateError → String
  | .unbound slot => s!"parameter {slot} is not bound"
  | .notImage slot => s!"parameter {slot} is not an image"
  | .openImage slot => s!"image parameter {slot} is unresolved"
  | .notScalar slot => s!"parameter {slot} is not a resolved scalar"
  | .notArray slot => s!"parameter {slot} is not an array"
  | .notPyramid slot => s!"parameter {slot} is not a pyramid"
  | .notEnum slot => s!"parameter {slot} is not a constant enum"
  | .noLane slot => s!"no lane for parameter {slot}"
  | .unknownPolicy policy => s!"unknown convert policy {hexText policy}"
  | .colour format => s!"unsupported colour conversion to {format.name}"
  | .unknownChannel => "unknown channel"
  | .emptyExtrema => "minmaxloc needs a non-empty image"
  | .openLevels => "pyramid level count is unresolved"
  | .openBase => "pyramid base is unresolved"
  | .noBlock kernel => s!"{kernel} has no block template"
  | .notPixelwise kernel => s!"{kernel} is not an element-wise kernel"
  | .noExtent => "element-wise node has no resolved image"
  | .openLane object => s!"fused intermediate {object.text} has no format"
  | .inferredInput kernel slot => s!"{kernel} inferred metadata for input slot {slot}"

/-- A bound parameter as a template sees it. -/
structure Operand where
  object : ObjectId
  info : Meta
  /-- A typed pointer for images, a value for scalars, a header for arrays, a table for pyramids. -/
  expr : String
  constant : Option Scalar
deriving DecidableEq, Repr

/-- The operands of a node and its border. -/
structure Site where
  border : Border
  operands : List (Option Operand)
deriving DecidableEq, Repr

/-- The expressions of one sample of each operand. -/
abbrev Lanes := List (Option String)

/-- Text of a template, or why there is none. -/
abbrev Emit (α : Type) := Except TemplateError α

namespace Site

def operand (s : Site) (slot : Nat) : Emit Operand :=
  match (s.operands[slot]?).getD none with
  | some o => .ok o
  | none => .error (.unbound slot)

def isBound (s : Site) (slot : Nat) : Bool := ((s.operands[slot]?).getD none).isSome

def expr (s : Site) (slot : Nat) : Emit String := do
  return (← s.operand slot).expr

def image (s : Site) (slot : Nat) : Emit ImageShape := do
  match (← s.operand slot).info.image? with
  | none => .error (.notImage slot)
  | some m => match m.shape? with
    | some shape => .ok shape
    | none => .error (.openImage slot)

def scalarType (s : Site) (slot : Nat) : Emit ScalarType := do
  match (← s.operand slot).info.scalar?.bind (·.type) with
  | some t => .ok t
  | none => .error (.notScalar slot)

def array (s : Site) (slot : Nat) : Emit ArrayMeta := do
  match (← s.operand slot).info.array? with
  | some m => .ok m
  | none => .error (.notArray slot)

def pyramid (s : Site) (slot : Nat) : Emit PyramidMeta := do
  match (← s.operand slot).info.pyramid? with
  | some m => .ok m
  | none => .error (.notPyramid slot)

def constantEnum (s : Site) (slot : Nat) : Emit UInt32 := do
  match (← s.operand slot).constant.bind Scalar.enum? with
  | some v => .ok v
  | none => .error (.notEnum slot)

/-- Whether the constant conversion policy is to saturate. -/
def saturates (s : Site) (slot : Nat) : Emit Bool := do
  let v ← s.constantEnum slot
  if v = wrapPolicy then .ok false
  else if v = saturatePolicy then .ok true
  else .error (.unknownPolicy v)

/-- The arguments that tell the sampling helper about the border. -/
def borderArgs (s : Site) : String :=
  match s.border with
  | .replicate => "1, 0"
  | .constant v => s!"0, {v.toNat}"

end Site

/-- The expression of one sample. -/
def laneText (lanes : Lanes) (slot : Nat) : Emit String :=
  match (lanes[slot]?).getD none with
  | some text => .ok text
  | none => .error (.noLane slot)

/-- Converts an integer expression to a format. -/
def convertExpr (format : Format) (expr : String) (saturate : Bool) : String :=
  if format.isFloat then s!"(float)({expr})"
  else if !saturate then s!"({format.cType})({expr})"
  else
    let helper := match format with
      | .u16 => "vxf_sat_u16"
      | .s16 => "vxf_sat_s16"
      | .u32 => "vxf_sat_u32"
      | .s32 => "vxf_sat_s32"
      | _ => "vxf_sat_u8"
    s!"{helper}((int64_t)({expr}))"

/-- Functions that generated code may need beside its entry point. -/
inductive Helper where
  | fetchU8 | median9 | reduceMax9 | reduceMin9 | binomial5
deriving DecidableEq, Repr

/-- Lines of code joined, each ended by a newline. -/
def codeLines (lines : List String) : String := String.join (lines.map (· ++ "\n"))

/-- A head and the lines it governs between braces, indented by one step. -/
def braced (head : String) (body : List String) : List String :=
  [head ++ " \x7b"] ++ body.map ("    " ++ ·) ++ ["\x7d"]

namespace Helper

def key : Helper → String
  | .fetchU8 => "vxf_fetch_u8"
  | .median9 => "vxf_median9"
  | .reduceMax9 => "vxf_reduce_max9"
  | .reduceMin9 => "vxf_reduce_min9"
  | .binomial5 => "vxf_binomial5"

/-- The helpers that a helper calls. -/
def calls : Helper → List Helper
  | .binomial5 => [.fetchU8]
  | _ => []

/-- A function with the braces of its body on lines of their own. -/
def function (head : String) (body : List String) : String :=
  String.intercalate "\n" ([head, "\x7b"] ++ body.map ("    " ++ ·) ++ ["\x7d"])

def extremum (key comparison : String) : String :=
  function s!"static inline int32_t {key}(const int32_t *v)" (
    ["int32_t m = v[0];"] ++
    braced "for (int32_t i = 1; i < 9; ++i)" [s!"m = v[i] {comparison} m ? v[i] : m;"] ++
    ["return m;"])

def text : Helper → String
  | .fetchU8 =>
    function ("static inline int32_t vxf_fetch_u8(const uint8_t *src, int32_t w, int32_t h, int32_t x, " ++
        "int32_t y, int32_t replicate, int32_t value)") (
      braced "if (x < 0 || y < 0 || x >= w || y >= h)" (
        braced "if (!replicate)" ["return value;"] ++
        ["x = x < 0 ? 0 : (x >= w ? w - 1 : x);",
         "y = y < 0 ? 0 : (y >= h ? h - 1 : y);"]) ++
      ["return src[(size_t)y * (size_t)w + (size_t)x];"])
  | .median9 =>
    function "static inline int32_t vxf_median9(int32_t *v)" (
      braced "for (int32_t i = 1; i < 9; ++i)" (
        ["int32_t key = v[i];", "int32_t j = i - 1;"] ++
        braced "while (j >= 0 && v[j] > key)" ["v[j + 1] = v[j];", "--j;"] ++
        ["v[j + 1] = key;"]) ++
      ["return v[4];"])
  | .reduceMax9 => extremum "vxf_reduce_max9" ">"
  | .reduceMin9 => extremum "vxf_reduce_min9" "<"
  | .binomial5 =>
    function ("static inline int32_t vxf_binomial5(const uint8_t *src, int32_t w, int32_t h, int32_t cx, " ++
        "int32_t cy, int32_t replicate, int32_t value)") (
      ["static const int32_t taps[5] = \x7b1, 4, 6, 4, 1\x7d;", "int32_t acc = 0;"] ++
      braced "for (int32_t dy = -2; dy <= 2; ++dy)" (
        braced "for (int32_t dx = -2; dx <= 2; ++dx)" [
          "acc += taps[dy + 2] * taps[dx + 2] * vxf_fetch_u8(src, w, h, cx + dx, cy + dy, replicate, value);"]) ++
      ["return acc;"])

end Helper

/-- The code of one node and the helpers it calls. -/
structure Fragment where
  body : String
  helpers : List Helper
deriving DecidableEq, Repr

end VisionGraph
