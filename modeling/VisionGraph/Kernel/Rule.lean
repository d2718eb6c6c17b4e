import VisionGraph.Kernel.Rejection
/-!
Inference rules: from what is known of the parameters of a node, a rule either infers metadata of its
outputs or refuses a parameter. This module holds the checks that rules are made of.
-/

namespace VisionGraph

/-- What is known of the parameters of a node; `none` is an unbound parameter. -/
abbrev Known := List (Option Meta)

/-- Metadata inferred for one parameter. -/
structure Inference where
  slot : Nat
  info : Meta
deriving DecidableEq, Repr

/-- A rule infers metadata or refuses. -/
abbrev Rule := Known → Except Rejection (List Inference)

/-- An image all of whose metadata is known. -/
structure ImageShape where
  width : UInt32
  height : UInt32
  format : Format
deriving DecidableEq, Repr, Inhabited

namespace ImageShape

def extent (s : ImageShape) : Extent := ⟨s.width, s.height⟩

/-- Number of pixels. -/
def pixels (s : ImageShape) : Nat := s.width.toNat * s.height.toNat

def isEmpty (s : ImageShape) : Bool := s.pixels == 0

end ImageShape

def ImageMeta.shape? (m : ImageMeta) : Option ImageShape :=
  match m.width, m.height, m.format with
  | some w, some h, some f => some ⟨w, h, f⟩
  | _, _, _ => none

/-- Numbers of the conversion policies. -/
def wrapPolicy : UInt32 := 0xA000

def saturatePolicy : UInt32 := 0xA001

namespace Rule

def refuse {α : Type} (slot : Nat) (cause : RejectionCause) : Except Rejection α :=
  .error ⟨slot, cause⟩

def isBound (known : Known) (slot : Nat) : Bool := ((known[slot]?).getD none).isSome

/-- The metadata of a bound parameter. -/
def bound (known : Known) (slot : Nat) : Except Rejection Meta :=
  match (known[slot]?).getD none with
  | some m => .ok m
  | none => refuse slot .unbound

/-- What is known so far of an image. -/
def image (known : Known) (slot : Nat) : Except Rejection ImageMeta := do
  match (← bound known slot).image? with
  | some m => .ok m
  | none => refuse slot (.notA .image)

/-- An image that has to be fully known. -/
def inputImage (known : Known) (slot : Nat) : Except Rejection ImageShape := do
  match (← image known slot).shape? with
  | some s => .ok s
  | none => refuse slot .openInput

def scalar (known : Known) (slot : Nat) : Except Rejection ScalarMeta := do
  match (← bound known slot).scalar? with
  | some m => .ok m
  | none => refuse slot (.notA .scalar)

def array (known : Known) (slot : Nat) : Except Rejection ArrayMeta := do
  match (← bound known slot).array? with
  | some m => .ok m
  | none => refuse slot (.notA .array)

def pyramid (known : Known) (slot : Nat) : Except Rejection PyramidMeta := do
  match (← bound known slot).pyramid? with
  | some m => .ok m
  | none => refuse slot (.notA .pyramid)

def requireFormat (slot : Nat) (s : ImageShape) (allowed : List Format) : Except Rejection Format :=
  if allowed.contains s.format then .ok s.format
  else refuse slot (.inputFormat s.format allowed)

/-- The declared output format if it is allowed, the default one if none is declared. -/
def chooseFormat (slot : Nat) (declared : Option Format) (default : Format) (allowed : List Format) :
    Except Rejection Format :=
  let format := declared.getD default
  if allowed.contains format then .ok format
  else refuse slot (.outputFormat format allowed)

def sameExtent (slot : Nat) (reference other : ImageShape) : Except Rejection Unit :=
  if reference.extent = other.extent then .ok ()
  else refuse slot (.extent other.extent reference.extent)

/-- A scalar of one of the allowed types. -/
def scalarOf (known : Known) (slot : Nat) (allowed : List ScalarType) : Except Rejection ScalarMeta := do
  let m ← scalar known slot
  match m.type with
  | some t => if allowed.contains t then .ok m else refuse slot (.scalarType t)
  | none => refuse slot .openScalar

/-- Whether the constant conversion policy is to saturate. -/
def policy (known : Known) (slot : Nat) : Except Rejection Bool := do
  match (← scalar known slot).value with
  | some (.enum v) =>
    if v = wrapPolicy then .ok false
    else if v = saturatePolicy then .ok true
    else refuse slot (.unknownPolicy (.enum v))
  | some v => refuse slot (.unknownPolicy v)
  | none => refuse slot .policyNotConstant

/-- The inference of one image of the same extent as another. -/
def inferImage (slot : Nat) (like : ImageShape) (format : Format) : Inference :=
  ⟨slot, .image (.known like.width like.height format)⟩

/-- Two images of one extent in allowed formats. -/
def imagePair (known : Known) (allowed : List Format) : Except Rejection (ImageShape × ImageShape) := do
  let first ← inputImage known 0
  let _ ← requireFormat 0 first allowed
  let second ← inputImage known 1
  let _ ← requireFormat 1 second allowed
  sameExtent 1 first second
  return (first, second)

end Rule

end VisionGraph
