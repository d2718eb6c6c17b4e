import VisionGraph.Data.Kind
/-!
Signatures of kernels: ordered parameters with a kind and a direction.
-/

namespace VisionGraph

inductive Direction where
  | input | output | bidirectional
deriving DecidableEq, Repr, Inhabited

namespace Direction

def all : List Direction := [.input, .output, .bidirectional]

def label : Direction → String
  | .input => "Input"
  | .output => "Output"
  | .bidirectional => "Bidirectional"

def ofLabel? (s : String) : Option Direction := all.find? (·.label == s)

def reads : Direction → Bool
  | .input | .bidirectional => true
  | .output => false

def writes : Direction → Bool
  | .output | .bidirectional => true
  | .input => false

end Direction

/-- How a kernel that looks around a pixel samples outside the image. -/
inductive Border where
  | replicate
  | constant (value : UInt8)
deriving DecidableEq, Repr, Inhabited

/-- One parameter of a kernel. -/
structure Param where
  name : String
  kind : Kind
  direction : Direction
  optional : Bool
deriving DecidableEq, Repr, Inhabited

namespace Param

def input (name : String) (kind : Kind) : Param := ⟨name, kind, .input, false⟩

def output (name : String) (kind : Kind) : Param := ⟨name, kind, .output, false⟩

def bidirectional (name : String) (kind : Kind) : Param := ⟨name, kind, .bidirectional, false⟩

/-- The same parameter, which a node may leave unbound. -/
def orUnbound (p : Param) : Param := { p with optional := true }

end Param

/-- The name, the number and the parameters of a kernel. -/
structure Signature where
  name : String
  number : UInt32
  params : List Param
  /-- Every output sample depends only on input samples at the same place. -/
  pixelwise : Bool
deriving DecidableEq, Repr, Inhabited

namespace Signature

def directions (s : Signature) : List Direction := s.params.map (·.direction)

end Signature

end VisionGraph
