import VisionGraph.Kernel.Arithmetic
import VisionGraph.Kernel.Bitwise
import VisionGraph.Kernel.Color
import VisionGraph.Kernel.Gradient
import VisionGraph.Kernel.Pyramid
import VisionGraph.Kernel.Statistics
/-!
Registries of kernels, searched by name or by number.
-/

namespace VisionGraph

/-- Kernels in the order of their registration, no two of one name. -/
structure Registry where
  kernels : List Kernel

namespace Registry

def empty : Registry := ⟨[]⟩

/-- Puts a kernel in the place of the one with its name, or at the end. -/
def place (k : Kernel) : List Kernel → List Kernel
  | [] => [k]
  | first :: rest => if first.name = k.name then k :: rest else first :: place k rest

def register (r : Registry) (k : Kernel) : Registry := ⟨place k r.kernels⟩

def find? (r : Registry) (name : String) : Option Kernel := r.kernels.find? (·.name == name)

def findNumber? (r : Registry) (number : UInt32) : Option Kernel :=
  r.kernels.find? (·.signature.number == number)

def size (r : Registry) : Nat := r.kernels.length

def isEmpty (r : Registry) : Bool := r.kernels.isEmpty

open Kernel in
/-- The standard kernels. -/
def standard : Registry :=
  ⟨[colorConvert, channelExtract, channelCombine, add, subtract, multiply, absdiff, Kernel.and, Kernel.or,
    Kernel.xor, Kernel.not, threshold, magnitude, phase, convertDepth, multiplyScalar, Kernel.clamp, gaussian3x3,
    box3x3, median3x3, dilate3x3, erode3x3, sobel3x3, tableLookup, histogram, minMaxLoc, accumulate,
    gaussianPyramid]⟩

end Registry

end VisionGraph
