import VisionGraph.Digest.Blake3
import VisionGraph.Data.Object
/-!
Generated units: the source text, the objects its entry point expects, and the nodes behind each
position of the schedule.
-/

namespace VisionGraph

/-- The nodes behind one position of the schedule. -/
structure Origin where
  position : Nat
  nodes : List NodeId
  kernels : List String
deriving DecidableEq, Repr

structure CUnit where
  source : String
  entries : List ObjectId
  origins : List Origin
deriving DecidableEq, Repr

namespace CUnit

/-- The digest of the source. -/
def fingerprint (u : CUnit) : String := Blake3.hex u.source.toUTF8

/-- The number of lines of the source, each ended by a newline. -/
def lineCount (u : CUnit) : Nat := u.source.toList.count '\n'

/-- The position that a positive status names. -/
def originOf (u : CUnit) (status : Int) : Option Origin :=
  if 0 < status then u.origins[status.toNat - 1]? else none

end CUnit

end VisionGraph
