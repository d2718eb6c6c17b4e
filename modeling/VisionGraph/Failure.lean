import VisionGraph.Error
/-!
Failures of whole tasks: errors of a graph, and what can go wrong around it.
-/

namespace VisionGraph

inductive Failure where
  | graph (e : Error)
  | inputNotImage (o : ObjectId)
  | outputNotImage (o : ObjectId)
  | outputSizes (left right : Nat)
  /-- A graph of the parity suite could not be compiled. -/
  | compiling (case : String) (optimized : Bool) (e : Error)
  | configUnreadable (path : String)
  | configInvalid (path : String)
  | reportUnreadable (path : String)
  /-- A report lacks a field; the place is the end of the record. -/
  | reportField (name : String) (line column : Nat)
  | reportInvalid
  | output (reason : String)
  | disagreement
  | noSizes
deriving DecidableEq, Repr

def Failure.message : Failure → String
  | .graph e => e.message
  | .inputNotImage o => s!"{o.text} is not bound to an image"
  | .outputNotImage o => s!"output {o.text} is not bound to an image"
  | .outputSizes left right => s!"outputs differ in size: {left} vs {right}"
  | .compiling case true _ => s!"compiling {case} with optimizations"
  | .compiling case false _ => s!"compiling {case} without optimizations"
  | .configUnreadable path => s!"reading compiler config {path}"
  | .configInvalid path => s!"parsing compiler config {path}"
  | .reportUnreadable path => s!"reading report {path}"
  | .reportField name line column => s!"missing field `{name}` at line {line} column {column}"
  | .reportInvalid => "invalid report"
  | .output reason => reason
  | .disagreement => "optimized and reference builds disagree"
  | .noSizes => "no resolutions to benchmark"

end VisionGraph
