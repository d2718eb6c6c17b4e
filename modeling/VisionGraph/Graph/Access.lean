import VisionGraph.Data.Object
/-!
Scheduling of nodes by what they read and write.

A node that reads an object waits for every other node that writes it. Of the nodes that wait for
nothing, the one that was inserted first goes next.
-/

namespace VisionGraph

/-- The objects a node reads and writes, in the order of its parameters. -/
structure Access where
  reads : List ObjectId
  writes : List ObjectId
deriving DecidableEq, Repr, Inhabited

namespace Access

/-- Whether `b` reads something that `a` writes. -/
def feeds (a b : Access) : Bool := a.writes.any (b.reads.contains ·)

/-- The positions of the nodes that write an object. -/
def producers (accesses : List Access) (o : ObjectId) : List Nat :=
  (accesses.zipIdx.filter (·.1.writes.contains o)).map (·.2)

/-- The positions of the nodes that read an object. -/
def consumers (accesses : List Access) (o : ObjectId) : List Nat :=
  (accesses.zipIdx.filter (·.1.reads.contains o)).map (·.2)

/-- Whether no other node that is left feeds the one at hand. -/
def ready (left : List (Access × Nat)) (e : Access × Nat) : Bool :=
  left.all fun p => p.2 == e.2 || !p.1.feeds e.1

/-- All nodes but the one at a position. -/
def without (left : List (Access × Nat)) (position : Nat) : List (Access × Nat) :=
  left.filter (·.2 != position)

theorem length_without_lt {left : List (Access × Nat)} {e : Access × Nat} (h : e ∈ left) :
    (without left e.2).length < left.length :=
  List.length_filter_lt_length_iff_exists.2 ⟨e, h, by simp⟩

/-- Takes the first node that is ready until none is; what is left then is reported. -/
def orderOf (left : List (Access × Nat)) : Except (List Nat) (List Nat) :=
  match _h : left.find? (ready left) with
  | some e => (orderOf (without left e.2)).map (e.2 :: ·)
  | none => if left.isEmpty then .ok [] else .error (left.map (·.2))
termination_by left.length
decreasing_by exact length_without_lt (List.mem_of_find?_eq_some _h)

/-- The positions in execution order, or the positions that wait for each other. -/
def order (accesses : List Access) : Except (List Nat) (List Nat) := orderOf accesses.zipIdx

end Access

end VisionGraph
