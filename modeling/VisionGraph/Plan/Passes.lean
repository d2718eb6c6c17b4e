import VisionGraph.Plan.Basic
/-!
Passes over plans. Pruning removes the stages that nothing visible depends on; fusion joins two
pixel-wise stages when the image between them is seen by no one else.
-/

namespace VisionGraph

/-- What a pass did. -/
inductive Event where
  | nodeRemoved (node : NodeId)
  | objectRemoved (object : ObjectId)
  | fused (producer consumer : List NodeId) (intermediate : ObjectId)
deriving DecidableEq, Repr

namespace Plan

/-! ### Pruning -/

/-- Adds the stages that feed a live stage until there are no more; each round adds one at least. -/
def spread (stages : List (Access × Nat)) : (rounds : Nat) → List (Access × Nat) → List (Access × Nat)
  | 0, live => live
  | rounds + 1, live =>
    let next := stages.filter fun a => live.any fun b => a.2 == b.2 || a.1.feeds b.1
    if next.length = live.length then live else spread stages rounds next

/-- The positions of the stages that write something visible, or feed one that does. -/
def livePositions (p : Plan) : List Nat :=
  let stages := p.accesses.zipIdx
  let roots := stages.filter fun a => a.1.writes.any p.isExternal
  (spread stages stages.length roots).map (·.2)

/-- Objects that no stage names and that cannot be seen from outside. -/
def unusedObjects (objects : IdMap Resolved) (stages : List Stage) : List ObjectId :=
  let referenced := stages.flatMap Stage.referenced
  (objects.values.filter fun r => !r.object.isExternal && !referenced.contains r.object.id).map (·.object.id)

/-- Removes dead stages, and then the objects that only they used. -/
def prune (p : Plan) : Plan × List Event :=
  let live := p.livePositions
  let (kept, dropped) := p.stages.zipIdx.partition fun (_, i) => live.contains i
  let stages := kept.map (·.1)
  let unused := unusedObjects p.objects stages
  ({ objects := unused.foldl IdMap.erase p.objects, stages := stages },
    (dropped.flatMap fun (stage, _) => stage.origins).map .nodeRemoved ++ unused.map .objectRemoved)

/-! ### Fusion -/

/-- Number of pixels of an image. -/
def pixelCount (p : Plan) (o : ObjectId) : Option Nat :=
  ((p.info? o).bind Meta.image?).bind ImageMeta.pixelCount

/-- An image that only the plan itself can see. -/
def isPrivateImage (p : Plan) (o : ObjectId) : Bool :=
  match p.object? o with
  | none => false
  | some r => r.object.kind == .image && r.object.isVirtual && !r.object.isExternal && r.object.slot.isNone

/-- Two stages that can be joined, and the image between them. -/
structure Candidate where
  producer : Nat
  consumer : Nat
  intermediate : ObjectId
deriving DecidableEq, Repr

/-- Whether a consumer can be joined with the only writer of one of its inputs. -/
def candidateAt (p : Plan) (accesses : List Access) (consumer : Nat) (stage : Stage) (o : ObjectId) :
    Option Candidate :=
  if !p.isPrivateImage o then none
  else
    match Access.producers accesses o with
    | [producer] =>
      match p.stages[producer]? with
      | none => none
      | some source =>
        let count := p.pixelCount o
        if producer ≠ consumer && Access.consumers accesses o == [consumer] && source.pixelwise &&
            source.writes == [o] && count.isSome && stage.writes.all (p.pixelCount · == count) then
          some ⟨producer, consumer, o⟩
        else none
    | _ => none

/-- The first pair of stages that can be joined. -/
def candidate? (p : Plan) : Option Candidate :=
  let accesses := p.accesses
  p.stages.zipIdx.findSome? fun (stage, i) =>
    if stage.pixelwise then stage.reads.findSome? (p.candidateAt accesses i stage) else none

/-- One loop for both stages. -/
def join (producer consumer : Stage) (intermediate : ObjectId) : Stage where
  steps := producer.steps ++ consumer.steps
  internal := producer.internal ++ consumer.internal ++ [intermediate]
  pixelwise := true

/-- Joins one pair of stages, at the place of the later one. -/
def fuseOnce (p : Plan) : Option (Plan × Event) :=
  match p.candidate? with
  | none => none
  | some c =>
    match p.stages[c.producer]?, p.stages[c.consumer]? with
    | some producer, some consumer =>
      some ({ p with
          stages := (p.stages.set c.consumer (join producer consumer c.intermediate)).eraseIdx c.producer },
        .fused producer.origins consumer.origins c.intermediate)
    | _, _ => none

theorem length_fuseOnce {p q : Plan} {e : Event} (h : p.fuseOnce = some (q, e)) :
    q.stages.length < p.stages.length := by
  unfold fuseOnce at h
  split at h
  · contradiction
  · rename_i c _
    split at h
    · rename_i producer consumer hp _
      obtain ⟨lt, _⟩ := List.getElem?_eq_some_iff.1 hp
      cases h
      show (List.eraseIdx _ _).length < _
      rw [List.length_eraseIdx_of_lt (by simpa using lt), List.length_set]
      omega
    · contradiction

/-- Joins pairs of stages as long as there are any; every joint leaves one stage less. -/
def fuse (p : Plan) : Plan × List Event :=
  match _h : p.fuseOnce with
  | none => (p, [])
  | some (q, e) =>
    let (last, events) := q.fuse
    (last, e :: events)
termination_by p.stages.length
decreasing_by exact length_fuseOnce _h

end Plan

/-- A transformation that keeps what can be seen of a plan. -/
inductive Pass where
  | prune | fuse
deriving DecidableEq, Repr

namespace Pass

def name : Pass → String
  | .prune => "eliminate-dead-nodes"
  | .fuse => "fuse-elementwise"

def run : Pass → Plan → Plan × List Event
  | .prune, p => p.prune
  | .fuse, p => p.fuse

/-- Runs passes in turn and lists what each did. -/
def sweep : List Pass → Plan → Plan × List (Pass × List Event)
  | [], p => (p, [])
  | pass :: rest, p =>
    let (q, events) := pass.run p
    let (last, outcomes) := sweep rest q
    (last, (pass, events) :: outcomes)

end Pass

end VisionGraph
