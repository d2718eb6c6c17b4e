import VisionGraph.Buffer.Host
import VisionGraph.Kernel.Signature
/-!
Frames: the host objects that one node can reach, and the accesses a kernel makes to them.

A kernel sees its parameters by position. Two parameters bound to one object share it, so a write
through one is seen through the other. An access outside an object stops the run with `Halt.astray`.
-/

namespace VisionGraph

/-- What a parameter stands for during a run. -/
inductive Handle where
  | unbound
  | constant (v : Scalar)
  | object (index : Nat)
deriving DecidableEq, Inhabited

/-- The parameters of a node and the objects behind them. -/
structure Frame where
  handles : Array Handle
  objects : Array Host
deriving DecidableEq

/-- Why a node did not finish. -/
inductive Halt where
  /-- The node reported a failure; the frame holds what it had written by then. -/
  | failed (frame : Frame)
  /-- The node addressed something that does not exist. -/
  | astray

/-- Runs a step for `left` numbers from `i` on, until one stops. -/
@[specialize] def loop {σ ε : Type} (step : Nat → σ → Except ε σ) : (left i : Nat) → σ → Except ε σ
  | 0, _, s => .ok s
  | left + 1, i, s =>
    match step i s with
    | .ok s => loop step left (i + 1) s
    | .error e => .error e

/-- Changes one of some objects in place. -/
@[noinline] def modifyObject (objects : Array Host) (k : Nat) (change : Host → Host) : Array Host :=
  objects.modify k change

namespace Frame

def isBound (f : Frame) (slot : Nat) : Bool :=
  match f.handles[slot]? with
  | some .unbound | none => false
  | _ => true

/-- The object behind a parameter. -/
@[inline] def host (f : Frame) (slot : Nat) : Except Halt Host :=
  match f.handles[slot]? with
  | some (.object k) =>
    match f.objects[k]? with
    | some h => .ok h
    | none => .error .astray
  | _ => .error .astray

@[inline] def image (f : Frame) (slot : Nat) : Except Halt ImageBuffer :=
  match f.host slot with
  | .ok (.image b) => .ok b
  | .ok _ => .error .astray
  | .error e => .error e

def array (f : Frame) (slot : Nat) : Except Halt ArrayBuffer :=
  match f.host slot with
  | .ok (.array a) => .ok a
  | .ok _ => .error .astray
  | .error e => .error e

def pyramid (f : Frame) (slot : Nat) : Except Halt PyramidBuffer :=
  match f.host slot with
  | .ok (.pyramid p) => .ok p
  | .ok _ => .error .astray
  | .error e => .error e

/-- The value of a scalar parameter, constant or not. -/
def scalar (f : Frame) (slot : Nat) : Except Halt Scalar :=
  match f.handles[slot]? with
  | some (.constant v) => .ok v
  | some (.object k) =>
    match f.objects[k]? with
    | some (.scalar v) => .ok v
    | _ => .error .astray
  | _ => .error .astray

/-- Replaces the object behind a parameter. -/
@[inline] def modify (f : Frame) (slot : Nat) (change : Host → Host) : Frame :=
  match f.handles[slot]? with
  | some (.object k) => { f with objects := modifyObject f.objects k change }
  | _ => f

/-- One sample of an image. -/
@[inline] def sample (f : Frame) (slot i : Nat) : Except Halt Int :=
  match f.image slot with
  | .ok b =>
    match b.samples[i]? with
    | some v => .ok v
    | none => .error .astray
  | .error e => .error e

/-- Writes one sample of an image. -/
@[inline] def write (f : Frame) (slot i : Nat) (v : Int) : Except Halt Frame :=
  match f.image slot with
  | .ok b =>
    if i < b.samples.size then
      .ok (f.modify slot fun
        | .image b => .image (b.set i v)
        | h => h)
    else .error .astray
  | .error e => .error e

/-- Writes a scalar. -/
def writeScalar (f : Frame) (slot : Nat) (v : Int) : Except Halt Frame :=
  match f.scalar slot with
  | .ok held => .ok (f.modify slot fun _ => .scalar (Scalar.ofElement held.type v))
  | .error e => .error e

/-- Applies a change to an array. -/
@[inline] def changeArray (f : Frame) (slot : Nat) (change : ArrayBuffer → ArrayBuffer) : Except Halt Frame :=
  match f.array slot with
  | .ok _ =>
    .ok (f.modify slot fun
      | .array a => .array (change a)
      | h => h)
  | .error e => .error e

end Frame

/-- What a kernel does to the objects of a node. -/
abbrev Effect := Border → Frame → Except Halt Frame

end VisionGraph
