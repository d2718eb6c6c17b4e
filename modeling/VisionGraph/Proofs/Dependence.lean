import VisionGraph.Kernel.Registry
import VisionGraph.Proofs.FrameSafety
import VisionGraph.Proofs.Sequence

/-! Kernels with several results. Each result depends on what the kernel reads and on what the result held before, not
on the other results: frames that agree on some objects, among them all that is read, agree on them afterwards. -/
namespace VisionGraph

namespace Frame

/-- Frames with the same parameters and the same objects at some positions. -/
structure AgreeOn (handles : Array Handle) (keep : Nat → Prop) (f g : Frame) : Prop where
  left : f.handles = handles
  right : g.handles = handles
  size : f.objects.size = g.objects.size
  objects : ∀ k, keep k → f.objects[k]? = g.objects[k]?

/-- A computation that keeps the agreement of frames, as far as it comes to its end on both. -/
def Steady (handles : Array Handle) (keep : Nat → Prop) (act : Frame → Except Halt Frame) : Prop :=
  ∀ f g f' g', AgreeOn handles keep f g → act f = .ok f' → act g = .ok g' → AgreeOn handles keep f' g'

variable {handles : Array Handle} {keep : Nat → Prop} {f g : Frame} {slot : Nat}

/-- Whatever stands behind a parameter is kept. -/
def Kept (handles : Array Handle) (keep : Nat → Prop) (slot : Nat) : Prop :=
  ∀ k, handles[slot]? = some (.object k) → keep k

theorem AgreeOn.host_eq (h : AgreeOn handles keep f g) (hslot : Kept handles keep slot) :
    f.host slot = g.host slot := by
  unfold host
  rw [h.left, h.right]
  cases hk : handles[slot]? with
  | none => rfl
  | some handle =>
    cases handle with
    | object k => simp only [h.objects k (hslot k hk)]
    | _ => rfl

theorem AgreeOn.image_eq (h : AgreeOn handles keep f g) (hslot : Kept handles keep slot) :
    f.image slot = g.image slot := by
  unfold image
  rw [h.host_eq hslot]

theorem AgreeOn.isBound_eq (h : AgreeOn handles keep f g) (slot : Nat) : f.isBound slot = g.isBound slot := by
  unfold isBound
  rw [h.left, h.right]

/-- Changes of one object, which have to be the same only where the object is kept. -/
theorem AgreeOn.modify (h : AgreeOn handles keep f g) {change change' : Host → Host}
    (hchange : ∀ k, handles[slot]? = some (.object k) → keep k → change = change') :
    AgreeOn handles keep (f.modify slot change) (g.modify slot change') := by
  unfold Frame.modify
  rw [h.left, h.right]
  cases hk : handles[slot]? with
  | none => exact h
  | some handle =>
    cases handle with
    | object k =>
      dsimp only [modifyObject]
      refine ⟨rfl, rfl, ?_, ?_⟩
      · rw [Array.size_modify, Array.size_modify, h.size]
      · intro j hj
        rw [Array.getElem?_modify, Array.getElem?_modify]
        by_cases hkj : k = j
        · subst hkj
          rw [if_pos rfl, if_pos rfl, h.objects k hj, hchange k hk hj]
        · rw [if_neg hkj, if_neg hkj, h.objects j hj]
    | _ => exact h

/-! ### Accesses -/

theorem steady_write (slot i : Nat) (v : Int) : Steady handles keep fun f => f.write slot i v := by
  intro f g f' g' h hf hg
  -- what is done to the object does not depend on the frame
  have hwrite : ∃ change : Host → Host, ∀ f f' : Frame, f.write slot i v = .ok f' → f' = f.modify slot change := by
    constructor
    intro f f' hf
    unfold write at hf
    split at hf
    · split at hf
      · cases hf
        rfl
      · contradiction
    · contradiction
  obtain ⟨change, hwrite⟩ := hwrite
  rw [hwrite f f' hf, hwrite g g' hg]
  exact h.modify fun _ _ _ => rfl

theorem steady_changeArray (slot : Nat) (change : ArrayBuffer → ArrayBuffer) :
    Steady handles keep fun f => f.changeArray slot change := by
  intro f g f' g' h hf hg
  have hchange : ∃ replace : Host → Host, ∀ f f' : Frame, f.changeArray slot change = .ok f' →
      f' = f.modify slot replace := by
    constructor
    intro f f' hf
    unfold changeArray at hf
    split at hf
    · cases hf
      rfl
    · contradiction
  obtain ⟨replace, hchange⟩ := hchange
  rw [hchange f f' hf, hchange g g' hg]
  exact h.modify fun _ _ _ => rfl

/-- A scalar keeps its type, so the type matters only where the scalar is kept. -/
theorem steady_writeScalar (slot : Nat) (v : Int) : Steady handles keep fun f => f.writeScalar slot v := by
  intro f g f' g' h hf hg
  have hwrite : ∀ {f f' : Frame}, f.writeScalar slot v = .ok f' →
      ∃ held, f.scalar slot = .ok held ∧ f' = f.modify slot fun _ => .scalar (Scalar.ofElement held.type v) := by
    intro f f' hf
    unfold writeScalar at hf
    split at hf
    · rename_i held hheld
      cases hf
      exact ⟨held, hheld, rfl⟩
    · contradiction
  obtain ⟨held, hheld, rfl⟩ := hwrite hf
  obtain ⟨held', hheld', rfl⟩ := hwrite hg
  apply h.modify
  intro k hk hkeep
  -- a kept scalar is the same in both frames, and so is its type
  have hsame : f.scalar slot = g.scalar slot := by
    unfold scalar
    rw [h.left, h.right, hk]
    simp only [h.objects k hkeep]
  rw [hsame, hheld'] at hheld
  cases hheld
  rfl

/-! ### Computations made of accesses -/

theorem steady_ok : Steady handles keep .ok := by
  intro f g f' g' h hf hg
  cases hf
  cases hg
  exact h

theorem steady_error {act : Frame → Halt} : Steady handles keep fun f => .error (act f) := by
  intro f g f' g' _ hf
  cases hf

theorem Steady.bind {act next : Frame → Except Halt Frame} (hact : Steady handles keep act)
    (hnext : Steady handles keep next) : Steady handles keep fun f => act f >>= next := by
  intro f g f' g' h hf hg
  obtain ⟨u, hu, hf⟩ := bind_eq_ok.mp hf
  obtain ⟨v, hv, hg⟩ := bind_eq_ok.mp hg
  exact hnext u v f' g' (hact f g u v h hu hv) hf hg

theorem Steady.ite {c : Prop} [Decidable c] {act act' : Frame → Except Halt Frame} (hact : Steady handles keep act)
    (hact' : Steady handles keep act') : Steady handles keep fun f => if c then act f else act' f := by
  split
  · exact hact
  · exact hact'

theorem Steady.ifBound {act act' : Frame → Except Halt Frame} (hact : Steady handles keep act)
    (hact' : Steady handles keep act') (slot : Nat) :
    Steady handles keep fun f => if f.isBound slot then act f else act' f := by
  intro f g f' g' h hf hg
  dsimp only at hf hg
  rw [h.isBound_eq slot] at hf
  split at hf
  · rename_i hbound
    rw [if_pos hbound] at hg
    exact hact f g f' g' h hf hg
  · rename_i hbound
    rw [if_neg hbound] at hg
    exact hact' f g f' g' h hf hg

/-- An image that is read has to be kept. -/
theorem Steady.image {act : ImageBuffer → Frame → Except Halt Frame} (hslot : Kept handles keep slot)
    (hact : ∀ b, Steady handles keep (act b)) : Steady handles keep fun f => f.image slot >>= fun b => act b f := by
  intro f g f' g' h hf hg
  obtain ⟨b, hb, hf⟩ := bind_eq_ok.mp hf
  obtain ⟨b', hb', hg⟩ := bind_eq_ok.mp hg
  have hsame : b' = b := by
    rw [← h.image_eq hslot, hb] at hb'
    exact (Except.ok.inj hb').symm
  subst hsame
  exact hact b' f g f' g' h hf hg

theorem Steady.loop {step : Nat → Frame → Except Halt Frame} (hstep : ∀ i, Steady handles keep (step i))
    (left i : Nat) : Steady handles keep (VisionGraph.loop step left i) := by
  -- the induction is on the number of rounds; agreement is what each round hands on
  induction left generalizing i with
  | zero => exact steady_ok
  | succ left ih =>
    intro f g f' g' h hf hg
    unfold VisionGraph.loop at hf hg
    split at hf
    · rename_i u hu
      split at hg
      · rename_i v hv
        exact ih (i + 1) u v f' g' (hstep i f g u v h hu hv) hf hg
      · contradiction
    · contradiction

end Frame

/-! ### Kernels -/

namespace Kernel

open Frame

variable {handles : Array Handle} {keep : Nat → Prop}

theorem steady_overTaps {store : Nat → Taps → Frame → Except Halt Frame} (h : Kept handles keep 0)
    (hstore : ∀ i taps, Steady handles keep (store i taps)) (border : Border) :
    Steady handles keep (overTaps store border) := by
  apply Steady.image h
  intro src
  apply Steady.loop
  intro i
  apply Steady.image h
  intro src
  split
  · exact hstore i _
  · exact steady_error

/-- The two gradients do not depend on each other. -/
theorem steady_sobel3x3 (h : Kept handles keep 0) (border : Border) :
    Steady handles keep (sobel3x3.effect border) := by
  apply steady_overTaps h
  intro i taps
  have hlast : Steady handles keep fun f => if f.isBound 2 then f.write 2 i taps.sobelY else .ok f :=
    (steady_write 2 i taps.sobelY).ifBound steady_ok 2
  exact ((steady_write 1 i taps.sobelX).bind hlast).ifBound (steady_ok.bind hlast) 1

/-- The extrema, their places and their numbers depend on the image only. -/
theorem steady_minMaxLoc (h : Kept handles keep 0) (border : Border) :
    Steady handles keep (minMaxLoc.effect border) := by
  have hrecord : ∀ slot w i, Steady handles keep (recordExtreme slot w i) := by
    intro slot w i
    exact (steady_changeArray slot _).ifBound steady_ok slot
  have hreset : ∀ slot, Steady handles keep (resetArray slot) := by
    intro slot
    exact (steady_changeArray slot _).ifBound steady_ok slot
  have hbound : ∀ slot v, Steady handles keep (writeBound slot v) := by
    intro slot v
    exact (steady_writeScalar slot v).ifBound steady_ok slot
  apply Steady.image h
  intro src
  split
  · exact steady_error
  · rename_i first _
    apply (steady_writeScalar 1 _).bind
    apply (steady_writeScalar 2 _).bind
    apply (hreset 3).bind
    apply (hreset 4).bind
    -- the image is read before anything is written, so the loop may use it
    refine Steady.bind ?_ ((hbound 5 _).bind (hbound 6 _))
    apply Steady.loop
    intro i
    split
    · rename_i v _
      have hlast : Steady handles keep fun f =>
          if v = src.samples.foldl max first then recordExtreme 4 src.width.toNat i f else .ok f :=
        (hrecord 4 _ i).ite steady_ok
      apply Steady.ite
      · exact (hrecord 3 _ i).bind hlast
      · exact steady_ok.bind hlast
    · exact steady_error

/-- The parameters that a kernel writes. -/
def results (k : Kernel) : List Nat := (k.signature.directions.zipIdx.filter (·.1.writes)).map (·.2)

theorem mem_results {k : Kernel} {slot : Nat} :
    slot ∈ k.results ↔ ∃ d, k.signature.directions[slot]? = some d ∧ d.writes = true := by
  simp only [results, List.mem_map, List.mem_filter, Prod.exists, List.mem_zipIdx_iff_getElem?, exists_eq_right]

/-- What is needed to know the results of a kernel: it has one, or all of them come from its first parameter. -/
def Separates (k : Kernel) : Prop := k.results.length ≤ 1 ∨ k.isPixelwise = false ∧
  k.signature.directions[0]? = some .input ∧ ∀ (handles : Array Handle) (keep : Nat → Prop) (border : Border),
    Kept handles keep 0 → Steady handles keep (k.effect border)

end Kernel

theorem Registry.manyResults_standard :
    standard.kernels.filter (fun k => decide (1 < k.results.length)) = [Kernel.sobel3x3, Kernel.minMaxLoc] := rfl

theorem Registry.separates_of_mem_standard {k : Kernel} (hk : k ∈ Registry.standard.kernels) : k.Separates := by
  by_cases hmany : 1 < k.results.length
  · right
    have hmem : k ∈ Registry.standard.kernels.filter fun k => decide (1 < k.results.length) :=
      List.mem_filter.mpr ⟨hk, decide_eq_true hmany⟩
    simp only [Registry.manyResults_standard, List.mem_cons, List.not_mem_nil, or_false] at hmem
    rcases hmem with rfl | rfl
    · exact ⟨rfl, rfl, fun _ _ border h => Kernel.steady_sobel3x3 h border⟩
    · exact ⟨rfl, rfl, fun _ _ border h => Kernel.steady_minMaxLoc h border⟩
  · left
    omega

end VisionGraph
