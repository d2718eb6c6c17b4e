import VisionGraph.Proofs.Fusion
import VisionGraph.Proofs.PixelLoop

/-! Pixel-wise steps as actions on the numbers that objects have at one sample. A step writes one object, from the
numbers of what it reads; so images that are written before they are read may start with any number. -/
namespace VisionGraph

namespace Kernel

/-- What a pixel-wise kernel writes and what it looks at: its value depends on what it reads, its guard on scalars. -/
structure Pointwise (k : Kernel) : Prop where
  target : ∀ slot : Nat, slot = k.pixel.target ↔
    ∃ spec, k.signature.params[slot]? = some spec ∧ spec.direction.writes = true
  value : ∀ (types : LaneTypes) (f g : Nat → Int),
    (∀ (slot : Nat) (spec : Param), k.signature.params[slot]? = some spec → spec.direction.reads = true →
      f slot = g slot) → k.pixel.value types f = k.pixel.value types g
  admits : ∀ (types : LaneTypes) (f g : Nat → Int),
    (∀ (slot : Nat) (spec : Param), k.signature.params[slot]? = some spec → spec.kind = .scalar →
      f slot = g slot) → k.pixel.admits types f = k.pixel.admits types g

/-- Whether the target is the only parameter that is written. -/
def hasOneTarget (k : Kernel) : Bool :=
  k.signature.params.zipIdx.all (fun (spec, slot) => spec.direction.writes == (slot == k.pixel.target)) &&
    decide (k.pixel.target < k.signature.params.length)

theorem target_of_hasOneTarget {k : Kernel} (h : k.hasOneTarget = true) (slot : Nat) : slot = k.pixel.target ↔
    ∃ spec, k.signature.params[slot]? = some spec ∧ spec.direction.writes = true := by
  simp only [hasOneTarget, Bool.and_eq_true, List.all_eq_true, Prod.forall, List.mem_zipIdx_iff_getElem?,
    decide_eq_true_eq, beq_iff_eq] at h
  obtain ⟨hall, hlt⟩ := h
  constructor
  · rintro rfl
    exact ⟨_, List.getElem?_eq_getElem hlt, by rw [hall _ _ (List.getElem?_eq_getElem hlt)]; simp⟩
  · rintro ⟨spec, hspec, hw⟩
    simpa [hw] using (hall spec slot hspec).symm

/-- A kernel without a guard of its own. -/
theorem pointwise_ofPixel {name : String} {number : UInt32} {params : List Param} {rule : Rule}
    {statement : Site → Lanes → Emit String} {target : Nat} {value : LaneTypes → (Nat → Int) → Int}
    (htarget : (ofPixel name number params rule statement target value).hasOneTarget = true)
    (hvalue : ∀ (types : LaneTypes) (f g : Nat → Int), (∀ (slot : Nat) (spec : Param), params[slot]? = some spec →
      spec.direction.reads = true → f slot = g slot) → value types f = value types g) :
    (ofPixel name number params rule statement target value).Pointwise :=
  ⟨target_of_hasOneTarget htarget, hvalue, fun _ _ _ _ => rfl⟩

theorem pointwise_additive (name : String) (number : UInt32) (sign : String) (combine : Int → Int → Int) :
    (additive name number sign combine).Pointwise :=
  pointwise_ofPixel rfl fun types f g h => by simp only [h 0 _ rfl rfl, h 1 _ rfl rfl]

theorem pointwise_multiply : multiply.Pointwise :=
  pointwise_ofPixel rfl fun types f g h => by simp only [h 0 _ rfl rfl, h 1 _ rfl rfl, h 2 _ rfl rfl]

theorem pointwise_absdiff : absdiff.Pointwise :=
  pointwise_ofPixel rfl fun types f g h => by simp only [h 0 _ rfl rfl, h 1 _ rfl rfl]

theorem pointwise_bitwise (name : String) (number : UInt32) (sign : String) (combine : Nat → Nat → Nat) :
    (bitwise name number sign combine).Pointwise :=
  pointwise_ofPixel rfl fun types f g h => by simp only [h 0 _ rfl rfl, h 1 _ rfl rfl]

theorem pointwise_not : Kernel.not.Pointwise :=
  pointwise_ofPixel rfl fun types f g h => by simp only [h 0 _ rfl rfl]

theorem pointwise_threshold : threshold.Pointwise :=
  pointwise_ofPixel rfl fun types f g h => by simp only [h 0 _ rfl rfl, h 1 _ rfl rfl]

theorem pointwise_magnitude : magnitude.Pointwise :=
  pointwise_ofPixel rfl fun types f g h => by simp only [h 0 _ rfl rfl, h 1 _ rfl rfl]

theorem pointwise_phase : phase.Pointwise :=
  pointwise_ofPixel rfl fun types f g h => by simp only [h 0 _ rfl rfl, h 1 _ rfl rfl]

theorem pointwise_multiplyScalar : multiplyScalar.Pointwise :=
  pointwise_ofPixel rfl fun types f g h => by simp only [h 0 _ rfl rfl, h 1 _ rfl rfl]

theorem pointwise_clamp : Kernel.clamp.Pointwise :=
  pointwise_ofPixel rfl fun types f g h => by simp only [h 0 _ rfl rfl, h 1 _ rfl rfl, h 2 _ rfl rfl]

theorem pointwise_convertDepth : convertDepth.Pointwise where
  target := target_of_hasOneTarget rfl
  value types f g h := by
    have hinput : f 0 = g 0 := h 0 _ rfl rfl
    have hshift : f 3 = g 3 := h 3 _ rfl rfl
    simp only [convertDepth, ofPixel, hinput, hshift]
  admits types f g h := by
    have hshift : f 3 = g 3 := h 3 _ rfl rfl
    simp only [convertDepth, ofPixel, hshift]

end Kernel

open Kernel in
theorem Registry.pixelwise_standard : standard.kernels.filter (·.isPixelwise) =
    [add, subtract, multiply, absdiff, Kernel.and, Kernel.or, Kernel.xor, Kernel.not, threshold, magnitude, phase,
      convertDepth, multiplyScalar, Kernel.clamp] := rfl

theorem Registry.pointwise_of_mem_standard {k : Kernel} (hk : k ∈ Registry.standard.kernels)
    (hpixel : k.isPixelwise = true) : k.Pointwise := by
  have hmem : k ∈ Registry.standard.kernels.filter (·.isPixelwise) := List.mem_filter.mpr ⟨hk, hpixel⟩
  simp only [Registry.pixelwise_standard, List.mem_cons, List.not_mem_nil, or_false] at hmem
  repeat' rcases hmem with rfl | hmem
  · exact Kernel.pointwise_additive _ _ _ _
  · exact Kernel.pointwise_additive _ _ _ _
  · exact Kernel.pointwise_multiply
  · exact Kernel.pointwise_absdiff
  · exact Kernel.pointwise_bitwise _ _ _ _
  · exact Kernel.pointwise_bitwise _ _ _ _
  · exact Kernel.pointwise_bitwise _ _ _ _
  · exact Kernel.pointwise_not
  · exact Kernel.pointwise_threshold
  · exact Kernel.pointwise_magnitude
  · exact Kernel.pointwise_phase
  · exact Kernel.pointwise_convertDepth
  · exact Kernel.pointwise_multiplyScalar
  · exact Kernel.pointwise_clamp

/-! ### Steps at one sample -/

namespace Step

/-- The object that a pixel-wise step writes. -/
def target? (s : Step) : Option ObjectId :=
  (Registry.standard.find? s.kernel).bind fun k => (s.params[k.pixel.target]?).join

/-- The numbers of the parameters of a step. -/
def args (s : Step) (env : ObjectId → Int) (slot : Nat) : Int := (((s.params[slot]?).join).map env).getD 0

def types (p : Plan) (s : Step) : LaneTypes := (s.params.map (Stage.laneType p)).toArray

/-- The number that a step computes from the numbers of objects. -/
def value (p : Plan) (s : Step) (env : ObjectId → Int) : Int :=
  ((Registry.standard.find? s.kernel).map fun k => k.pixel.value (s.types p) (s.args env)).getD 0

/-- Whether the guard of a step holds of the numbers of objects. -/
def admits (p : Plan) (s : Step) (env : ObjectId → Int) : Bool :=
  ((Registry.standard.find? s.kernel).map fun k => k.pixel.admits (s.types p) (s.args env)).getD false

/-- The numbers after a step; an object without a sink keeps its number. -/
def act (p : Plan) (sink : ObjectId → Option Element) (env : ObjectId → Int) (s : Step) (o : ObjectId) : Int :=
  if s.target? = some o then ((sink o).map (·.wrap (s.value p env))).getD (env o) else env o

/-- The numbers after steps in turn. -/
def actAll (p : Plan) (sink : ObjectId → Option Element) (steps : List Step) (env : ObjectId → Int) :
    ObjectId → Int :=
  steps.foldl (act p sink) env

/-- A pixel-wise step of a standard kernel. -/
def Pointwise (p : Plan) (s : Step) : Prop := ∃ k, s.Valid p k ∧ k.isPixelwise = true

variable {p : Plan} {s : Step} {o : ObjectId} {env env' : ObjectId → Int} {sink sink' : ObjectId → Option Element}

theorem Pointwise.mem_writes (h : s.Pointwise p) : o ∈ s.writes ↔ s.target? = some o := by
  obtain ⟨k, hk, hpixel⟩ := h
  have htarget := (Registry.pointwise_of_mem_standard hk.mem_standard hpixel).target
  simp only [writes, mem_boundBy, target?, hk.kernel, Option.bind_some, Option.join_eq_some_iff]
  constructor
  · rintro ⟨slot, d, hslot, hd, hw⟩
    obtain ⟨spec, hspec, hdir, _⟩ := hk.exists_spec hslot
    rw [hd, Option.some.injEq] at hdir
    rwa [(htarget slot).mpr ⟨spec, hspec, hdir ▸ hw⟩] at hslot
  · intro hslot
    obtain ⟨spec, hspec, hdir, _⟩ := hk.exists_spec hslot
    obtain ⟨spec', hspec', hw⟩ := (htarget k.pixel.target).mp rfl
    rw [hspec, Option.some.injEq] at hspec'
    exact ⟨_, _, hslot, hdir, hspec' ▸ hw⟩

/-- What a step computes depends on what it reads. -/
theorem Pointwise.value_congr (h : s.Pointwise p) (henv : ∀ o ∈ s.reads, env o = env' o) :
    s.value p env = s.value p env' := by
  obtain ⟨k, hk, hpixel⟩ := h
  have hvalue := (Registry.pointwise_of_mem_standard hk.mem_standard hpixel).value
  simp only [value, hk.kernel, Option.map_some, Option.getD_some]
  refine hvalue _ _ _ fun slot spec hspec hread => ?_
  unfold args
  cases hslot : (s.params[slot]?).join with
  | none => rfl
  | some o =>
    have hparam := Option.join_eq_some_iff.mp hslot
    obtain ⟨spec', hspec', hdir, _⟩ := hk.exists_spec hparam
    rw [hspec, Option.some.injEq] at hspec'
    exact henv o (mem_boundBy.mpr ⟨slot, _, hparam, hdir, hspec' ▸ hread⟩)

/-- What a guard says depends on scalars. -/
theorem Pointwise.admits_congr (h : s.Pointwise p)
    (henv : ∀ o ∈ s.bound, ∀ r, p.object? o = some r → r.info.kind = .scalar → env o = env' o) :
    s.admits p env = s.admits p env' := by
  obtain ⟨k, hk, hpixel⟩ := h
  have hadmits := (Registry.pointwise_of_mem_standard hk.mem_standard hpixel).admits
  simp only [admits, hk.kernel, Option.map_some, Option.getD_some]
  refine hadmits _ _ _ fun slot spec hspec hscalar => ?_
  unfold args
  cases hslot : (s.params[slot]?).join with
  | none => rfl
  | some o =>
    have hparam := Option.join_eq_some_iff.mp hslot
    obtain ⟨spec', hspec', _, r, hr, hkind, _⟩ := hk.exists_spec hparam
    rw [hspec, Option.some.injEq] at hspec'
    exact henv o (mem_bound.mpr ⟨slot, hparam⟩) r hr (hkind.trans (hspec' ▸ hscalar))

/-- What no step writes keeps its number. -/
theorem actAll_of_unwritten {steps : List Step} (hsteps : ∀ s ∈ steps, s.Pointwise p)
    (ho : ∀ s ∈ steps, o ∉ s.writes) (env : ObjectId → Int) : actAll p sink steps env o = env o := by
  induction steps generalizing env with
  | nil => rfl
  | cons s steps ih =>
    have hrest := ih (fun t ht => hsteps t (List.mem_cons_of_mem s ht)) (fun t ht => ho t (List.mem_cons_of_mem s ht))
      (act p sink env s)
    have hs : s.target? ≠ some o := fun h =>
      ho s List.mem_cons_self ((hsteps s List.mem_cons_self).mem_writes.mpr h)
    exact hrest.trans (if_neg hs)

/-- Numbers that agree but for objects which are written before they are read lead to numbers that agree on all that
was set. -/
theorem actAll_congr {steps : List Step} (hsteps : ∀ s ∈ steps, s.Pointwise p) {named unset : ObjectId → Prop}
    (hnamed : ∀ s ∈ steps, ∀ o ∈ s.reads, named o) (hsafe : SafeFrom unset steps)
    (hsink : ∀ s ∈ steps, ∀ o ∈ s.writes, sink o = sink' o) (hset : ∀ o, unset o → ∃ e, sink o = some e)
    (henv : ∀ o, named o → ¬unset o → env o = env' o) (ho : named o) (hwritten : unset o → ∃ s ∈ steps, o ∈ s.writes) :
    actAll p sink steps env o = actAll p sink' steps env' o := by
  -- what is unset shrinks along the steps, and the numbers agree on all the rest
  induction steps generalizing unset env env' with
  | nil => exact henv o ho fun hu => by simpa using hwritten hu
  | cons s steps ih =>
    have hs := hsteps s List.mem_cons_self
    have hvalue : s.value p env = s.value p env' :=
      hs.value_congr fun q hq => henv q (hnamed s List.mem_cons_self q hq) (hsafe.1 q hq)
    refine ih (fun t ht => hsteps t (List.mem_cons_of_mem s ht)) (fun t ht => hnamed t (List.mem_cons_of_mem s ht))
      hsafe.2 (fun t ht => hsink t (List.mem_cons_of_mem s ht)) (fun q hq => hset q hq.1) (fun q hq hno => ?_) ?_
    · unfold act
      by_cases hq' : s.target? = some q
      · have hw := hs.mem_writes.mpr hq'
        rw [if_pos hq', if_pos hq', ← hsink s List.mem_cons_self q hw, hvalue]
        by_cases hu : unset q
        · obtain ⟨e, he⟩ := hset q hu
          rw [he]
          rfl
        · rw [henv q hq hu]
      · rw [if_neg hq', if_neg hq']
        exact henv q hq fun hu => hno ⟨hu, fun hw => hq' (hs.mem_writes.mp hw)⟩
    · rintro ⟨hu, hno⟩
      obtain ⟨t, ht, hw⟩ := hwritten hu
      rcases List.mem_cons.mp ht with rfl | ht
      · exact absurd hw hno
      · exact ⟨t, ht, hw⟩

end Step

end VisionGraph
