import VisionGraph.Proofs.Failure
import VisionGraph.Proofs.TwinPlans

/-! Runs of plans that differ in a scalar. Where the caller binds the value of the constant, both runs make the same
changes: a step reads the same number, whether it stands in the code or in a host object, and a shift that is refused at
run time would have been refused as a constant. -/
namespace VisionGraph

namespace Memory

variable {m : Memory} {z : ObjectId} {a : Place}

/-- The memory without a host object. -/
def without (m : Memory) (z : ObjectId) : Memory := ⟨m.host.erase z, m.scratch⟩

theorem host_without (m : Memory) (z o : ObjectId) :
    (m.without z).host.get? o = if o = z then none else m.host.get? o :=
  IdMap.get?_erase ..

theorem get?_without (ha : a.Apart (.host z)) : (m.without z).get? a = m.get? a := by
  cases a with
  | host o =>
    have ho : o ≠ z := ha
    have hget : (m.without z).get? (.host o) = (m.without z).host.get? o := rfl
    rw [hget, host_without, if_neg ho]
    rfl
  | slot d age =>
    have hd : d ≠ z := Ne.symm ha
    rw [get?_slot, get?_slot, host_without, if_neg hd]
  | scratch o => rfl

theorem set_without (ha : a.Apart (.host z)) (x : Host) : (m.without z).set a x = (m.set a x).without z := by
  apply ext
  · intro o
    rw [host_without]
    cases a with
    | host p =>
      have hp : p ≠ z := ha
      rw [host_set_host, host_set_host, host_without]
      grind
    | slot d age =>
      have hd : d ≠ z := Ne.symm ha
      rw [host_set_slot, host_set_slot, host_without, host_without]
      grind
    | scratch p =>
      rw [host_set_scratch, host_set_scratch, host_without]
  · intro o
    have hscratch (n : Memory) : (n.without z).scratch = n.scratch := rfl
    cases a with
    | host p => rfl
    | slot d age => rw [scratch_set_slot, hscratch, hscratch, scratch_set_slot]
    | scratch p => rfl

theorem setAll_without {updates : List (Place × Host)} (h : ∀ u ∈ updates, u.1.Apart (.host z)) (m : Memory) :
    (m.without z).setAll updates = (m.setAll updates).without z := by
  induction updates generalizing m with
  | nil => rfl
  | cons u rest ih =>
    rw [setAll_cons, setAll_cons, set_without (h u List.mem_cons_self)]
    exact ih (fun w hw => h w (List.mem_cons_of_mem u hw)) _

end Memory

/-- The end of a stage, without a host object. -/
def Stage.endWithout (z : ObjectId) : Except Stop Memory → Except Stop Memory
  | .ok m => .ok (m.without z)
  | .error (.failed m) => .error (.failed (m.without z))
  | .error .astray => .error .astray

/-- The end of a run, without a host object. -/
def RunResult.without (z : ObjectId) : RunResult → RunResult
  | .finished m => .finished (m.without z)
  | .failed i m => .failed i (m.without z)
  | .astray => .astray

namespace Kernel

/-- The value of a kernel depends on its numbers, not on where they stand. -/
theorem value_of_numeric {name : String} {slot : Nat} {k : Kernel} (hk : Registry.standard.find? name = some k)
    (hslot : (name, slot) ∈ numericSlots) {types fixed : LaneTypes}
    (helement : ∀ i, types.element i = fixed.element i)
    (hconstant : ∀ i, (name, i) ∉ numericSlots → types.constant i = fixed.constant i) :
    k.pixel.value types = k.pixel.value fixed := by
  have hsaturates (i : Nat) (hi : (name, i) ∉ numericSlots) : types.saturates i = fixed.saturates i := by
    unfold LaneTypes.saturates
    rw [hconstant i hi]
  rcases cases_of_numeric hk hslot with ⟨rfl, rfl, _⟩ | ⟨rfl, rfl, _⟩ | ⟨rfl, rfl, _⟩ | ⟨rfl, rfl, _⟩ | ⟨rfl, rfl, _⟩
  · rfl
  · have hpolicy := hsaturates 3 (by simp [numericSlots])
    funext read
    simp only [multiply, ofPixel, helement, hpolicy]
  · funext read
    simp only [multiplyScalar, ofPixel, helement]
  · funext read
    simp only [Kernel.clamp, ofPixel, helement]
  · have hpolicy := hsaturates 2 (by simp [numericSlots])
    funext read
    simp only [convertDepth, ofPixel, helement, hpolicy]

theorem isPixelwise_of_numeric {name : String} {slot : Nat} {k : Kernel} (hk : Registry.standard.find? name = some k)
    (hslot : (name, slot) ∈ numericSlots) : k.isPixelwise = true := by
  rcases cases_of_numeric hk hslot with ⟨_, rfl, _⟩ | ⟨_, rfl, _⟩ | ⟨_, rfl, _⟩ | ⟨_, rfl, _⟩ | ⟨_, rfl, _⟩ <;> rfl

theorem convertDepth_constant {known : Known} {inferences : List Inference} {v : Scalar}
    (h : convertDepth.rule known = .ok inferences) (hv : Rule.slotMeta known 3 = some (.scalar (.constant v))) :
    0 ≤ v.toElement ∧ v.toElement < 8 := by
  obtain ⟨a, ha, htype, hrange⟩ := convertDepth_shift h
  have hconstant : a = .constant v := by simpa [hv] using ha.symm
  subst hconstant
  obtain ⟨w, rfl⟩ := Scalar.exists_s32 (Option.some.inj htype)
  exact hrange w rfl

end Kernel

namespace Plan

namespace Twins

variable {z : ObjectId} {v : Scalar} {p q : Plan} {s t : Storage} {stage : Stage} {step : Step} {m n : Memory}

/-! ### Places -/

variable (h : Twins z v p q)

include h

variable {o : ObjectId} {env env' : ObjectId → Int}

theorem home_of_ne (ho : o ≠ z) : q.home o = p.home o := by
  unfold Plan.home
  rw [h.others o ho]

/-- The caller binds the scalar as a host object of its own. -/
theorem home_free : p.home z = some (.host z) := by
  unfold Plan.home
  rw [h.free]
  rfl

/-- A stage that names the constant finds it in the plan. -/
theorem fixed_of_referenced (hstage : stage ∈ p.stages) (hz : z ∈ stage.referenced) :
    q.object? z = some ⟨fixedScalar z v, .scalar (.constant v)⟩ := by
  obtain ⟨r, hr, _⟩ := h.fixedSound.exists_object (h.stages ▸ hstage) hz
  rw [hr, h.fixed r hr]

theorem not_internal (hstage : stage ∈ p.stages) : z ∉ stage.internal := by
  intro hz
  have hprivate := (h.sound.stages stage hstage).hidden z hz
  unfold Plan.isPrivateImage at hprivate
  rw [h.free] at hprivate
  contradiction

/-- All other objects of a stage are found at the same places. -/
theorem place?_of_ne (hs : Storage.ofPlan p = .ok s) (ht : Storage.ofPlan q = .ok t) (hstage : stage ∈ p.stages)
    (ho : o ∈ stage.referenced) (hne : o ≠ z) : t.place? o = s.place? o := by
  have hstage' : stage ∈ q.stages := h.stages ▸ hstage
  by_cases hi : o ∈ stage.internal
  · rw [place?_internal hs hstage hi, place?_internal ht hstage' hi]
  · rw [h.sound.place?_eq_home hs hstage ho hi, h.fixedSound.place?_eq_home ht hstage' ho hi, h.home_of_ne hne]

theorem place?_fixed (ht : Storage.ofPlan q = .ok t) (hstage : stage ∈ p.stages) (hz : z ∈ stage.referenced) :
    t.place? z = none := by
  have hconstant : (q.object? z).bind (·.object.constant) = some v := by
    rw [h.fixed_of_referenced hstage hz]
    rfl
  rw [h.fixedSound.place?_eq_home ht (h.stages ▸ hstage) hz (h.not_internal hstage), home_eq_none hconstant]

/-- What else a stage names is kept apart from the scalar. -/
theorem apart_home (hstage : stage ∈ p.stages) (ho : o ∈ stage.referenced) (hne : o ≠ z) {a : Place}
    (ha : p.home o = some a) : a.Apart (.host z) := by
  obtain ⟨r, hr, _, _, hkind⟩ := h.sound.exists_object hstage ho
  exact h.sound.apart_home hr h.free hkind (nofun) hne ha h.home_free

/-- What a stage writes is apart from the scalar. -/
theorem apart_written (hs : Storage.ofPlan p = .ok s) (hstage : stage ∈ p.stages) {a : Place}
    (ha : a ∈ stage.writtenPlaces s) : a.Apart (.host z) := by
  obtain ⟨o, ho, hhome⟩ := h.sound.home_of_written hs hstage ha
  refine h.apart_home hstage (Stage.referenced_of_writes ho) ?_ hhome
  intro he
  exact h.not_writes hstage (he ▸ ho)

/-- A memory that conforms to the one plan conforms to the other without the scalar. -/
theorem conforms (hs : Storage.ofPlan p = .ok s) (ht : Storage.ofPlan q = .ok t) (hm : p.Conforms s m) :
    q.Conforms t (m.without z) := by
  intro stage hstage o ho a ha
  rw [← h.stages] at hstage
  -- a constant has no place
  have hne : o ≠ z := by
    intro he
    rw [he] at ho ha
    rw [h.place?_fixed ht hstage ho] at ha
    cases ha
  rw [h.place?_of_ne hs ht hstage ho hne] at ha
  obtain ⟨x, info, hx, hinfo, hfits⟩ := hm stage hstage o ho a ha
  have hi : o ∉ stage.internal := by
    intro hi
    rw [place?_internal hs hstage hi] at ha
    cases ha
  have hapart := h.apart_home hstage ho hne ((h.sound.place?_eq_home hs hstage ho hi).symm.trans ha)
  refine ⟨x, info, ?_, ?_, hfits⟩
  · rw [Memory.get?_without hapart, hx]
  · rw [← h.info?_of_ne hne, hinfo]

/-! ### Pixel-wise stages -/

theorem held_of_ne (hstage : stage ∈ p.stages) (ho : o ∈ stage.referenced) (hne : o ≠ z) :
    q.held (m.without z) o = p.held m o := by
  apply held_congr (h.home_of_ne hne)
  intro a ha
  exact Memory.get?_without (h.apart_home hstage ho hne ha)

theorem held_free : p.held m z = m.host.get? z := by
  unfold held
  rw [h.home_free]
  rfl

/-- The number of the scalar is that of the constant. -/
theorem cell_eq (hv : m.host.get? z = some (.scalar v)) (hstage : stage ∈ p.stages) (ho : o ∈ stage.referenced)
    (i : Nat) : q.cell (m.without z) i o = p.cell m i o := by
  by_cases hne : o = z
  · rw [hne] at ho ⊢
    unfold cell
    rw [h.fixed_of_referenced hstage ho, h.free, h.held_free, hv]
    rfl
  · unfold cell
    rw [h.held_of_ne hstage ho hne, h.others o hne]

theorem start_eq (hv : m.host.get? z = some (.scalar v)) (hstage : stage ∈ p.stages) (ho : o ∈ stage.referenced)
    (i : Nat) : stage.start q (m.without z) i o = stage.start p m i o := by
  unfold Stage.start
  rw [h.cell_eq hv hstage ho]

theorem laneType_of_ne (hne : o ≠ z) : Stage.laneType q (some o) = Stage.laneType p (some o) := by
  apply Stage.laneType_congr
  intro x hx
  cases hx
  exact (h.others o hne).symm

/-- The types of the parameters: those of the constant and of the scalar differ in the value only. -/
theorem types_eq (hstage : stage ∈ p.stages) (hstep : step ∈ stage.steps) (i : Nat) :
    (step.types q).element i = (step.types p).element i ∧
      ((step.kernel, i) ∉ numericSlots → (step.types q).constant i = (step.types p).constant i) := by
  have hget (r : Plan) : (step.types r).getD i default = ((step.params[i]?).map (Stage.laneType r)).getD default := by
    simp [Step.types]
  unfold LaneTypes.element LaneTypes.constant
  rw [hget, hget]
  cases hparam : step.params[i]? with
  | none => exact ⟨rfl, fun _ => rfl⟩
  | some param =>
    cases param with
    | none => exact ⟨rfl, fun _ => rfl⟩
    | some o =>
      by_cases hne : o = z
      · -- the element type of the constant is that of its type; its value is of no account in a slot of a number
        rw [hne] at hparam
        have hz : z ∈ stage.referenced := Stage.mem_referenced_of_param hstep (List.mem_of_getElem? hparam)
        constructor
        · simp only [hne, Option.map_some, Option.getD_some, Stage.laneType, h.fixed_of_referenced hstage hz, h.free]
          rfl
        · intro hno
          exact absurd (h.numbers stage hstage step hstep i hparam) hno
      · simp only [Option.map_some, h.laneType_of_ne hne, true_and, implies_true]

omit h in
theorem args_eq (henv : ∀ o ∈ step.bound, env' o = env o) : step.args env' = step.args env := by
  funext slot
  unfold Step.args
  cases hslot : (step.params[slot]?).join with
  | none => rfl
  | some o => exact henv o (Step.mem_bound.mpr ⟨slot, Option.join_eq_some_iff.mp hslot⟩)

/-- A step that does not name the scalar has parameters of the same types. -/
theorem types_of_unbound (hz : z ∉ step.bound) : step.types q = step.types p := by
  unfold Step.types
  congr 1
  apply List.map_congr_left
  intro param hparam
  cases param with
  | none => rfl
  | some o =>
    apply h.laneType_of_ne
    intro he
    obtain ⟨slot, hslot⟩ := List.mem_iff_getElem?.mp hparam
    exact hz (Step.mem_bound.mpr ⟨slot, he ▸ hslot⟩)

/-- A step computes the same number from the same numbers. -/
theorem value_eq (hstage : stage ∈ p.stages) (hstep : step ∈ stage.steps) (henv : ∀ o ∈ step.bound, env' o = env o) :
    step.value q env' = step.value p env := by
  obtain ⟨k, hk, _⟩ := (h.sound.stages stage hstage).steps step hstep
  have hvalue : k.pixel.value (step.types q) = k.pixel.value (step.types p) := by
    by_cases hz : z ∈ step.bound
    · obtain ⟨slot, hslot⟩ := Step.mem_bound.mp hz
      have hnumber := h.numbers stage hstage step hstep slot hslot
      exact Kernel.value_of_numeric hk.kernel hnumber (fun i => (h.types_eq hstage hstep i).1)
        fun i => (h.types_eq hstage hstep i).2
    · rw [h.types_of_unbound hz]
  simp only [Step.value, hk.kernel, Option.map_some, Option.getD_some, hvalue, args_eq henv]

/-- Of a depth conversion only the shift is a number. -/
theorem shift_param (hstage : stage ∈ p.stages) (hstep : step ∈ stage.steps) (hk : step.Valid p Kernel.convertDepth)
    (hz : z ∈ step.bound) : step.params[3]? = some (some z) := by
  obtain ⟨slot, hslot⟩ := Step.mem_bound.mp hz
  have hnumber := h.numbers stage hstage step hstep slot hslot
  have hname : step.kernel = "vx.convert_depth" := (hk.kernel_eq_iff Kernel.convertDepth rfl).mpr rfl
  have hthree : slot = 3 := by simpa [numericSlots, hname] using hnumber
  rw [← hthree, hslot]

theorem shift_arg (hv : m.host.get? z = some (.scalar v)) (hstage : stage ∈ p.stages) (hstep : step ∈ stage.steps)
    (hk : step.Valid p Kernel.convertDepth) (hz : z ∈ step.bound) : step.args (stage.start p m 0) 3 = v.toElement := by
  unfold Step.args
  rw [h.shift_param hstage hstep hk hz]
  have hstart : stage.start p m 0 z = p.cell m 0 z := if_neg (h.not_internal hstage)
  have hcell : p.cell m 0 z = v.toElement := by
    unfold cell
    rw [h.free, h.held_free, hv]
    rfl
  exact hstart.trans hcell

/-- Verification has looked at the constant shift. -/
theorem shift_in_range (hstage : stage ∈ p.stages) (hstep : step ∈ stage.steps) (hk : step.Valid p Kernel.convertDepth)
    (hz : z ∈ step.bound) : 0 ≤ v.toElement ∧ v.toElement < 8 := by
  obtain ⟨k, hk', _⟩ := (h.fixedSound.stages stage (h.stages ▸ hstage)).steps step hstep
  have hsame : k = Kernel.convertDepth := Option.some.inj (hk'.kernel.symm.trans hk.kernel)
  subst hsame
  obtain ⟨_, hrule, _⟩ := hk'.accepted
  have hobject := h.fixed_of_referenced hstage (Stage.mem_referenced.mpr ⟨step, hstep, hz⟩)
  have hinfo : q.info? z = some (.scalar (.constant v)) := congrArg (Option.map Resolved.info) hobject
  exact Kernel.convertDepth_constant hrule (slotMeta_known.mpr ⟨z, h.shift_param hstage hstep hk hz, hinfo⟩)

/-- A guard that has the constant in the code holds, and then it holds of the value too. -/
theorem admits_eq (hv : m.host.get? z = some (.scalar v)) (hstage : stage ∈ p.stages) (hpixel : stage.pixelwise = true)
    (hstep : step ∈ stage.steps) :
    step.admits q (stage.start q (m.without z) 0) = step.admits p (stage.start p m 0) := by
  obtain ⟨k, hk, hkp⟩ := (h.sound.stages stage hstage).steps step hstep
  have hargs : step.args (stage.start q (m.without z) 0) = step.args (stage.start p m 0) :=
    args_eq fun o ho => h.start_eq hv hstage (Stage.mem_referenced.mpr ⟨step, hstep, ho⟩) 0
  simp only [Step.admits, hk.kernel, Option.map_some, Option.getD_some, hargs]
  -- no other kernel has a guard
  by_cases hdepth : k = Kernel.convertDepth
  · by_cases hz : z ∈ step.bound
    · have hrange := h.shift_in_range hstage hstep (hdepth ▸ hk) hz
      have hstart : step.args (stage.start p m 0) 3 = v.toElement := h.shift_arg hv hstage hstep (hdepth ▸ hk) hz
      have htrue (types : LaneTypes) : Kernel.convertDepth.pixel.admits types (step.args (stage.start p m 0)) = true := by
        have hguard : Kernel.convertDepth.pixel.admits types (step.args (stage.start p m 0)) =
            ((types.constant 3).isSome || decide (0 ≤ step.args (stage.start p m 0) 3 ∧
              step.args (stage.start p m 0) 3 < 8)) := rfl
        rw [hguard, hstart, decide_eq_true hrange, Bool.or_true]
      rw [hdepth, htrue, htrue]
    · rw [h.types_of_unbound hz]
  · rw [Registry.admits_of_mem_standard hk.mem_standard (hkp.trans hpixel) hdepth,
      Registry.admits_of_mem_standard hk.mem_standard (hkp.trans hpixel) hdepth]

theorem sink_eq (hstage : stage ∈ p.stages) (ho : o ∈ stage.referenced) (hne : o ≠ z) :
    stage.sink q (m.without z) o = stage.sink p m o := by
  unfold Stage.sink
  rw [h.laneType_of_ne hne, h.held_of_ne hstage ho hne]

/-- The numbers after some steps of a stage. -/
theorem actAll_eq (hstage : stage ∈ p.stages) (hpixel : stage.pixelwise = true) {steps : List Step}
    (hsteps : ∀ step ∈ steps, step ∈ stage.steps) (henv : ∀ o ∈ stage.referenced, env' o = env o)
    (ho : o ∈ stage.referenced) :
    Step.actAll q (stage.sink q (m.without z)) steps env' o = Step.actAll p (stage.sink p m) steps env o := by
  induction steps generalizing env env' with
  | nil => exact henv o ho
  | cons step rest ih =>
    apply ih (fun other hother => hsteps other (List.mem_cons_of_mem step hother))
    have hstep := hsteps step List.mem_cons_self
    intro x hx
    have hvalue := h.value_eq hstage hstep fun y hy => henv y (Stage.mem_referenced.mpr ⟨step, hstep, hy⟩)
    unfold Step.act
    split
    · rename_i htarget
      -- the target of a step is written, so it is not the scalar
      have hne : x ≠ z := by
        intro he
        obtain ⟨k, hk, hkp⟩ := (h.sound.stages stage hstage).steps step hstep
        have hpoint : step.Pointwise p := ⟨k, hk, hkp.trans hpixel⟩
        exact h.not_writes_step hstage hstep (he ▸ hpoint.mem_writes.mpr htarget)
      rw [h.sink_eq hstage hx hne, hvalue, henv x hx]
    · exact henv x hx

/-- A pixel-wise stage makes the same changes. -/
theorem results_eq (hv : m.host.get? z = some (.scalar v)) (hstage : stage ∈ p.stages)
    (hpixel : stage.pixelwise = true) : stage.results q (m.without z) = stage.results p m := by
  unfold Stage.results
  apply List.filterMap_congr
  intro o ho
  have href := Stage.referenced_of_writes ho
  have hne : o ≠ z := by
    intro he
    exact h.not_writes hstage (he ▸ ho)
  have hfinish : (fun i => stage.finish q (m.without z) i o) = fun i => stage.finish p m i o := by
    funext i
    exact h.actAll_eq hstage hpixel (fun _ hstep => hstep) (fun x hx => h.start_eq hv hstage hx i) href
  rw [h.home_of_ne hne, h.held_of_ne hstage href hne, hfinish]

theorem extent?_eq (stage : Stage) : q.extent? stage = p.extent? stage := by
  unfold Plan.extent?
  apply findSome?_congr
  intro o _
  have hassoc (r : Plan) : ((r.info? o).bind fun info => info.image?.bind fun m =>
      m.pixelCount.bind fun n => m.format.bind fun f => some (n * f.channels)) =
      ((r.info? o).bind Meta.image?).bind fun m =>
        m.pixelCount.bind fun n => m.format.bind fun f => some (n * f.channels) := Option.bind_assoc .. |>.symm
  exact (hassoc q).trans ((congrArg (Option.bind · _) (h.image?_eq o).symm).trans (hassoc p).symm)

theorem apart_results (hstage : stage ∈ p.stages) {u : Place × Host} (hu : u ∈ stage.results p m) :
    u.1.Apart (.host z) := by
  obtain ⟨o, ho, hout⟩ := List.mem_filterMap.mp hu
  obtain ⟨a, ha, hout⟩ := Option.bind_eq_some_iff.mp hout
  obtain ⟨x, _, rfl⟩ := Option.map_eq_some_iff.mp hout
  refine h.apart_home hstage (Stage.referenced_of_writes ho) ?_ ha
  intro he
  exact h.not_writes hstage (he ▸ ho)

theorem run_pixelwise (hs : Storage.ofPlan p = .ok s) (ht : Storage.ofPlan q = .ok t) (hu : p.Uniform) (hu' : q.Uniform)
    (hm : p.Conforms s m) (hv : m.host.get? z = some (.scalar v)) (hstage : stage ∈ p.stages)
    (hpixel : stage.pixelwise = true) :
    stage.run .standard q t (m.without z) = Stage.endWithout z (stage.run .standard p s m) := by
  have hstage' : stage ∈ q.stages := h.stages ▸ hstage
  have hm' := h.conforms hs ht hm
  obtain ⟨objects, hload⟩ := hm.exists_load hstage
  obtain ⟨objects', hload'⟩ := hm'.exists_load hstage'
  obtain ⟨count, hcount⟩ := h.sound.exists_extent hstage hpixel
  have hcount' : q.extent? stage = some count := (h.extent?_eq stage).trans hcount
  have hguards : (∀ step ∈ stage.steps, step.admits q (stage.start q (m.without z) 0) = true) ↔
      ∀ step ∈ stage.steps, step.admits p (stage.start p m 0) = true := by
    apply forall₂_congr
    intro step hstep
    rw [h.admits_eq hv hstage hpixel hstep]
  rw [h.sound.run_pixelwise hs hstage hpixel hload hcount (hm.sized h.sound hs hu hstage hpixel hcount),
    h.fixedSound.run_pixelwise ht hstage' hpixel hload' hcount'
      (hm'.sized h.fixedSound ht hu' hstage' hpixel hcount'),
    h.results_eq hv hstage hpixel, Memory.setAll_without fun u hu => h.apart_results hstage hu]
  simp only [hguards]
  split
  · rfl
  · rfl

/-! ### Stages over whole objects -/

/-- Only pixel-wise kernels take numbers. -/
theorem not_referenced (hstage : stage ∈ p.stages) (hblock : stage.pixelwise = false) : z ∉ stage.referenced := by
  intro hz
  obtain ⟨step, hstep, hbound⟩ := Stage.mem_referenced.mp hz
  obtain ⟨slot, hslot⟩ := Step.mem_bound.mp hbound
  obtain ⟨k, hk, hkp⟩ := (h.sound.stages stage hstage).steps step hstep
  have hpixel := Kernel.isPixelwise_of_numeric hk.kernel (h.numbers stage hstage step hstep slot hslot)
  rw [hpixel, hblock] at hkp
  cases hkp

omit h in
/-- A handle depends on the place of an object and on whether it is a constant. -/
theorem handle_congr {places : List Place}
    (hconstant : ∀ w, t.placement? o = some (.constant w) ↔ s.placement? o = some (.constant w))
    (hplace : t.place? o = s.place? o) : t.handle places (some o) = s.handle places (some o) := by
  have hother (u : Storage) (hno : ∀ w, u.placement? o ≠ some (.constant w)) :
      u.handle places (some o) = ((u.place? o).bind places.idxOf?).elim .unbound .object := by
    simp only [Storage.handle]
    split
    · rename_i hw
      exact absurd hw (hno _)
    · rename_i hindex _
      rw [hindex]
      rfl
    · rename_i hindex _
      rw [hindex]
      rfl
  by_cases hw : ∃ w, s.placement? o = some (.constant w)
  · obtain ⟨w, hw⟩ := hw
    simp only [Storage.handle, hw, (hconstant w).mpr hw]
  · push Not at hw
    have hw' : ∀ w, t.placement? o ≠ some (.constant w) := fun w he => hw w ((hconstant w).mp he)
    rw [hother s hw, hother t hw', hplace]

/-- The constants of such a stage are the same. -/
theorem placement_constant (hs : Storage.ofPlan p = .ok s) (ht : Storage.ofPlan q = .ok t) (hstage : stage ∈ p.stages)
    (hblock : stage.pixelwise = false) (ho : o ∈ stage.referenced) (w : Scalar) :
    t.placement? o = some (.constant w) ↔ s.placement? o = some (.constant w) := by
  have hne : o ≠ z := fun he => h.not_referenced hstage hblock (he ▸ ho)
  obtain ⟨r, hr, _⟩ := h.sound.exists_object hstage ho
  have hr' : q.object? o = some r := (h.others o hne).symm.trans hr
  obtain ⟨hvalue, hnone⟩ := h.sound.placement_block hs hstage hblock ho hr
  obtain ⟨hvalue', hnone'⟩ := h.fixedSound.placement_block ht (h.stages ▸ hstage) hblock ho hr'
  cases hinfo : r.info.value? with
  | some x => rw [hvalue x hinfo, hvalue' x hinfo]
  | none => exact iff_of_false ((hnone' hinfo).1 w) ((hnone hinfo).1 w)

section Block

variable (hs : Storage.ofPlan p = .ok s) (ht : Storage.ofPlan q = .ok t)
  (hstage : stage ∈ p.stages) (hblock : stage.pixelwise = false)
include hs ht hstage hblock

theorem place?_block (ho : o ∈ stage.referenced) : t.place? o = s.place? o := by
  apply h.place?_of_ne hs ht hstage ho
  intro he
  exact h.not_referenced hstage hblock (he ▸ ho)

theorem touched_block : stage.touched t = stage.touched s := by
  apply Storage.places_congr
  intro o ho
  obtain ⟨step, hstep, hparam⟩ := List.mem_flatMap.mp ho
  exact h.place?_block hs ht hstage hblock (Stage.mem_referenced_of_param hstep hparam)

theorem load_block : (m.without z).load (stage.touched t) = m.load (stage.touched s) := by
  rw [h.touched_block hs ht hstage hblock]
  apply Memory.load_congr
  intro a ha
  obtain ⟨o, ho, _, hhome⟩ := h.sound.home_of_touched hs hstage ha
  have hne : o ≠ z := fun he => h.not_referenced hstage hblock (he ▸ ho)
  exact Memory.get?_without (h.apart_home hstage ho hne hhome)

/-- What is stored after the stage. -/
theorem setAll_block (out : Array Host) :
    (m.without z).setAll (stage.updates t out) = (m.setAll (stage.updates s out)).without z := by
  have hwritten : stage.writtenPlaces t = stage.writtenPlaces s :=
    List.filterMap_congr fun o ho => h.place?_block hs ht hstage hblock (Stage.referenced_of_writes ho)
  have hupdates : stage.updates t out = stage.updates s out := by
    unfold Stage.updates
    rw [h.touched_block hs ht hstage hblock, hwritten]
  rw [hupdates]
  exact Memory.setAll_without (fun u hu => h.apart_written hs hstage (Stage.mem_updates.mp hu).1) m

/-- What the kernel is called with. -/
theorem frame_block (hstep : step ∈ stage.steps) (objects : Array Host) :
    Stage.frame t step objects = Stage.frame s step objects := by
  have hplace {o : ObjectId} (ho : some o ∈ step.params) : t.place? o = s.place? o :=
    h.place?_block hs ht hstage hblock (Stage.mem_referenced_of_param hstep ho)
  have hplaces : t.places step.params = s.places step.params := Storage.places_congr fun _ ho => hplace ho
  have hhandles : step.params.map (t.handle (s.places step.params)) =
      step.params.map (s.handle (s.places step.params)) := by
    apply List.map_congr_left
    intro param hparam
    cases param with
    | none => rfl
    | some o =>
      have ho := Stage.mem_referenced_of_param hstep hparam
      exact handle_congr (h.placement_constant hs ht hstage hblock ho) (hplace hparam)
  unfold Stage.frame
  rw [hplaces, hhandles]

theorem run_block (hm : p.Conforms s m) :
    stage.run .standard q t (m.without z) = Stage.endWithout z (stage.run .standard p s m) := by
  obtain ⟨objects, hload⟩ := hm.exists_load hstage
  have hload' := (h.load_block hs ht hstage hblock).trans hload
  obtain ⟨step, k, hsteps, hk, _, _, hrun⟩ := h.sound.run_block hs hstage hblock hload
  obtain ⟨step', k', hsteps', hk', _, _, hrun'⟩ := h.fixedSound.run_block ht (h.stages ▸ hstage) hblock hload'
  -- both stages have one step, of one kernel
  have hstep : step' = step := by simpa [hsteps] using hsteps'.symm
  subst hstep
  have hkernel : k' = k := Option.some.inj (hk'.kernel.symm.trans hk.kernel)
  subst hkernel
  have hframe := h.frame_block hs ht hstage hblock (hsteps ▸ List.mem_singleton_self step') objects
  rw [hrun, hrun', hframe]
  simp only [h.setAll_block hs ht hstage hblock]
  cases k'.effect step'.border (Stage.frame s step' objects) with
  | ok f => rfl
  | error halt =>
    cases halt with
    | failed f => rfl
    | astray => rfl

end Block

/-! ### Runs -/

/-- What a stage does with the scalar, it does without it where there is the constant. -/
theorem run_stage (hs : Storage.ofPlan p = .ok s) (ht : Storage.ofPlan q = .ok t) (hu : p.Uniform) (hu' : q.Uniform)
    (hm : p.Conforms s m) (hv : m.host.get? z = some (.scalar v)) (hstage : stage ∈ p.stages) :
    stage.run .standard q t (m.without z) = Stage.endWithout z (stage.run .standard p s m) := by
  cases hpixel : stage.pixelwise with
  | true => exact h.run_pixelwise hs ht hu hu' hm hv hstage hpixel
  | false => exact h.run_block hs ht hstage hpixel hm

theorem host_of_run (hs : Storage.ofPlan p = .ok s) (hstage : stage ∈ p.stages)
    (hrun : stage.run .standard p s m = .ok n) : n.host.get? z = m.host.get? z := by
  obtain ⟨us, rfl, hus⟩ := h.sound.footprint hs hstage (.inl hrun)
  have hget := Memory.get?_setAll (fun u hu => h.apart_written hs hstage (hus u hu)) m
  exact hget

/-- Stages in turn: the scalar keeps its value, so each of them is followed. -/
theorem runFrom (hs : Storage.ofPlan p = .ok s) (ht : Storage.ofPlan q = .ok t) (hu : p.Uniform) (hu' : q.Uniform)
    (hx : p.HasExtrema) {stages : List Stage} (hstages : ∀ stage ∈ stages, stage ∈ p.stages) (position : Nat)
    (hm : p.Conforms s m) (hv : m.host.get? z = some (.scalar v)) :
    q.runFrom .standard t position stages (m.without z) =
      (p.runFrom .standard s position stages m).without z := by
  induction stages generalizing position m with
  | nil => rfl
  | cons stage rest ih =>
    have hstage := hstages stage List.mem_cons_self
    obtain ⟨next, hkeeps, hrun⟩ := hm.stage_ends h.sound hs hu hx hstage
    unfold Plan.runFrom
    rw [h.run_stage hs ht hu hu' hm hv hstage]
    rcases hrun with hrun | hrun
    · -- no stage writes the scalar, so the next one finds the same value
      rw [hrun]
      have hv' : next.host.get? z = some (.scalar v) := (h.host_of_run hs hstage hrun).trans hv
      exact ih (fun other hother => hstages other (List.mem_cons_of_mem stage hother)) (position + 1) (hm.keeps hkeeps) hv'
    · rw [hrun]
      rfl

/-! ### The start of a run -/

/-- The caller binds the same objects, except the scalar. -/
theorem mem_entries_iff (o : ObjectId) : o ∈ q.entries ↔ o ∈ p.entries ∧ o ≠ z := by
  rw [mem_entries h.fixedSound.ids, mem_entries h.sound.ids]
  constructor
  · intro hq
    obtain ⟨r, hr, hentry⟩ := hq
    have hne : o ≠ z := by
      intro he
      rw [he] at hr
      rw [h.fixed r hr] at hentry
      contradiction
    exact ⟨⟨r, (h.others o hne).trans hr, hentry⟩, hne⟩
  · intro hp
    obtain ⟨⟨r, hr, hentry⟩, hne⟩ := hp
    exact ⟨r, (h.others o hne).symm.trans hr, hentry⟩

theorem entries_eq : q.entries = p.entries.filter (· ≠ z) := by
  refine IdMap.eq_of_increasing ObjectId.index (sorted_entries h.fixedSound.ids)
    ((sorted_entries h.sound.ids).sublist List.filter_sublist) fun o => ?_
  rw [h.mem_entries_iff, List.mem_filter, decide_eq_true_eq]

theorem mem_entries_free : z ∈ p.entries := (mem_entries h.sound.ids).mpr ⟨_, h.free, rfl⟩

theorem hosts {b : Bindings} (hb : p.Hosts b) : q.Hosts (b.erase z) := by
  intro o ho
  obtain ⟨hmem, hne⟩ := (h.mem_entries_iff o).mp ho
  obtain ⟨x, info, hx, hinfo, hfits⟩ := hb o hmem
  refine ⟨x, info, ?_, (h.info?_of_ne hne).symm.trans hinfo, hfits⟩
  rw [IdMap.get?_erase, if_neg hne, hx]

omit h in
theorem placement_eq_scratch {u : Storage} : u.placement? o = some .scratch ↔ u.place? o = some (.scratch o) := by
  unfold Storage.place?
  cases u.placement? o with
  | none => simp
  | some x => cases x <;> simp

theorem not_scratch (hs : Storage.ofPlan p = .ok s) : s.placement? z ≠ some .scratch := by
  intro hscratch
  obtain ⟨stage, hstage, hz⟩ := Storage.exists_stage_of_scratch hs hscratch
  have hplace := placement_eq_scratch.mp hscratch
  rw [h.sound.place?_eq_home hs hstage hz (h.not_internal hstage), h.home_free] at hplace
  cases hplace

/-- The same objects live only during the run. -/
theorem placement_scratch (hs : Storage.ofPlan p = .ok s) (ht : Storage.ofPlan q = .ok t) (o : ObjectId) :
    t.placement? o = some .scratch ↔ s.placement? o = some .scratch := by
  constructor
  · intro hscratch
    obtain ⟨stage, hstage, ho⟩ := Storage.exists_stage_of_scratch ht hscratch
    rw [← h.stages] at hstage
    have hplace := placement_eq_scratch.mp hscratch
    have hne : o ≠ z := by
      intro he
      rw [he] at ho hplace
      rw [h.place?_fixed ht hstage ho] at hplace
      cases hplace
    rw [h.place?_of_ne hs ht hstage ho hne] at hplace
    exact placement_eq_scratch.mpr hplace
  · intro hscratch
    obtain ⟨stage, hstage, ho⟩ := Storage.exists_stage_of_scratch hs hscratch
    have hne : o ≠ z := fun he => h.not_scratch hs (he ▸ hscratch)
    apply placement_eq_scratch.mpr
    rw [h.place?_of_ne hs ht hstage ho hne]
    exact placement_eq_scratch.mp hscratch

theorem freshScratch_eq (hs : Storage.ofPlan p = .ok s) (ht : Storage.ofPlan q = .ok t) :
    q.freshScratch t = p.freshScratch s := by
  apply IdMap.ext
  intro o
  rw [get?_freshScratch, get?_freshScratch]
  simp only [h.placement_scratch hs ht o]
  split
  · rename_i hscratch
    have hne : o ≠ z := fun he => h.not_scratch hs (he ▸ hscratch)
    unfold fresh
    rw [h.info?_of_ne hne]
  · rfl

/-- A run with the scalar bound to the value and a run with the constant. -/
theorem runs (hs : Storage.ofPlan p = .ok s) (ht : Storage.ofPlan q = .ok t) (hu : p.Uniform) (hu' : q.Uniform)
    (hx : p.HasExtrema) {b : Bindings} (hb : p.Hosts b) (hv : b.get? z = some (.scalar v)) :
    q.run .standard t (b.erase z) = (p.run .standard s b).without z := by
  obtain ⟨hstart, hm⟩ := hb.start h.sound hs
  have hstart' := ((h.hosts hb).start h.fixedSound ht).1
  have hwithout : (Memory.mk (b.erase z) (q.freshScratch t)) = (Memory.mk b (p.freshScratch s)).without z := by
    rw [h.freshScratch_eq hs ht]
    rfl
  unfold Plan.run
  rw [hstart, hstart', hwithout, ← h.stages]
  exact h.runFrom hs ht hu hu' hx (fun _ hstage => hstage) 0 hm hv

end Twins

end Plan

end VisionGraph
