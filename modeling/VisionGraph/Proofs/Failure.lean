import VisionGraph.Proofs.RunSafety

/-! How runs fail. Two things stop a stage: the shift of a depth conversion that is out of range, and a sample that a
lookup table has no item for. A run ends at the first stage that one of them stops, with all that the stages before it
have written and, of a lookup, the samples before the one that is missing. -/
namespace VisionGraph

/-! ### What stops a stage -/

/-- A depth conversion with a shift that is not constant and out of range. -/
def Step.ShiftOutside (p : Plan) (m : Memory) (step : Step) : Prop :=
  step.kernel = "vx.convert_depth" ∧ ∃ o v, step.params[3]? = some (some o) ∧ p.held m o = some (.scalar (.s32 v)) ∧
    (v.toInt < 0 ∨ 8 ≤ v.toInt)

/-- What stops a stage, and the memory that it leaves. -/
inductive Stage.Fails (p : Plan) (m : Memory) (stage : Stage) : Memory → Prop
  | shift (step : Step) (hstep : step ∈ stage.steps) (hshift : step.ShiftOutside p m) : Fails p m stage m
  /-- The output has the items of the samples before the first that is past the table. -/
  | lookup (step : Step) (hstep : step ∈ stage.steps) (hkernel : step.kernel = "vx.table_lookup")
    (input table output : ObjectId) (hparams : step.params = [some input, some table, some output])
    (src : ImageBuffer) (hsrc : p.held m input = some (.image src)) (lut : ArrayBuffer)
    (hlut : p.held m table = some (.array lut)) (a : Place) (ha : p.home output = some a) (dst : ImageBuffer)
    (hdst : m.get? a = some (.image dst)) (i : Nat) (hi : Kernel.firstPast src lut = some i) :
    Fails p m stage (m.set a (.image (dst.overwrite i (Kernel.lookedUp src lut))))

/-- The name of a step tells its kernel. -/
theorem Step.Valid.kernel_eq_iff {p : Plan} {step : Step} {k : Kernel} (h : step.Valid p k) (other : Kernel)
    (hfind : Registry.standard.find? other.name = some other) : step.kernel = other.name ↔ k = other := by
  constructor
  · intro heq
    rw [← heq, h.kernel] at hfind
    exact Option.some.inj hfind
  · rintro rfl
    exact h.name_eq

/-! ### Guards -/

theorem Registry.admits_of_mem_standard {k : Kernel} (hk : k ∈ Registry.standard.kernels)
    (hpixel : k.isPixelwise = true) (hne : k ≠ Kernel.convertDepth) (types : LaneTypes) (read : Nat → Int) :
    k.pixel.admits types read = true := by
  have hmem : k ∈ Registry.standard.kernels.filter (·.isPixelwise) := List.mem_filter.mpr ⟨hk, hpixel⟩
  simp only [Registry.pixelwise_standard, List.mem_cons, List.not_mem_nil, or_false] at hmem
  repeat' rcases hmem with rfl | hmem
  all_goals first | rfl | exact absurd rfl hne

/-- The shift of a depth conversion has a type, and if it is a constant, it is in range. -/
theorem Kernel.convertDepth_shift {known : Known} {inferences : List Inference}
    (h : convertDepth.rule known = .ok inferences) :
    ∃ a, Rule.slotMeta known 3 = some (.scalar a) ∧ a.type = some .s32 ∧
      ∀ w, a.value = some (.s32 w) → 0 ≤ w.toInt ∧ w.toInt < 8 := by
  obtain ⟨input, _, h⟩ := bind_eq_ok.mp h
  dsimp only at h
  split at h
  case h_2 => contradiction
  obtain ⟨_, _, h⟩ := bind_eq_ok.mp h
  obtain ⟨_, _, h⟩ := bind_eq_ok.mp h
  obtain ⟨shift, hshift, h⟩ := bind_eq_ok.mp h
  obtain ⟨hslot, t, ht, htype⟩ := Rule.scalarOf_eq_ok.mp hshift
  refine ⟨shift, hslot, List.mem_singleton.mp ht ▸ htype, ?_⟩
  intro w hw
  rw [hw] at h
  have hrange := (Rule.unless_refused_eq_ok.mp h).1
  omega

theorem Scalar.exists_s32 {v : Scalar} (h : v.type = .s32) : ∃ w, v = .s32 w := by
  cases v <;> simp only [Scalar.type, reduceCtorEq] at h
  exact ⟨_, rfl⟩

namespace Plan

variable {p : Plan} {s : Storage} {m n : Memory} {stage : Stage} {step : Step}

theorem constant_types {o : ObjectId} {slot : Nat} (hparam : step.params[slot]? = some (some o)) {r : Resolved}
    (hr : p.object? o = some r) : (step.types p).constant slot = r.object.constant := by
  have htype : (step.types p).getD slot default = Stage.laneType p (some o) := by simp [Step.types, hparam]
  simp only [LaneTypes.constant, htype, Stage.laneType, hr]
  cases r.object.constant with
  | some v => rfl
  | none => cases r.info <;> rfl

/-- The shift of a depth conversion is a scalar of its own. -/
theorem Sound.exists_shift (hp : p.Sound) (hstage : stage ∈ p.stages) (hstep : step ∈ stage.steps)
    (hk : step.Valid p Kernel.convertDepth) : ∃ o r a, step.params[3]? = some (some o) ∧ o ∈ stage.referenced ∧
      o ∉ stage.internal ∧ p.object? o = some r ∧ p.info? o = some (.scalar a) ∧ a.type = some .s32 := by
  obtain ⟨_, hrule, _⟩ := hk.accepted
  obtain ⟨a, hknown, htype, _⟩ := Kernel.convertDepth_shift hrule
  obtain ⟨o, hparam, hinfo⟩ := slotMeta_known.mp hknown
  have ho : o ∈ stage.referenced := Stage.mem_referenced_of_param hstep (List.mem_of_getElem? hparam)
  obtain ⟨r, hr, hsound, _⟩ := hp.exists_object hstage ho
  refine ⟨o, r, a, hparam, ho, fun hi => ?_, hr, hinfo, htype⟩
  obtain ⟨image, himage⟩ := info_eq_image_of_private hsound hr ((hp.stages stage hstage).hidden o hi)
  rw [info_eq hr hinfo] at himage
  contradiction

/-- What a memory holds for a scalar is what a stage starts with. -/
theorem Conforms.held_s32 (hp : p.Sound) (hs : Storage.ofPlan p = .ok s) (hm : p.Conforms s m)
    (hstage : stage ∈ p.stages) {o : ObjectId} (ho : o ∈ stage.referenced) (hi : o ∉ stage.internal) {r : Resolved}
    (hr : p.object? o = some r) (hconst : r.object.constant = none) {a : ScalarMeta} (hinfo : p.info? o = some (.scalar a))
    (htype : a.type = some .s32) : ∃ w, p.held m o = some (.scalar (.s32 w)) ∧ p.cell m 0 o = w.toInt := by
  obtain ⟨place, hhome⟩ := exists_home hr hconst
  obtain ⟨x, info, hx, hinfo', hfits⟩ :=
    hm stage hstage o ho place ((hp.place?_eq_home hs hstage ho hi).trans hhome)
  rw [Option.some.inj (hinfo'.symm.trans hinfo)] at hfits
  obtain ⟨v, rfl, hv⟩ := hfits.scalar
  obtain ⟨w, rfl⟩ := Scalar.exists_s32 (Option.some.inj (hv.symm.trans htype))
  have hheld : p.held m o = some (.scalar (.s32 w)) := by rw [held, hhome, Option.bind_some, hx]
  refine ⟨w, hheld, ?_⟩
  rw [cell, hr, Option.bind_some, hconst, hheld]
  rfl

/-- The guard of a depth conversion looks at its shift, and no other guard ever stops a stage. -/
theorem Conforms.admits_eq_false (hp : p.Sound) (hs : Storage.ofPlan p = .ok s) (hm : p.Conforms s m)
    (hstage : stage ∈ p.stages) (hpixel : stage.pixelwise = true) (hstep : step ∈ stage.steps) :
    step.admits p (stage.start p m 0) = false ↔ step.ShiftOutside p m := by
  obtain ⟨k, hk, hkp⟩ := (hp.stages stage hstage).steps step hstep
  have hadmits : step.admits p (stage.start p m 0) =
      k.pixel.admits (step.types p) (step.args (stage.start p m 0)) := by simp [Step.admits, hk.kernel]
  have hdepth : step.kernel = "vx.convert_depth" ↔ k = Kernel.convertDepth :=
    hk.kernel_eq_iff Kernel.convertDepth rfl
  rw [hadmits, Step.ShiftOutside, hdepth]
  by_cases hkernel : k = Kernel.convertDepth
  · subst hkernel
    obtain ⟨o, r, a, hparam, ho, hi, hr, hinfo, htype⟩ := hp.exists_shift hstage hstep hk
    have hargs : step.args (stage.start p m 0) 3 = p.cell m 0 o := by simp [Step.args, hparam, Stage.start, hi]
    have hguard : Kernel.convertDepth.pixel.admits (step.types p) (step.args (stage.start p m 0)) =
        (r.object.constant.isSome || decide (0 ≤ p.cell m 0 o ∧ p.cell m 0 o < 8)) := by
      rw [← constant_types hparam hr, ← hargs]
      rfl
    rw [hguard]
    cases hconst : r.object.constant with
    | some v =>
      -- a constant has no home, so nothing is held for it
      have hnone : p.held m o = none := by
        have hbind : (p.object? o).bind (·.object.constant) = some v := by rw [hr, Option.bind_some, hconst]
        rw [held, home_eq_none hbind, Option.bind_none]
      simp [hparam, hnone]
    | none =>
      obtain ⟨w, hheld, hcell⟩ := hm.held_s32 hp hs hstage ho hi hr hconst hinfo htype
      rw [hcell]
      simp only [Option.isSome_none, Bool.false_or, decide_eq_false_iff_not, hparam, Option.some.injEq, true_and]
      constructor
      · intro hout
        exact ⟨o, w, rfl, hheld, by omega⟩
      · rintro ⟨_, w', rfl, hheld', hout⟩
        rw [hheld] at hheld'
        cases hheld'
        omega
  · simp [hkernel, Registry.admits_of_mem_standard hk.mem_standard (hkp.trans hpixel) hkernel]

/-! ### Lookups -/

/-- The object behind a parameter of a frame is what the memory holds for it. -/
theorem Sound.home_of_host (h : p.Sound) (hs : Storage.ofPlan p = .ok s) (hstage : stage ∈ p.stages)
    (hblock : stage.pixelwise = false) (hstep : step ∈ stage.steps) {objects : Array Host}
    (hload : m.load (s.places step.params) = some objects) {slot : Nat} {o : ObjectId}
    (hparam : step.params[slot]? = some (some o)) {x : Host} (hhost : (Stage.frame s step objects).host slot = .ok x) :
    ∃ a i, p.home o = some a ∧ (s.places step.params)[i]? = some a ∧
      (Stage.frame s step objects).handles[slot]? = some (.object i) ∧ m.get? a = some x := by
  obtain ⟨i, hhandle, hi⟩ := Frame.host_eq_ok.mp hhost
  have hplace : (s.place? o).bind (s.places step.params).idxOf? = some i := by
    rw [Stage.handles_frame, hparam, Option.map_some, Option.some.injEq] at hhandle
    simp only [Storage.handle] at hhandle
    split at hhandle
    · contradiction
    · rename_i heq _
      rw [heq, Handle.object.inj hhandle]
    · contradiction
  obtain ⟨a, ha, hidx⟩ := Option.bind_eq_some_iff.mp hplace
  obtain ⟨hlt, hat, _⟩ := List.idxOf?_eq_some_iff.mp hidx
  have hget : (s.places step.params)[i]? = some a := List.getElem?_eq_some_iff.mpr ⟨hlt, hat⟩
  obtain ⟨y, hy, hm⟩ := Memory.getElem?_of_load hload hget
  have hxy : y = x := Option.some.inj (hy.symm.trans hi)
  have ho : o ∈ stage.referenced := Stage.mem_referenced_of_param hstep (List.mem_of_getElem? hparam)
  have hinternal : o ∉ stage.internal := by simp [((h.stages stage hstage).whole hblock).2]
  exact ⟨a, i, (h.place?_eq_home hs hstage ho hinternal).symm.trans ha, hget, hhandle, hxy ▸ hm⟩

theorem Stage.updates_eq_singleton {o : ObjectId} {a : Place} {i : Nat} {out : Array Host} {y : Host}
    (hwrites : stage.writes = [o]) (hplace : s.place? o = some a) (hi : (stage.touched s)[i]? = some a)
    (hy : out[i]? = some y) : stage.updates s out = [(a, y)] := by
  simp [Stage.updates, Stage.writtenPlaces, hwrites, hplace, Stage.idxOf?_touched.mpr hi, hy]

/-- A lookup binds all of its parameters and writes the last. -/
theorem params_of_tableLookup (hk : step.Valid p Kernel.tableLookup) :
    ∃ input table output, step.params = [some input, some table, some output] ∧ step.writes = [output] := by
  have hbound (slot : Nat) {spec : Param} (hspec : Kernel.tableLookup.signature.params[slot]? = some spec)
      (hreq : spec.optional = false) : ∃ o, step.params[slot]? = some (some o) := by
    obtain ⟨o, _, ho, _⟩ := hk.exists_required hspec hreq
    exact ⟨o, ho⟩
  obtain ⟨input, h0⟩ := hbound 0 rfl rfl
  obtain ⟨table, h1⟩ := hbound 1 rfl rfl
  obtain ⟨output, h2⟩ := hbound 2 rfl rfl
  have hlength : step.params.length = 3 := hk.arity
  have hparams : step.params = [some input, some table, some output] := by
    obtain ⟨x, y, z, hxyz⟩ := List.length_eq_three.mp hlength
    rw [hxyz] at h0 h1 h2 ⊢
    simp_all
  have hdirections : step.directions = [.input, .input, .output] := hk.directions
  exact ⟨input, table, output, hparams, by simp [Step.writes, Step.boundBy, hparams, hdirections, Direction.writes]⟩

variable (hp : p.Sound) (hs : Storage.ofPlan p = .ok s) (hm : p.Conforms s m)

include hp hs hm

/-- What a lookup does to the memory. -/
theorem Conforms.run_lookup (hstage : stage ∈ p.stages) (hblock : stage.pixelwise = false)
    (hsteps : stage.steps = [step]) (hk : step.Valid p Kernel.tableLookup) :
    ∃ input table output src lut a dst, step.params = [some input, some table, some output] ∧
      p.held m input = some (.image src) ∧ p.held m table = some (.array lut) ∧ p.home output = some a ∧
      m.get? a = some (.image dst) ∧ stage.run .standard p s m =
        match Kernel.firstPast src lut with
        | none => .ok (m.set a (.image (dst.overwrite src.samples.size (Kernel.lookedUp src lut))))
        | some i => .error (.failed (m.set a (.image (dst.overwrite i (Kernel.lookedUp src lut))))) := by
  obtain ⟨objects, hload⟩ := hm.exists_load hstage
  obtain ⟨step', k, hsteps', hk', _, hload', hrun⟩ := hp.run_block hs hstage hblock hload
  have hsame : step' = step := List.singleton_inj.mp (hsteps'.symm.trans hsteps)
  subst hsame
  have hkernel : k = Kernel.tableLookup := Option.some.inj (hk'.kernel.symm.trans hk.kernel)
  subst hkernel
  have hstep : step' ∈ stage.steps := hsteps ▸ List.mem_singleton_self step'
  have hready := hp.ready_frame hs hstage hblock hstep hk hm hload'
  obtain ⟨src, lut, dst, hsrc, hlut, hdst, heffect⟩ := Kernel.effect_tableLookup step'.border hready
  obtain ⟨input, table, output, hparams, hwrites⟩ := params_of_tableLookup hk
  obtain ⟨a₀, _, hhome₀, _, _, hget₀⟩ := hp.home_of_host hs hstage hblock hstep hload' (by rw [hparams]; rfl) hsrc
  obtain ⟨a₁, _, hhome₁, _, _, hget₁⟩ := hp.home_of_host hs hstage hblock hstep hload' (by rw [hparams]; rfl) hlut
  obtain ⟨a, i, hhome, hi, hhandle, hget⟩ :=
    hp.home_of_host hs hstage hblock hstep hload' (by rw [hparams]; rfl) hdst
  -- the only object that is written back is the output
  have hinternal : stage.internal = [] := ((hp.stages stage hstage).whole hblock).2
  have hstageWrites : stage.writes = [output] := by
    simp only [Stage.writes, hsteps, List.flatMap_singleton, hwrites, hinternal]
    rfl
  have hplace : s.place? output = some a := by
    have href : output ∈ stage.referenced := Stage.referenced_of_writes (hstageWrites ▸ List.mem_singleton_self output)
    exact (hp.place?_eq_home hs hstage href (by simp [hinternal])).trans hhome
  have htouched : (stage.touched s)[i]? = some a := by
    have heq : stage.touched s = s.places step'.params := by simp [Stage.touched, hsteps]
    rwa [heq]
  have hupdates (count : Nat) :
      m.setAll (stage.updates s (Kernel.partway (Stage.frame s step' objects) src dst lut count).objects) =
        m.set a (.image (dst.overwrite count (Kernel.lookedUp src lut))) := by
    obtain ⟨_, hhandle', hobject⟩ := Frame.host_eq_ok.mp hdst
    rw [hhandle, Option.some.injEq, Handle.object.injEq] at hhandle'
    subst hhandle'
    have hout : (Kernel.partway (Stage.frame s step' objects) src dst lut count).objects[i]? =
        some (.image (dst.overwrite count (Kernel.lookedUp src lut))) := by
      rw [Kernel.partway, Frame.modify_eq hhandle, Array.getElem?_modify, if_pos rfl, hobject, Option.map_some]
    rw [Stage.updates_eq_singleton hstageWrites hplace htouched hout]
    rfl
  refine ⟨input, table, output, src, lut, a, dst, hparams, ?_, ?_, hhome, hget, ?_⟩
  · rw [held, hhome₀, Option.bind_some, hget₀]
  · rw [held, hhome₁, Option.bind_some, hget₁]
  · rw [hrun, heffect]
    cases Kernel.firstPast src lut with
    | none => exact congrArg Except.ok (hupdates _)
    | some j => exact congrArg (fun n => Except.error (Stop.failed n)) (hupdates j)

/-! ### Stages -/

/-- A pixel-wise stage fails when one of its shifts is out of range, and then it changes nothing. -/
theorem Conforms.run_pixels_failed (hu : p.Uniform) (hstage : stage ∈ p.stages) (hpixel : stage.pixelwise = true) :
    stage.run .standard p s m = .error (.failed n) ↔ n = m ∧ ∃ step ∈ stage.steps, step.ShiftOutside p m := by
  obtain ⟨objects, hload⟩ := hm.exists_load hstage
  obtain ⟨count, hcount⟩ := hp.exists_extent hstage hpixel
  have hsize := hm.sized hp hs hu hstage hpixel hcount
  rw [hp.run_pixelwise hs hstage hpixel hload hcount hsize]
  constructor
  · intro hrun
    split at hrun
    · contradiction
    · rename_i hstops
      cases hrun
      push Not at hstops
      obtain ⟨step, hstep, hadmits⟩ := hstops
      exact ⟨rfl, step, hstep, (hm.admits_eq_false hp hs hstage hpixel hstep).mp (Bool.eq_false_iff.mpr hadmits)⟩
  · rintro ⟨rfl, step, hstep, hshift⟩
    have hadmits := (hm.admits_eq_false hp hs hstage hpixel hstep).mpr hshift
    rw [if_neg fun hall => by simp [hall step hstep] at hadmits]

theorem Conforms.run_pixels_eq_failed (hu : p.Uniform) (hstage : stage ∈ p.stages) (hpixel : stage.pixelwise = true) :
    stage.run .standard p s m = .error (.failed n) ↔ stage.Fails p m n := by
  rw [hm.run_pixels_failed hp hs hu hstage hpixel]
  constructor
  · rintro ⟨rfl, step, hstep, hshift⟩
    exact .shift step hstep hshift
  · intro hfails
    cases hfails with
    | shift step hstep hshift => exact ⟨rfl, step, hstep, hshift⟩
    | lookup step hstep hkernel =>
      -- the lookup works on whole objects
      obtain ⟨k, hk, hkp⟩ := (hp.stages stage hstage).steps step hstep
      rw [hpixel, (hk.kernel_eq_iff Kernel.tableLookup rfl).mp hkernel] at hkp
      contradiction

/-- A lookup fails at the first sample that is past its table. -/
theorem Conforms.run_lookup_eq_failed (hstage : stage ∈ p.stages) (hblock : stage.pixelwise = false)
    (hsteps : stage.steps = [step]) (hk : step.Valid p Kernel.tableLookup) :
    stage.run .standard p s m = .error (.failed n) ↔ stage.Fails p m n := by
  obtain ⟨input, table, output, src, lut, a, dst, hparams, hsrc, hlut, ha, hdst, hrun⟩ :=
    hm.run_lookup hp hs hstage hblock hsteps hk
  rw [hrun]
  constructor
  · intro hfailed
    split at hfailed
    · contradiction
    · rename_i i hi
      cases hfailed
      have hstep : step ∈ stage.steps := hsteps ▸ List.mem_singleton_self step
      exact .lookup step hstep hk.name_eq input table output hparams src hsrc lut hlut a ha dst hdst i hi
  · intro hfails
    cases hfails with
    | shift other hother hshift =>
      rw [hsteps, List.mem_singleton] at hother
      have hname := hk.name_eq.symm.trans (hother ▸ hshift.1)
      contradiction
    | lookup other hother _ input' table' output' hparams' src' hsrc' lut' hlut' a' ha' dst' hdst' i hi =>
      -- the objects of the step are determined, so this is the same lookup
      rw [hsteps, List.mem_singleton] at hother
      rw [hother, hparams] at hparams'
      cases hparams'
      rw [hsrc] at hsrc'
      cases hsrc'
      rw [hlut] at hlut'
      cases hlut'
      rw [ha] at ha'
      cases ha'
      rw [hdst] at hdst'
      cases hdst'
      rw [hi]

/-- A stage fails exactly when a shift or a lookup stops it. -/
theorem Conforms.run_eq_failed (hu : p.Uniform) (hx : p.HasExtrema) (hstage : stage ∈ p.stages) :
    stage.run .standard p s m = .error (.failed n) ↔ stage.Fails p m n := by
  cases hpixel : stage.pixelwise with
  | true => exact hm.run_pixels_eq_failed hp hs hu hstage hpixel
  | false =>
    obtain ⟨objects, hload⟩ := hm.exists_load hstage
    obtain ⟨step, k, hsteps, hk, hkp, hload', hrun⟩ := hp.run_block hs hstage hpixel hload
    by_cases hlookup : k = Kernel.tableLookup
    · subst hlookup
      exact hm.run_lookup_eq_failed hp hs hstage hpixel hsteps hk
    · -- every other kernel over whole objects comes to its end
      have hstep : step ∈ stage.steps := hsteps ▸ List.mem_singleton_self step
      obtain ⟨g, hg, _⟩ := Registry.reaches_of_mem_standard hk.mem_standard hkp hlookup
        (hp.ready_frame hs hstage hpixel hstep hk hm hload')
        (fun he shape hshape => hx.pixels hstage hstep (he ▸ hk) hshape) step.border
      rw [hrun, hg]
      refine ⟨nofun, fun hfails => ?_⟩
      cases hfails with
      | shift other hother hshift =>
        rw [hsteps, List.mem_singleton] at hother
        subst hother
        rw [(hk.kernel_eq_iff Kernel.convertDepth rfl).mp hshift.1] at hkp
        contradiction
      | lookup other hother hkernel =>
        rw [hsteps, List.mem_singleton] at hother
        subst hother
        exact absurd ((hk.kernel_eq_iff Kernel.tableLookup rfl).mp hkernel) hlookup

end Plan

/-! ### Runs -/

namespace Program

variable {P : Program} {b : Bindings}

/-- What is wrong with the object that is bound for an entry. -/
def fault? (b : Bindings) (entry : ObjectId × Meta) : Option BindingFault :=
  match b.get? entry.1 with
  | none => some (.missing entry.2.kind)
  | some x => x.mismatch entry.2

theorem checkEntry_eq (b : Bindings) (entry : ObjectId × Meta) :
    checkEntry b entry = match fault? b entry with
      | none => .ok ()
      | some fault => .error (.binding entry.1 fault) := by
  unfold checkEntry fault?
  cases b.get? entry.1 with
  | none => rfl
  | some x => cases hx : x.mismatch entry.2 <;> simp only [hx]

/-- The check reports the first entry that something is wrong with. -/
theorem check_cases (P : Program) (b : Bindings) :
    P.check b = .ok () ∧ (∀ entry ∈ P.entries, fault? b entry = none) ∨
      ∃ front o info back fault, P.entries = front ++ (o, info) :: back ∧ (∀ entry ∈ front, fault? b entry = none) ∧
        fault? b (o, info) = some fault ∧ P.check b = .error (.binding o fault) := by
  unfold check
  generalize P.entries = entries
  induction entries with
  | nil => exact .inl ⟨rfl, nofun⟩
  | cons entry rest ih =>
    have hstep : (entry :: rest).forM (checkEntry b) = checkEntry b entry >>= fun _ => rest.forM (checkEntry b) := rfl
    rw [hstep, checkEntry_eq]
    cases hfault : fault? b entry with
    | some fault => exact .inr ⟨[], entry.1, entry.2, rest, fault, rfl, nofun, hfault, rfl⟩
    | none =>
      have hcons : ∀ front : List (ObjectId × Meta), (∀ x ∈ front, fault? b x = none) →
          ∀ x ∈ entry :: front, fault? b x = none := by
        intro front hfront x hx
        rcases List.mem_cons.mp hx with rfl | hx
        · exact hfault
        · exact hfront x hx
      rcases ih with ⟨hok, hall⟩ | ⟨front, o, info, back, fault, rfl, hfront, hfirst, herror⟩
      · exact .inl ⟨hok, hcons rest hall⟩
      · exact .inr ⟨entry :: front, o, info, back, fault, rfl, hcons front hfront, hfirst, herror⟩

/-- The stages before a memory that was reached have succeeded. -/
theorem Reached.exists_run {done i : Nat} {n mid : Memory} (hn : P.Reached b done n) (hmid : P.Reached b i mid)
    (hlt : i < done) {stage : Stage} (hstage : P.plan.stages[i]? = some stage) :
    ∃ next, stage.run P.registry P.plan P.storage mid = .ok next := by
  obtain ⟨start, hstart, hrun⟩ := hn
  obtain ⟨start', hstart', hbefore⟩ := hmid
  rw [hstart] at hstart'
  cases hstart'
  have hat : (P.plan.stages.take done)[i]? = some stage := by rwa [List.getElem?_take_of_lt hlt]
  obtain ⟨front, back, hsplit, hlength⟩ := exists_append_of_getElem? hat
  have hfront : P.plan.stages.take i = front := by
    calc P.plan.stages.take i = (P.plan.stages.take done).take i := by rw [List.take_take, Nat.min_eq_left hlt.le]
      _ = front := by rw [hsplit, ← hlength, List.take_left]
  rw [hsplit] at hrun
  obtain ⟨mid', hmid', hrest⟩ := foldlM_append_eq_ok.mp hrun
  rw [← hfront, hbefore] at hmid'
  cases hmid'
  obtain ⟨next, hnext, _⟩ := foldlM_cons_eq_ok.mp hrest
  exact ⟨next, hnext⟩

end Program

namespace Plan.LoadedAs

variable {p : Plan} {P : Program} {b : Bindings}

/-- The status of a stage that failed leads back to the nodes of the stage. -/
theorem decode_failed (h : p.LoadedAs P) {i : Nat} {stage : Stage} (hstage : p.stages[i]? = some stage) :
    P.decode (i + 1) = .error (.nodeFailure i stage.origins) := by
  obtain ⟨u, _, hu, _, hmake⟩ := h
  obtain ⟨entries, s, _, _, _, rfl⟩ := Program.make_eq_ok.mp hmake
  have horigins : u.origins = p.stages.zipIdx.map fun x => ⟨x.2, x.1.origins, x.1.kernels⟩ := by
    obtain ⟨_, _, hu⟩ := bind_eq_ok.mp hu
    obtain ⟨_, _, hu⟩ := bind_eq_ok.mp hu
    obtain ⟨_, _, hu⟩ := bind_eq_ok.mp hu
    cases hu
    rfl
  have horigin : u.origins[i]? = some ⟨i, stage.origins, stage.kernels⟩ := by
    simp [horigins, hstage]
  have hposition : ((i : Int) + 1).toNat - 1 = i := by omega
  unfold Program.decode
  rw [if_neg (by omega), if_neg (by omega), if_neg (by omega), if_neg (by omega), if_pos (by omega)]
  simp only [hposition, horigin]

/-- No stage writes a bound delay as a whole. -/
theorem spares_delay (h : p.LoadedAs P) (hp : p.Sound) (hb : b.Sound) (hcheck : P.check b = .ok ()) {o : ObjectId}
    {d : DelayBuffer} (hd : b.get? o = some (.delay d)) : p.Spares o fun _ => True := by
  intro stage hstage q hq
  refine ⟨fun hhome => ?_, fun _ _ => trivial⟩
  obtain ⟨_, _, _, hs, _⟩ := h.fields
  have hconforms := ((h.hosts hb hcheck).start hp hs).2
  have href := Stage.referenced_of_writes hq
  have hplace := (hp.place?_eq_home hs hstage href (Stage.mem_writes.mp hq).2).trans hhome
  exact hconforms.kind_ne hp hstage href hplace (x := .delay d) hd rfl

end Plan.LoadedAs

theorem Bindings.Sound.insert {b : Bindings} (hb : b.Sound) {x : Host} (hx : x.Sound) (o : ObjectId) :
    Bindings.Sound (IdMap.insert b o x) := by
  intro q y hy
  rw [IdMap.get?_insert] at hy
  split at hy
  · cases hy
    exact hx
  · exact hb q y hy

namespace Graph

/-- A lookup between two nodes, the last of which writes the newest image of a delay. -/
def stumbling : Graph := Graph.empty.edit [.image 2 1 .u8, .image 2 1 .u8, .array .u8 256, .image 2 1 .u8,
  .delay 2 (.known 2 1 .u8), .node "vx.not" [some ⟨0⟩, some ⟨1⟩],
  .node "vx.table_lookup" [some ⟨1⟩, some ⟨2⟩, some ⟨3⟩], .node "vx.not" [some ⟨3⟩, some ⟨5⟩]]

/-- Two samples and a table that has an item for the complement of the first only. -/
def shortTable (fresh : Bindings) : Bindings :=
  (fresh.insert ⟨0⟩ (.image (.generate 2 1 .u8 fun i => if i = 0 then 255 else 250))).insert ⟨2⟩
    (.array ((ArrayBuffer.empty .u8 256).push 7))

end Graph

end VisionGraph
