import VisionGraph.CUnit.Source
import VisionGraph.Proofs.Certificate
import VisionGraph.Proofs.Optimization
import VisionGraph.Proofs.Placement
import VisionGraph.Proofs.Template

/-! Generation of code from sound plans: every object has an expression, every site is ready for its template, and
the unit can be put together. The one exception are extrema of an image without pixels. -/
namespace VisionGraph

namespace Plan

variable {p : Plan} {s : Storage} {stage : Stage} {o : ObjectId}

/-! ### Operands -/

/-- A complete image has a format and a number of pixels. -/
theorem exists_of_resolved {m : ImageMeta} (h : (Meta.image m).isResolved = true) :
    ∃ f n, m.format = some f ∧ m.pixelCount = some n := by
  obtain ⟨w, ht, f⟩ := m
  cases w <;> cases ht <;> cases f <;> simp [Meta.isResolved, ImageMeta.isResolved] at h
  exact ⟨_, _, rfl, rfl⟩

/-- An object that is placed outside of the stages has an expression. -/
theorem emits_objectExpr {r : Resolved} (hr : r.Sound p o) (hget : p.object? o = some r)
    (hres : r.info.isResolved = true) (hkind : r.object.kind ≠ .delay) {x : Placement}
    (hx : Storage.place p p.entries o = .ok x) : Emits (objectExpr o r.info x) := by
  rw [← hr.kind_eq] at hkind
  unfold Storage.place at hx
  rw [hget] at hx
  dsimp only at hx
  split at hx
  · cases hx
    exact .ok _
  · -- an image inside of a delay
    rename_i slot _ hslot
    have himage : r.info.kind = .image := hr.kind_eq.trans (hr.slot slot hslot).1
    split at hx
    · cases hx
      cases hm : r.info with
      | image m =>
        obtain ⟨f, _, hf, _⟩ := exists_of_resolved (hm ▸ hres)
        simp only [objectExpr, hf]
        exact .ok _
      | _ => simp [hm, Meta.kind] at himage
    · cases hx
  · -- an object that the caller binds, or one in scratch; neither is a delay
    split at hx
    · cases hx
      cases hm : r.info with
      | image m =>
        obtain ⟨f, _, hf, _⟩ := exists_of_resolved (hm ▸ hres)
        simp only [objectExpr, hf]
        exact .ok _
      | scalar m =>
        rw [hm] at hres
        obtain ⟨t, v⟩ := m
        cases t
        · simp [Meta.isResolved, ScalarMeta.isResolved] at hres
        · exact .ok _
      | array m => exact .ok _
      | pyramid m => exact .ok _
      | delay m => simp [hm, Meta.kind] at hkind
    · cases hx
      cases hm : r.info with
      | delay m => simp [hm, Meta.kind] at hkind
      | _ => exact .ok _

theorem info_eq_image_of_private {r : Resolved} (hr : r.Sound p o) (hget : p.object? o = some r)
    (hp : p.isPrivateImage o = true) : ∃ m, r.info = .image m := by
  simp only [isPrivateImage, hget, Bool.and_eq_true, beq_iff_eq] at hp
  have hkind : r.info.kind = .image := hr.kind_eq.trans hp.1.1.1
  cases hm : r.info with
  | image m => exact ⟨m, rfl⟩
  | _ => simp [hm, Meta.kind] at hkind

theorem operand_eq_ok {x : Operand} : p.operand s o = .ok x ↔ ∃ r placement e, p.object? o = some r ∧
    s.placement? o = some placement ∧ objectExpr o r.info placement = .ok e ∧ x = ⟨o, r.info, e, r.object.constant⟩ := by
  unfold operand
  cases p.object? o with
  | none => simp [throw, throwThe, MonadExceptOf.throw]
  | some r =>
    cases s.placement? o with
    | none => simp [throw, throwThe, MonadExceptOf.throw]
    | some placement =>
      simp only [Option.some.injEq, exists_and_left, exists_eq_left', bind_eq_ok]
      refine exists_congr fun e => and_congr_right fun _ => ?_
      exact ⟨fun hx => (Except.ok.inj hx).symm, fun hx => hx ▸ rfl⟩

/-- What a stage names is an operand for its templates. -/
theorem Sound.emits_operand (h : p.Sound) (hs : Storage.ofPlan p = .ok s) (hstage : stage ∈ p.stages)
    (ho : o ∈ stage.referenced) : Emits (p.operand s o) := by
  obtain ⟨r, hr, hsound, hres, hkind⟩ := h.exists_object hstage ho
  have hexpr : ∃ x, s.placement? o = some x ∧ Emits (objectExpr o r.info x) := by
    by_cases hi : o ∈ stage.internal
    · refine ⟨.internal, placement_internal hs hstage hi, ?_⟩
      obtain ⟨m, hm⟩ := info_eq_image_of_private hsound hr ((h.stages stage hstage).hidden o hi)
      rw [hm]
      exact .ok _
    · obtain ⟨x, hx, _⟩ := h.place_eq_ok hr
      refine ⟨x, ?_, emits_objectExpr hsound hr hres hkind hx⟩
      rw [h.placement_eq hs hstage ho hi, hx]
      rfl
  obtain ⟨x, hx, e, he⟩ := hexpr
  exact ⟨_, operand_eq_ok.mpr ⟨r, x, e, hr, hx, he, rfl⟩⟩

/-- A constant of the graph is the value in its metadata. -/
theorem Sound.constant_eq (h : p.Sound) {r : Resolved} (hr : p.object? o = some r) :
    r.object.constant = r.info.value? := by
  have hs := h.objects o r hr
  unfold DataObject.constant
  split
  · exact hs.value.symm
  · rename_i hreal
    exact (hs.real (by simpa using hreal)).2.2.symm

/-! ### Sites -/

variable {params : List (Option ObjectId)} {operands : List (Option Operand)} {border : Border}

/-- The operand at a slot is that of the parameter there. -/
theorem operand_of_operands (h : p.operands s params = .ok operands) {slot : Nat} {x : Operand} :
    (Site.mk border operands).operand slot = .ok x ↔
      ∃ o, params[slot]? = some (some o) ∧ p.operand s o = .ok x := by
  rw [Site.operand_eq_ok, getElem?_of_mapM h]
  constructor
  · rintro ⟨param, hparam, hx⟩
    cases param with
    | none => cases hx
    | some o =>
      obtain ⟨y, hy, hyx⟩ := map_eq_ok.mp hx
      cases hyx
      exact ⟨o, hparam, hy⟩
  · rintro ⟨o, hparam, hx⟩
    exact ⟨some o, hparam, map_eq_ok.mpr ⟨x, hx, rfl⟩⟩

theorem info?_of_operand {x : Operand} (h : p.operand s o = .ok x) : p.info? o = some x.info := by
  obtain ⟨r, _, e, hr, _, _, rfl⟩ := operand_eq_ok.mp h
  exact congrArg (Option.map Resolved.info) hr

theorem known_of_operands (h : p.operands s params = .ok operands) :
    (Site.mk border operands).known = params.map fun param => param.bind p.info? := by
  refine map_eq_of_mapM h fun param x hx => ?_
  cases param with
  | none =>
    cases hx
    rfl
  | some o =>
    obtain ⟨y, hy, rfl⟩ := map_eq_ok.mp hx
    exact (info?_of_operand hy).symm

/-- The operands of a step are there. -/
theorem Sound.emits_operands (h : p.Sound) (hs : Storage.ofPlan p = .ok s) (hstage : stage ∈ p.stages) {step : Step}
    (hstep : step ∈ stage.steps) : Emits (p.operands s step.params) := by
  refine Emits.mapM fun param hparam => ?_
  cases param with
  | none => exact .ok _
  | some o =>
    obtain ⟨x, hx⟩ := h.emits_operand hs hstage (Stage.mem_referenced_of_param hstep hparam)
    exact ⟨some x, map_eq_ok.mpr ⟨x, hx, rfl⟩⟩

variable {step : Step} {k : Kernel}

/-- The template of a step can rely on the operands. -/
theorem Sound.ready (h : p.Sound) (border : Border) (hs : Storage.ofPlan p = .ok s) (hstage : stage ∈ p.stages)
    (hstep : step ∈ stage.steps) (hk : step.Valid p k) (hops : p.operands s step.params = .ok operands) :
    (Site.mk border operands).Ready k where
  required slot spec hspec hreq := by
    obtain ⟨o, r, hparam, hr, hkind, _⟩ := hk.exists_required hspec hreq
    obtain ⟨x, hx⟩ := h.emits_operand hs hstage (Stage.mem_referenced_of_param hstep (List.mem_of_getElem? hparam))
    refine ⟨x, (operand_of_operands hops).mpr ⟨o, hparam, hx⟩, ?_⟩
    obtain ⟨r', _, e, hr', _, _, rfl⟩ := operand_eq_ok.mp hx
    rw [hr] at hr'
    cases hr'
    exact hkind
  complete slot x hx := by
    obtain ⟨o, hparam, hx⟩ := (operand_of_operands hops).mp hx
    obtain ⟨r, _, e, hr, _, _, rfl⟩ := operand_eq_ok.mp hx
    obtain ⟨r', hr', hres⟩ := hk.exists_object (Step.mem_bound.mpr ⟨slot, hparam⟩)
    rw [hr] at hr'
    cases hr'
    exact ⟨hres, h.constant_eq hr⟩
  accepted := by
    obtain ⟨inferences, hrule, _⟩ := hk.settled
    exact ⟨inferences, by rw [known_of_operands hops, hrule]⟩

/-- Images and scalars have samples. -/
theorem lanesReady (hops : p.operands s params = .ok operands) :
    (Site.mk border operands).LanesReady (operands.map fun x => x.bind (laneOf s)) := by
  intro slot x hx hkind
  obtain ⟨o, _, ho⟩ := (operand_of_operands hops).mp hx
  obtain ⟨r, placement, e, _, hplace, _, rfl⟩ := operand_eq_ok.mp ho
  have hlane : ∃ text, laneOf s ⟨o, r.info, e, r.object.constant⟩ = some text := by
    unfold laneOf
    dsimp only at hkind ⊢
    rw [hplace]
    cases hm : r.info with
    | image m => cases placement <;> exact ⟨_, rfl⟩
    | scalar m => cases placement <;> exact ⟨_, rfl⟩
    | _ => simp [hm, Meta.kind] at hkind
  obtain ⟨text, htext⟩ := hlane
  exact ⟨text, by simp [laneText, Site.operand_eq_ok.mp hx, htext]⟩

/-! ### Stages -/

theorem kernelOf_eq_ok (hk : step.Valid p k) : kernelOf .standard step = .ok k := by
  unfold kernelOf
  rw [hk.kernel]

theorem Sound.emits_stepCode (h : p.Sound) (hs : Storage.ofPlan p = .ok s) (hstage : stage ∈ p.stages)
    (hstep : step ∈ stage.steps) (hk : step.Valid p k) (hpixel : k.isPixelwise = true) :
    Emits (stepCode .standard p s step) := by
  have hwrites : k.WritesStatement := by
    rcases Registry.writes_of_mem_standard hk.mem_standard with ⟨_, hw⟩ | ⟨hno, _⟩
    · exact hw
    · rw [hpixel] at hno
      contradiction
  refine Emits.bind ⟨k, kernelOf_eq_ok hk⟩ fun k' hk' => ?_
  rw [kernelOf_eq_ok hk] at hk'
  cases hk'
  refine (h.emits_operands hs hstage hstep).bind fun operands hops => ?_
  obtain ⟨⟨guard, hguard⟩, statement, hstatement⟩ := hwrites ⟨step.border, operands⟩ _
    (h.ready step.border hs hstage hstep hk hops) (lanesReady hops)
  refine Emits.bind ⟨guard, ?_⟩ fun _ _ => Emits.bind ⟨statement, ?_⟩ fun _ _ => .ok _
  · rw [hguard]
    rfl
  · rw [hstatement]
    rfl

/-- Every pixel-wise kernel has an image. -/
theorem exists_image_param (hk : k ∈ Registry.standard.kernels) (hpixel : k.isPixelwise = true) :
    ∃ (slot : Nat) (spec : Param), k.signature.params[slot]? = some spec ∧ spec.kind = .image ∧
      spec.optional = false := by
  have hall : Registry.standard.kernels.all fun k => !k.isPixelwise ||
      k.signature.params.any fun spec => spec.kind == .image && !spec.optional := by decide
  have hany := List.all_eq_true.mp hall k hk
  simp only [hpixel, Bool.not_true, Bool.false_or, List.any_eq_true, Bool.and_eq_true, beq_iff_eq,
    Bool.not_eq_true'] at hany
  obtain ⟨spec, hmem, hkind, hreq⟩ := hany
  obtain ⟨slot, hslot⟩ := List.mem_iff_getElem?.mp hmem
  exact ⟨slot, spec, hslot, hkind, hreq⟩

/-- A pixel-wise stage knows how many samples there are. -/
theorem Sound.exists_extent (h : p.Sound) (hstage : stage ∈ p.stages) (hpixel : stage.pixelwise = true) :
    ∃ n, p.extent? stage = some n := by
  have hvalid := h.stages stage hstage
  obtain ⟨step, hstep⟩ := List.exists_mem_of_ne_nil _ hvalid.nonempty
  obtain ⟨k, hk, hkp⟩ := hvalid.steps step hstep
  obtain ⟨slot, spec, hspec, hkind, hreq⟩ := exists_image_param hk.mem_standard (hkp.trans hpixel)
  obtain ⟨o, r, hparam, hr, hrk, hres⟩ := hk.exists_required hspec hreq
  have hinfo : p.info? o = some r.info := congrArg (Option.map Resolved.info) hr
  refine Option.isSome_iff_exists.mp (List.findSome?_isSome_iff.mpr ⟨o, ?_, ?_⟩)
  · exact Stage.mem_referenced_of_param hstep (List.mem_of_getElem? hparam)
  · cases hm : r.info with
    | image m =>
      obtain ⟨f, n, hf, hn⟩ := exists_of_resolved (hm ▸ hres)
      simp [hinfo, hm, Meta.image?, hf, hn]
    | _ => simp [hm, Meta.kind, hkind] at hrk

theorem Sound.emits_pixelBlock (h : p.Sound) (hs : Storage.ofPlan p = .ok s) (hstage : stage ∈ p.stages)
    (hpixel : stage.pixelwise = true) : Emits (pixelBlock .standard p s stage) := by
  have hvalid := h.stages stage hstage
  obtain ⟨count, hcount⟩ := h.exists_extent hstage hpixel
  unfold pixelBlock
  rw [hcount]
  refine Emits.bind (Emits.mapM fun o ho => ?_) fun _ _ => Emits.bind (Emits.mapM fun step hstep => ?_) fun _ _ => .ok _
  · obtain ⟨r, hr, hsound, hres, _⟩ := h.exists_object hstage (hvalid.referenced_of_internal ho)
    obtain ⟨m, hm⟩ := info_eq_image_of_private hsound hr (hvalid.hidden o ho)
    obtain ⟨f, _, hf, _⟩ := exists_of_resolved (hm ▸ hres)
    have hinfo : p.info? o = some (.image m) := hm ▸ congrArg (Option.map Resolved.info) hr
    unfold internalLine
    simp only [hinfo, Option.bind_some, Meta.image?, hf]
    exact .ok _
  · obtain ⟨k, hk, hkp⟩ := hvalid.steps step hstep
    exact h.emits_stepCode hs hstage hstep hk (hkp.trans hpixel)

/-- A search for the extrema of an image without pixels. -/
def emptyExtrema (p : Plan) (step : Step) : Bool :=
  step.kernel == Kernel.minMaxLoc.name && ((step.params[0]?).getD none).any fun o => p.pixelCount o == some 0

/-- The site of the extrema: its image has the number of pixels that the plan knows. -/
theorem Sound.pixels_minMaxLoc (h : p.Sound) (hs : Storage.ofPlan p = .ok s) (hstage : stage ∈ p.stages)
    (hstep : step ∈ stage.steps) (hk : step.Valid p Kernel.minMaxLoc) (hops : p.operands s step.params = .ok operands) :
    ∃ input, (Site.mk step.border operands).image 0 = .ok input ∧ (p.emptyExtrema step = true ↔ input.pixels = 0) := by
  have hready := h.ready step.border hs hstage hstep hk hops
  obtain ⟨input, hinput, hknown⟩ := hready.shape 0 rfl rfl rfl
  obtain ⟨x, hx, hinfo⟩ := Site.slotMeta_known.mp hknown
  obtain ⟨o, hparam, ho⟩ := (operand_of_operands hops).mp hx
  have hcount : p.pixelCount o = some input.pixels := by
    rw [pixelCount, info?_of_operand ho, hinfo]
    rfl
  have hname : Kernel.minMaxLoc.name = step.kernel := by simpa using List.find?_some hk.kernel
  refine ⟨input, hinput, ?_⟩
  simp [emptyExtrema, ← hname, hparam, hcount]

theorem eq_minMaxLoc (hk : step.Valid p k) (h : p.emptyExtrema step = true) : k = Kernel.minMaxLoc := by
  simp only [emptyExtrema, Bool.and_eq_true, beq_iff_eq] at h
  have hfind : Registry.standard.find? Kernel.minMaxLoc.name = some Kernel.minMaxLoc := rfl
  rw [← h.1, hk.kernel] at hfind
  exact Option.some.inj hfind

/-- A stage gets its block unless it looks for the extrema of an image without pixels. -/
theorem Sound.fragment_cases (h : p.Sound) (hs : Storage.ofPlan p = .ok s) (hstage : stage ∈ p.stages) :
    (∀ step ∈ stage.steps, p.emptyExtrema step = false) ∧ Emits (p.fragment .standard s stage) ∨
      ∃ step, stage.steps = [step] ∧ p.emptyExtrema step = true ∧
        p.fragment .standard s stage = .error (.template step.origin .emptyExtrema) := by
  have hvalid := h.stages stage hstage
  unfold fragment
  cases hpixel : stage.pixelwise with
  | true =>
    -- the search for extrema is not pixel-wise
    refine .inl ⟨fun step hstep => ?_, h.emits_pixelBlock hs hstage hpixel⟩
    obtain ⟨k, hk, hkp⟩ := hvalid.steps step hstep
    refine Bool.eq_false_iff.mpr fun hempty => ?_
    rw [eq_minMaxLoc hk hempty, hpixel] at hkp
    cases hkp
  | false =>
    obtain ⟨step, hsteps⟩ := List.length_eq_one_iff.mp (hvalid.whole hpixel).1
    have hstep : step ∈ stage.steps := by simp [hsteps]
    obtain ⟨k, hk, hkp⟩ := hvalid.steps step hstep
    obtain ⟨operands, hops⟩ := h.emits_operands hs hstage hstep
    have hready := h.ready step.border hs hstage hstep hk hops
    have hblock : kernelBlock .standard p s stage = inTemplate step.origin (k.block ⟨step.border, operands⟩) := by
      simp only [kernelBlock, hsteps, kernelOf_eq_ok hk, hops]
      rfl
    -- so the stage has its block when the kernel has, and fails as the kernel does
    have hemits : Emits (k.block ⟨step.border, operands⟩) → Emits (kernelBlock .standard p s stage) :=
      fun ⟨f, hf⟩ => ⟨f, by rw [hblock, hf]; rfl⟩
    simp only [hsteps, List.forall_mem_singleton, Bool.false_eq_true, ↓reduceIte]
    cases hempty : p.emptyExtrema step with
    | true =>
      have hminmax := eq_minMaxLoc hk hempty
      subst hminmax
      obtain ⟨input, hinput, hpixels⟩ := h.pixels_minMaxLoc hs hstage hstep hk hops
      have hno := Kernel.block_minMaxLoc hready hinput
      rw [if_pos (hpixels.mp hempty)] at hno
      exact .inr ⟨step, rfl, hempty, by rw [hblock, hno]; rfl⟩
    | false =>
      refine .inl ⟨rfl, hemits ?_⟩
      rcases Registry.writes_of_mem_standard hk.mem_standard with ⟨hyes, _⟩ | ⟨_, rfl | hwrites⟩
      · rw [hyes, hpixel] at hkp
        cases hkp
      · obtain ⟨input, hinput, hpixels⟩ := h.pixels_minMaxLoc hs hstage hstep hk hops
        have hyes := Kernel.block_minMaxLoc hready hinput
        rwa [if_neg fun hzero => by simp [hpixels.mpr hzero] at hempty] at hyes
      · exact hwrites _ hready

/-! ### The unit -/

/-- What lives in scratch has complete metadata and is no delay. -/
theorem Sound.info_of_scratch (h : p.Sound) (hs : Storage.ofPlan p = .ok s) (ho : o ∈ s.scratch) :
    ∃ info, p.info? o = some info ∧ info.isResolved = true ∧ info.kind ≠ .delay := by
  obtain ⟨stage, hstage, href⟩ := Storage.exists_stage_of_scratch hs (Storage.mem_scratch.mp ho)
  obtain ⟨r, hr, hsound, hres, hkind⟩ := h.exists_object hstage href
  exact ⟨r.info, congrArg (Option.map Resolved.info) hr, hres, hsound.kind_eq ▸ hkind⟩

theorem emits_declareScratch {info : Meta} (hres : info.isResolved = true) (hkind : info.kind ≠ .delay) :
    Emits (CUnit.declareScratch o info) := by
  cases info with
  | image m =>
    obtain ⟨f, _, hf, _⟩ := exists_of_resolved hres
    simp only [CUnit.declareScratch, hf]
    exact .ok _
  | scalar m =>
    obtain ⟨t, ht⟩ := Option.isSome_iff_exists.mp hres
    simp only [CUnit.declareScratch, ht]
    exact .ok _
  | array m => exact .ok _
  | pyramid m =>
    obtain ⟨levels, w, ht, f⟩ := m
    cases levels
    · simp [Meta.isResolved, PyramidMeta.isResolved] at hres
    · exact .ok _
  | delay m => simp [Meta.kind] at hkind

theorem emits_allocateScratch {info : Meta} (hres : info.isResolved = true) :
    Emits (CUnit.allocateScratch o info) := by
  cases info with
  | image m =>
    obtain ⟨f, n, hf, hn⟩ := exists_of_resolved hres
    simp only [CUnit.allocateScratch, hf, hn]
    exact .ok _
  | scalar m => exact .ok _
  | array m =>
    obtain ⟨t, c⟩ := m
    cases t <;> cases c <;> simp [Meta.isResolved, ArrayMeta.isResolved] at hres
    exact .ok _
  | pyramid m =>
    obtain ⟨levels, w, ht, f⟩ := m
    cases levels <;> cases w <;> cases ht <;> cases f <;> simp [Meta.isResolved, PyramidMeta.isResolved] at hres
    rename_i n w ht f
    obtain ⟨lines, hlines⟩ := Emits.mapM (l := List.range n.toNat)
      (f := CUnit.allocateLevel o ⟨some n, some w, some ht, some f⟩ f) fun _ _ => .ok _
    exact ⟨_, map_eq_ok.mpr ⟨lines, hlines, rfl⟩⟩
  | delay m => exact .ok _

/-- The unit around the blocks can always be put together. -/
theorem Sound.emits_assemble (h : p.Sound) (hs : Storage.ofPlan p = .ok s) (helpers : List Helper)
    (blocks : List String) : Emits (CUnit.assemble p s helpers blocks) := by
  unfold CUnit.assemble
  refine Emits.bind (Emits.mapM fun o ho => ?_) fun scratch hscratch => ?_
  · obtain ⟨info, hinfo, _⟩ := h.info_of_scratch hs ho
    rw [hinfo]
    exact .ok _
  · have hcomplete : ∀ x ∈ scratch, x.2.isResolved = true ∧ x.2.kind ≠ .delay := by
      intro x hx
      obtain ⟨o, ho, hx⟩ := exists_of_mem_mapM hscratch hx
      obtain ⟨info, hinfo, hres, hkind⟩ := h.info_of_scratch hs ho
      rw [hinfo] at hx
      cases hx
      exact ⟨hres, hkind⟩
    refine Emits.bind (Emits.mapM fun x hx => ?_) fun _ _ => Emits.bind (Emits.mapM fun x hx => ?_) fun _ _ => .ok _
    · exact emits_declareScratch (hcomplete x hx).1 (hcomplete x hx).2
    · exact emits_allocateScratch (hcomplete x hx).1

/-- The first search for extrema without pixels stops the generation of a sound plan, and nothing else does. -/
theorem Sound.generate_cases (h : p.Sound) :
    match (p.stages.flatMap (·.steps)).find? p.emptyExtrema with
    | none => Emits (p.generate .standard)
    | some step => p.generate .standard = .error (.template step.origin .emptyExtrema) := by
  obtain ⟨s, hs⟩ := h.exists_storage
  unfold generate
  rw [hs]
  split
  · -- no stage takes the extrema of an empty image, so every stage has its block
    rename_i hnone
    refine Emits.bind (.ok s) fun _ he => ?_
    cases he
    refine Emits.bind (Emits.mapM fun stage hstage => ?_) fun fragments _ => ?_
    · rcases h.fragment_cases hs hstage with ⟨_, hemits⟩ | ⟨step, hsteps, hempty, _⟩
      · exact hemits
      · have hmem : step ∈ p.stages.flatMap (·.steps) := List.mem_flatMap.mpr ⟨stage, hstage, by simp [hsteps]⟩
        simp [List.find?_eq_none.mp hnone step hmem] at hempty
    · exact (h.emits_assemble hs _ _).bind fun _ _ => .ok _
  · -- all stages before the one that fails have their blocks
    rename_i step hfirst
    rw [List.find?_flatMap, List.findSome?_eq_some_iff] at hfirst
    obtain ⟨front, stage, back, hstages, hfind, hfront⟩ := hfirst
    have herror : p.stages.mapM (p.fragment .standard s) = .error (.template step.origin .emptyExtrema) := by
      have hmem : ∀ x ∈ front ++ [stage], x ∈ p.stages := by
        intro x hx
        simp only [hstages, List.mem_append, List.mem_cons, List.not_mem_nil, or_false] at hx ⊢
        exact hx.imp id .inl
      have hfirst : p.fragment .standard s stage = .error (.template step.origin .emptyExtrema) := by
        rcases h.fragment_cases hs (hmem stage (by simp)) with ⟨hnone, _⟩ | ⟨step', hsteps, _, herror⟩
        · have hno := hnone step (List.mem_of_find?_eq_some hfind)
          simp [List.find?_some hfind] at hno
        · rw [hsteps] at hfind
          have hsame : step = step' := by simpa using List.mem_of_find?_eq_some hfind
          rw [herror, hsame]
      rw [hstages]
      refine mapM_eq_error (fun x hx => ?_) hfirst
      rcases h.fragment_cases hs (hmem x (by simp [hx])) with ⟨_, hemits⟩ | ⟨step', hsteps, hempty, _⟩
      · exact hemits
      · have hno := List.find?_eq_none.mp (hfront x hx) step' (by simp [hsteps])
        simp [hempty] at hno
    show (p.stages.mapM (p.fragment .standard s) >>= _) = _
    rw [herror]
    rfl

/-- There is code for a plan unless it searches an image without pixels for extrema. -/
theorem Sound.exists_generate_iff (h : p.Sound) : (∃ u, p.generate .standard = .ok u) ↔
    ∀ stage ∈ p.stages, ∀ step ∈ stage.steps, p.emptyExtrema step = false := by
  have hcases := h.generate_cases
  constructor
  · intro hex stage hstage step hstep
    obtain ⟨u, hu⟩ := hex
    split at hcases
    · rename_i hnone
      have hno := List.find?_eq_none.mp hnone step (List.mem_flatMap.mpr ⟨stage, hstage, hstep⟩)
      simpa using hno
    · rw [hu] at hcases
      contradiction
  · intro hall
    have hnone : (p.stages.flatMap (·.steps)).find? p.emptyExtrema = none := by
      apply List.find?_eq_none.mpr
      intro step hmem
      obtain ⟨stage, hstage, hstep⟩ := List.mem_flatMap.mp hmem
      simp [hall stage hstage step hstep]
    rw [hnone] at hcases
    exact hcases

end Plan

namespace Graph

/-- A graph that was built and accepted always gets its code, however it is optimised. The one exception is a
search for the extrema of an image without pixels: then the first such node is reported. -/
theorem generate_of_verify (g : Graph) (hg : g.Built) (p : Plan) (h : g.verify .standard = .ok p)
    (c : OptimizerConfig) :
    match ((p.optimize c).1.stages.flatMap (·.steps)).find? (p.optimize c).1.emptyExtrema with
    | none => ∃ u, (p.optimize c).1.generate .standard = .ok u
    | some step => (p.optimize c).1.generate .standard = .error (.template step.origin .emptyExtrema) :=
  (Plan.stable_sound.optimize c (sound_of_verify hg h)).generate_cases

/-- Extrema of an image without columns, after a node that has code. -/
def hollow : Graph := Graph.empty.edit [.image 0 3 .u8, .scalar .u8, .scalar .u8, .image 2 2 .u8, .image 2 2 .u8,
  .node "vx.not" [some ⟨3⟩, some ⟨4⟩],
  .node "vx.minmaxloc" [some ⟨0⟩, some ⟨1⟩, some ⟨2⟩, none, none, none, none]]

theorem generate_hollow : ∃ p, hollow.verify .standard = .ok p ∧
    (p.optimize .standard).1.generate .standard = .error (.template ⟨1⟩ .emptyExtrema) := by
  have hfirst : (hollow.verify .standard).toOption.map (fun p =>
      (((p.optimize .standard).1.stages.flatMap (·.steps)).find? (p.optimize .standard).1.emptyExtrema).map
        (·.origin)) = some (some ⟨1⟩) := by decide +kernel
  cases h : hollow.verify .standard with
  | error e => simp [h, Except.toOption] at hfirst
  | ok p =>
    have hgen := generate_of_verify hollow ⟨_, rfl⟩ p h .standard
    simp only [h, Except.toOption, Option.map_some, Option.some.injEq, Option.map_eq_some_iff] at hfirst
    obtain ⟨step, hstep, horigin⟩ := hfirst
    rw [hstep] at hgen
    exact ⟨p, rfl, horigin ▸ hgen⟩

end Graph

end VisionGraph
