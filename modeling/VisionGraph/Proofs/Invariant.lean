import VisionGraph.Plan.Passes
import VisionGraph.Proofs.Construction
import VisionGraph.Proofs.Verification

/-! What holds of the objects and the steps of a plan over the standard kernels. -/
namespace VisionGraph

/-- What holds of an object of a plan and of the metadata that was found for it. -/
structure Resolved.Sound (p : Plan) (o : ObjectId) (r : Resolved) : Prop where
  id : r.object.id = o
  extend : r.info.Extends r.object.info
  value : r.info.value? = r.object.info.value?
  real : r.object.isVirtual = false → r.info = r.object.info ∧ r.info.isResolved = true ∧ r.info.value? = none
  virtual : r.object.isVirtual = true → r.object.slot = none
  unmarked : r.object.isConstant = true → r.object.markedOutput = false
  slot : ∀ s, r.object.slot = some s → r.object.kind = .image ∧ o.index = s.delay.index + 1 + s.age.toNat ∧
    ∃ d, p.object? s.delay = some d ∧ d.object.isVirtual = false ∧ d.object.slot = none ∧ d.object.kind = .delay
  template : ∀ s, r.object.slot = some s → ∃ d m, p.object? s.delay = some d ∧ d.info = .delay m ∧
    r.info = .image m.template ∧ s.age.toNat < m.slots.toNat

theorem Resolved.Sound.kind_eq {p : Plan} {o : ObjectId} {r : Resolved} (h : r.Sound p o) :
    r.info.kind = r.object.kind :=
  h.extend.kind_eq

theorem Plan.info?_of_object? {p : Plan} {o : ObjectId} {r : Resolved} (hr : p.object? o = some r) :
    p.info? o = some r.info :=
  congrArg (Option.map Resolved.info) hr

theorem Plan.info_eq {p : Plan} {o : ObjectId} {r : Resolved} (hr : p.object? o = some r) {info : Meta}
    (hinfo : p.info? o = some info) : r.info = info :=
  Option.some.inj ((info?_of_object? hr).symm.trans hinfo)

/-- What a parameter of a step is bound to. -/
def Plan.Serves (p : Plan) (spec : Param) : Option ObjectId → Prop
  | none => spec.optional = true
  | some o => ∃ r, p.object? o = some r ∧ r.info.kind = spec.kind ∧ r.info.isResolved = true ∧
      (spec.direction.writes = true → r.object.isConstant = false) ∧
      (spec.direction = .bidirectional → r.object.isVirtual = false)

/-- What holds of a step of a kernel. The last field says that the rule of the kernel accepts the metadata of
the plan and infers nothing that is not there. -/
structure Step.Valid (p : Plan) (s : Step) (k : Kernel) : Prop where
  kernel : Registry.standard.find? s.kernel = some k
  directions : s.directions = k.signature.directions
  arity : s.params.length = k.signature.params.length
  slots : ∀ x ∈ k.signature.params.zip s.params, p.Serves x.1 x.2
  settled : ∃ inferences, k.rule (s.params.map fun param => param.bind p.info?) = .ok inferences ∧
    ∀ i ∈ inferences, ∃ o m, s.params[i.slot]? = some (some o) ∧ p.info? o = some m ∧
      m.merge i.info = ⟨m, .ok false⟩

/-- The objects bound to the parameters of a step. -/
def Step.bound (s : Step) : List ObjectId := s.params.filterMap fun param => param

theorem Step.mem_bound {s : Step} {o : ObjectId} : o ∈ s.bound ↔ ∃ slot : Nat, s.params[slot]? = some (some o) := by
  rw [Step.bound, List.mem_filterMap]
  simp only [exists_eq_right, List.mem_iff_getElem?]

namespace Step.Valid

variable {p : Plan} {s : Step} {k : Kernel}

theorem mem_standard (h : s.Valid p k) : k ∈ Registry.standard.kernels :=
  List.mem_of_find?_eq_some h.kernel

/-- The parameter of the kernel at the place of a bound one. -/
theorem exists_spec (h : s.Valid p k) {slot : Nat} {param : Option ObjectId} (hs : s.params[slot]? = some param) :
    ∃ spec, k.signature.params[slot]? = some spec ∧ s.directions[slot]? = some spec.direction ∧
      p.Serves spec param := by
  have hlt : slot < k.signature.params.length := h.arity ▸ (List.getElem?_eq_some_iff.mp hs).1
  have hspec : k.signature.params[slot]? = some k.signature.params[slot] := List.getElem?_eq_getElem hlt
  refine ⟨_, hspec, by simp [h.directions, Signature.directions, hlt], ?_⟩
  exact h.slots (_, param) (List.mem_iff_getElem?.mpr ⟨slot, List.getElem?_zip_eq_some.mpr ⟨hspec, hs⟩⟩)

/-- A parameter that a kernel requires is bound. -/
theorem exists_required (h : s.Valid p k) {slot : Nat} {spec : Param} (hs : k.signature.params[slot]? = some spec)
    (hreq : spec.optional = false) : ∃ o r, s.params[slot]? = some (some o) ∧ p.object? o = some r ∧
      r.info.kind = spec.kind ∧ r.info.isResolved = true := by
  have hlt : slot < s.params.length := h.arity ▸ (List.getElem?_eq_some_iff.mp hs).1
  have hparam : s.params[slot]? = some s.params[slot] := List.getElem?_eq_getElem hlt
  obtain ⟨spec', hspec', _, hserves⟩ := h.exists_spec hparam
  have hsame : spec' = spec := by simpa [hs] using hspec'.symm
  subst hsame
  cases hval : s.params[slot] with
  | none => simp [hval, Plan.Serves, hreq] at hserves
  | some o =>
    rw [hval] at hserves hparam
    obtain ⟨r, hr, hkind, hres, _⟩ := hserves
    exact ⟨o, r, hparam, hr, hkind, hres⟩

/-- Every bound object is an object of the plan with complete metadata. -/
theorem exists_object (h : s.Valid p k) {o : ObjectId} (ho : o ∈ s.bound) :
    ∃ r, p.object? o = some r ∧ r.info.isResolved = true := by
  obtain ⟨slot, hslot⟩ := Step.mem_bound.mp ho
  obtain ⟨_, _, _, r, hr, _, hres, _⟩ := h.exists_spec hslot
  exact ⟨r, hr, hres⟩

theorem mem_bound_iff (h : s.Valid p k) {o : ObjectId} : o ∈ s.bound ↔ o ∈ s.reads ∨ o ∈ s.writes := by
  rw [Step.mem_bound, Step.reads, Step.writes, Step.mem_boundBy, Step.mem_boundBy]
  constructor
  · rintro ⟨slot, hslot⟩
    obtain ⟨spec, _, hd, _⟩ := h.exists_spec hslot
    cases hdir : spec.direction with
    | input => exact .inl ⟨slot, _, hslot, hd, by simp [hdir, Direction.reads]⟩
    | output => exact .inr ⟨slot, _, hslot, hd, by simp [hdir, Direction.writes]⟩
    | bidirectional => exact .inl ⟨slot, _, hslot, hd, by simp [hdir, Direction.reads]⟩
  · rintro (⟨slot, _, hslot, _⟩ | ⟨slot, _, hslot, _⟩)
    · exact ⟨slot, hslot⟩
    · exact ⟨slot, hslot⟩

/-- A step stays valid in a plan that has the same objects for it. -/
theorem congr {q : Plan} (h : s.Valid p k) (hq : ∀ o ∈ s.bound, q.object? o = p.object? o) : s.Valid q k where
  kernel := h.kernel
  directions := h.directions
  arity := h.arity
  slots x hx := by
    obtain ⟨spec, param⟩ := x
    cases param with
    | none => exact h.slots _ hx
    | some o =>
      obtain ⟨slot, hslot⟩ := List.mem_iff_getElem?.mp hx
      obtain ⟨_, hparam⟩ := List.getElem?_zip_eq_some.mp hslot
      obtain ⟨r, hr, hrest⟩ := h.slots _ hx
      exact ⟨r, (hq o (Step.mem_bound.mpr ⟨slot, hparam⟩)).trans hr, hrest⟩
  settled := by
    have hinfo : ∀ o ∈ s.bound, q.info? o = p.info? o := fun o ho => congrArg (Option.map _) (hq o ho)
    have hview : (s.params.map fun param => param.bind q.info?) = s.params.map fun param => param.bind p.info? := by
      refine List.map_congr_left fun param hp => ?_
      cases param with
      | none => rfl
      | some o =>
        obtain ⟨slot, hslot⟩ := List.mem_iff_getElem?.mp hp
        exact hinfo o (Step.mem_bound.mpr ⟨slot, hslot⟩)
    obtain ⟨infs, hrule, hall⟩ := h.settled
    refine ⟨infs, hview ▸ hrule, fun i hi => ?_⟩
    obtain ⟨o, m, hslot, hm, hmerge⟩ := hall i hi
    exact ⟨o, m, hslot, (hinfo o (Step.mem_bound.mpr ⟨_, hslot⟩)).trans hm, hmerge⟩

end Step.Valid

/-- A step that comes after another writes nothing that the other one names. -/
def Step.After (a b : Step) : Prop := ∀ o ∈ b.writes, o ∉ a.bound

/-- None of some objects is read before a step has written it. -/
def SafeFrom (unset : ObjectId → Prop) : List Step → Prop
  | [] => True
  | s :: rest => (∀ o ∈ s.reads, ¬unset o) ∧ SafeFrom (fun o => unset o ∧ o ∉ s.writes) rest

/-- What is never read stays harmless. -/
theorem SafeFrom.of_unread {unset unset' : ObjectId → Prop} {steps : List Step} (h : SafeFrom unset steps)
    (hsub : ∀ o, unset' o → unset o ∨ ∀ s ∈ steps, o ∉ s.reads) : SafeFrom unset' steps := by
  induction steps generalizing unset unset' with
  | nil => trivial
  | cons s steps ih =>
    refine ⟨fun o ho hu => ?_, ih h.2 fun o ho => ?_⟩
    · rcases hsub o hu with hu | hno
      · exact h.1 o ho hu
      · exact hno s List.mem_cons_self ho
    · rcases hsub o ho.1 with hu | hno
      · exact .inl ⟨hu, ho.2⟩
      · exact .inr fun t ht => hno t (List.mem_cons_of_mem s ht)

/-- Objects that are never read are no danger, and those that are written are none any more. -/
theorem SafeFrom.append {unset unset' : ObjectId → Prop} {steps rest : List Step} (h : SafeFrom unset steps)
    (hrest : SafeFrom unset' rest) (hsteps : ∀ o, unset o → (∀ s ∈ steps, o ∉ s.writes) → unset' o) :
    SafeFrom unset (steps ++ rest) := by
  induction steps generalizing unset with
  | nil => exact hrest.of_unread fun o ho => .inl (hsteps o ho nofun)
  | cons s steps ih =>
    refine ⟨h.1, ih h.2 fun o ho hw => hsteps o ho.1 fun t ht => ?_⟩
    rcases List.mem_cons.mp ht with rfl | ht
    · exact ho.2
    · exact hw t ht

/-- What holds of a stage. A stage over whole objects has one step; the internal images of any other are the
plan's own and are written before they are read. -/
structure Stage.Valid (p : Plan) (stage : Stage) : Prop where
  steps : ∀ s ∈ stage.steps, ∃ k, s.Valid p k ∧ k.isPixelwise = stage.pixelwise
  nonempty : stage.steps ≠ []
  whole : stage.pixelwise = false → stage.steps.length = 1 ∧ stage.internal = []
  hidden : ∀ o ∈ stage.internal, p.isPrivateImage o = true
  written : ∀ o ∈ stage.internal, ∃ s ∈ stage.steps, o ∈ s.writes
  safe : SafeFrom (· ∈ stage.internal) stage.steps

/-- What holds of a plan that comes from verification, also after any passes. -/
structure Plan.Sound (p : Plan) : Prop where
  objects : ∀ (o : ObjectId) (r : Resolved), p.object? o = some r → r.Sound p o
  stages : ∀ stage ∈ p.stages, stage.Valid p
  after : (p.stages.flatMap (·.steps)).Pairwise Step.After
  /-- The internal images of a stage are named by no other stage. -/
  separate : p.stages.Pairwise fun a b =>
    (∀ o ∈ a.internal, o ∉ b.referenced) ∧ ∀ o ∈ b.internal, o ∉ a.referenced

namespace Stage

variable {stage : Stage} {o : ObjectId}

theorem mem_referenced : o ∈ stage.referenced ↔ ∃ s ∈ stage.steps, o ∈ s.bound := by
  simp only [referenced, List.mem_eraseDups, List.mem_flatMap]
  rfl

theorem mem_reads : o ∈ stage.reads ↔ (∃ s ∈ stage.steps, o ∈ s.reads) ∧ o ∉ stage.internal := by
  simp [reads]

theorem mem_writes : o ∈ stage.writes ↔ (∃ s ∈ stage.steps, o ∈ s.writes) ∧ o ∉ stage.internal := by
  simp [writes]

end Stage

theorem Step.bound_of_writes {s : Step} {o : ObjectId} (h : o ∈ s.writes) : o ∈ s.bound := by
  obtain ⟨slot, _, hslot, _⟩ := Step.mem_boundBy.mp h
  exact Step.mem_bound.mpr ⟨slot, hslot⟩

theorem Step.bound_of_reads {s : Step} {o : ObjectId} (h : o ∈ s.reads) : o ∈ s.bound := by
  obtain ⟨slot, _, hslot, _⟩ := Step.mem_boundBy.mp h
  exact Step.mem_bound.mpr ⟨slot, hslot⟩

theorem Stage.referenced_of_writes {stage : Stage} {o : ObjectId} (h : o ∈ stage.writes) : o ∈ stage.referenced := by
  obtain ⟨⟨s, hs, hw⟩, _⟩ := Stage.mem_writes.mp h
  exact Stage.mem_referenced.mpr ⟨s, hs, Step.bound_of_writes hw⟩

/-- No standard kernel takes a delay as a whole. -/
theorem Registry.kind_ne_delay {k : Kernel} (hk : k ∈ Registry.standard.kernels) {spec : Param}
    (hs : spec ∈ k.signature.params) : spec.kind ≠ .delay := by
  have hall : Registry.standard.kernels.all fun k => k.signature.params.all fun spec => spec.kind ≠ .delay := by decide
  simpa using List.all_eq_true.mp (List.all_eq_true.mp hall k hk) spec hs

namespace Plan.Sound

variable {p : Plan} {stage : Stage} {o : ObjectId}

/-- What a stage names is an object of the plan with complete metadata, and no delay. -/
theorem exists_object (h : p.Sound) (hstage : stage ∈ p.stages) (ho : o ∈ stage.referenced) :
    ∃ r, p.object? o = some r ∧ r.Sound p o ∧ r.info.isResolved = true ∧ r.object.kind ≠ .delay := by
  obtain ⟨s, hs, hbound⟩ := Stage.mem_referenced.mp ho
  obtain ⟨k, hk, _⟩ := (h.stages stage hstage).steps s hs
  obtain ⟨slot, hslot⟩ := Step.mem_bound.mp hbound
  obtain ⟨spec, hspec, _, r, hr, hkind, hres, _⟩ := hk.exists_spec hslot
  have hsound := h.objects o r hr
  refine ⟨r, hr, hsound, hres, ?_⟩
  rw [← hsound.kind_eq, hkind]
  exact Registry.kind_ne_delay hk.mem_standard (List.mem_of_getElem? hspec)

/-- What a stage writes is no constant. -/
theorem not_constant (h : p.Sound) (hstage : stage ∈ p.stages) (ho : o ∈ stage.writes) {r : Resolved}
    (hr : p.object? o = some r) : r.object.isConstant = false := by
  obtain ⟨⟨s, hs, hw⟩, _⟩ := Stage.mem_writes.mp ho
  obtain ⟨k, hk, _⟩ := (h.stages stage hstage).steps s hs
  obtain ⟨slot, d, hslot, hd, hdw⟩ := Step.mem_boundBy.mp hw
  obtain ⟨spec, _, hspec, r', hr', _, _, hconst, _⟩ := hk.exists_spec hslot
  have heq : r' = r := by simpa [hr] using hr'.symm
  have hdir : d = spec.direction := by simpa [hd] using hspec
  exact heq ▸ hconst (hdir ▸ hdw)

end Plan.Sound

end VisionGraph
