import VisionGraph.Proofs.Certificate
import VisionGraph.Proofs.Optimization

/-! The storage of a plan as a partition of the objects that its stages name. What kind of place an object has is decided
by what the graph says of it and by what the stages keep inside, so it does not matter which stage names it first. -/
namespace VisionGraph

/-- Where an object belongs. -/
def Graph.Due (g : Graph) (q : Plan) (entries : List ObjectId) (o : ObjectId) : Placement → Prop
  | .constant v => ∃ x, g.object? o = some x ∧ x.constant = some v
  | .internal => ∃ stage ∈ q.stages, o ∈ stage.internal
  | .slot e age => ∃ x d, g.object? o = some x ∧ entries[e]? = some d ∧ x.slot = some ⟨d, age⟩
  | .entry i => entries[i]? = some o
  -- whatever is none of the others
  | .scratch => (∀ x, g.object? o = some x → x.constant = none ∧ x.slot = none) ∧
      (¬∃ stage ∈ q.stages, o ∈ stage.internal) ∧ o ∉ entries

/-! ### The kinds exclude each other -/

namespace Resolved.Sound

variable {p : Plan} {o : ObjectId} {r : Resolved}

/-- A constant is the graph's own and in no delay. -/
theorem of_constant (h : r.Sound p o) {v : Scalar} (hc : r.object.constant = some v) :
    r.object.isExternal = false ∧ r.object.slot = none := by
  have hvirtual : r.object.isVirtual = true := by
    by_contra hreal
    simp [DataObject.constant, hreal] at hc
  have hunmarked : r.object.markedOutput = false := h.unmarked (by simp [DataObject.isConstant, hc])
  exact ⟨by simp [DataObject.isExternal, hvirtual, hunmarked], h.virtual hvirtual⟩

/-- An image of a delay is no constant and is not bound on its own. -/
theorem of_slot (h : r.Sound p o) {slot : DelaySlot} (hs : r.object.slot = some slot) :
    r.object.constant = none ∧ r.object.isEntry = false := by
  have hreal := Graph.isVirtual_of_slot h.virtual hs
  exact ⟨by simp [DataObject.constant, hreal], by simp [DataObject.isEntry, hs]⟩

end Resolved.Sound

namespace Plan

variable {g : Graph} {q : Plan} {s : Storage} {o : ObjectId} {r : Resolved}

/-- A private image is neither seen nor a constant nor in a delay. -/
theorem of_isPrivateImage (hr : q.object? o = some r) (h : q.isPrivateImage o = true) :
    r.object.isExternal = false ∧ r.object.constant = none ∧ r.object.slot = none := by
  simp only [isPrivateImage, hr, Bool.and_eq_true, beq_iff_eq, Bool.not_eq_true', Option.isNone_iff_eq_none] at h
  obtain ⟨⟨⟨hkind, _⟩, hhidden⟩, hslot⟩ := h
  refine ⟨hhidden, ?_, hslot⟩
  unfold DataObject.kind at hkind
  unfold DataObject.constant
  cases hinfo : r.object.info with
  | image m => simp [Meta.scalar?]
  | array | scalar | pyramid | delay =>
    rw [hinfo] at hkind
    cases hkind

theorem Sound.not_mem_entries (h : q.Sound) (hr : q.object? o = some r) (hno : r.object.isEntry = false) :
    ∀ i : Nat, q.entries[i]? ≠ some o := by
  intro i hi
  have hmem := List.mem_of_getElem? hi
  obtain ⟨r', hr', hentry⟩ := (mem_entries h.ids).mp hmem
  cases hr.symm.trans hr'
  rw [hno] at hentry
  cases hentry

theorem isEntry_of_hidden (h : r.object.isExternal = false) : r.object.isEntry = false := by
  simp [DataObject.isEntry, h]

variable (h : q.Sound)

include h

theorem Sound.getElem?_entries_iff {d : ObjectId} {i j : Nat} (hi : q.entries[i]? = some d) :
    q.entries[j]? = some d ↔ j = i := by
  constructor
  · intro hj
    have hlt : j < q.entries.length := (List.getElem?_eq_some_iff.mp hj).1
    exact (List.getElem?_inj hlt (nodup_entries h.ids)).mp (hj.trans hi.symm)
  · intro he
    rw [he, hi]

/-- An internal image belongs nowhere else. -/
theorem Sound.due_internal (hr : q.object? o = some r) (hget : g.object? o = some r.object)
    (hin : ∃ stage ∈ q.stages, o ∈ stage.internal) (x : Placement) : g.Due q q.entries o x ↔ x = .internal := by
  obtain ⟨stage, hstage, ho⟩ := hin
  obtain ⟨hhidden, hconst, hslot⟩ := of_isPrivateImage hr ((h.stages stage hstage).hidden o ho)
  have hentry := h.not_mem_entries hr (isEntry_of_hidden hhidden)
  cases x with
  | internal => exact iff_of_true ⟨stage, hstage, ho⟩ rfl
  | constant v => simp [Graph.Due, hget, hconst]
  | slot e age => simp [Graph.Due, hget, hslot]
  | entry i => simp [Graph.Due, hentry]
  | scratch =>
    refine iff_of_false ?_ (by simp)
    rintro ⟨_, hno, _⟩
    exact hno ⟨stage, hstage, ho⟩

/-- Any other object belongs where it is placed when it is first named, and nowhere else. -/
theorem Sound.due_place (hr : q.object? o = some r) (hget : g.object? o = some r.object)
    (hout : ¬∃ stage ∈ q.stages, o ∈ stage.internal) :
    ∃ x, Storage.place q q.entries o = .ok x ∧ ∀ y, g.Due q q.entries o y ↔ y = x := by
  have hsound := h.objects o r hr
  obtain ⟨v, hc, hplace⟩ | ⟨hc, ⟨slot, e, hslot, he, hplace⟩ | ⟨hslot, ⟨i, _, hi, hplace⟩ | ⟨_, hno, hplace⟩⟩⟩ :=
    h.place_cases hr
  · obtain ⟨hhidden, hslot⟩ := hsound.of_constant hc
    have hentry := h.not_mem_entries hr (isEntry_of_hidden hhidden)
    refine ⟨_, hplace, fun y => ?_⟩
    cases y <;> simp [Graph.Due, hget, hc, hslot, hentry, hout, eq_comm]
  · -- the delay is bound by the caller, under one number
    have hentry := h.not_mem_entries hr (hsound.of_slot hslot).2
    refine ⟨_, hplace, fun y => ?_⟩
    cases y with
    | slot e' age =>
      constructor
      · rintro ⟨x, d, hx, hd, hs⟩
        cases hget.symm.trans hx
        cases hslot.symm.trans hs
        rw [(h.getElem?_entries_iff he).mp hd]
      · intro heq
        cases heq
        exact ⟨_, _, hget, he, hslot⟩
    | _ => simp [Graph.Due, hget, hc, hslot, hentry, hout]
  · refine ⟨_, hplace, fun y => ?_⟩
    cases y <;> simp [Graph.Due, hget, hc, hslot, h.getElem?_entries_iff hi, hout, List.mem_of_getElem? hi]
  · have hentry : ∀ i : Nat, q.entries[i]? ≠ some o := fun i hi => hno (List.mem_of_getElem? hi)
    refine ⟨_, hplace, fun y => ?_⟩
    cases y <;> simp [Graph.Due, hget, hc, hslot, hentry, hout, hno]

/-- Some stage names the object. -/
def Names (q : Plan) (o : ObjectId) : Prop := ∃ stage ∈ q.stages, o ∈ stage.referenced

theorem Sound.referenced_of_internal {stage : Stage} (hstage : stage ∈ q.stages) (ho : o ∈ stage.internal) :
    o ∈ stage.referenced := by
  obtain ⟨step, hstep, hw⟩ := (h.stages stage hstage).written o ho
  exact Stage.mem_referenced.mpr ⟨step, hstep, Step.bound_of_writes hw⟩

/-- The storage has a place for what is named and for nothing else. -/
theorem Sound.names_of_placement (hs : Storage.ofPlan q = .ok s) {x : Placement} (hx : s.placement? o = some x) :
    q.Names o := by
  by_contra hno
  have hnot : ∀ stage ∈ q.stages, o ∉ stage.referenced := fun stage hstage ho => hno ⟨stage, hstage, ho⟩
  have hout : ∀ stage ∈ q.stages, o ∉ stage.internal := by
    intro stage hstage ho
    exact hnot stage hstage (h.referenced_of_internal hstage ho)
  have hnone : s.placement? o = none := ((Storage.placed_of_ofPlan hs).2 o hout).2 hnot
  rw [hx] at hnone
  cases hnone

/-- What is named has the place where it belongs. -/
theorem Sound.placement_iff_due (hg : ∀ o r, q.object? o = some r → g.object? o = some r.object)
    (hs : Storage.ofPlan q = .ok s) (ho : q.Names o) (x : Placement) :
    s.placement? o = some x ↔ g.Due q q.entries o x := by
  obtain ⟨stage, hstage, href⟩ := ho
  obtain ⟨r, hr, _⟩ := h.exists_object hstage href
  by_cases hin : ∃ other ∈ q.stages, o ∈ other.internal
  · rw [h.due_internal hr (hg o r hr) hin]
    obtain ⟨other, hother, hi⟩ := hin
    rw [placement_internal hs hother hi, Option.some.injEq, eq_comm]
  · obtain ⟨y, hy, hdue⟩ := h.due_place hr (hg o r hr) hin
    have hplace := h.placement_eq hs hstage href fun hi => hin ⟨stage, hstage, hi⟩
    rw [hdue, hplace, hy, eq_comm, Except.toOption, Option.some.injEq]

theorem Sound.exists_placement (hs : Storage.ofPlan q = .ok s) (ho : q.Names o) : ∃ x, s.placement? o = some x := by
  obtain ⟨stage, hstage, ho⟩ := ho
  by_cases hi : o ∈ stage.internal
  · exact ⟨.internal, placement_internal hs hstage hi⟩
  · obtain ⟨r, hr, _⟩ := h.exists_object hstage ho
    obtain ⟨x, hx, _⟩ := h.place_eq_ok hr
    refine ⟨x, ?_⟩
    rw [h.placement_eq hs hstage ho hi, hx]
    rfl

/-- What can be seen from outside is internal to no stage. -/
theorem Sound.not_internal_of_external (hr : q.object? o = some r) (hext : r.object.isExternal = true) :
    ¬∃ stage ∈ q.stages, o ∈ stage.internal := by
  rintro ⟨stage, hstage, hi⟩
  have hhidden := (of_isPrivateImage hr ((h.stages stage hstage).hidden o hi)).1
  rw [hext] at hhidden
  cases hhidden

/-- It is bound on its own or comes with its delay. -/
theorem Sound.entry_or_slot (hr : q.object? o = some r) (hext : r.object.isExternal = true) :
    o ∈ q.entries ∨ r.object.slot ≠ none := by
  cases hslot : r.object.slot with
  | some slot => exact .inr nofun
  | none =>
    refine .inl ((mem_entries h.ids).mpr ⟨r, hr, ?_⟩)
    simp [DataObject.isEntry, hext, hslot]

end Plan

/-- The storage is a partition of the objects that the stages of a plan name. -/
structure Storage.Partitions (s : Storage) (g : Graph) (q : Plan) : Prop where
  total : ∀ o, (∃ x, s.placement? o = some x) ↔ q.Names o
  placed : ∀ o, q.Names o → ∀ x, s.placement? o = some x ↔ g.Due q s.entries o x
  /-- One stage alone names an internal object. -/
  sole : ∀ o, s.placement? o = some .internal → ∃! i : Nat, ∃ stage, q.stages[i]? = some stage ∧ o ∈ stage.referenced
  entries : s.entries.Pairwise (·.index < ·.index)
  /-- What can be seen from outside is bound from outside. -/
  visible : ∀ o x, g.object? o = some x → x.isExternal = true →
    s.placement? o ≠ some .scratch ∧ s.placement? o ≠ some .internal
  scratch : s.scratch.Pairwise (·.index < ·.index) ∧ ∀ o, o ∈ s.scratch ↔ s.placement? o = some .scratch

namespace Plan

variable {g : Graph} {q : Plan} {s : Storage}

theorem Sound.partitions (h : q.Sound) (hg : ∀ o r, q.object? o = some r → g.object? o = some r.object)
    (hs : Storage.ofPlan q = .ok s) : s.Partitions g q := by
  have hentries : s.entries = q.entries := (Storage.ofPlan_eq_ok.mp hs).1
  have hplaced : ∀ o, q.Names o → ∀ x, s.placement? o = some x ↔ g.Due q s.entries o x := by
    rw [hentries]
    exact fun o ho x => h.placement_iff_due hg hs ho x
  have hdue : ∀ {o x}, s.placement? o = some x → g.Due q s.entries o x :=
    fun hx => (hplaced _ (h.names_of_placement hs hx) _).mp hx
  refine ⟨fun o => ?_, hplaced, fun o ho => ?_, hentries ▸ sorted_entries h.ids, fun o x hx hext => ?_,
    s.sorted_scratch, fun o => Storage.mem_scratch⟩
  · constructor
    · rintro ⟨x, hx⟩
      exact h.names_of_placement hs hx
    · exact h.exists_placement hs
  · obtain ⟨stage, hstage, hi⟩ := hdue ho
    have href := h.referenced_of_internal hstage hi
    obtain ⟨i, hstage⟩ := List.mem_iff_getElem?.mp hstage
    refine ⟨i, ⟨stage, hstage, href⟩, ?_⟩
    rintro j ⟨other, hother, href'⟩
    exact h.position_of_internal hstage hi hother href'
  · -- an object that is placed is an object of the plan
    have hobject : ∀ {y}, s.placement? o = some y → ∃ r, q.object? o = some r ∧ r.object = x := by
      intro y hy
      obtain ⟨stage, hstage, ho⟩ := h.names_of_placement hs hy
      obtain ⟨r, hr, _⟩ := h.exists_object hstage ho
      exact ⟨r, hr, Option.some.inj ((hg o r hr).symm.trans hx)⟩
    constructor
    · intro hscratch
      obtain ⟨hplain, _, hentry⟩ := hdue hscratch
      obtain ⟨r, hr, rfl⟩ := hobject hscratch
      rw [hentries] at hentry
      rcases h.entry_or_slot hr hext with hmem | hslot
      · exact hentry hmem
      · exact hslot (hplain _ hx).2
    · intro hinternal
      obtain ⟨r, hr, rfl⟩ := hobject hinternal
      exact h.not_internal_of_external hr hext (hdue hinternal)

/-- A sound plan whose objects are among those of another one. -/
structure Within (p q : Plan) : Prop where
  sound : q.Sound
  objects : ∀ (o : ObjectId) (r : Resolved), q.object? o = some r → p.object? o = some r

theorem stable_within (p : Plan) : Stable (Within p) where
  prune _ h := ⟨h.sound.prune, fun o r hr => h.objects o r ((object?_prune h.sound.ids).mp hr).1⟩
  fuseOnce _ _ _ h hq := by
    obtain ⟨_, _, _, _, _, _, hf, rfl⟩ := fuseOnce_eq_some h.sound.woven hq
    exact ⟨hf.sound h.sound, h.objects⟩

end Plan

namespace Graph

variable {g : Graph} {p : Plan}

/-- Whatever passes are enabled, the optimised plan of a graph has a storage. It places every object that a stage names,
nothing else, and each in the one way that the graph and the stages call for. -/
theorem storage_partitions (hg : g.Built) (h : g.verify .standard = .ok p) (c : OptimizerConfig) :
    ∃ s, Storage.ofPlan (p.optimize c).1 = .ok s ∧ s.Partitions g (p.optimize c).1 := by
  have hwithin := (Plan.stable_within p).optimize c ⟨sound_of_verify hg h, fun _ _ hr => hr⟩
  obtain ⟨s, hs⟩ := hwithin.sound.exists_storage
  refine ⟨s, hs, hwithin.sound.partitions ?_ hs⟩
  intro o r hr
  exact object?_of_plan hg h (hwithin.objects o r hr)

/-- A graph with a delay, a constant and two images of its own, of which one is fused away. -/
def smoothed : Graph := Graph.empty.edit [.image 3 3 .u8, .delay 2 (.known 3 3 .u8), .virtualImage ⟨none, none, none⟩,
  .virtualImage ⟨none, none, none⟩, .constant (.u8 7), .image 3 3 .u8, .node "vx.or" [some ⟨0⟩, some ⟨3⟩, some ⟨4⟩],
  .node "vx.threshold" [some ⟨4⟩, some ⟨6⟩, some ⟨5⟩], .node "vx.box_3x3" [some ⟨5⟩, some ⟨7⟩]]

theorem storage_partitions_smoothed : ∃ p s, smoothed.verify .standard = .ok p ∧
    Storage.ofPlan (p.optimize .standard).1 = .ok s ∧ s.Partitions smoothed (p.optimize .standard).1 ∧
      s.entries = [⟨0⟩, ⟨1⟩, ⟨7⟩] ∧ s.placements.entries = [(⟨0⟩, .entry 0), (⟨3⟩, .slot 1 1), (⟨4⟩, .internal),
        (⟨5⟩, .scratch), (⟨6⟩, .constant (.u8 7)), (⟨7⟩, .entry 2)] := by
  have hplan : ((smoothed.verify .standard).toOption.bind fun p =>
      (Storage.ofPlan (p.optimize .standard).1).toOption.map fun s => (s.entries, s.placements.entries)) =
      some ([⟨0⟩, ⟨1⟩, ⟨7⟩], [(⟨0⟩, .entry 0), (⟨3⟩, .slot 1 1), (⟨4⟩, .internal), (⟨5⟩, .scratch),
        (⟨6⟩, .constant (.u8 7)), (⟨7⟩, .entry 2)]) := by decide +kernel
  obtain ⟨p, hp, hplan⟩ := Option.bind_eq_some_iff.mp hplan
  obtain ⟨s, hs, hplan⟩ := Option.map_eq_some_iff.mp hplan
  have hverify := toOption_eq_some.mp hp
  obtain ⟨t, ht, hpart⟩ := storage_partitions ⟨_, rfl⟩ hverify .standard
  cases ht.symm.trans (toOption_eq_some.mp hs)
  simp only [Prod.mk.injEq] at hplan
  exact ⟨p, s, hverify, ht, hpart, hplan⟩

end Graph

end VisionGraph
