import VisionGraph.Proofs.LiveStages

/-! One sweep is enough. Joining two stages makes no stage dead and no object unused, so pruning finds nothing more after
fusion, and fusion itself only stops when nothing is left to join. -/
namespace VisionGraph

namespace Plan

open Relation

variable {p q : Plan} {e : Event} {passes : List Pass}

/-- What one stage writes is internal to none. -/
theorem Woven.not_internal (h : p.Woven) {a b : Stage} (ha : a ∈ p.stages) (hb : b ∈ p.stages) {o : ObjectId}
    (ho : o ∈ a.writes) : o ∉ b.internal := by
  intro hin
  by_cases hab : a = b
  · exact (Stage.mem_writes.mp ho).2 (hab ▸ hin)
  · exact (h.separate.forall ha hb hab).2 o hin (Stage.referenced_of_writes ho)

theorem not_isExternal_of_hidden {o : ObjectId} (h : p.isPrivateImage o = true) : p.isExternal o = false := by
  unfold isPrivateImage object? at h
  unfold isExternal
  cases hr : p.objects.get? o with
  | none => simp
  | some r => simp_all

/-! ### Fusion keeps plans tidy -/

namespace Fusable

variable {front between back : List Stage} {producer consumer : Stage} {t : ObjectId}

/-- The stage that a live stage becomes is live. -/
theorem live_joined (h : p.Woven) (hf : p.Fusable front between back producer consumer t) {a : Stage} (ha : p.Live a) :
    ∀ b ∈ (p.joined front between back producer consumer t).stages,
      b = a ∨ b = join producer consumer t ∧ (a = producer ∨ a = consumer) →
        (p.joined front between back producer consumer t).Live b := by
  obtain ⟨z, haz, w, hw, hext⟩ := ha
  have hjoined : join producer consumer t ∈ (p.joined front between back producer consumer t).stages :=
    mem_joined.mpr (.inr rfl)
  induction haz using ReflTransGen.head_induction_on with
  | refl =>
    rintro b hb (rfl | ⟨rfl, rfl | rfl⟩)
    · exact ⟨b, .refl, w, hw, hext⟩
    · -- all that the producer writes is the image between, which cannot be seen
      rw [hf.writes, List.mem_singleton] at hw
      subst hw
      rw [not_isExternal_of_hidden hf.hidden] at hext
      contradiction
    · exact ⟨_, .refl, w, by rwa [hf.writes_join h], hext⟩
  | @head a c hac hcz ih =>
    obtain ⟨_, hc, o, ho, hread⟩ := hac
    intro b hb hba
    by_cases hpair : b = join producer consumer t ∧ a = producer
    · -- what the producer writes only the consumer reads, and both are the same stage now
      obtain ⟨rfl, rfl⟩ := hpair
      rw [hf.writes, List.mem_singleton] at ho
      subst ho
      have hcc : c = consumer := by
        by_contra hne
        refine hf.unread c ?_ hread
        have hmem := hf.perm.mem_iff.mp hc
        simp only [List.mem_cons, List.mem_append] at hmem ⊢
        tauto
      exact ih _ hjoined (.inr ⟨rfl, .inr hcc⟩)
    · have hwrites : o ∈ b.writes := by
        rcases hba with rfl | ⟨rfl, rfl | rfl⟩
        · exact ho
        · exact absurd ⟨rfl, rfl⟩ hpair
        · rwa [hf.writes_join h]
      have hcmem := hf.perm.mem_iff.mp hc
      simp only [List.mem_cons] at hcmem
      by_cases hother : c ∈ front ++ between ++ back
      · have hmem : c ∈ (p.joined front between back producer consumer t).stages := mem_joined.mpr (.inl hother)
        exact (ih c hmem (.inl rfl)).of_feeds ⟨hb, hmem, o, hwrites, hread⟩
      · have hpart : c = producer ∨ c = consumer := by tauto
        refine (ih _ hjoined (.inr ⟨rfl, hpart⟩)).of_feeds ⟨hb, hjoined, o, hwrites, ?_⟩
        obtain ⟨⟨s, hs, hsread⟩, _⟩ := Stage.mem_reads.mp hread
        refine Stage.mem_reads.mpr ⟨⟨s, ?_, hsread⟩, (hf.woven h).not_internal hb hjoined hwrites⟩
        refine List.mem_append.mpr ?_
        rcases hpart with rfl | rfl
        · exact .inl hs
        · exact .inr hs

theorem tidy (h : p.Woven) (ht : p.Tidy) (hf : p.Fusable front between back producer consumer t) :
    (p.joined front between back producer consumer t).Tidy where
  live b hb := by
    rcases mem_joined.mp hb with hother | rfl
    · exact hf.live_joined h (ht.live b (hf.mem.2.2 b hother)) b hb (.inl rfl)
    · exact hf.live_joined h (ht.live consumer hf.mem.2.1) _ hb (.inr ⟨rfl, .inr rfl⟩)
  used o r hr := by
    refine (ht.used o r hr).imp_right ?_
    rintro ⟨a, ha, href⟩
    have hmem := hf.perm.mem_iff.mp ha
    simp only [List.mem_cons] at hmem
    rcases hmem with rfl | rfl | hother
    · exact ⟨_, mem_joined.mpr (.inr rfl), referenced_join.mpr (.inl href)⟩
    · exact ⟨_, mem_joined.mpr (.inr rfl), referenced_join.mpr (.inr href)⟩
    · exact ⟨a, mem_joined.mpr (.inl hother), href⟩

end Fusable

/-- Fusion makes no stage dead and no object unused. -/
theorem Tidy.fuse (ht : p.Tidy) (h : p.Woven) : p.fuse.1.Tidy := by
  refine (@fuse_induction (fun q => q.Woven ∧ q.Tidy) p (fun q q' e hq hq' => ?_) ⟨h, ht⟩).2
  obtain ⟨_, _, _, _, _, _, hf, rfl⟩ := fuseOnce_eq_some hq.1 hq'
  exact ⟨hf.woven hq.1, hf.tidy hq.1 hq.2⟩

/-! ### Sweeps -/

/-- No pass finds anything to do. -/
def Settled (passes : List Pass) (p : Plan) : Prop := ∀ pass ∈ passes, pass.run p = (p, [])

theorem Settled.sweepEvents_eq_nil (h : Settled passes p) : Pass.sweepEvents passes p = [] := by
  induction passes with
  | nil => rfl
  | cons pass rest ih =>
    rw [Pass.sweepEvents_cons, h pass List.mem_cons_self]
    exact ih fun other hother => h other (List.mem_cons_of_mem pass hother)

/-- After one sweep no pass finds anything more to do. -/
theorem settled_sweep (h : p.Woven) (hid : p.Keyed) (c : OptimizerConfig) :
    Settled c.passes (Pass.sweep c.passes p).1 := by
  have hpruned := tidy_prune hid
  have hkeyed : p.prune.1.Keyed := fun o r hr => hid o r ((object?_prune hid).mp hr).1
  have hwoven : p.prune.1.Woven := h.of_sublist stages_prune_sublist
  obtain ⟨prune, fuse, limit⟩ := c
  intro pass hpass
  cases prune <;> cases fuse <;> simp only [OptimizerConfig.passes] at hpass ⊢
  · simp at hpass
  · obtain rfl : pass = .fuse := by simpa using hpass
    exact fuse_of_none p.fuseOnce_fuse
  · obtain rfl : pass = .prune := by simpa using hpass
    exact hpruned.prune_eq hkeyed
  · have hlast := hkeyed.of_objects hwoven.fuse.objects
    obtain rfl | rfl : pass = .prune ∨ pass = .fuse := by simpa using hpass
    · exact (hpruned.fuse hwoven).prune_eq hlast
    · exact fuse_of_none p.prune.1.fuseOnce_fuse

end Plan

namespace Event

def node? : Event → Option NodeId
  | .nodeRemoved n => some n
  | _ => none

def object? : Event → Option ObjectId
  | .objectRemoved o => some o
  | _ => none

def fusion? : Event → Option Fusion
  | .fused producer consumer t => some ⟨producer, consumer, t⟩
  | _ => none

end Event

namespace Report

/-- A report takes in events kind by kind, in their order. -/
theorem absorb_eq (r : Report) (events : List Event) : r.absorb events =
    { r with
      removedNodes := r.removedNodes ++ events.filterMap Event.node?
      removedObjects := r.removedObjects ++ events.filterMap Event.object?
      fusions := r.fusions ++ events.filterMap Event.fusion? } := by
  induction events generalizing r with
  | nil => simp [absorb]
  | cons e events ih =>
    have hfirst : r.absorb (e :: events) = (r.absorbEvent e).absorb events := rfl
    rw [hfirst, ih]
    cases e <;> simp [absorbEvent, Event.node?, Event.object?, Event.fusion?, List.filterMap_cons]

theorem absorb_keeps (r : Report) (events : List Event) :
    (r.absorb events).iterations = r.iterations ∧ (r.absorb events).failedPasses = r.failedPasses := by
  rw [absorb_eq]
  exact ⟨rfl, rfl⟩

/-- A report tells of changes as soon as it takes in one event. -/
theorem changed_absorb (r : Report) (events : List Event) :
    (r.absorb events).changed = (r.changed || !events.isEmpty) := by
  rw [absorb_eq]
  cases events with
  | nil => simp [changed]
  | cons e events => cases e <;> simp [changed, Event.node?, Event.object?, Event.fusion?]

end Report

namespace Plan

variable {p : Plan} {c : OptimizerConfig}

theorem optimize_eq (hc : c.passes ≠ []) : p.optimize c =
    ((improve c.passes c.maxIterations p (.start p.stages.length)).1,
      { (improve c.passes c.maxIterations p (.start p.stages.length)).2 with
        nodesAfter := (improve c.passes c.maxIterations p (.start p.stages.length)).1.stages.length }) :=
  if_neg fun he => hc (List.isEmpty_iff.mp he)

/-- Where the first sweep finds nothing, it is the only one. -/
theorem optimize_of_quiet (hc : c.passes ≠ []) (hm : 1 ≤ c.maxIterations) (h : Pass.sweepEvents c.passes p = []) :
    p.optimize c = (p, ⟨p.stages.length, p.stages.length, 1, [], [], [], []⟩) := by
  obtain ⟨left, hleft⟩ := Nat.exists_eq_add_of_le' hm
  rw [optimize_eq hc, hleft, improve_quiet h]
  rfl

/-- Where the first sweep finds something and leaves nothing, a second one ends the work if there may be one. -/
theorem optimize_eq_of_loud (hc : c.passes ≠ []) (hm : 1 ≤ c.maxIterations) (h : Pass.sweepEvents c.passes p ≠ [])
    (hs : Settled c.passes (Pass.sweep c.passes p).1) : p.optimize c = ((Pass.sweep c.passes p).1,
      { (Report.start p.stages.length).absorb (Pass.sweepEvents c.passes p) with
        iterations := min 2 c.maxIterations
        nodesAfter := (Pass.sweep c.passes p).1.stages.length }) := by
  obtain ⟨left, hleft⟩ := Nat.exists_eq_add_of_le' hm
  rw [optimize_eq hc, hleft, improve_loud h]
  cases left with
  | zero =>
    simp only [improve, Report.absorb_eq]
    rfl
  | succ left =>
    rw [improve_quiet hs.sweepEvents_eq_nil, Nat.min_eq_left (by omega)]
    simp only [Report.absorb_eq]
    rfl

theorem optimize_of_loud (hc : c.passes ≠ []) (hm : 1 ≤ c.maxIterations) (h : Pass.sweepEvents c.passes p ≠ [])
    (hs : Settled c.passes (Pass.sweep c.passes p).1) :
    (p.optimize c).1 = (Pass.sweep c.passes p).1 ∧ (p.optimize c).2.iterations = min 2 c.maxIterations ∧
      (p.optimize c).2.changed = true ∧ (p.optimize c).2.failedPasses = [] := by
  rw [optimize_eq_of_loud hc hm h hs]
  have hchanged := Report.changed_absorb (.start p.stages.length) (Pass.sweepEvents c.passes p)
  refine ⟨rfl, rfl, hchanged.trans ?_, (Report.absorb_keeps ..).2⟩
  simp [h]

end Plan

namespace Graph

/-- One sweep reaches the fixed point. However many sweeps there may be, the plan is the one after the first; a second
sweep is made only to find nothing more, and optimising the result once more finds nothing either. -/
theorem optimize_settles (r : Registry) (g : Graph) (p : Plan) (h : g.verify r = .ok p) (c : OptimizerConfig)
    (hc : c.passes ≠ []) (hm : 1 ≤ c.maxIterations) :
    (p.optimize c).1 = (p.optimize { c with maxIterations := 1 }).1 ∧ (p.optimize c).2.iterations ≤ 2 ∧
      (2 ≤ c.maxIterations → ((p.optimize c).2.iterations = 1 ↔ (p.optimize c).1 = p) ∧
        ((p.optimize c).2.iterations = 1 ↔ (p.optimize c).2.changed = false)) ∧
      (p.optimize c).1.optimize c = ((p.optimize c).1,
        ⟨(p.optimize c).1.stages.length, (p.optimize c).1.stages.length, 1, [], [], [], []⟩) ∧
      (p.optimize c).2.failedPasses = [] := by
  have hw := woven_of_verify h
  have hs := Plan.settled_sweep hw (keyed_of_verify h) c
  by_cases hquiet : Pass.sweepEvents c.passes p = []
  · have hfirst := Plan.optimize_of_quiet hc hm hquiet
    have hone : (p.optimize { c with maxIterations := 1 }).1 = p :=
      congrArg Prod.fst (@Plan.optimize_of_quiet p { c with maxIterations := 1 } hc le_rfl hquiet)
    rw [hfirst, hone]
    exact ⟨rfl, by simp, fun _ => ⟨by simp, by simp [Report.changed]⟩, hfirst, rfl⟩
  · obtain ⟨hplan, hcount, hchanged, hfailed⟩ := Plan.optimize_of_loud hc hm hquiet hs
    have hne : (Pass.sweep c.passes p).1 ≠ p := fun heq => hquiet (heq ▸ hs).sweepEvents_eq_nil
    rw [hplan, hcount, hchanged]
    refine ⟨?_, min_le_left _ _, fun htwo => ⟨?_, ?_⟩, Plan.optimize_of_quiet hc hm hs.sweepEvents_eq_nil, hfailed⟩
    · exact (@Plan.optimize_of_loud p { c with maxIterations := 1 } hc le_rfl hquiet hs).1.symm
    · simp [hne]; omega
    · simp; omega

/-- Pruning leaves a chain of two nodes, which fusion joins. -/
theorem optimize_branching : ∃ p, branching.verify .standard = .ok p ∧
    (p.optimize .standard).1 = (p.optimize { OptimizerConfig.standard with maxIterations := 1 }).1 ∧
    p.stages.length = 4 ∧ (p.optimize .standard).1.stages.length = 1 ∧ (p.optimize .standard).2.iterations = 2 ∧
    ((p.optimize .standard).1.optimize .standard).1 = (p.optimize .standard).1 := by
  have hplan : (branching.verify .standard).toOption.map (fun p => (p.stages.length,
      (p.optimize .standard).1.stages.length, (p.optimize .standard).2.iterations)) = some (4, 1, 2) := by
    decide +kernel
  obtain ⟨p, hp, hplan⟩ := Option.map_eq_some_iff.mp hplan
  have hverify := toOption_eq_some.mp hp
  simp only [Prod.mk.injEq] at hplan
  obtain ⟨hsame, _, _, hagain, _⟩ :=
    optimize_settles .standard branching p hverify .standard (by decide) (by decide)
  exact ⟨p, hverify, hsame, hplan.1, hplan.2.1, hplan.2.2, by rw [hagain]⟩

end Graph

end VisionGraph
