import VisionGraph.Proofs.FixedScalar
import VisionGraph.Proofs.Optimization

/-! Optimisation of plans that differ in a scalar. No step writes the scalar and no image depends on its kind, so every
pass drops and joins the same stages of both plans. Only where the constant falls out of use does pruning report more, and
then there may be one sweep more, which changes nothing else. -/
namespace VisionGraph

namespace Plan

namespace Twins

variable {s : ObjectId} {v : Scalar} {p q : Plan} (h : Twins s v p q)

include h

/-- The scalar is read only. -/
theorem not_writes_step {stage : Stage} (hstage : stage ∈ p.stages) {step : Step} (hstep : step ∈ stage.steps) :
    s ∉ step.writes := by
  intro hwrites
  obtain ⟨slot, d, hslot, hd, hdw⟩ := Step.mem_boundBy.mp hwrites
  obtain ⟨k, hk, _⟩ := (h.sound.stages stage hstage).steps step hstep
  have hinput := Kernel.input_of_numeric hk.kernel (h.numbers stage hstage step hstep slot hslot)
  rw [hk.directions, hinput] at hd
  cases hd
  contradiction

theorem not_writes {stage : Stage} (hstage : stage ∈ p.stages) : s ∉ stage.writes := by
  intro hs
  obtain ⟨⟨step, hstep, hwrites⟩, _⟩ := Stage.mem_writes.mp hs
  exact h.not_writes_step hstage hstep hwrites

theorem accesses : p.accesses = q.accesses := congrArg (List.map Stage.access) h.stages

theorem isExternal_of_ne {o : ObjectId} (ho : o ≠ s) : p.isExternal o = q.isExternal o := by
  have hget : p.objects.get? o = q.objects.get? o := h.others o ho
  unfold Plan.isExternal
  rw [hget]

/-! ### Pruning -/

theorem livePositions : p.livePositions = q.livePositions := by
  have hroots : (p.accesses.zipIdx.filter fun a => a.1.writes.any p.isExternal) =
      p.accesses.zipIdx.filter fun a => a.1.writes.any q.isExternal := by
    apply List.filter_congr
    intro a ha
    obtain ⟨stage, hstage, hsa⟩ := List.mem_map.mp (List.mem_of_getElem? (List.mem_zipIdx_iff_getElem?.mp ha))
    -- a stage is kept for what it writes, and it does not write the scalar
    rw [Bool.eq_iff_iff, List.any_eq_true, List.any_eq_true]
    apply exists_congr
    intro o
    apply and_congr_right
    intro ho
    have hne : o ≠ s := by
      intro he
      rw [← hsa, he] at ho
      exact h.not_writes hstage ho
    rw [h.isExternal_of_ne hne]
  unfold Plan.livePositions
  dsimp only
  rw [hroots, h.accesses]

theorem stages_prune : p.prune.1.stages = q.prune.1.stages := by
  rw [Plan.stages_prune, Plan.stages_prune, h.livePositions, h.stages]

theorem prune : Twins s v p.prune.1 q.prune.1 where
  sound := h.sound.prune
  fixedSound := h.fixedSound.prune
  stages := h.stages_prune
  others o ho := by
    apply Option.ext
    intro r
    rw [object?_prune h.sound.ids, object?_prune h.fixedSound.ids, h.others o ho, h.stages_prune]
  free := (h.sound.object?_prune_of_external rfl).mpr h.free
  fixed r hr := h.fixed r ((object?_prune h.fixedSound.ids).mp hr).1
  numbers stage hstage := h.numbers stage (stages_prune_sublist.mem hstage)

/-- What is removed beside the scalar is removed from both plans. -/
theorem prune_quiet (hquiet : q.prune.2 = []) : p.prune.2 = [] := by
  obtain ⟨hlive, hunused⟩ := h.fixedSound.woven.prune_events_eq_nil.mp hquiet
  apply h.sound.woven.prune_events_eq_nil.mpr
  constructor
  · rw [h.stages, h.livePositions]
    exact hlive
  · apply List.eq_nil_iff_forall_not_mem.mpr
    intro o ho
    obtain ⟨r, hr, hext, hno⟩ := (mem_unusedObjects h.sound.ids).mp ho
    have hne : o ≠ s := by
      intro he
      rw [he, h.free] at hr
      cases hr
      cases hext
    rw [h.others o hne] at hr
    rw [h.stages_prune] at hno
    have hmem := (mem_unusedObjects h.fixedSound.ids).mpr ⟨r, hr, hext, hno⟩
    rw [hunused] at hmem
    cases hmem

/-! ### Fusion -/

/-- The scalar is no image in either plan. -/
theorem isPrivateImage (o : ObjectId) : p.isPrivateImage o = q.isPrivateImage o := by
  by_cases ho : o = s
  · rw [ho]
    unfold Plan.isPrivateImage
    rw [h.free]
    cases hq : q.object? s with
    | none => rfl
    | some r =>
      cases h.fixed r hq
      rfl
  · unfold Plan.isPrivateImage
    rw [h.others o ho]

theorem info?_of_ne {o : ObjectId} (ho : o ≠ s) : p.info? o = q.info? o :=
  congrArg (Option.map Resolved.info) (h.others o ho)

/-- Both plans know the same images. -/
theorem image?_eq (o : ObjectId) : (p.info? o).bind Meta.image? = (q.info? o).bind Meta.image? := by
  by_cases ho : o = s
  · have hp : p.info? s = some (.scalar (.typed v.type)) := congrArg (Option.map Resolved.info) h.free
    rw [ho, hp]
    cases hq : q.object? s with
    | none =>
      have hinfo : q.info? s = none := congrArg (Option.map Resolved.info) hq
      rw [hinfo]
      rfl
    | some r =>
      have hinfo : q.info? s = some r.info := congrArg (Option.map Resolved.info) hq
      rw [hinfo, h.fixed r hq]
      rfl
  · rw [h.info?_of_ne ho]

theorem pixelCount (o : ObjectId) : p.pixelCount o = q.pixelCount o := by
  unfold Plan.pixelCount
  rw [h.image?_eq]

theorem candidate? : p.candidate? = q.candidate? := by
  have hprivate : p.isPrivateImage = q.isPrivateImage := funext h.isPrivateImage
  have hcount : p.pixelCount = q.pixelCount := funext h.pixelCount
  have hat : p.candidateAt = q.candidateAt := by
    funext accesses i stage o
    unfold candidateAt
    rw [hprivate, hcount, h.stages]
  unfold Plan.candidate?
  rw [hat, h.accesses, h.stages]

/-- The plans with the same stages instead. -/
theorem withStages {stages : List Stage} (hp : Plan.Sound { p with stages := stages })
    (hq : Plan.Sound { q with stages := stages })
    (hsteps : ∀ stage ∈ stages, ∀ step ∈ stage.steps, ∃ other ∈ p.stages, step ∈ other.steps) :
    Twins s v { p with stages := stages } { q with stages := stages } where
  sound := hp
  fixedSound := hq
  stages := rfl
  others := h.others
  free := h.free
  fixed := h.fixed
  numbers stage hstage step hstep slot hslot := by
    obtain ⟨other, hother, hmem⟩ := hsteps stage hstage step hstep
    exact h.numbers other hother step hmem slot hslot

/-- The same stages are joined. -/
theorem fuseOnce : (p.fuseOnce = none ∧ q.fuseOnce = none) ∨
    ∃ p' q' e, p.fuseOnce = some (p', e) ∧ q.fuseOnce = some (q', e) ∧ Twins s v p' q' := by
  have hq := h.candidate?
  cases hc : p.candidate? with
  | none =>
    rw [hc] at hq
    left
    simp only [Plan.fuseOnce, hc, ← hq, and_self]
  | some c =>
    rw [hc] at hq
    cases hproducer : p.stages[c.producer]? with
    | none =>
      left
      simp only [Plan.fuseOnce, hc, ← hq, ← h.stages, hproducer, and_self]
    | some producer =>
      cases hconsumer : p.stages[c.consumer]? with
      | none =>
        left
        simp only [Plan.fuseOnce, hc, ← hq, ← h.stages, hproducer, hconsumer, and_self]
      | some consumer =>
        have hp : p.fuseOnce = some ({ p with
              stages := (p.stages.set c.consumer (join producer consumer c.intermediate)).eraseIdx c.producer },
            .fused producer.origins consumer.origins c.intermediate) := by
          simp only [Plan.fuseOnce, hc, hproducer, hconsumer]
        have hq : q.fuseOnce = some ({ q with
              stages := (p.stages.set c.consumer (join producer consumer c.intermediate)).eraseIdx c.producer },
            .fused producer.origins consumer.origins c.intermediate) := by
          simp only [Plan.fuseOnce, ← hq, ← h.stages, hproducer, hconsumer]
        refine .inr ⟨_, _, _, hp, hq, h.withStages (h.sound.fuseOnce hp) (h.fixedSound.fuseOnce hq) ?_⟩
        intro stage hstage step hstep
        rcases List.mem_or_eq_of_mem_set (List.mem_of_mem_eraseIdx hstage) with hmem | rfl
        · exact ⟨stage, hmem, hstep⟩
        · rcases List.mem_append.mp hstep with hstep | hstep
          · exact ⟨producer, List.mem_of_getElem? hproducer, hstep⟩
          · exact ⟨consumer, List.mem_of_getElem? hconsumer, hstep⟩

theorem fuse : Twins s v p.fuse.1 q.fuse.1 ∧ p.fuse.2 = q.fuse.2 := by
  fun_induction Plan.fuse p generalizing q with
  | case1 p hnone =>
    rcases h.fuseOnce with ⟨_, hq⟩ | ⟨p', q', e, hp, _⟩
    · rw [fuse_of_none hq]
      exact ⟨h, rfl⟩
    · rw [hnone] at hp
      cases hp
  | case2 p p' e hsome last events hlast ih =>
    rcases h.fuseOnce with ⟨hp, _⟩ | ⟨p₁, q', e₁, hp, hq, hnext⟩
    · rw [hsome] at hp
      cases hp
    · rw [hsome] at hp
      cases hp
      obtain ⟨hlasts, hevents⟩ := ih hnext
      rw [hlast] at hlasts hevents
      rw [fuse_of_some hq]
      exact ⟨hlasts, congrArg (e :: ·) hevents⟩

/-! ### Sweeps -/

theorem run (pass : Pass) : Twins s v (pass.run p).1 (pass.run q).1 := by
  cases pass with
  | prune => exact h.prune
  | fuse => exact h.fuse.1

theorem run_quiet (pass : Pass) (hquiet : (pass.run q).2 = []) : (pass.run p).2 = [] := by
  cases pass with
  | prune => exact h.prune_quiet hquiet
  | fuse => exact h.fuse.2.trans hquiet

theorem sweep (passes : List Pass) : Twins s v (Pass.sweep passes p).1 (Pass.sweep passes q).1 := by
  induction passes generalizing p q with
  | nil => exact h
  | cons pass rest ih => exact ih (h.run pass)

theorem sweep_quiet (passes : List Pass) (hquiet : Pass.sweepEvents passes q = []) :
    Pass.sweepEvents passes p = [] := by
  induction passes generalizing p q with
  | nil => rfl
  | cons pass rest ih =>
    rw [Pass.sweepEvents_cons, List.append_eq_nil_iff] at hquiet ⊢
    exact ⟨h.run_quiet pass hquiet.1, ih (h.run pass) hquiet.2⟩

/-- More sweeps of the plan with the constant change nothing where a sweep of the other plan finds nothing to do. -/
theorem improve_of_quiet (passes : List Pass) (hquiet : Pass.sweepEvents passes p = []) (left : Nat) (r : Report) :
    Twins s v p (improve passes left q r).1 := by
  induction left generalizing q r with
  | zero => exact h
  | succ left ih =>
    by_cases hq : Pass.sweepEvents passes q = []
    · rw [improve_quiet hq]
      exact h
    · have hnext := h.sweep passes
      rw [Pass.sweep_of_quiet passes h.sound.woven hquiet] at hnext
      rw [improve_loud hq]
      exact ih hnext _

theorem improve (passes : List Pass) (left : Nat) (r r' : Report) :
    Twins s v (improve passes left p r).1 (improve passes left q r').1 := by
  induction left generalizing p q r r' with
  | zero => exact h
  | succ left ih =>
    by_cases hquiet : Pass.sweepEvents passes p = []
    · -- the other plan may be swept on, as long as its constant has just fallen out of use
      rw [improve_quiet hquiet]
      exact h.improve_of_quiet passes hquiet (left + 1) r'
    · have hloud : Pass.sweepEvents passes q ≠ [] := fun hq => hquiet (h.sweep_quiet passes hq)
      rw [improve_loud hquiet, improve_loud hloud]
      exact ih (h.sweep passes) _ _

/-- Optimised in the same way, the plans still differ in the scalar only. -/
theorem optimize (c : OptimizerConfig) : Twins s v (p.optimize c).1 (q.optimize c).1 := by
  unfold Plan.optimize
  dsimp only
  split
  · exact h
  · exact h.improve c.passes c.maxIterations _ _

end Twins

end Plan

end VisionGraph
