import VisionGraph.Plan.Optimize
import VisionGraph.Proofs.Fusion

/-! Optimisation as a chain of single changes. Whatever survives one pruning and one joint survives all sweeps. -/
namespace VisionGraph

namespace Plan

variable {good : Plan → Prop} {p : Plan}

/-- What every single joint keeps, fusion keeps. -/
theorem fuse_induction (h : ∀ p q e, good p → p.fuseOnce = some (q, e) → good q) (hp : good p) : good p.fuse.1 := by
  fun_induction Plan.fuse p with
  | case1 p hnone => exact hp
  | case2 p q e hsome last events hlast ih =>
    have hq := ih (h p q e hp hsome)
    rwa [hlast] at hq

/-- Fusion goes on until there is nothing to join. -/
theorem fuseOnce_fuse (p : Plan) : p.fuse.1.fuseOnce = none := by
  fun_induction Plan.fuse p with
  | case1 p hnone => exact hnone
  | case2 p q e hsome last events hlast ih => rwa [hlast] at ih

theorem sweep_induction {passes : List Pass} (h : ∀ pass ∈ passes, ∀ p, good p → good (pass.run p).1) (hp : good p) :
    good (Pass.sweep passes p).1 := by
  induction passes generalizing p with
  | nil => exact hp
  | cons pass passes ih =>
    exact ih (fun other hother => h other (List.mem_cons_of_mem pass hother)) (h pass List.mem_cons_self p hp)

theorem improve_induction {passes : List Pass} (h : ∀ pass ∈ passes, ∀ p, good p → good (pass.run p).1) (left : Nat)
    (hp : good p) (r : Report) : good (Plan.improve passes left p r).1 := by
  induction left generalizing p r with
  | zero => exact hp
  | succ left ih =>
    unfold Plan.improve
    dsimp only
    split
    · exact hp
    · exact ih (sweep_induction h hp) _

/-- What every enabled pass keeps, optimisation keeps. -/
theorem optimize_induction (c : OptimizerConfig) (h : ∀ pass ∈ c.passes, ∀ p, good p → good (pass.run p).1)
    (hp : good p) : good (p.optimize c).1 := by
  unfold Plan.optimize
  dsimp only
  split
  · exact hp
  · exact improve_induction h c.maxIterations hp _

/-- What pruning and every single joint keep. -/
structure Stable (good : Plan → Prop) : Prop where
  prune : ∀ p, good p → good p.prune.1
  fuseOnce : ∀ p q e, good p → p.fuseOnce = some (q, e) → good q

namespace Stable

theorem run (h : Stable good) (pass : Pass) (hp : good p) : good (pass.run p).1 := by
  cases pass with
  | prune => exact h.prune p hp
  | fuse => exact fuse_induction h.fuseOnce hp

theorem optimize (h : Stable good) (c : OptimizerConfig) (hp : good p) : good (p.optimize c).1 :=
  optimize_induction c (fun pass _ _ hq => h.run pass hq) hp

theorem foldl_optimize (h : Stable good) (configs : List OptimizerConfig) (hp : good p) :
    good (configs.foldl (fun q c => (q.optimize c).1) p) := by
  induction configs generalizing p with
  | nil => exact hp
  | cons c rest ih => exact ih (h.optimize c hp)

end Stable

theorem stable_sound : Stable Sound where
  prune _ h := h.prune
  fuseOnce _ _ _ h hq := h.fuseOnce hq

/-- A plan with the same objects and the same steps, whose stages hang together. -/
structure Regroups (p q : Plan) : Prop where
  woven : q.Woven
  objects : q.objects = p.objects
  steps : (q.stages.flatMap (·.steps)).Perm (p.stages.flatMap (·.steps))

/-- Fusion only regroups the steps of a plan. -/
theorem Woven.fuse (h : p.Woven) : p.Regroups p.fuse.1 := by
  refine fuse_induction (fun q q' e hq hq' => ?_) (show p.Regroups p from ⟨h, rfl, .refl _⟩)
  obtain ⟨_, _, _, _, _, _, hf, rfl⟩ := fuseOnce_eq_some hq.woven hq'
  exact ⟨hf.woven hq.woven, hq.objects, hf.steps_perm.trans hq.steps⟩

/-! ### Passes that find nothing to do -/

theorem eq_of_fields {p q : Plan} (hobjects : p.objects = q.objects) (hstages : p.stages = q.stages) : p = q := by
  cases p
  cases q
  simp_all

theorem prune_events (p : Plan) : p.prune.2 =
    ((p.stages.zipIdx.filter fun x => !p.livePositions.contains x.2).flatMap fun x => x.1.origins).map .nodeRemoved ++
      (unusedObjects p.objects p.prune.1.stages).map .objectRemoved := by
  simp only [prune, List.partition_eq_filter_filter]
  rfl

/-- Pruning reports nothing when every stage is live and every object is used. -/
theorem Woven.prune_events_eq_nil (h : p.Woven) : p.prune.2 = [] ↔
    (∀ x ∈ p.stages.zipIdx, p.livePositions.contains x.2 = true) ∧ unusedObjects p.objects p.prune.1.stages = [] := by
  rw [prune_events, List.append_eq_nil_iff, List.map_eq_nil_iff, List.map_eq_nil_iff, List.flatMap_eq_nil_iff]
  apply and_congr_left
  intro _
  constructor
  · intro hnone x hx
    by_contra hdead
    have hdropped : x ∈ p.stages.zipIdx.filter fun x => !p.livePositions.contains x.2 := by
      rw [List.mem_filter]
      exact ⟨hx, by simpa using hdead⟩
    -- a stage has a step, whose node would be reported
    have hsteps := h.nonempty x.1 (List.mem_of_getElem? (List.mem_zipIdx_iff_getElem?.mp hx))
    exact hsteps (List.map_eq_nil_iff.mp (hnone x hdropped))
  · intro hlive x hx
    rw [List.mem_filter] at hx
    rw [hlive x hx.1] at hx
    exact absurd hx.2 Bool.false_ne_true

theorem Woven.prune_of_quiet (h : p.Woven) (hquiet : p.prune.2 = []) : p.prune.1 = p := by
  obtain ⟨hlive, hunused⟩ := h.prune_events_eq_nil.mp hquiet
  have hstages : p.prune.1.stages = p.stages := by
    rw [stages_prune, List.filter_eq_self.mpr hlive, List.zipIdx_map_fst]
  have hobjects : p.prune.1.objects = p.objects := by
    have herase : p.prune.1.objects = (unusedObjects p.objects p.prune.1.stages).foldl IdMap.erase p.objects := rfl
    rw [herase, hunused]
    rfl
  exact eq_of_fields hobjects hstages

theorem fuse_of_none (h : p.fuseOnce = none) : p.fuse = (p, []) := by
  unfold fuse
  split
  · rfl
  · rename_i hsome
    rw [h] at hsome
    cases hsome

theorem fuse_of_some {p q : Plan} {e : Event} (h : p.fuseOnce = some (q, e)) : p.fuse = (q.fuse.1, e :: q.fuse.2) := by
  rw [fuse]
  split
  · rename_i hnone
    rw [h] at hnone
    cases hnone
  · rename_i q' e' hsome
    rw [h] at hsome
    cases hsome
    rfl

theorem fuse_of_quiet (hquiet : p.fuse.2 = []) : p.fuse.1 = p := by
  unfold fuse at hquiet ⊢
  split at hquiet
  · rfl
  · cases hquiet

end Plan

namespace Pass

open Plan

theorem run_of_quiet (pass : Pass) {p : Plan} (h : p.Woven) (hquiet : (pass.run p).2 = []) : (pass.run p).1 = p := by
  cases pass with
  | prune => exact h.prune_of_quiet hquiet
  | fuse => exact fuse_of_quiet hquiet

/-- All that passes did. -/
def sweepEvents (passes : List Pass) (p : Plan) : List Event := (sweep passes p).2.flatMap (·.2)

theorem sweepEvents_cons (pass : Pass) (passes : List Pass) (p : Plan) :
    sweepEvents (pass :: passes) p = (pass.run p).2 ++ sweepEvents passes (pass.run p).1 := List.flatMap_cons

theorem sweep_of_quiet (passes : List Pass) {p : Plan} (h : p.Woven) (hquiet : sweepEvents passes p = []) :
    (sweep passes p).1 = p := by
  induction passes generalizing p with
  | nil => rfl
  | cons pass rest ih =>
    rw [sweepEvents_cons, List.append_eq_nil_iff] at hquiet
    have hfirst := pass.run_of_quiet h hquiet.1
    have hrest := hquiet.2
    rw [hfirst] at hrest
    calc (sweep (pass :: rest) p).1 = (sweep rest (pass.run p).1).1 := rfl
      _ = (sweep rest p).1 := by rw [hfirst]
      _ = p := ih h hrest

end Pass

namespace Plan

/-- A sweep that finds nothing to do is the last one. -/
theorem improve_quiet {passes : List Pass} {p : Plan} (h : Pass.sweepEvents passes p = []) (left : Nat) (r : Report) :
    improve passes (left + 1) p r = (p, { r with iterations := r.iterations + 1 }) :=
  if_pos (List.isEmpty_iff.mpr h)

theorem improve_loud {passes : List Pass} {p : Plan} (h : Pass.sweepEvents passes p ≠ []) (left : Nat) (r : Report) :
    improve passes (left + 1) p r = improve passes left (Pass.sweep passes p).1
      (Report.absorb { r with iterations := r.iterations + 1 } (Pass.sweepEvents passes p)) :=
  if_neg fun he => h (List.isEmpty_iff.mp he)

end Plan

end VisionGraph
