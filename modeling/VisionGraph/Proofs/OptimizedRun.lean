import VisionGraph.Proofs.FusedRun
import VisionGraph.Proofs.Generation

/-! Optimisation preserves successful runs: one pruning and one joint keep what can be seen of a plan, so any number of
sweeps does. -/
namespace VisionGraph

namespace Plan

/-- A plan that came from another one by removing and joining stages. -/
structure Refines (q p : Plan) : Prop where
  sound : q.Sound
  replaces : q.Replaces p
  steps : ∀ stage ∈ q.stages, ∀ step ∈ stage.steps, step ∈ p.stages.flatMap (·.steps) ∧
    ∀ o ∈ step.bound, q.object? o = p.object? o

namespace Refines

variable {p q : Plan}

theorem refl (h : p.Sound) : p.Refines p where
  sound := h
  replaces := .refl p
  steps stage hstage _ hstep := ⟨List.mem_flatMap.mpr ⟨stage, hstage, hstep⟩, fun _ _ => rfl⟩

theorem prune (h : q.Refines p) : q.prune.1.Refines p where
  sound := h.sound.prune
  replaces := h.replaces.trans h.sound.replaces_prune h.sound.exists_storage
  steps stage hstage step hstep := by
    obtain ⟨hmem, hobject⟩ := h.steps stage (stages_prune_sublist.mem hstage) step hstep
    refine ⟨hmem, fun o ho => (h.sound.object?_of_referenced hstage ?_).trans (hobject o ho)⟩
    exact Stage.mem_referenced.mpr ⟨step, hstep, ho⟩

theorem fuseOnce (h : q.Refines p) {q' : Plan} {e : Event} (hq : q.fuseOnce = some (q', e)) : q'.Refines p := by
  obtain ⟨front, between, back, producer, consumer, t, hf, rfl⟩ := fuseOnce_eq_some h.sound.woven hq
  refine ⟨hf.sound h.sound, h.replaces.trans (hf.replaces h.sound) h.sound.exists_storage, fun stage hstage => ?_⟩
  rcases Fusable.mem_joined.mp hstage with hother | rfl
  · exact h.steps stage (hf.mem.2.2 stage hother)
  · intro step hstep
    rcases List.mem_append.mp hstep with hstep | hstep
    · exact h.steps producer hf.mem.1 step hstep
    · exact h.steps consumer hf.mem.2.1 step hstep

theorem stable (p : Plan) : Stable (·.Refines p) where
  prune _ h := h.prune
  fuseOnce _ _ _ h hq := h.fuseOnce hq

/-- A step of both plans looks for the extrema of the same image. -/
theorem emptyExtrema_eq {step : Step} (hobject : ∀ o ∈ step.bound, q.object? o = p.object? o) :
    q.emptyExtrema step = p.emptyExtrema step := by
  unfold emptyExtrema
  cases hparam : step.params[0]? with
  | none => rfl
  | some param =>
    cases param with
    | none => rfl
    | some o =>
      have hget : q.objects.get? o = p.objects.get? o := hobject o (Step.mem_bound.mpr ⟨0, hparam⟩)
      simp [pixelCount, info?, hget]

/-- Where there is code for a plan, there is code for the plans that came from it. -/
theorem exists_generate (h : q.Refines p) (hp : p.Sound) {u : CUnit} (hu : p.generate .standard = .ok u) :
    ∃ v, q.generate .standard = .ok v := by
  have hall := hp.exists_generate_iff.mp ⟨u, hu⟩
  apply h.sound.exists_generate_iff.mpr
  intro stage hstage step hstep
  obtain ⟨hmem, hobject⟩ := h.steps stage hstage step hstep
  obtain ⟨other, hother, hstep'⟩ := List.mem_flatMap.mp hmem
  rw [emptyExtrema_eq hobject]
  exact hall other hother step hstep'

/-- The program of a plan that came from another one can be loaded when the other one can. -/
theorem exists_loadedAs (h : q.Refines p) (hp : p.Sound) {P : Program} (hP : p.LoadedAs P) : ∃ Q, q.LoadedAs Q := by
  obtain ⟨u, _, hu, _⟩ := hP
  obtain ⟨v, hv⟩ := h.exists_generate hp hu
  exact h.sound.exists_loadedAs hv

end Refines

end Plan

namespace Graph

/-- Optimisation preserves successful runs. However it is configured, the program asks for the same objects as the
program of the plan that is not optimised, and what that one runs to the end, the optimised one runs to the end with
the same host objects. -/
theorem optimize_preserves_runs (g : Graph) (hg : g.Built) (p : Plan) (h : g.verify .standard = .ok p)
    (c : OptimizerConfig) :
    (p.optimize c).1.entries = (p.optimize .disabled).1.entries ∧
      ∀ P, (p.optimize .disabled).1.LoadedAs P → (∃ Q, (p.optimize c).1.LoadedAs Q) ∧
        ∀ Q, (p.optimize c).1.LoadedAs Q → Q.entries = P.entries ∧
          ∀ b b', P.process b = (.ok (), b') → Q.process b = (.ok (), b') := by
  have hp := sound_of_verify hg h
  have hq := (Plan.Refines.stable p).optimize c (.refl hp)
  have hplain : (p.optimize .disabled).1 = p := rfl
  rw [hplain]
  refine ⟨hq.replaces.entries, fun P hP => ⟨hq.exists_loadedAs hp hP, fun Q hQ => ?_⟩⟩
  exact ⟨hq.replaces.entries_eq hP hQ, fun b b' hrun => hq.replaces.process hP hQ hrun⟩

/-- A node that nothing visible depends on, and two nodes that become one loop. -/
def chained : Graph := Graph.empty.edit [.image 2 1 .u8, .virtualImage ⟨none, none, none⟩, .image 2 1 .u8,
  .virtualImage ⟨none, none, none⟩, .node "vx.not" [some ⟨0⟩, some ⟨3⟩], .node "vx.not" [some ⟨0⟩, some ⟨1⟩],
  .node "vx.or" [some ⟨0⟩, some ⟨1⟩, some ⟨2⟩]]

theorem optimize_chained : ∃ p P Q b b', chained.verify .standard = .ok p ∧ p.stages.length = 3 ∧
    (p.optimize .standard).1.stages.length = 1 ∧ p.LoadedAs P ∧ (p.optimize .standard).1.LoadedAs Q ∧
      P.process b = (.ok (), b') ∧ Q.process b = (.ok (), b') ∧ b' ≠ b := by
  have hruns : chained.runsFresh = true := by decide +kernel
  have hstages : (chained.verify .standard).toOption.map (fun p =>
      (p.stages.length, (p.optimize .standard).1.stages.length)) = some (3, 1) := by decide +kernel
  obtain ⟨p, P, b, b', hp, hP, hrun, hne⟩ := exists_of_runsFresh hruns
  obtain ⟨⟨Q, hQ⟩, hall⟩ := (optimize_preserves_runs chained ⟨_, rfl⟩ p hp .standard).2 P hP
  simp only [hp, Except.toOption, Option.map_some, Option.some.injEq, Prod.mk.injEq] at hstages
  exact ⟨p, P, Q, b, b', hp, hstages.1, hstages.2, hP, hQ, hrun, (hall Q hQ).2 b b' hrun, hne⟩

end Graph

end VisionGraph
