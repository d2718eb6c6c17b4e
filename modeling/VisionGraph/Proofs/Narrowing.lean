import VisionGraph.Proofs.Process

/-! Plans with fewer stages over the same objects. What the narrower plan uses, it finds where the wider one does; so
both start with the same contents of it, and a stage of both keeps these contents equal. -/
namespace VisionGraph

namespace Plan

/-- Whether an object is named by a stage that does not keep it inside. -/
def Uses (p : Plan) (o : ObjectId) : Prop := ∃ stage ∈ p.stages, o ∈ stage.referenced ∧ o ∉ stage.internal

variable {p q : Plan} {s t : Storage} {stage : Stage} {o : ObjectId} {m n m' : Memory}

theorem uses_of_scratch (hs : Storage.ofPlan p = .ok s) (ho : s.placement? o = some .scratch) : p.Uses o := by
  obtain ⟨stage, hstage, href⟩ := Storage.exists_stage_of_scratch hs ho
  refine ⟨stage, hstage, href, fun hi => ?_⟩
  rw [placement_internal hs hstage hi] at ho
  contradiction

theorem Sound.placement_of_uses (h : p.Sound) (hs : Storage.ofPlan p = .ok s) (ho : p.Uses o) :
    s.placement? o = (Storage.place p p.entries o).toOption := by
  obtain ⟨stage, hstage, href, hi⟩ := ho
  exact h.placement_eq hs hstage href hi

/-- A plan whose stages use only what those of another plan do, with the storage of both. -/
structure Narrows (p q : Plan) (s t : Storage) : Prop where
  wide : p.Sound
  narrow : q.Sound
  storage : Storage.ofPlan p = .ok s
  storage' : Storage.ofPlan q = .ok t
  entries : q.entries = p.entries
  uses : ∀ o, q.Uses o → p.Uses o
  object : ∀ stage ∈ q.stages, ∀ o ∈ stage.referenced, q.object? o = p.object? o

namespace Narrows

variable (N : Narrows p q s t)

include N

theorem object_of_uses (ho : q.Uses o) : q.object? o = p.object? o := by
  obtain ⟨stage, hstage, href, _⟩ := ho
  exact N.object stage hstage o href

theorem placement_eq (ho : q.Uses o) : t.placement? o = s.placement? o := by
  rw [N.narrow.placement_of_uses N.storage' ho, N.wide.placement_of_uses N.storage (N.uses o ho), Storage.place,
    Storage.place, N.object_of_uses ho, N.entries]

theorem fresh_eq (ho : q.Uses o) : q.fresh o = p.fresh o := by
  have hobject : q.objects.get? o = p.objects.get? o := N.object_of_uses ho
  rw [fresh, fresh, info?, info?, hobject]

/-- The narrower plan starts where the wider one does. -/
theorem start {b : Bindings} (hm : Memory.start p s b = some m) :
    ∃ n, Memory.start q t b = some n ∧ Memory.Agree q.Uses m n := by
  obtain ⟨hfresh, rfl⟩ := Memory.start_eq_some.mp hm
  refine ⟨_, Memory.start_eq_some.mpr ⟨fun o ho => ?_, rfl⟩, fun _ => rfl, fun o ho => ?_⟩
  · have huses := uses_of_scratch N.storage' ho
    rw [N.fresh_eq huses]
    exact hfresh o (N.placement_eq huses ▸ ho)
  · rw [get?_freshScratch, get?_freshScratch, N.placement_eq ho, N.fresh_eq ho]

/-- A stage of both plans keeps the contents of what is used equal. -/
theorem run (hmem : stage ∈ p.stages) (hmem' : stage ∈ q.stages) (hagree : Memory.Agree q.Uses m n)
    (hrun : stage.run .standard p s m = .ok m') :
    ∃ n', stage.run .standard q t n = .ok n' ∧ Memory.Agree q.Uses m' n' := by
  obtain ⟨us, hus, rfl⟩ := (N.wide.run_eq_ok N.storage hmem).mp hrun
  -- the stage touches the homes of what it uses, where both memories agree
  have hus' : stage.update? .standard p s n = some us := by
    rw [← hus]
    refine Stage.update?_congr fun a ha => (hagree.get?_eq fun o hscratch => ?_).symm
    obtain ⟨q', href, hi, hhome⟩ := N.wide.home_of_touched N.storage hmem ha
    exact ⟨stage, hmem', eq_of_home_scratch (hscratch ▸ hhome) ▸ ⟨href, hi⟩⟩
  have hsame : stage.run .standard q t n = stage.run .standard p s n :=
    N.wide.run_eq N.narrow N.storage N.storage' N.entries hmem hmem' (N.object stage hmem')
  exact ⟨_, hsame.trans ((N.wide.run_eq_ok N.storage hmem).mpr ⟨us, hus', rfl⟩), hagree.setAll us⟩

theorem foldlM {l : List Stage} (hmem : ∀ stage ∈ l, stage ∈ p.stages) (hmem' : ∀ stage ∈ l, stage ∈ q.stages)
    (hagree : Memory.Agree q.Uses m n) (hrun : l.foldlM (fun m stage => stage.run .standard p s m) m = .ok m') :
    ∃ n', l.foldlM (fun m stage => stage.run .standard q t m) n = .ok n' ∧ Memory.Agree q.Uses m' n' := by
  induction l generalizing m n with
  | nil =>
    cases hrun
    exact ⟨n, rfl, hagree⟩
  | cons stage l ih =>
    obtain ⟨mid, hstage, hrest⟩ := foldlM_cons_eq_ok.mp hrun
    obtain ⟨nid, hstage', hagree'⟩ := N.run (hmem stage List.mem_cons_self) (hmem' stage List.mem_cons_self) hagree hstage
    obtain ⟨n', hrest', hagree''⟩ := ih (fun x hx => hmem x (List.mem_cons_of_mem stage hx))
      (fun x hx => hmem' x (List.mem_cons_of_mem stage hx)) hagree' hrest
    exact ⟨n', foldlM_cons_eq_ok.mpr ⟨nid, hstage', hrest'⟩, hagree''⟩

end Narrows

end Plan

end VisionGraph
