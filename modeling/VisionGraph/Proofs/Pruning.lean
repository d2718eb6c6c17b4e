import Mathlib.Data.List.Flatten
import VisionGraph.Proofs.Narrowing

/-! Pruning. What remains is closed under "feeds" and has all that can be seen, so the stages that are dropped write
only scratch objects that no stage which remains names; dropping them changes no host object. -/
namespace VisionGraph

namespace Stage

/-- A stage stays valid in a plan that has the same objects for it. -/
theorem Valid.congr {p q : Plan} {stage : Stage} (h : stage.Valid p)
    (hq : ∀ o ∈ stage.referenced, q.object? o = p.object? o) : stage.Valid q where
  steps s hs := by
    obtain ⟨k, hk, hpixel⟩ := h.steps s hs
    exact ⟨k, hk.congr fun o ho => hq o (mem_referenced.mpr ⟨s, hs, ho⟩), hpixel⟩
  nonempty := h.nonempty
  whole := h.whole
  hidden o ho := by
    obtain ⟨s, hs, hw⟩ := h.written o ho
    have hsame := hq o (mem_referenced.mpr ⟨s, hs, Step.bound_of_writes hw⟩)
    have hprivate := h.hidden o ho
    simp only [Plan.isPrivateImage] at hprivate ⊢
    rwa [hsame]
  written := h.written
  safe := h.safe

theorem Valid.referenced_of_internal {p : Plan} {stage : Stage} (h : stage.Valid p) {o : ObjectId}
    (ho : o ∈ stage.internal) : o ∈ stage.referenced := by
  obtain ⟨s, hs, hw⟩ := h.written o ho
  exact mem_referenced.mpr ⟨s, hs, Step.bound_of_writes hw⟩

end Stage

namespace Plan

/-! ### Live stages -/

/-- The rounds end with a set of stages that contains all that feeds it. -/
theorem spread_closed (stages : List (Access × Nat)) (rounds : Nat) {live : List (Access × Nat)}
    (keep : Access × Nat → Bool) (hlive : live = stages.filter keep) (hrounds : stages.length ≤ rounds + live.length) :
    (∀ a ∈ live, a ∈ spread stages rounds live) ∧ (∀ a ∈ spread stages rounds live, a ∈ stages) ∧
      ∀ a ∈ stages, ∀ b ∈ spread stages rounds live, a.1.feeds b.1 = true → a ∈ spread stages rounds live := by
  have hin : ∀ a ∈ live, a ∈ stages := by
    intro a ha
    rw [hlive] at ha
    exact (List.mem_filter.mp ha).1
  induction rounds generalizing live keep with
  | zero =>
    have hall : live = stages := by
      subst hlive
      exact List.filter_sublist.eq_of_length_le (by omega)
    exact ⟨fun a ha => ha, hin, fun a ha _ _ _ => hall ▸ ha⟩
  | succ rounds ih =>
    have hnext : ∀ a ∈ live, a ∈ stages.filter fun a => live.any fun b => a.2 == b.2 || a.1.feeds b.1 := fun a ha =>
      List.mem_filter.mpr ⟨hin a ha, List.any_eq_true.mpr ⟨a, ha, by simp⟩⟩
    -- a round drops nothing, so it either adds a stage or changes nothing
    have hsub : live.Sublist (stages.filter fun a => live.any fun b => a.2 == b.2 || a.1.feeds b.1) := by
      have heq : live = (stages.filter fun a => live.any fun b => a.2 == b.2 || a.1.feeds b.1).filter keep := by
        conv_lhs => rw [hlive]
        rw [List.filter_filter]
        refine List.filter_congr fun a ha => ?_
        cases hk : keep a with
        | false => rfl
        | true =>
          have hmem : a ∈ live := hlive ▸ List.mem_filter.mpr ⟨ha, hk⟩
          simpa using (List.mem_filter.mp (hnext a hmem)).2
      conv_lhs => rw [heq]
      exact List.filter_sublist
    unfold spread
    dsimp only
    split
    · rename_i hsame
      have heq := hsub.eq_of_length hsame.symm
      refine ⟨fun a ha => ha, hin, fun a ha b hb hfeeds => ?_⟩
      rw [heq]
      exact List.mem_filter.mpr ⟨ha, List.any_eq_true.mpr ⟨b, hb, by simp [hfeeds]⟩⟩
    · rename_i hmore
      have hle := hsub.length_le
      generalize hkeep : (fun a : Access × Nat => live.any fun b => a.2 == b.2 || a.1.feeds b.1) = next at *
      obtain ⟨hkept, hrest⟩ := ih next rfl (by omega) fun a ha => (List.mem_filter.mp ha).1
      exact ⟨fun a ha => hkept a (hnext a ha), hrest⟩

variable {p : Plan}

/-- The live stages contain what writes something visible and what feeds a live stage. -/
theorem livePositions_closed : (∀ (i : Nat) (stage : Stage) (o : ObjectId), p.stages[i]? = some stage →
      o ∈ stage.writes → p.isExternal o = true → i ∈ p.livePositions) ∧
    ∀ (i j : Nat) (a b : Stage) (o : ObjectId), p.stages[i]? = some a → p.stages[j]? = some b →
      j ∈ p.livePositions → o ∈ a.writes → o ∈ b.reads → i ∈ p.livePositions := by
  have hmem : ∀ (i : Nat) (stage : Stage), p.stages[i]? = some stage → (stage.access, i) ∈ p.accesses.zipIdx :=
    fun i stage hi => List.mem_zipIdx_iff_getElem?.mpr (by simp [accesses, hi])
  obtain ⟨hroots, hin, hclosed⟩ := spread_closed p.accesses.zipIdx p.accesses.zipIdx.length
    (fun a => a.1.writes.any p.isExternal) rfl (by omega)
  refine ⟨fun i stage o hi hw hext => ?_, fun i j a b o hi hj hlive hw hr => ?_⟩
  · refine List.mem_map.mpr ⟨(stage.access, i), hroots _ (List.mem_filter.mpr ⟨hmem i stage hi, ?_⟩), rfl⟩
    exact List.any_eq_true.mpr ⟨o, hw, hext⟩
  · obtain ⟨x, hx, rfl⟩ := List.mem_map.mp hlive
    have haccess : x.1 = b.access := by
      have hget := List.mem_zipIdx_iff_getElem?.mp (hin x hx)
      simp only [accesses, List.getElem?_map, hj, Option.map_some, Option.some.injEq] at hget
      exact hget.symm
    refine List.mem_map.mpr ⟨(a.access, i), hclosed _ (hmem i a hi) x hx ?_, rfl⟩
    rw [haccess]
    exact List.any_eq_true.mpr ⟨o, hw, List.contains_iff_mem.mpr hr⟩

theorem stages_prune : p.prune.1.stages = (p.stages.zipIdx.filter fun x => p.livePositions.contains x.2).map (·.1) := by
  simp [prune, List.partition_eq_filter_filter]

theorem stages_prune_sublist : p.prune.1.stages.Sublist p.stages := by
  rw [stages_prune]
  conv_rhs => rw [← List.zipIdx_map_fst 0 p.stages]
  exact List.filter_sublist.map _

/-- The pass collects the objects to erase by the identifiers they carry. -/
theorem mem_unusedObjects (hid : ∀ (o : ObjectId) (r : Resolved), p.object? o = some r → r.object.id = o)
    {stages : List Stage} {o : ObjectId} : o ∈ unusedObjects p.objects stages ↔
      ∃ r, p.object? o = some r ∧ r.object.isExternal = false ∧ ∀ stage ∈ stages, o ∉ stage.referenced := by
  simp only [unusedObjects, List.mem_map, List.mem_filter, IdMap.mem_values_iff, Bool.and_eq_true,
    Bool.not_eq_true', List.contains_eq_mem, decide_eq_false_iff_not, List.mem_flatMap, not_exists, not_and]
  constructor
  · rintro ⟨r, ⟨⟨q, hq⟩, hext, hno⟩, rfl⟩
    rw [hid q r hq] at hno ⊢
    exact ⟨r, hq, hext, hno⟩
  · rintro ⟨r, hr, hext, hno⟩
    rw [← hid o r hr] at hno
    exact ⟨r, ⟨⟨o, hr⟩, hext, hno⟩, hid o r hr⟩

/-- What pruning leaves of the objects: all that can be seen and all that a stage names. -/
theorem object?_prune (hid : ∀ (o : ObjectId) (r : Resolved), p.object? o = some r → r.object.id = o) {o : ObjectId}
    {r : Resolved} : p.prune.1.object? o = some r ↔ p.object? o = some r ∧
      (r.object.isExternal = true ∨ ∃ stage ∈ p.prune.1.stages, o ∈ stage.referenced) := by
  have hget : p.prune.1.object? o = if o ∈ unusedObjects p.objects p.prune.1.stages then none else p.object? o :=
    IdMap.get?_foldl_erase _ _ _
  rw [hget]
  constructor
  · intro h
    split at h
    · contradiction
    · rename_i hno
      refine ⟨h, ?_⟩
      by_contra hneither
      push Not at hneither
      exact hno ((mem_unusedObjects hid).mpr ⟨r, h, by simpa using hneither.1, hneither.2⟩)
  · rintro ⟨h, hkept⟩
    rw [if_neg, h]
    intro hmem
    obtain ⟨r', hr', hext, hno⟩ := (mem_unusedObjects hid).mp hmem
    rw [h] at hr'
    cases hr'
    rcases hkept with hkept | ⟨stage, hstage, ho⟩
    · simp [hext] at hkept
    · exact hno stage hstage ho

namespace Sound

variable (h : p.Sound)

include h

/-- The stages that are left find the objects that they had. -/
theorem object?_of_referenced {stage : Stage} (hstage : stage ∈ p.prune.1.stages) {o : ObjectId}
    (ho : o ∈ stage.referenced) : p.prune.1.object? o = p.object? o := by
  obtain ⟨r, hr, _⟩ := h.exists_object (stages_prune_sublist.mem hstage) ho
  rw [hr]
  exact (object?_prune h.ids).mpr ⟨hr, .inr ⟨stage, hstage, ho⟩⟩

theorem prune : p.prune.1.Sound where
  objects o r hr := by
    have hs := h.objects o r ((object?_prune h.ids).mp hr).1
    -- delays are bound by the caller, so they are kept
    have hkept : ∀ s, r.object.slot = some s → ∀ d, p.object? s.delay = some d →
        p.prune.1.object? s.delay = some d := by
      intro s hslot d hd
      obtain ⟨_, _, d', hd', hreal, _⟩ := hs.slot s hslot
      rw [hd] at hd'
      cases hd'
      exact (object?_prune h.ids).mpr ⟨hd, .inl (by simp [DataObject.isExternal, hreal])⟩
    refine { hs with slot := fun s hslot => ?_, template := fun s hslot => ?_ }
    · obtain ⟨hkind, hindex, d, hd, hrest⟩ := hs.slot s hslot
      exact ⟨hkind, hindex, d, hkept s hslot d hd, hrest⟩
    · obtain ⟨d, m, hd, hrest⟩ := hs.template s hslot
      exact ⟨d, m, hkept s hslot d hd, hrest⟩
  stages stage hstage :=
    (h.stages stage (stages_prune_sublist.mem hstage)).congr fun o ho => h.object?_of_referenced hstage ho
  after := (h.woven.of_sublist stages_prune_sublist).after
  separate := (h.woven.of_sublist stages_prune_sublist).separate

/-- What can be seen is left. -/
theorem object?_prune_of_external {o : ObjectId} {r : Resolved} (hext : r.object.isExternal = true) :
    p.prune.1.object? o = some r ↔ p.object? o = some r := by
  rw [object?_prune h.ids]
  exact and_iff_left (.inl hext)

theorem entries_prune : p.prune.1.entries = p.entries := by
  refine entries_congr fun o r hentry => h.object?_prune_of_external ?_
  simp only [DataObject.isEntry, Bool.and_eq_true] at hentry
  exact hentry.1

/-- Two stages write nothing in common, whatever their order. -/
theorem writes_disjoint {i j : Nat} {a b : Stage} (hi : p.stages[i]? = some a) (hj : p.stages[j]? = some b)
    (hne : i ≠ j) {o : ObjectId} (ha : o ∈ a.writes) : o ∉ b.writes := by
  intro hb
  obtain ⟨hilt, rfl⟩ := List.getElem?_eq_some_iff.mp hi
  obtain ⟨hjlt, rfl⟩ := List.getElem?_eq_some_iff.mp hj
  have hafter := List.pairwise_iff_getElem.mp h.stage_after
  rcases Nat.lt_or_gt_of_ne hne with hlt | hlt
  · exact hafter i j hilt hjlt hlt o hb (Stage.referenced_of_writes ha)
  · exact hafter j i hjlt hilt hlt o ha (Stage.referenced_of_writes hb)

/-- What a dropped stage writes lives in scratch and is named by no stage that is left. -/
theorem dead_writes {i : Nat} {stage : Stage} (hi : p.stages[i]? = some stage) (hdead : i ∉ p.livePositions)
    {o : ObjectId} (ho : o ∈ stage.writes) :
    p.home o = some (.scratch o) ∧ ∀ live ∈ p.prune.1.stages, o ∉ live.referenced := by
  have hstage := List.mem_of_getElem? hi
  obtain ⟨r, hr, hsound, _⟩ := h.exists_object hstage (Stage.referenced_of_writes ho)
  -- a stage that writes an external object is live from the start
  have hext : r.object.isExternal = false := by
    by_contra hext
    refine hdead (livePositions_closed.1 i stage o hi ho ?_)
    have hget : p.objects.get? o = some r := hr
    simpa [isExternal, hget] using hext
  refine ⟨?_, fun live hlive href => ?_⟩
  · have hvirtual : r.object.isVirtual = true := by
      simp only [DataObject.isExternal, Bool.or_eq_false_iff] at hext
      simpa using hext.1
    simp [home, hr, h.not_constant hstage ho hr, hsound.virtual hvirtual, DataObject.isEntry, hext]
  · -- a live stage that reads the object would make its writer live, and no other stage writes it
    rw [stages_prune] at hlive
    obtain ⟨⟨live, j⟩, hx, rfl⟩ := List.mem_map.mp hlive
    obtain ⟨hj, hpos⟩ := List.mem_filter.mp hx
    have hj := List.mem_zipIdx_iff_getElem?.mp hj
    have hpos : j ∈ p.livePositions := List.contains_iff_mem.mp hpos
    have hne : i ≠ j := fun he => hdead (he ▸ hpos)
    have hinternal : o ∉ live.internal := fun hin =>
      (Stage.mem_writes.mp ho).2 (h.internal_of_referenced hstage (Stage.referenced_of_writes ho)
        (List.mem_of_getElem? hj) hin)
    rcases h.woven.reads_or_writes (List.mem_of_getElem? hj) href hinternal with hread | hwrite
    · exact hdead (livePositions_closed.2 i j stage _ o hi hj hpos ho hread)
    · exact h.writes_disjoint hi hj hne ho hwrite

theorem narrows_prune {s t : Storage} (hs : Storage.ofPlan p = .ok s) (ht : Storage.ofPlan p.prune.1 = .ok t) :
    Narrows p p.prune.1 s t where
  wide := h
  narrow := h.prune
  storage := hs
  storage' := ht
  entries := h.entries_prune
  uses _ := fun ⟨stage, hstage, href⟩ => ⟨stage, stages_prune_sublist.mem hstage, href⟩
  object _ hstage _ ho := h.object?_of_referenced hstage ho

/-- Along the stages of both plans the memories agree on all that the stages which are left use. -/
theorem run_prune {s t : Storage} (hs : Storage.ofPlan p = .ok s) (ht : Storage.ofPlan p.prune.1 = .ok t)
    {l : List (Stage × Nat)} (hl : ∀ x ∈ l, p.stages[x.2]? = some x.1) {m n m' : Memory}
    (hagree : Memory.Agree p.prune.1.Uses m n)
    (hrun : (l.map (·.1)).foldlM (fun m stage => stage.run .standard p s m) m = .ok m') :
    ∃ n', ((l.filter fun x => p.livePositions.contains x.2).map (·.1)).foldlM
        (fun m stage => stage.run .standard p.prune.1 t m) n = .ok n' ∧ Memory.Agree p.prune.1.Uses m' n' := by
  induction l generalizing m n with
  | nil =>
    cases hrun
    exact ⟨n, rfl, hagree⟩
  | cons x l ih =>
    obtain ⟨mid, hx, hrest⟩ := foldlM_cons_eq_ok.mp hrun
    have hstage : x.1 ∈ p.stages := List.mem_of_getElem? (hl x List.mem_cons_self)
    have hl' := fun y hy => hl y (List.mem_cons_of_mem x hy)
    by_cases hlive : p.livePositions.contains x.2 = true
    · have hleft : x.1 ∈ p.prune.1.stages := by
        rw [stages_prune]
        refine List.mem_map.mpr ⟨x, List.mem_filter.mpr ⟨?_, hlive⟩, rfl⟩
        exact List.mem_zipIdx_iff_getElem?.mpr (hl x List.mem_cons_self)
      obtain ⟨nid, hnid, hagree'⟩ := (h.narrows_prune hs ht).run hstage hleft hagree hx
      obtain ⟨n', hn', hagree''⟩ := ih hl' hagree' hrest
      refine ⟨n', ?_, hagree''⟩
      rw [List.filter_cons, if_pos hlive, List.map_cons]
      exact foldlM_cons_eq_ok.mpr ⟨nid, hnid, hn'⟩
    · -- what a dropped stage writes is not used any more
      have hdead : x.2 ∉ p.livePositions := fun hmem => hlive (List.contains_iff_mem.mpr hmem)
      obtain ⟨us, hus, rfl⟩ := (h.run_eq_ok hs hstage).mp hx
      rw [List.filter_cons, if_neg hlive]
      refine ih hl' (hagree.setAll_left fun u hu => ?_) hrest
      obtain ⟨o, ho, hhome⟩ := h.home_of_written hs hstage (Stage.mem_writtenPlaces_of_update hus hu)
      obtain ⟨hscratch, hunnamed⟩ := h.dead_writes (hl x List.mem_cons_self) hdead ho
      refine ⟨o, Option.some.inj (hhome.symm.trans hscratch), ?_⟩
      rintro ⟨live, hmem, href, _⟩
      exact hunnamed live hmem href

/-- Pruning keeps what can be seen of a plan. -/
theorem replaces_prune : p.prune.1.Replaces p where
  entries := h.entries_prune
  info o ho := by
    obtain ⟨r, hr, hentry⟩ := (mem_entries h.ids).mp ho
    simp only [DataObject.isEntry, Bool.and_eq_true] at hentry
    have hleft := (h.object?_prune_of_external hentry.1).mpr hr
    exact congrArg (Option.map Resolved.info) (hleft.trans hr.symm)
  run s t b m' hs ht hrun := by
    obtain ⟨m, hm, hfold⟩ := run_eq_finished.mp hrun
    obtain ⟨n, hstart, hagree⟩ := (h.narrows_prune hs ht).start hm
    have hl : ∀ x ∈ p.stages.zipIdx, p.stages[x.2]? = some x.1 := fun x hx => List.mem_zipIdx_iff_getElem?.mp hx
    rw [← List.zipIdx_map_fst 0 p.stages] at hfold
    obtain ⟨n', hn', hagree'⟩ := h.run_prune hs ht hl hagree hfold
    rw [← stages_prune] at hn'
    exact ⟨n', run_eq_finished.mpr ⟨_, hstart, hn'⟩, IdMap.ext fun o => (hagree'.host o).symm⟩

end Sound

end Plan

end VisionGraph
