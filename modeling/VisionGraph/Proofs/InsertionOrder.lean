import VisionGraph.Proofs.Certificate
import VisionGraph.Proofs.Process

/-! The order in which nodes were inserted has no influence: verification accepts the same graphs, resolves the
same metadata, and the programs do the same. -/
namespace VisionGraph

namespace Graph

variable {g : Graph} {nodes : List Node} {r : Registry} {l : List Checked} {known : Array Meta}

theorem resolvedObjects_perm (hp : nodes.Perm g.nodes) (known : Array Meta) :
    { g with nodes := nodes }.resolvedObjects known = g.resolvedObjects known := by
  unfold resolvedObjects
  dsimp only
  congr 1
  refine List.filterMap_congr fun x _ => ?_
  have hmem : (nodes.flatMap Node.bound).contains x.1.id = (g.nodes.flatMap Node.bound).contains x.1.id := by
    rw [Bool.eq_iff_iff]
    simp only [List.contains_iff_mem]
    exact (hp.flatMap_right _).mem_iff
  simp only [hmem]

/-- A schedule of the nodes is one also when they were inserted in another order. -/
theorem Resolves.insertion (h : Resolves r g l known) (hp : nodes.Perm g.nodes) :
    Resolves r { g with nodes := nodes } l known where
  nodes := h.nodes.trans hp.symm
  found := h.found
  after := h.after
  fits := h.fits
  run := h.run
  resolved := h.resolved

/-- What verification makes of the nodes in another order: the same objects, and the same stages in some order. -/
theorem verify_perm (hp : nodes.Perm g.nodes) {p : Plan} (h : g.verify .standard = .ok p) :
    ∃ p', { g with nodes := nodes }.verify .standard = .ok p' ∧ p'.objects = p.objects ∧ p'.stages.Perm p.stages := by
  obtain ⟨l, known, hl, rfl⟩ := exists_resolves h
  obtain ⟨l', hl', hperm, hverify⟩ := verify_of_resolves hl.regular (hl.insertion hp)
  exact ⟨_, hverify, resolvedObjects_perm hp known, hperm.map _⟩

end Graph

namespace Plan

variable {p q : Plan} {s t : Storage}

theorem entries_eq_of_objects (h : q.objects = p.objects) : q.entries = p.entries := by
  rw [entries, entries, h]

/-- The storage does not depend on the order of the stages when none has internal images. -/
theorem storage_perm (hobj : q.objects = p.objects) (hperm : q.stages.Perm p.stages)
    (hplain : ∀ stage ∈ p.stages, stage.internal = []) (hs : Storage.ofPlan p = .ok s)
    (ht : Storage.ofPlan q = .ok t) : t = s := by
  have hentries : t.entries = s.entries := by
    rw [(Storage.ofPlan_eq_ok.mp ht).1, (Storage.ofPlan_eq_ok.mp hs).1, entries_eq_of_objects hobj]
  have hplaces : ∀ o, t.placements.get? o = s.placements.get? o := by
    intro o
    have hp := (Storage.placed_of_ofPlan hs).2 o fun stage hstage => by simp [hplain stage hstage]
    have hq := (Storage.placed_of_ofPlan ht).2 o fun stage hstage => by simp [hplain stage (hperm.mem_iff.mp hstage)]
    have hplace : Storage.place q q.entries o = Storage.place p p.entries o := by
      rw [Storage.place, Storage.place, Plan.object?, Plan.object?, hobj, entries_eq_of_objects hobj]
    by_cases href : ∃ stage ∈ p.stages, o ∈ stage.referenced
    · obtain ⟨stage, hstage, ho⟩ := href
      rw [hp.1 ⟨stage, hstage, ho⟩, hq.1 ⟨stage, hperm.mem_iff.mpr hstage, ho⟩, hplace]
    · push Not at href
      rw [hp.2 href, hq.2 fun stage hstage => href stage (hperm.mem_iff.mp hstage)]
  obtain ⟨entries, placements⟩ := s
  obtain ⟨entries', placements'⟩ := t
  rw [Storage.mk.injEq]
  exact ⟨hentries, IdMap.ext hplaces⟩

/-- The stages of a plan may run in any order in which none writes what an earlier one names. -/
theorem replaces_perm (hp : p.Sound) (hq : q.Sound) (hobj : q.objects = p.objects) (hperm : q.stages.Perm p.stages)
    (hplain : ∀ stage ∈ p.stages, stage.internal = []) : q.Replaces p where
  entries := entries_eq_of_objects hobj
  info o _ := by rw [Plan.info?, Plan.info?, hobj]
  run s t b n hs ht hrun := by
    have hst : t = s := storage_perm hobj hperm hplain hs ht
    subst hst
    obtain ⟨m, hm, hfold⟩ := run_eq_finished.mp hrun
    have hstart : Memory.start q t b = Memory.start p t b := by
      rw [Memory.start, Memory.start]
      simp only [Plan.info?, hobj]
    have hstages : ∀ stage ∈ q.stages, ∀ m, stage.run .standard q t m = stage.run .standard p t m := by
      intro stage hstage m
      refine hp.run_eq hq hs ht (entries_eq_of_objects hobj) (hperm.mem_iff.mp hstage) hstage fun o _ => ?_
      rw [Plan.object?, Plan.object?, hobj]
    refine ⟨n, run_eq_finished.mpr ⟨m, hstart.trans hm, ?_⟩, rfl⟩
    rw [foldlM_congr hstages]
    exact foldlM_perm _ hperm.symm hp.stage_after hq.stage_after
      (fun a ha c hc hac hca => hp.exchanges hs ha hc hca hac) hfold

end Plan

namespace Graph

variable {g : Graph} {nodes : List Node}

theorem WellFormed.perm (h : g.WellFormed) (hp : nodes.Perm g.nodes) : { g with nodes := nodes }.WellFormed where
  objects := h.objects
  nodes := (hp.map _).nodup_iff.mpr h.nodes
  fresh n hn := h.fresh n (hp.mem_iff.mp hn)

/-- The plans of both orders stand in for each other. -/
theorem replaces_of_perm (hg : g.WellFormed) (hp : nodes.Perm g.nodes) {p p' : Plan} (h : g.verify .standard = .ok p)
    (h' : { g with nodes := nodes }.verify .standard = .ok p') : p'.objects = p.objects ∧ p'.Replaces p := by
  obtain ⟨q, hq, hobj, hperm⟩ := verify_perm hp h
  rw [h'] at hq
  cases hq
  obtain ⟨l, known, hl, rfl⟩ := exists_resolves h
  obtain ⟨l', known', hl', rfl⟩ := exists_resolves h'
  refine ⟨hobj, Plan.replaces_perm (hl.planSound hg) (hl'.planSound (hg.perm hp)) hobj hperm fun stage hstage => ?_⟩
  obtain ⟨_, _, rfl⟩ := List.mem_map.mp hstage
  rfl

/-- The order in which the nodes of a graph were inserted is irrelevant: verification accepts all orders or none
and resolves the same metadata, and what succeeds with one order succeeds with the other and gives the same. -/
theorem insertion_order_irrelevant (g : Graph) (hg : g.Built) (nodes : List Node) (hp : nodes.Perm g.nodes) :
    ((∃ p, g.verify .standard = .ok p) ↔ ∃ p, { g with nodes := nodes }.verify .standard = .ok p) ∧
      ∀ p p', g.verify .standard = .ok p → { g with nodes := nodes }.verify .standard = .ok p' →
        p'.objects = p.objects ∧ ∀ P P', p.LoadedAs P → p'.LoadedAs P' → ∀ b b',
          P.process b = (.ok (), b') ↔ P'.process b = (.ok (), b') := by
  have hwf := hg.wellFormed
  refine ⟨⟨fun ⟨p, h⟩ => ?_, fun ⟨p, h⟩ => ?_⟩, fun p p' h h' => ?_⟩
  · obtain ⟨p', h', _⟩ := verify_perm hp h
    exact ⟨p', h'⟩
  · obtain ⟨p', h', _⟩ := verify_perm (g := { g with nodes := nodes }) hp.symm h
    exact ⟨p', h'⟩
  · obtain ⟨hobj, hforth⟩ := replaces_of_perm hwf hp h h'
    obtain ⟨_, hback⟩ := replaces_of_perm (hwf.perm hp) hp.symm h' h
    refine ⟨hobj, fun P P' hP hP' b b' => ⟨hforth.process hP hP', hback.process hP' hP⟩⟩

/-- A graph whose first node reads what its second one writes into an image of which nothing is declared. -/
def consumerFirst : Graph := Graph.empty.edit [.image 2 1 .u8, .virtualImage ⟨none, none, none⟩, .image 2 1 .u8,
  .node "vx.or" [some ⟨0⟩, some ⟨1⟩, some ⟨2⟩], .node "vx.not" [some ⟨0⟩, some ⟨1⟩]]

theorem insertion_order_consumerFirst : ∃ p p' P P' b b', consumerFirst.verify .standard = .ok p ∧
    { consumerFirst with nodes := consumerFirst.nodes.reverse }.verify .standard = .ok p' ∧ p'.objects = p.objects ∧
      p.LoadedAs P ∧ p'.LoadedAs P' ∧ P.process b = (.ok (), b') ∧ P'.process b = (.ok (), b') ∧ b' ≠ b := by
  have horder := insertion_order_irrelevant consumerFirst ⟨_, rfl⟩ consumerFirst.nodes.reverse (List.reverse_perm _)
  have hruns : consumerFirst.runsFresh = true := by decide +kernel
  have hreverse : { consumerFirst with nodes := consumerFirst.nodes.reverse }.program?.isSome = true := by
    decide +kernel
  obtain ⟨p, P, b, b', hp, hP, hrun, hne⟩ := exists_of_runsFresh hruns
  obtain ⟨P', hP'⟩ := Option.isSome_iff_exists.mp hreverse
  obtain ⟨p', hp', hload⟩ := loadedAs_of_program? hP'
  obtain ⟨hobj, hsame⟩ := horder.2 p p' hp hp'
  exact ⟨p, p', P, P', b, b', hp, hp', hobj, hP, hload, hrun, (hsame P P' hP hload b b').mp hrun, hne⟩

end Graph

end VisionGraph
