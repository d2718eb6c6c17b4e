import VisionGraph.Proofs.FixedPoint

/-! What optimisation reports. Each pass accounts for all that it changes, and so does a sequence of passes; since nothing
is joined before the first pruning and nothing is pruned after it, the sums come out even for the whole run. -/
namespace VisionGraph

namespace Plan

/-- A plan made from another one, with events that tell of every difference. -/
structure Accounts (p q : Plan) (events : List Event) : Prop where
  /-- A node is still there or is reported as removed. -/
  nodes : (q.stages.flatMap Stage.origins ++ events.filterMap Event.node?).Perm (p.stages.flatMap Stage.origins)
  count : p.stages.length =
    q.stages.length + (events.filterMap Event.node?).length + (events.filterMap Event.fusion?).length
  /-- An internal image was internal before or is reported as the one between two stages. -/
  internal : (q.stages.flatMap (·.internal)).Perm
    (p.stages.flatMap (·.internal) ++ (events.filterMap Event.fusion?).map (·.intermediate))
  distinct : (p.stages.flatMap (·.internal)).Nodup → (q.stages.flatMap (·.internal)).Nodup
  objects : ∀ (o : ObjectId) (r : Resolved), q.object? o = some r → p.object? o = some r
  removed : ∀ o, o ∈ events.filterMap Event.object? ↔ (∃ r, p.object? o = some r) ∧ q.object? o = none
  once : (events.filterMap Event.object?).Nodup

namespace Accounts

variable {p q last : Plan} {events more : List Event}

theorem refl (p : Plan) : p.Accounts p [] where
  nodes := by simp
  count := rfl
  internal := by simp
  distinct h := h
  objects _ _ hr := hr
  removed o := by
    refine iff_of_false List.not_mem_nil ?_
    rintro ⟨⟨r, hr⟩, hnone⟩
    rw [hr] at hnone
    cases hnone
  once := .nil

theorem trans (h : p.Accounts q events) (h' : q.Accounts last more) : p.Accounts last (events ++ more) where
  nodes := by
    rw [List.filterMap_append]
    refine (List.perm_append_comm.append_left _).trans ?_
    rw [← List.append_assoc]
    exact (h'.nodes.append_right _).trans h.nodes
  count := by
    have hfirst := h.count
    have hsecond := h'.count
    simp only [List.filterMap_append, List.length_append]
    omega
  internal := by
    rw [List.filterMap_append, List.map_append, ← List.append_assoc]
    exact h'.internal.trans (h.internal.append_right _)
  distinct hn := h'.distinct (h.distinct hn)
  objects o r hr := h.objects o r (h'.objects o r hr)
  removed o := by
    rw [List.filterMap_append, List.mem_append, h.removed, h'.removed]
    constructor
    · rintro (⟨hsome, hnone⟩ | ⟨⟨r, hr⟩, hnone⟩)
      · refine ⟨hsome, Option.eq_none_iff_forall_ne_some.mpr fun r hr => ?_⟩
        rw [h'.objects o r hr] at hnone
        cases hnone
      · exact ⟨⟨r, h.objects o r hr⟩, hnone⟩
    · rintro ⟨hsome, hnone⟩
      cases hq : q.object? o with
      | none => exact .inl ⟨hsome, rfl⟩
      | some r => exact .inr ⟨⟨r, rfl⟩, hnone⟩
  once := by
    rw [List.filterMap_append]
    refine List.nodup_append.mpr ⟨h.once, h'.once, ?_⟩
    -- what the first part removed is not there for the second one
    rintro o ho _ ho' rfl
    obtain ⟨_, hnone⟩ := (h.removed o).mp ho
    obtain ⟨⟨r, hr⟩, _⟩ := (h'.removed o).mp ho'
    rw [hr] at hnone
    cases hnone

end Accounts

/-! ### Passes -/

variable {p : Plan}

/-- No stages were joined yet. -/
def Unjoined (p : Plan) : Prop := ∀ a ∈ p.stages, a.origins.length = 1 ∧ a.internal = []

theorem length_origins {stages : List Stage} (h : ∀ a ∈ stages, a.origins.length = 1) :
    (stages.flatMap Stage.origins).length = stages.length := by
  calc (stages.flatMap Stage.origins).length = (stages.map fun a => a.origins.length).sum := List.length_flatMap
    _ = (stages.map fun _ => 1).sum := by rw [List.map_congr_left h]
    _ = stages.length := by simp

theorem Unjoined.accounts_prune (h : p.Unjoined) (hid : p.Keyed) : p.Accounts p.prune.1 p.prune.2 := by
  obtain ⟨keep, removed, hexact⟩ := exists_exactlyPruned hid
  have hnodes : p.prune.2.filterMap Event.node? = (p.stages.filter (!keep ·)).flatMap Stage.origins := by
    simp [hexact.events, List.filterMap_append, List.filterMap_map, Function.comp_def, Event.node?]
  have hobjects : p.prune.2.filterMap Event.object? = removed := by
    simp [hexact.events, List.filterMap_append, List.filterMap_map, Function.comp_def, Event.object?]
  have hfusions : p.prune.2.filterMap Event.fusion? = [] := by
    simp [hexact.events, List.filterMap_append, List.filterMap_map, Function.comp_def, Event.fusion?]
  have hsplit : (p.stages.filter keep ++ p.stages.filter (!keep ·)).Perm p.stages := List.filter_append_perm keep p.stages
  have hinternal : ∀ stages : List Stage, (∀ a ∈ stages, a ∈ p.stages) → stages.flatMap (·.internal) = [] := by
    intro stages hsub
    exact List.flatMap_eq_nil_iff.mpr fun a ha => (h a (hsub a ha)).2
  have hkept := hinternal p.prune.1.stages fun a ha => stages_prune_sublist.mem ha
  have hall := hinternal p.stages fun _ ha => ha
  refine ⟨?_, ?_, ?_, fun _ => ?_, fun o r hr => ((hexact.objects o r).mp hr).1, fun o => ?_, ?_⟩
  · rw [hnodes, hexact.stages, ← List.flatMap_append]
    exact hsplit.flatMap_right _
  · -- a stage that is removed has one node
    have hlength := hsplit.length_eq
    rw [hnodes, hfusions, hexact.stages, length_origins fun a ha => (h a (List.mem_of_mem_filter ha)).1]
    rw [List.length_append] at hlength
    simp only [List.length_nil]
    omega
  · simp [hkept, hall, hfusions]
  · rw [hkept]
    exact .nil
  · rw [hobjects]
    exact hexact.gone o
  · rw [hobjects]
    exact hexact.nodup

namespace Fusable

variable {front between back : List Stage} {producer consumer : Stage} {t : ObjectId}

theorem accounts (h : p.Woven) (hf : p.Fusable front between back producer consumer t) :
    p.Accounts (p.joined front between back producer consumer t) [.fused producer.origins consumer.origins t] := by
  have hinternal : ((p.joined front between back producer consumer t).stages.flatMap (·.internal)).Perm
      (p.stages.flatMap (·.internal) ++ [t]) := by
    rw [List.perm_iff_count]
    intro o
    simp only [joined, hf.stages, join, List.flatMap_append, List.flatMap_cons, List.count_append]
    omega
  refine ⟨?_, ?_, hinternal, fun hn => ?_, fun _ _ hr => hr, (Accounts.refl p).removed, .nil⟩
  · rw [origins_eq, origins_eq]
    exact (List.append_nil _ ▸ hf.steps_perm.map _)
  · simp only [joined, hf.stages, List.length_append, List.length_cons, List.filterMap_cons, Event.node?, Event.fusion?,
      List.filterMap_nil, List.length_nil]
    omega
  · -- the image between was internal to no stage, since the producer wrote it
    have hnew : t ∉ p.stages.flatMap (·.internal) := by
      intro hmem
      obtain ⟨a, ha, hin⟩ := List.mem_flatMap.mp hmem
      exact h.not_internal hf.mem.1 ha hf.written.1 hin
    rw [hinternal.nodup_iff, List.nodup_append]
    refine ⟨hn, List.nodup_singleton t, ?_⟩
    intro o ho _ ht he
    exact hnew (List.mem_singleton.mp ht ▸ he ▸ ho)

end Fusable

/-- By induction over the joints: each leaves a plan whose stages hang together. -/
theorem Woven.accounts_fuse (h : p.Woven) : p.Accounts p.fuse.1 p.fuse.2 := by
  fun_induction Plan.fuse p with
  | case1 p hnone => exact Accounts.refl p
  | case2 p q e hsome last events hlast ih =>
    obtain ⟨_, _, _, _, _, _, hf, rfl, rfl⟩ := fuseOnce_eq_joined h hsome
    have hrest := ih (hf.woven h)
    rw [hlast] at hrest
    exact (hf.accounts h).trans hrest

/-- The first sweep prunes, if at all, before anything is joined. -/
theorem Unjoined.accounts_sweep (hs : p.Unjoined) (h : p.Woven) (hid : p.Keyed) (c : OptimizerConfig) :
    p.Accounts (Pass.sweep c.passes p).1 (Pass.sweepEvents c.passes p) := by
  have hprune := hs.accounts_prune hid
  have hfuse := (h.of_sublist (stages_prune_sublist (p := p))).accounts_fuse
  obtain ⟨prune, fuse, limit⟩ := c
  cases prune with
  | false =>
    cases fuse with
    | false => exact Accounts.refl p
    | true => exact h.accounts_fuse.trans (Accounts.refl _)
  | true =>
    cases fuse with
    | false => exact hprune.trans (Accounts.refl _)
    | true => exact hprune.trans (hfuse.trans (Accounts.refl _))

/-! ### The report -/

/-- The report tells of the events of the first sweep, unless there was none; a second one would find nothing. -/
theorem optimize_report (h : p.Woven) (hid : p.Keyed) (c : OptimizerConfig) : ∃ q events n,
    p.optimize c = (q, { (Report.start p.stages.length).absorb events with
      iterations := n
      nodesAfter := q.stages.length }) ∧
    (q = p ∧ events = [] ∨ q = (Pass.sweep c.passes p).1 ∧ events = Pass.sweepEvents c.passes p) := by
  by_cases hc : c.passes = []
  · exact ⟨p, [], 0, if_pos (List.isEmpty_iff.mpr hc), .inl ⟨rfl, rfl⟩⟩
  cases hm : c.maxIterations with
  | zero =>
    refine ⟨p, [], 0, ?_, .inl ⟨rfl, rfl⟩⟩
    rw [optimize_eq hc, hm]
    rfl
  | succ left =>
    have hm : 1 ≤ c.maxIterations := by omega
    by_cases hquiet : Pass.sweepEvents c.passes p = []
    · exact ⟨p, [], 1, optimize_of_quiet hc hm hquiet, .inl ⟨rfl, rfl⟩⟩
    · exact ⟨_, _, _, optimize_eq_of_loud hc hm hquiet (settled_sweep h hid c), .inr ⟨rfl, rfl⟩⟩

end Plan

/-- A report that accounts for all nodes and objects. -/
structure Report.Balanced (report : Report) (nodes : List NodeId) (p q : Plan) : Prop where
  nodes : (q.stages.flatMap Stage.origins ++ report.removedNodes).Perm nodes
  before : report.nodesBefore = p.stages.length
  after : report.nodesAfter = q.stages.length
  count : report.nodesBefore = report.nodesAfter + report.removedNodes.length + report.fusions.length
  distinct : (report.fusions.map (·.intermediate)).Nodup
  internal : (report.fusions.map (·.intermediate)).Perm (q.stages.flatMap (·.internal))
  once : report.removedObjects.Nodup
  removed : ∀ o, o ∈ report.removedObjects ↔ (∃ r, p.object? o = some r) ∧ q.object? o = none
  unchanged : report.changed = false ↔ q = p

namespace Plan

variable {p q : Plan} {events : List Event}

/-- Where nothing differs, there is nothing to tell of. -/
theorem Accounts.eq_nil (h : p.Accounts p events) : events = [] := by
  have hlength := h.nodes.length_eq
  have hcount := h.count
  rw [List.length_append] at hlength
  have hnodes : events.filterMap Event.node? = [] := List.length_eq_zero_iff.mp (by omega)
  have hfusions : events.filterMap Event.fusion? = [] := List.length_eq_zero_iff.mp (by omega)
  have hobjects : events.filterMap Event.object? = [] := by
    apply List.eq_nil_iff_forall_not_mem.mpr
    intro o ho
    obtain ⟨⟨r, hr⟩, hnone⟩ := (h.removed o).mp ho
    rw [hr] at hnone
    cases hnone
  cases events with
  | nil => rfl
  | cons e rest =>
    -- an event is of one of the three kinds
    cases e <;> simp [Event.node?, Event.object?, Event.fusion?] at hnodes hobjects hfusions

theorem Accounts.balanced (h : p.Accounts q events) (hs : p.Unjoined) (hquiet : events = [] → q = p) (n : Nat) :
    Report.Balanced { (Report.start p.stages.length).absorb events with iterations := n, nodesAfter := q.stages.length }
      (p.stages.flatMap Stage.origins) p q := by
  have hnone : p.stages.flatMap (·.internal) = [] := List.flatMap_eq_nil_iff.mpr fun a ha => (hs a ha).2
  have hinternal := h.internal
  rw [hnone, List.nil_append] at hinternal
  have hdistinct := h.distinct (hnone ▸ .nil)
  have hchanged : ((Report.start p.stages.length).absorb events).changed = !events.isEmpty := Report.changed_absorb ..
  rw [Report.absorb_eq] at hchanged ⊢
  refine ⟨h.nodes, rfl, rfl, h.count, hinternal.nodup_iff.mp hdistinct, hinternal.symm, h.once, h.removed, ?_⟩
  refine (Eq.congr_left hchanged).trans ?_
  constructor
  · intro hno
    exact hquiet (by simpa using hno)
  · intro heq
    subst heq
    simp [h.eq_nil]

end Plan

namespace Graph

variable {r : Registry} {g : Graph} {p : Plan}

theorem unjoined_of_verify (h : g.verify r = .ok p) : p.Unjoined := by
  obtain ⟨l, known, _, rfl⟩ := exists_resolves h
  intro a ha
  obtain ⟨c, _, rfl⟩ := List.mem_map.mp ha
  exact ⟨rfl, rfl⟩

/-- Whatever passes are enabled, the report of optimisation accounts for every node and every object of the plan. -/
theorem report_balanced (r : Registry) (g : Graph) (p : Plan) (h : g.verify r = .ok p) (c : OptimizerConfig) :
    (p.optimize c).2.Balanced (g.nodes.map (·.id)) p (p.optimize c).1 := by
  have hw := woven_of_verify h
  have hid := keyed_of_verify h
  have hs := unjoined_of_verify h
  obtain ⟨q, events, n, heq, hcases⟩ := Plan.optimize_report hw hid c
  have haccounts : p.Accounts q events ∧ (events = [] → q = p) := by
    rcases hcases with ⟨rfl, rfl⟩ | ⟨rfl, rfl⟩
    · exact ⟨Plan.Accounts.refl q, fun _ => rfl⟩
    · exact ⟨hs.accounts_sweep hw hid c, Pass.sweep_of_quiet c.passes hw⟩
  have hbalanced := haccounts.1.balanced hs haccounts.2 n
  rw [heq]
  exact { hbalanced with nodes := hbalanced.nodes.trans (origins_perm h) }

/-- One chain is removed with its objects, and the two nodes of the other one become one stage. -/
theorem report_balanced_branching : ∃ p, branching.verify .standard = .ok p ∧
    (p.optimize .standard).2.Balanced (branching.nodes.map (·.id)) p (p.optimize .standard).1 ∧
    (p.optimize .standard).2 = ⟨4, 1, 2, [⟨0⟩, ⟨1⟩], [⟨3⟩, ⟨4⟩], [⟨[⟨2⟩], [⟨3⟩], ⟨1⟩⟩], []⟩ := by
  have hplan : (branching.verify .standard).toOption.map (fun p => (p.optimize .standard).2) =
      some ⟨4, 1, 2, [⟨0⟩, ⟨1⟩], [⟨3⟩, ⟨4⟩], [⟨[⟨2⟩], [⟨3⟩], ⟨1⟩⟩], []⟩ := by decide +kernel
  obtain ⟨p, hp, hreport⟩ := Option.map_eq_some_iff.mp hplan
  have hverify := toOption_eq_some.mp hp
  exact ⟨p, hverify, report_balanced .standard branching p hverify .standard, hreport⟩

end Graph

end VisionGraph
