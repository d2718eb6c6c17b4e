import Mathlib.Data.List.Nodup
import Mathlib.Logic.Relation
import VisionGraph.Proofs.Certificate
import VisionGraph.Proofs.Optimization

/-! Pruning is exact. A stage is kept if and only if a chain of stages leads from it to something that can be seen, each
writing what the next one reads; what is removed is listed once, and pruning again finds nothing more. -/
namespace VisionGraph

theorem map_filter_zipIdx {α : Type} {l : List α} {f : α × Nat → Bool} {keep : α → Bool}
    (h : ∀ x ∈ l.zipIdx, f x = keep x.1) : (l.zipIdx.filter f).map (·.1) = l.filter keep := by
  rw [List.filter_congr h]
  conv_rhs => rw [← List.zipIdx_map_fst 0 l]
  rw [List.filter_map]
  rfl

namespace Plan

open Relation

/-- One stage of a plan writes an object that another one reads. -/
def Feeds (p : Plan) (a b : Stage) : Prop := a ∈ p.stages ∧ b ∈ p.stages ∧ ∃ o ∈ a.writes, o ∈ b.reads

/-- A chain of stages leads from the stage to one that writes something visible. -/
def Live (p : Plan) (a : Stage) : Prop := ∃ b, ReflTransGen p.Feeds a b ∧ ∃ o ∈ b.writes, p.isExternal o = true

/-- The objects of a plan are filed under the identifiers that they carry. -/
def Keyed (p : Plan) : Prop := ∀ (o : ObjectId) (r : Resolved), p.object? o = some r → r.object.id = o

variable {p : Plan}

theorem isExternal_iff {o : ObjectId} :
    p.isExternal o = true ↔ ∃ r, p.object? o = some r ∧ r.object.isExternal = true := by
  unfold isExternal object?
  cases p.objects.get? o with
  | none => simp
  | some r => simp

theorem Live.of_feeds {a b : Stage} (h : p.Live b) (hab : p.Feeds a b) : p.Live a := by
  obtain ⟨c, hbc, hc⟩ := h
  exact ⟨c, hbc.head hab, hc⟩

/-! ### Live stages -/

/-- What the stages at hand have, and what goes from a stage to those that feed it, all stages of the last round have. -/
theorem spread_induction (good : Access × Nat → Prop) {stages live : List (Access × Nat)} (hlive : ∀ a ∈ live, good a)
    (hstep : ∀ a ∈ stages, ∀ b, good b → a.2 = b.2 ∨ a.1.feeds b.1 = true → good a) (rounds : Nat) :
    ∀ a ∈ spread stages rounds live, good a := by
  induction rounds generalizing live with
  | zero => exact hlive
  | succ rounds ih =>
    unfold spread
    dsimp only
    split
    · exact hlive
    · refine ih fun a ha => ?_
      obtain ⟨hmem, hany⟩ := List.mem_filter.mp ha
      obtain ⟨b, hb, hab⟩ := List.any_eq_true.mp hany
      exact hstep a hmem b (hlive b hb) (by simpa using hab)

/-- The rounds find the live stages and no others. -/
theorem mem_livePositions {i : Nat} {a : Stage} (hi : p.stages[i]? = some a) : i ∈ p.livePositions ↔ p.Live a := by
  have hstage : ∀ x ∈ p.accesses.zipIdx, ∃ b, p.stages[x.2]? = some b ∧ x.1 = b.access := by
    intro x hx
    have hget := List.mem_zipIdx_iff_getElem?.mp hx
    simp only [accesses, List.getElem?_map, Option.map_eq_some_iff] at hget
    obtain ⟨b, hb, hx⟩ := hget
    exact ⟨b, hb, hx.symm⟩
  constructor
  · intro hlive
    obtain ⟨x, hx, rfl⟩ := List.mem_map.mp hlive
    have hgood := spread_induction (fun x => ∃ b, p.stages[x.2]? = some b ∧ x.1 = b.access ∧ p.Live b)
      (fun y hy => ?_) (fun y hy z hz hyz => ?_) _ x hx
    · obtain ⟨b, hb, _, hlive⟩ := hgood
      rw [hi] at hb
      cases hb
      exact hlive
    · obtain ⟨hmem, hany⟩ := List.mem_filter.mp hy
      obtain ⟨b, hb, hy⟩ := hstage y hmem
      rw [hy] at hany
      obtain ⟨o, ho, hext⟩ := List.any_eq_true.mp hany
      exact ⟨b, hb, hy, b, .refl, o, ho, hext⟩
    · obtain ⟨b, hb, hy⟩ := hstage y hy
      obtain ⟨c, hc, hz, hlive⟩ := hz
      rcases hyz with heq | hfeeds
      · have hbc : c = b := by
          rw [heq, hc] at hb
          exact Option.some.inj hb
        exact ⟨b, hb, hy, hbc ▸ hlive⟩
      · rw [hy, hz] at hfeeds
        obtain ⟨o, ho, hread⟩ := List.any_eq_true.mp hfeeds
        refine ⟨b, hb, hy, hlive.of_feeds ⟨List.mem_of_getElem? hb, List.mem_of_getElem? hc, o, ho, ?_⟩⟩
        exact List.contains_iff_mem.mp hread
  · rintro ⟨b, hab, o, ho, hext⟩
    induction hab using ReflTransGen.head_induction_on generalizing i with
    | refl => exact livePositions_closed.1 i b o hi ho hext
    | head hac _ ih =>
      obtain ⟨_, hc, w, hw, hread⟩ := hac
      obtain ⟨j, hj⟩ := List.mem_iff_getElem?.mp hc
      exact livePositions_closed.2 i j _ _ w hi hj (ih hj) hw hread

/-- Pruning keeps the live stages in their order and lists the nodes of the others. -/
theorem prune_eq (p : Plan) : ∃ keep : Stage → Bool, (∀ a ∈ p.stages, keep a = true ↔ p.Live a) ∧
    p.prune.1.stages = p.stages.filter keep ∧
    p.prune.2 = ((p.stages.filter (!keep ·)).flatMap Stage.origins).map .nodeRemoved ++
      (unusedObjects p.objects p.prune.1.stages).map .objectRemoved := by
  classical
  obtain ⟨keep, hkeep⟩ : ∃ keep : Stage → Bool, ∀ a, keep a = true ↔ p.Live a :=
    ⟨fun a => decide (p.Live a), fun a => decide_eq_true_iff⟩
  have hlive : ∀ x ∈ p.stages.zipIdx, p.livePositions.contains x.2 = keep x.1 := by
    intro x hx
    rw [Bool.eq_iff_iff, hkeep, List.contains_iff_mem]
    exact mem_livePositions (List.mem_zipIdx_iff_getElem?.mp hx)
  have hdropped : (p.stages.zipIdx.filter fun x => !p.livePositions.contains x.2).map (·.1) =
      p.stages.filter (!keep ·) :=
    map_filter_zipIdx fun x hx => by rw [hlive x hx]
  refine ⟨keep, fun a _ => hkeep a, ?_, ?_⟩
  · rw [stages_prune, map_filter_zipIdx hlive]
  · rw [prune_events, ← hdropped, List.flatMap_map]

/-! ### Objects -/

/-- The objects that pruning lists are those that it removes. -/
theorem mem_unusedObjects_prune (hid : p.Keyed) {o : ObjectId} : o ∈ unusedObjects p.objects p.prune.1.stages ↔
    (∃ r, p.object? o = some r) ∧ p.prune.1.object? o = none := by
  rw [mem_unusedObjects hid]
  constructor
  · rintro ⟨r, hr, hext, hno⟩
    refine ⟨⟨r, hr⟩, Option.eq_none_iff_forall_ne_some.mpr fun r' hr' => ?_⟩
    obtain ⟨hr', hkept⟩ := (object?_prune hid).mp hr'
    rw [hr] at hr'
    cases hr'
    rcases hkept with hkept | ⟨stage, hstage, ho⟩
    · simp [hext] at hkept
    · exact hno stage hstage ho
  · rintro ⟨⟨r, hr⟩, hnone⟩
    refine ⟨r, hr, ?_, fun stage hstage ho => ?_⟩
    · by_contra hext
      rw [(object?_prune hid).mpr ⟨hr, .inl (by simpa using hext)⟩] at hnone
      contradiction
    · rw [(object?_prune hid).mpr ⟨hr, .inr ⟨stage, hstage, ho⟩⟩] at hnone
      contradiction

theorem nodup_unusedObjects (hid : p.Keyed) (stages : List Stage) : (unusedObjects p.objects stages).Nodup := by
  have hkeys : p.objects.values.map (·.object.id) = p.objects.keys := by
    rw [IdMap.values, IdMap.keys, List.map_map]
    refine List.map_congr_left fun e he => ?_
    exact hid e.1 e.2 (IdMap.get?_eq_some_iff.mpr he)
  refine List.Nodup.sublist ?_ p.objects.nodup_keys
  rw [← hkeys]
  exact List.filter_sublist.map _

/-! ### Plans with nothing to prune -/

/-- Every stage is live, and every object can be seen or is named by a stage. -/
structure Tidy (p : Plan) : Prop where
  live : ∀ a ∈ p.stages, p.Live a
  used : ∀ (o : ObjectId) (r : Resolved), p.object? o = some r →
    r.object.isExternal = true ∨ ∃ a ∈ p.stages, o ∈ a.referenced

/-- Pruning leaves a tidy plan as it is and lists nothing. -/
theorem Tidy.prune_eq (h : p.Tidy) (hid : p.Keyed) : p.prune = (p, []) := by
  obtain ⟨keep, hkeep, hstages, hevents⟩ := p.prune_eq
  have hall : ∀ a ∈ p.stages, keep a = true := fun a ha => (hkeep a ha).mpr (h.live a ha)
  rw [List.filter_eq_self.mpr hall] at hstages
  have hunused : unusedObjects p.objects p.stages = [] := by
    refine List.eq_nil_iff_forall_not_mem.mpr fun o ho => ?_
    obtain ⟨r, hr, hext, hno⟩ := (mem_unusedObjects hid).mp ho
    rcases h.used o r hr with hused | ⟨a, ha, href⟩
    · simp [hext] at hused
    · exact hno a ha href
  have hdropped : p.stages.filter (!keep ·) = [] := List.filter_eq_nil_iff.mpr fun a ha => by simp [hall a ha]
  have hobjects : p.prune.1.objects = p.objects := by
    have herase : p.prune.1.objects = (unusedObjects p.objects p.prune.1.stages).foldl IdMap.erase p.objects := rfl
    rw [herase, hstages, hunused, List.foldl_nil]
  rw [hstages, hunused, hdropped] at hevents
  exact Prod.ext (eq_of_fields hobjects hstages) hevents

/-- After pruning there is nothing more to prune. -/
theorem tidy_prune (hid : p.Keyed) : p.prune.1.Tidy where
  live a ha := by
    obtain ⟨keep, hkeep, hstages, _⟩ := p.prune_eq
    rw [hstages] at ha
    obtain ⟨ha, hlive⟩ := List.mem_filter.mp ha
    obtain ⟨b, hab, o, ho, hext⟩ := (hkeep a ha).mp hlive
    -- every stage of the chain is live, so the whole chain is kept
    have hkept : ∀ c ∈ p.stages, ReflTransGen p.Feeds c b → c ∈ p.prune.1.stages := by
      intro c hc hcb
      rw [hstages]
      exact List.mem_filter.mpr ⟨hc, (hkeep c hc).mpr ⟨b, hcb, o, ho, hext⟩⟩
    have hchain : ∀ {c}, ReflTransGen p.Feeds c b → ReflTransGen p.prune.1.Feeds c b := by
      intro c hcb
      induction hcb using ReflTransGen.head_induction_on with
      | refl => exact .refl
      | head hcd hdb ih => exact ih.head ⟨hkept _ hcd.1 (hdb.head hcd), hkept _ hcd.2.1 hdb, hcd.2.2⟩
    obtain ⟨r, hr, hvisible⟩ := isExternal_iff.mp hext
    exact ⟨b, hchain hab, o, ho, isExternal_iff.mpr ⟨r, (object?_prune hid).mpr ⟨hr, .inl hvisible⟩, hvisible⟩⟩
  used o r hr := ((object?_prune hid).mp hr).2

theorem Keyed.of_objects {q : Plan} (h : p.Keyed) (hq : q.objects = p.objects) : q.Keyed := by
  intro o r hr
  refine h o r ?_
  rwa [object?, ← hq]

theorem origins_eq (p : Plan) : p.stages.flatMap Stage.origins = (p.stages.flatMap (·.steps)).map (·.origin) := by
  rw [List.map_flatMap]
  rfl

/-- What pruning makes of a plan. `keep` tells the stages that stay, and `removed` are the objects that do not. -/
structure ExactlyPruned (p : Plan) (keep : Stage → Bool) (removed : List ObjectId) : Prop where
  live : ∀ a ∈ p.stages, keep a = true ↔ p.Live a
  stages : p.prune.1.stages = p.stages.filter keep
  objects : ∀ (o : ObjectId) (r : Resolved), p.prune.1.object? o = some r ↔ p.object? o = some r ∧
    (p.isExternal o = true ∨ ∃ a ∈ p.prune.1.stages, o ∈ a.referenced)
  gone : ∀ o, o ∈ removed ↔ (∃ r, p.object? o = some r) ∧ p.prune.1.object? o = none
  nodup : removed.Nodup
  events : p.prune.2 =
    ((p.stages.filter (!keep ·)).flatMap Stage.origins).map .nodeRemoved ++ removed.map .objectRemoved
  settled : p.prune.1.prune = (p.prune.1, [])

theorem exists_exactlyPruned (hid : p.Keyed) : ∃ keep removed, p.ExactlyPruned keep removed := by
  obtain ⟨keep, hkeep, hstages, hevents⟩ := p.prune_eq
  refine ⟨keep, _, hkeep, hstages, fun o r => ?_, fun o => mem_unusedObjects_prune hid, nodup_unusedObjects hid _,
    hevents, (tidy_prune hid).prune_eq ?_⟩
  · rw [object?_prune hid]
    refine and_congr_right fun hr => or_congr_left ?_
    rw [isExternal_iff, hr]
    simp
  · exact fun o r hr => hid o r ((object?_prune hid).mp hr).1

/-- Nodes with distinct numbers are listed once each. -/
theorem ExactlyPruned.nodup_events {keep : Stage → Bool} {removed : List ObjectId} (h : p.ExactlyPruned keep removed)
    (hn : (p.stages.flatMap Stage.origins).Nodup) : p.prune.2.Nodup := by
  rw [h.events]
  refine List.nodup_append.mpr ⟨?_, ?_, ?_⟩
  · refine List.Nodup.map (fun a b hab => Event.nodeRemoved.inj hab) (hn.sublist ?_)
    exact List.filter_sublist.flatMap _
  · exact h.nodup.map fun a b hab => Event.objectRemoved.inj hab
  · intro e he e' he' heq
    obtain ⟨n, _, rfl⟩ := List.mem_map.mp he
    obtain ⟨o, _, rfl⟩ := List.mem_map.mp he'
    cases heq

end Plan

namespace Graph

variable {r : Registry} {g : Graph} {p : Plan}

theorem keyed_of_verify (h : g.verify r = .ok p) : p.Keyed := by
  obtain ⟨l, known, _, rfl⟩ := exists_resolves h
  intro o x hx
  have hx : (o, x) ∈ (g.objects.toList.zip known.toList).filterMap g.kept := IdMap.mem_of_get?_ofList hx
  obtain ⟨y, _, hy⟩ := List.mem_filterMap.mp hx
  obtain ⟨he, _⟩ := kept_eq_some.mp hy
  cases he
  rfl

/-- The steps of a plan come from the nodes of the graph. -/
theorem origins_perm (h : g.verify r = .ok p) : (p.stages.flatMap Stage.origins).Perm (g.nodes.map (·.id)) := by
  obtain ⟨l, known, hl, rfl⟩ := exists_resolves h
  have horigins : (g.planOf l known).stages.flatMap Stage.origins = (l.map (·.node)).map (·.id) := by
    rw [planOf, List.flatMap_map, List.map_map, List.map_eq_flatMap]
    rfl
  rw [horigins]
  exact hl.nodes.map _

/-- Pruning is exact, on the plan of a graph and on what fusion makes of it. The live stages stay as they are and in
their order; the objects stay that can be seen or that such a stage names. The rest is listed, each once, and pruning
again changes nothing. -/
theorem prune_exact (r : Registry) (g : Graph) (p : Plan) (h : g.verify r = .ok p) (q : Plan)
    (hq : q = p ∨ q = p.fuse.1) : ∃ keep removed, q.ExactlyPruned keep removed ∧
      ((g.nodes.map (·.id)).Nodup → q.prune.2.Nodup) := by
  have hid := keyed_of_verify h
  have hfuse := (woven_of_verify h).fuse
  have hkeyed : q.Keyed := by
    rcases hq with rfl | rfl
    · exact hid
    · exact hid.of_objects hfuse.objects
  have horigins : (q.stages.flatMap Stage.origins).Perm (g.nodes.map (·.id)) := by
    rcases hq with rfl | rfl
    · exact origins_perm h
    · rw [Plan.origins_eq]
      refine (hfuse.steps.map _).trans ?_
      rw [← Plan.origins_eq]
      exact origins_perm h
  obtain ⟨keep, removed, hexact⟩ := Plan.exists_exactlyPruned hkeyed
  exact ⟨keep, removed, hexact, fun hn => hexact.nodup_events (horigins.nodup_iff.mpr hn)⟩

/-- Two chains of two nodes, one of which leads to nothing visible. -/
def branching : Graph := Graph.empty.edit [.image 2 1 .u8, .virtualImage ⟨none, none, none⟩, .image 2 1 .u8,
  .virtualImage ⟨none, none, none⟩, .virtualImage ⟨none, none, none⟩, .node "vx.not" [some ⟨0⟩, some ⟨3⟩],
  .node "vx.not" [some ⟨3⟩, some ⟨4⟩], .node "vx.not" [some ⟨0⟩, some ⟨1⟩], .node "vx.not" [some ⟨1⟩, some ⟨2⟩]]

theorem prune_branching : ∃ p keep removed, branching.verify .standard = .ok p ∧ p.stages.length = 4 ∧
    p.fuse.1.stages.length = 2 ∧ p.fuse.1.ExactlyPruned keep removed ∧ p.fuse.1.prune.2.Nodup ∧
    p.fuse.1.prune.2 = [.nodeRemoved ⟨0⟩, .nodeRemoved ⟨1⟩, .objectRemoved ⟨3⟩, .objectRemoved ⟨4⟩] := by
  have hplan : (branching.verify .standard).toOption.map (fun p =>
      (p.stages.length, p.fuse.1.stages.length, p.fuse.1.prune.2)) =
      some (4, 2, [.nodeRemoved ⟨0⟩, .nodeRemoved ⟨1⟩, .objectRemoved ⟨3⟩, .objectRemoved ⟨4⟩]) := by decide +kernel
  obtain ⟨p, hp, hplan⟩ := Option.map_eq_some_iff.mp hplan
  have hverify := toOption_eq_some.mp hp
  simp only [Prod.mk.injEq] at hplan
  obtain ⟨keep, removed, hexact, hnodup⟩ := prune_exact .standard branching p hverify p.fuse.1 (.inr rfl)
  exact ⟨p, keep, removed, hverify, hplan.1, hplan.2.1, hexact, hnodup (by decide +kernel), hplan.2.2⟩

end Graph

end VisionGraph
