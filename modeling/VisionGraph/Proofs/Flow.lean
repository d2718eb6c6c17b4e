import Mathlib.Logic.Relation
import VisionGraph.Proofs.Agreement
import VisionGraph.Proofs.Assignment
import VisionGraph.Proofs.FusedRun
import VisionGraph.Proofs.Numbering
import VisionGraph.Proofs.Optimization

/-! Results flow along the nodes only. What an object holds after a run depends on the objects that lead to it, from
what a node reads to what it writes; all other objects may hold anything. -/
namespace VisionGraph

open Relation

/-! ### The relation -/

def Node.Reads (n : Node) (o : ObjectId) : Prop := ∃ slot d, n.Binds slot d o ∧ d.reads = true

namespace Graph

/-- A node reads the one object and writes the other. -/
def Flows (g : Graph) (o q : ObjectId) : Prop := ∃ n ∈ g.nodes, n.Reads o ∧ n.Writes q

/-- There is a way along nodes to an object; the images of a delay belong to the delay. -/
def Leads (g : Graph) (o out : ObjectId) : Prop :=
  ∃ q, (q = out ∨ ∃ x a, g.object? q = some x ∧ x.slot = some ⟨out, a⟩) ∧ ReflTransGen g.Flows o q

/-- The image that bound objects have in a delay at an age. -/
def imageAt (b : Bindings) (delay : ObjectId) (age : Nat) : Option Host := (⟨b, .empty⟩ : Memory).get? (.slot delay age)

/-- What bound objects have of an object of a graph: its contents, or one image, or all images of a delay. -/
def contents (g : Graph) (b : Bindings) (o : ObjectId) : List (Option Host) :=
  match g.object? o with
  | none => []
  | some x =>
    match x.slot, x.info.delay? with
    | some s, _ => [imageAt b s.delay s.age.toNat]
    | none, some m => (List.range m.slots.toNat).map (imageAt b o)
    | none, none => [b.get? o]

theorem Leads.of_flows {g : Graph} {o q out : ObjectId} (h : g.Leads q out) (hoq : TransGen g.Flows o q) :
    g.Leads o out := by
  obtain ⟨t, ht, hq⟩ := h
  exact ⟨t, ht, hoq.to_reflTransGen.trans hq⟩

theorem leads_refl (g : Graph) (o : ObjectId) : g.Leads o o := ⟨o, .inl rfl, .refl⟩

end Graph

/-! ### Plans whose stages go along a relation -/

namespace Plan

/-- A plan made from another one: every stage goes along a relation, and a stage over samples writes one object. -/
structure Along (R : ObjectId → ObjectId → Prop) (p q : Plan) : Prop where
  sound : q.Sound
  objects : ∀ (o : ObjectId) (r : Resolved), q.object? o = some r → p.object? o = some r
  external : ∀ (o : ObjectId) (r : Resolved), p.object? o = some r → r.object.isExternal = true → q.object? o = some r
  flows : ∀ stage ∈ q.stages, ∀ o ∈ stage.reads, ∀ w ∈ stage.writes, TransGen R o w
  single : ∀ stage ∈ q.stages, stage.pixelwise = true → ∀ v ∈ stage.writes, ∀ w ∈ stage.writes, v = w

variable {R : ObjectId → ObjectId → Prop} {p q : Plan}

theorem Along.prune (h : Along R p q) : Along R p q.prune.1 where
  sound := h.sound.prune
  objects o r hr := h.objects o r ((object?_prune h.sound.ids).mp hr).1
  external o r hr hext := (h.sound.object?_prune_of_external hext).mpr (h.external o r hr hext)
  flows stage hstage := h.flows stage (stages_prune_sublist.mem hstage)
  single stage hstage := h.single stage (stages_prune_sublist.mem hstage)

/-- What a joined stage reads leads through the image between to what it writes. -/
theorem Along.joined (h : Along R p q) {front between back : List Stage} {producer consumer : Stage} {t : ObjectId}
    (hf : q.Fusable front between back producer consumer t) :
    Along R p (q.joined front between back producer consumer t) where
  sound := hf.sound h.sound
  objects := h.objects
  external := h.external
  flows stage hstage o ho w hw := by
    rcases Fusable.mem_joined.mp hstage with hstage | hjoin
    · exact h.flows stage (hf.mem.2.2 stage hstage) o ho w hw
    · subst hjoin
      rw [hf.writes_join h.sound.woven] at hw
      obtain ⟨⟨s, hs, hread⟩, hout⟩ := Stage.mem_reads.mp ho
      rw [Fusable.mem_internal_join] at hout
      push Not at hout
      rcases List.mem_append.mp hs with hs | hs
      · have hfirst : TransGen R o t :=
          h.flows producer hf.mem.1 o (Stage.mem_reads.mpr ⟨⟨s, hs, hread⟩, hout.1⟩) t hf.written.1
        exact hfirst.trans (h.flows consumer hf.mem.2.1 t hf.read w hw)
      · exact h.flows consumer hf.mem.2.1 o (Stage.mem_reads.mpr ⟨⟨s, hs, hread⟩, hout.2.1⟩) w hw
  single stage hstage hpixel v hv w hw := by
    rcases Fusable.mem_joined.mp hstage with hstage | hjoin
    · exact h.single stage (hf.mem.2.2 stage hstage) hpixel v hv w hw
    · subst hjoin
      rw [hf.writes_join h.sound.woven] at hv hw
      exact h.single consumer hf.mem.2.1 hf.pixelwise.2 v hv w hw

theorem stable_along (R : ObjectId → ObjectId → Prop) (p : Plan) : Stable (Along R p) where
  prune _ h := h.prune
  fuseOnce q q' e h hq := by
    obtain ⟨front, between, back, producer, consumer, t, hf, rfl⟩ := fuseOnce_eq_some h.sound.woven hq
    exact h.joined hf

end Plan

namespace Graph

variable {g : Graph} {p : Plan}

/-- The stages of the plan of a graph are its nodes. -/
theorem along_of_verify (hg : g.Built) (h : g.verify .standard = .ok p) : Plan.Along g.Flows p p := by
  have hsound := sound_of_verify hg h
  refine ⟨hsound, fun _ _ hr => hr, fun _ _ hr _ => hr, ?_, ?_⟩
  · obtain ⟨l, known, hl, rfl⟩ := exists_resolves h
    intro stage hstage o ho w hw
    obtain ⟨c, hc, rfl⟩ := List.mem_map.mp hstage
    rw [Stage.mem_reads_single] at ho
    rw [Stage.mem_writes_single] at hw
    apply TransGen.single
    refine ⟨c.node, hl.nodes.mem_iff.mp (List.mem_map.mpr ⟨c, hc, rfl⟩), ?_, ?_⟩
    · obtain ⟨slot, d, hparam, hd, hreads⟩ := Step.mem_boundBy.mp ho
      exact ⟨slot, d, (hl.binds_iff hc).mpr ⟨hparam, hd⟩, hreads⟩
    · obtain ⟨slot, d, hparam, hd, hwrites⟩ := Step.mem_boundBy.mp hw
      exact ⟨slot, d, (hl.binds_iff hc).mpr ⟨hparam, hd⟩, hwrites⟩
  · intro stage hstage hpixel v hv w hw
    have hvalid := hsound.stages stage hstage
    obtain ⟨l, known, hl, rfl⟩ := exists_resolves h
    obtain ⟨c, hc, rfl⟩ := List.mem_map.mp hstage
    rw [Stage.mem_writes_single] at hv hw
    obtain ⟨k, hk, hsame⟩ := hvalid.steps (step c) (by simp [Stage.single])
    rcases Registry.separates_of_mem_standard hk.mem_standard with hone | ⟨hblock, _⟩
    · exact hk.eq_of_writes hone hv hw
    · rw [hsame, hpixel] at hblock
      cases hblock

end Graph

/-! ### Runs -/

namespace Graph

variable {g : Graph} {p q : Plan} {s : Storage} {b b' : Bindings} {out : ObjectId} {o : ObjectId} {x : DataObject}
  {m : DelayMeta}

/-- An object of the caller is an object of the plan; an output of the graph's own is one when it is known. -/
theorem object?_of_verify (hg : g.Built) (h : g.verify .standard = .ok p) (hx : g.object? o = some x) :
    (∃ info, p.object? o = some ⟨x, info⟩) ∨ p.object? o = none ∧ x.isVirtual = true := by
  obtain ⟨l, known, hl, rfl⟩ := exists_resolves h
  obtain ⟨info, hinfo, _⟩ := hl.exists_known hx
  cases hr : (g.planOf l known).object? o with
  | some r =>
    obtain ⟨hobject, _⟩ := (object?_planOf hg.wellFormed).mp hr
    rw [hx] at hobject
    cases hobject
    exact .inl ⟨r.info, rfl⟩
  | none =>
    right
    refine ⟨rfl, ?_⟩
    by_contra hreal
    have hsome : (g.planOf l known).object? o = some ⟨x, info⟩ :=
      (object?_planOf hg.wellFormed).mpr ⟨hx, hinfo, fun hv _ => absurd hv hreal⟩
    rw [hr] at hsome
    cases hsome

theorem contents_of_slot {slot : DelaySlot} (hx : g.object? o = some x) (hslot : x.slot = some slot) :
    g.contents b o = [imageAt b slot.delay slot.age.toNat] := by
  simp only [contents, hx, hslot]

theorem contents_of_plain (hx : g.object? o = some x) (hslot : x.slot = none) (hdelay : x.info.delay? = none) :
    g.contents b o = [b.get? o] := by
  simp only [contents, hx, hslot, hdelay]

theorem contents_of_delay (hx : g.object? o = some x) (hslot : x.slot = none) (hdelay : x.info.delay? = some m) :
    g.contents b o = (List.range m.slots.toNat).map (imageAt b o) := by
  simp only [contents, hx, hslot, hdelay]

theorem delay?_eq_none : x.info.delay? = none ↔ x.kind ≠ .delay := by
  unfold DataObject.kind
  cases x.info with
  | delay m => exact iff_of_false nofun fun h => h rfl
  | _ => exact iff_of_true rfl nofun

theorem eq_of_delay? {info : Meta} (h : info.delay? = some m) : info = .delay m := by
  cases info with
  | delay m' =>
    cases h
    rfl
  | _ => cases h

/-- Bound objects that agree on what is kept start a run in memories that agree on it. -/
theorem agreeOn_start (hg : g.Built) (hp : g.verify .standard = .ok p) (hq : Plan.Along g.Flows p q)
    {keep : ObjectId → Prop} (hagree : ∀ o x, g.object? o = some x → x.isExternal = true → keep o →
      g.contents b o = g.contents b' o) :
    q.AgreeOn keep ⟨b, q.freshScratch s⟩ ⟨b', q.freshScratch s⟩ := by
  intro o r a hkeep hr hkind ha
  have hx := object?_of_plan hg hp (hq.objects o r hr)
  have hsame := fun hext => hagree o r.object hx hext hkeep
  simp only [Plan.home, hr, Option.bind_some] at ha
  split at ha
  · cases ha
  split at ha
  · -- an image of a delay
    rename_i slot hslot
    cases ha
    have hreal := isVirtual_of_slot (hq.sound.objects o r hr).virtual hslot
    have himage := hsame (by simp [DataObject.isExternal, hreal])
    rw [contents_of_slot hx hslot, contents_of_slot hx hslot] at himage
    exact List.head_eq_of_cons_eq himage
  · rename_i hslot
    split at ha
    · rename_i hentry
      cases ha
      have hheld := hsame (by simp only [DataObject.isEntry, Bool.and_eq_true] at hentry; exact hentry.1)
      have hdelay := delay?_eq_none.mpr hkind
      rw [contents_of_plain hx hslot hdelay, contents_of_plain hx hslot hdelay] at hheld
      exact List.head_eq_of_cons_eq hheld
    · -- scratch objects start fresh
      cases ha
      rfl

/-- A constant is not seen from outside. -/
theorem not_constant_of_external (hg : g.Built) (hx : g.object? o = some x) (hext : x.isExternal = true) :
    x.isConstant = false := by
  by_contra hconst
  have hconst : x.isConstant = true := by simpa using hconst
  have hunmarked := (hg.wellFormed.objects o.index x hx).unmarked hconst
  have hreal : x.isVirtual = false := by simpa [DataObject.isExternal, hunmarked] using hext
  simp [DataObject.isConstant, DataObject.constant, hreal] at hconst

/-- The images of a delay are objects of the graph at home in the delay. -/
theorem exists_image_of_delay (hg : g.Built) (hp : g.verify .standard = .ok p) (hq : Plan.Along g.Flows p q)
    {x : DataObject} (hx : g.object? out = some x) {info : DelayMeta} (hinfo : x.info = .delay info) {age : Nat}
    (hage : age < info.slots.toNat) : ∃ o r, g.Leads o out ∧ q.object? o = some r ∧ r.object.kind ≠ .delay ∧
      q.home o = some (.slot out age) := by
  obtain ⟨edits, rfl⟩ := hg
  have hlt : age < 2 ^ 32 := hage.trans info.slots.toNat_lt
  have hsmall : (UInt32.ofNat age).toNat = age := UInt32.toNat_ofNat_of_lt' hlt
  have hslots : UInt32.ofNat age < info.slots := by
    show (UInt32.ofNat age).toNat < info.slots.toNat
    omega
  obtain ⟨y, hy, hslot, himage, _⟩ := (numbered_edit edits).images out x info hx hinfo _ hslots
  have hbuilt : (Graph.empty.edit edits).Built := ⟨edits, rfl⟩
  have hreal := isVirtual_of_slot (hbuilt.wellFormed.objects _ y hy).virtual hslot
  have hext : y.isExternal = true := by simp [DataObject.isExternal, hreal]
  rcases object?_of_verify hbuilt hp hy with ⟨known, hknown⟩ | ⟨_, hvirtual⟩
  · have hleft := hq.external _ _ hknown hext
    refine ⟨_, _, ⟨_, .inr ⟨y, _, hy, hslot⟩, .refl⟩, hleft, ?_, ?_⟩
    · apply delay?_eq_none.mp
      rw [himage]
      rfl
    · rw [Plan.home_of_slot hleft (not_constant_of_external hbuilt hy hext) hslot, hsmall]
  · rw [hreal] at hvirtual
    cases hvirtual

/-- Memories that agree on all that leads to an object have the same of it. -/
theorem contents_of_agreeOn (hg : g.Built) (hp : g.verify .standard = .ok p) (hq : Plan.Along g.Flows p q)
    {m n : Memory} (hagree : q.AgreeOn (fun o => g.Leads o out) m n) {x : DataObject} (hx : g.object? out = some x)
    (hext : x.isExternal = true) (habsent : x.slot = none → x.info.delay? = none → q.object? out = none →
      m.get? (.host out) = n.get? (.host out)) : g.contents m.host out = g.contents n.host out := by
  have hconst : x.isConstant = false := not_constant_of_external hg hx hext
  have hobject := hg.wellFormed.objects out.index x hx
  have hplan := object?_of_verify hg hp hx
  cases hslot : x.slot with
  | some slot =>
    have hkind : x.kind ≠ .delay := by
      rw [(hobject.slot slot hslot).1]
      exact nofun
    rcases hplan with ⟨info, hinfo⟩ | ⟨_, hvirtual⟩
    · have hout := hq.external out _ hinfo hext
      have hsame := hagree out _ _ (g.leads_refl out) hout hkind (Plan.home_of_slot hout hconst hslot)
      rw [contents_of_slot hx hslot, contents_of_slot hx hslot]
      exact congrArg (· :: []) hsame
    · rw [hobject.virtual hvirtual] at hslot
      cases hslot
  | none =>
    cases hdelay : x.info.delay? with
    | none =>
      have hsame : m.get? (.host out) = n.get? (.host out) := by
        rcases hplan with ⟨info, hinfo⟩ | ⟨hnone, _⟩
        · have hout := hq.external out _ hinfo hext
          have hhome := Plan.home_of_entry hout hconst hslot hext
          exact hagree out _ _ (g.leads_refl out) hout (delay?_eq_none.mp hdelay) hhome
        · apply habsent hslot hdelay
          cases hr : q.object? out with
          | none => rfl
          | some r =>
            rw [hq.objects out r hr] at hnone
            cases hnone
      rw [contents_of_plain hx hslot hdelay, contents_of_plain hx hslot hdelay]
      exact congrArg (· :: []) hsame
    | some info =>
      have hinfo : x.info = .delay info := eq_of_delay? hdelay
      rw [contents_of_delay hx hslot hdelay, contents_of_delay hx hslot hdelay]
      apply List.map_congr_left
      intro age hage
      obtain ⟨o, r, hleads, hr, hkind, hhome⟩ := exists_image_of_delay hg hp hq hx hinfo (List.mem_range.mp hage)
      exact hagree o r _ hleads hr hkind hhome

/-- What a run leaves of an object depends on what leads to it only. If two runs of a program succeed, and the objects
that were bound agree on the contents of an object and of all external objects that lead to it, then the contents of the
object are the same at the end of the entry point; and an object that is neither a delay nor in one is the same when the
runs are over. -/
theorem results_follow_nodes (g : Graph) (hg : g.Built) (p : Plan) (hp : g.verify .standard = .ok p)
    (c : OptimizerConfig) (P : Program) (hP : (p.optimize c).1.LoadedAs P) (out : ObjectId) (x : DataObject)
    (hx : g.object? out = some x) (hext : x.isExternal = true) (b b' next next' : Bindings)
    (hagree : ∀ o y, g.object? o = some y → y.isExternal = true → g.Leads o out → g.contents b o = g.contents b' o)
    (hrun : P.process b = (.ok (), next)) (hrun' : P.process b' = (.ok (), next')) :
    g.contents (P.call b).2 out = g.contents (P.call b').2 out ∧
      (x.slot = none → x.info.delay? = none → next.get? out = next'.get? out) := by
  have hq : Plan.Along g.Flows p (p.optimize c).1 := (Plan.stable_along g.Flows p).optimize c (along_of_verify hg hp)
  obtain ⟨hregistry, hplan, hentry, hs, _⟩ := hP.fields
  have hnodup : (P.entries.map (·.1)).Nodup := hP.map_entries ▸ Plan.nodup_entries hq.sound.ids
  -- both runs start in memories that agree on what leads to the object, and keep to that
  obtain ⟨_, m, hm, rfl⟩ := (Program.process_eq_ok hentry).mp hrun
  obtain ⟨_, n, hn, rfl⟩ := (Program.process_eq_ok hentry).mp hrun'
  have hcall : (P.call b).2 = m.host := by simp only [Program.call, hentry, hm]
  have hcall' : (P.call b').2 = n.host := by simp only [Program.call, hentry, hn]
  rw [hregistry, hplan] at hm hn
  obtain ⟨m₀, hm₀, hm⟩ := Plan.run_eq_finished.mp hm
  obtain ⟨n₀, hn₀, hn⟩ := Plan.run_eq_finished.mp hn
  obtain ⟨_, rfl⟩ := Memory.start_eq_some.mp hm₀
  obtain ⟨_, rfl⟩ := Memory.start_eq_some.mp hn₀
  have hclosed : ∀ stage ∈ (p.optimize c).1.stages, Plan.Closed (fun o => g.Leads o out) stage := by
    intro stage hstage w hw hleads o ho
    exact hleads.of_flows (hq.flows stage hstage o ho w hw)
  have hstart := agreeOn_start hg hp hq (s := P.storage) hagree
  have hend := Plan.AgreeOn.run_stages hq.sound hs (fun _ h => h) hq.single hclosed hstart hm hn
  -- an output of which nothing is known has no place in the plan, so it stays what it was
  have habsent : x.slot = none → x.info.delay? = none → (p.optimize c).1.object? out = none →
      m.get? (.host out) = n.get? (.host out) := by
    intro hslot hdelay hnone
    rw [hq.sound.get?_host_of_absent hs hnone hm, hq.sound.get?_host_of_absent hs hnone hn]
    have hbound := hagree out x hx hext (g.leads_refl out)
    rw [contents_of_plain hx hslot hdelay, contents_of_plain hx hslot hdelay] at hbound
    exact List.head_eq_of_cons_eq hbound
  have hsame := contents_of_agreeOn hg hp hq hend hx hext habsent
  rw [hcall, hcall']
  refine ⟨hsame, ?_⟩
  intro hslot hdelay
  rw [contents_of_plain hx hslot hdelay, contents_of_plain hx hslot hdelay] at hsame
  rw [Program.get?_ageDelays hnodup, Program.get?_ageDelays hnodup, List.head_eq_of_cons_eq hsame]

/-- Two chains of nodes over one image each, with a virtual image in the first of them. -/
def parted : Graph := Graph.empty.edit [.image 2 1 .u8, .image 2 1 .u8, .virtualImage ⟨none, none, none⟩,
  .image 2 1 .u8, .image 2 1 .u8, .node "vx.not" [some ⟨0⟩, some ⟨2⟩], .node "vx.not" [some ⟨2⟩, some ⟨3⟩],
  .node "vx.not" [some ⟨1⟩, some ⟨4⟩]]

/-- The second chain does not lead to the end of the first one. -/
theorem not_leads_parted : ¬parted.Leads ⟨1⟩ ⟨3⟩ := by
  have hparams : ∀ n ∈ parted.nodes, (∃ o ∈ n.bound, o = ⟨1⟩ ∨ o = ⟨4⟩) → ∀ q ∈ n.bound, q = ⟨1⟩ ∨ q = ⟨4⟩ := by decide
  have hslots : ∀ x ∈ parted.objects, x.slot = none := by decide
  have hstep : ∀ o q, parted.Flows o q → o = ⟨1⟩ ∨ o = ⟨4⟩ → q = ⟨1⟩ ∨ q = ⟨4⟩ := by
    intro o q hflow ho
    obtain ⟨n, hn, ⟨slot, _, ⟨hread, _⟩, _⟩, slot', _, ⟨hwrite, _⟩, _⟩ := hflow
    exact hparams n hn ⟨o, Node.mem_bound.mpr ⟨slot, hread⟩, ho⟩ q (Node.mem_bound.mpr ⟨slot', hwrite⟩)
  have hreach : ∀ q, ReflTransGen parted.Flows ⟨1⟩ q → q = ⟨1⟩ ∨ q = ⟨4⟩ := by
    intro q hpath
    induction hpath with
    | refl => exact .inl rfl
    | tail _ hflow ih => exact hstep _ _ hflow ih
  intro hleads
  obtain ⟨q, hq, hpath⟩ := hleads
  have hend := hreach q hpath
  rcases hq with rfl | ⟨x, a, hx, hslot⟩
  · revert hend
    decide
  · rw [hslots x (Array.mem_of_getElem? hx)] at hslot
    cases hslot

theorem results_follow_nodes_parted : ∃ p P b b', parted.verify .standard = .ok p ∧
    (p.optimize .standard).1.LoadedAs P ∧ parted.contents (P.call b).2 ⟨3⟩ = parted.contents (P.call b').2 ⟨3⟩ ∧
      parted.contents (P.call b).2 ⟨4⟩ ≠ parted.contents (P.call b').2 ⟨4⟩ := by
  have hruns : ((parted.optimized? .standard).bind fun P => P.allocate.toOption.map fun fresh =>
      let other := fresh.insert ⟨1⟩ (.image (.generate 2 1 .u8 fun i => i + 5))
      ((P.process fresh).1.isOk, (P.process other).1.isOk,
        decide (parted.contents (P.call fresh).2 ⟨4⟩ ≠ parted.contents (P.call other).2 ⟨4⟩))) =
      some (true, true, true) := by decide +kernel
  obtain ⟨P, hprogram, hruns⟩ := Option.bind_eq_some_iff.mp hruns
  obtain ⟨fresh, _, hruns⟩ := Option.map_eq_some_iff.mp hruns
  obtain ⟨p, hp, hP⟩ := loadedAs_of_optimized? hprogram
  simp only [Prod.mk.injEq, decide_eq_true_eq] at hruns
  obtain ⟨hfirst, hsecond, hdiffer⟩ := hruns
  have hprocess : ∀ b : Bindings, (P.process b).1.isOk = true → P.process b = (.ok (), (P.process b).2) := by
    intro b hok
    cases hb : P.process b with
    | mk outcome last =>
      cases outcome with
      | ok u => rfl
      | error e =>
        rw [hb] at hok
        cases hok
  have hplain : ∀ x ∈ parted.objects, x.slot = none ∧ x.info.delay? = none := by decide
  refine ⟨p, P, fresh, _, hp, hP, ?_, hdiffer⟩
  refine (results_follow_nodes parted ⟨_, rfl⟩ p hp .standard P hP ⟨3⟩ _ rfl rfl fresh _ _ _ ?_ (hprocess _ hfirst)
    (hprocess _ hsecond)).1
  intro o y hy _ hleads
  have hne : o ≠ ⟨1⟩ := by
    intro he
    exact not_leads_parted (he ▸ hleads)
  obtain ⟨hslot, hdelay⟩ := hplain y (Array.mem_of_getElem? hy)
  rw [contents_of_plain hy hslot hdelay, contents_of_plain hy hslot hdelay, IdMap.get?_insert_of_ne _ _ hne]

end Graph

end VisionGraph
