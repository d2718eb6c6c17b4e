import VisionGraph.Proofs.Weave

/-! The certificate of verification: what a plan owes to the graph it was made of. -/
namespace VisionGraph

theorem Stage.mem_reads_single {s : Step} {pixelwise : Bool} {o : ObjectId} :
    o ∈ (Stage.single s pixelwise).reads ↔ o ∈ s.reads := by
  simp [Stage.reads, Stage.single]

theorem Stage.mem_writes_single {s : Step} {pixelwise : Bool} {o : ObjectId} :
    o ∈ (Stage.single s pixelwise).writes ↔ o ∈ s.writes := by
  simp [Stage.writes, Stage.single]

namespace Graph

variable {g : Graph} {l : List Checked} {known : Array Meta}

/-- The entry of an object in a plan; what is unknown and not named has none. -/
def kept (g : Graph) (x : DataObject × Meta) : Option (ObjectId × Resolved) :=
  if x.1.isVirtual && !x.2.isResolved && !(g.nodes.flatMap Node.bound).contains x.1.id then none
  else some (x.1.id, ⟨x.1, x.2⟩)

theorem kept_eq_some {x : DataObject × Meta} {e : ObjectId × Resolved} : g.kept x = some e ↔
    e = (x.1.id, ⟨x.1, x.2⟩) ∧
      (x.1.isVirtual = true → x.2.isResolved = false → x.1.id ∈ g.nodes.flatMap Node.bound) := by
  unfold kept
  split
  · rename_i hdrop
    simp only [Bool.and_eq_true, Bool.not_eq_true', List.contains_eq_mem, decide_eq_false_iff_not] at hdrop
    refine iff_of_false nofun fun h => ?_
    exact hdrop.2 (h.2 hdrop.1.1 hdrop.1.2)
  · rename_i hkeep
    simp only [Bool.and_eq_true, Bool.not_eq_true', List.contains_eq_mem, decide_eq_false_iff_not, not_and,
      not_not] at hkeep
    rw [Option.some.injEq, eq_comm]
    exact (and_iff_left fun hv hres => hkeep ⟨hv, hres⟩).symm

theorem id_of_zip (hg : g.WellFormed) {i : Nat} {x : DataObject × Meta}
    (hx : (g.objects.toList.zip known.toList)[i]? = some x) : x.1.id = ⟨i⟩ := by
  obtain ⟨hobject, _⟩ := List.getElem?_zip_eq_some.mp hx
  exact (hg.objects i x.1 (by simpa using hobject)).id

theorem nodup_kept (hg : g.WellFormed) (known : Array Meta) :
    (((g.objects.toList.zip known.toList).filterMap g.kept).map (·.1)).Nodup := by
  have hdistinct : (g.objects.toList.zip known.toList).Pairwise fun x y => x.1.id ≠ y.1.id := by
    refine List.pairwise_iff_getElem.mpr fun i j hi hj hlt => ?_
    rw [id_of_zip hg (List.getElem?_eq_getElem hi), id_of_zip hg (List.getElem?_eq_getElem hj)]
    simpa using Nat.ne_of_lt hlt
  refine List.pairwise_map.mpr (hdistinct.filterMap _ fun x y hne u hu v hv => ?_)
  obtain ⟨rfl, _⟩ := kept_eq_some.mp hu
  obtain ⟨rfl, _⟩ := kept_eq_some.mp hv
  exact hne

/-- The objects of a plan are those of the graph with what is known of them. -/
theorem object?_planOf (hg : g.WellFormed) {o : ObjectId} {r : Resolved} :
    (g.planOf l known).object? o = some r ↔
      g.object? o = some r.object ∧ known[o.index]? = some r.info ∧
        (r.object.isVirtual = true → r.info.isResolved = false → o ∈ g.nodes.flatMap Node.bound) := by
  have hget : (g.planOf l known).object? o =
      (IdMap.ofList ((g.objects.toList.zip known.toList).filterMap g.kept)).get? o := rfl
  rw [hget, IdMap.get?_ofList (nodup_kept hg known), List.mem_filterMap]
  constructor
  · rintro ⟨x, hmem, hx⟩
    obtain ⟨i, hi⟩ := List.mem_iff_getElem?.mp hmem
    obtain ⟨hobject, hinfo⟩ := List.getElem?_zip_eq_some.mp hi
    have hoid := id_of_zip hg hi
    obtain ⟨he, hnamed⟩ := kept_eq_some.mp hx
    cases he
    rw [hoid] at hnamed ⊢
    exact ⟨by simpa [Graph.object?] using hobject, by simpa using hinfo, hnamed⟩
  · rintro ⟨hobject, hinfo, hnamed⟩
    have hi : (g.objects.toList.zip known.toList)[o.index]? = some (r.object, r.info) :=
      List.getElem?_zip_eq_some.mpr ⟨by simpa [Graph.object?] using hobject, by simpa using hinfo⟩
    have hoid : r.object.id = o := id_of_zip hg hi
    refine ⟨(r.object, r.info), List.mem_iff_getElem?.mpr ⟨_, hi⟩, kept_eq_some.mpr ⟨?_, ?_⟩⟩
    · rw [hoid]
    · rwa [hoid]

/-- Over the standard kernels every rule is regular. -/
theorem Scheduled.regular (h : Scheduled .standard g l) : ∀ c ∈ l, Rule.Regular c.kernel.rule :=
  fun _ hc => Registry.regular_of_mem_standard (List.mem_of_find?_eq_some (h.find_kernel hc))

namespace Resolves

/-- What is known at the end of each object extends what was declared. -/
theorem exists_known (h : Resolves .standard g l known) {o : ObjectId} {object : DataObject}
    (ho : g.object? o = some object) :
    ∃ m, known[o.index]? = some m ∧ m.Extends object.info ∧ m.value? = object.info.value? :=
  (run_grows h.regular h.run).extend o.index object.info (by simpa using ⟨object, ho, rfl⟩)

variable (hg : g.WellFormed) (h : Resolves .standard g l known)

include hg h

/-- The objects of a node are objects of the plan with complete metadata. -/
theorem object_of_bound {c : Checked} (hc : c ∈ l) {o : ObjectId} (ho : o ∈ c.node.bound) :
    ∃ object m, g.object? o = some object ∧ known[o.index]? = some m ∧ m.isResolved = true ∧
      (g.planOf l known).object? o = some ⟨object, m⟩ := by
  obtain ⟨object, hobject⟩ := (lookUp_eq_ok.mp (h.found c hc)).2.2.2 o ho
  obtain ⟨m, hm, _⟩ := h.exists_known hobject
  have hres : m.isResolved = true := by
    have hnone := List.find?_eq_none.mp (h.resolved c hc) o ho
    simpa [hm] using hnone
  refine ⟨object, m, hobject, hm, hres, (object?_planOf hg).mpr ⟨hobject, hm, fun _ hno => ?_⟩⟩
  simp [hres] at hno

theorem info?_eq {c : Checked} (hc : c ∈ l) {o : ObjectId} (ho : o ∈ c.node.bound) :
    (g.planOf l known).info? o = known[o.index]? := by
  obtain ⟨object, m, _, hm, _, hget⟩ := h.object_of_bound hg hc ho
  rw [hm]
  exact congrArg (Option.map Resolved.info) hget

theorem sound {o : ObjectId} {r : Resolved} (hr : (g.planOf l known).object? o = some r) :
    r.Sound (g.planOf l known) o := by
  obtain ⟨hobject, hinfo, _⟩ := (object?_planOf hg).mp hr
  obtain ⟨m, hm, hext, hv⟩ := h.exists_known hobject
  have hmr : m = r.info := by simpa [hinfo] using hm.symm
  subst hmr
  have hs := hg.objects o.index r.object hobject
  -- an object of the caller is known from the start
  have hreal : ∀ {q : ObjectId} {x : DataObject}, g.object? q = some x → x.isVirtual = false →
      (g.planOf l known).object? q = some ⟨x, x.info⟩ := by
    intro q x hx hvirtual
    obtain ⟨n, hn, hnext, hnv⟩ := h.exists_known hx
    have hsame : n = x.info := hnext.eq_of_resolved ((hg.objects q.index x hx).real hvirtual).1 hnv
    refine (object?_planOf hg).mpr ⟨hx, hsame ▸ hn, fun hyes => ?_⟩
    simp [hvirtual] at hyes
  refine ⟨hs.id, hext, hv, fun hno => ?_, hs.virtual, hs.unmarked, fun s hslot => ?_, fun s hslot => ?_⟩
  · obtain ⟨hres, hnone⟩ := hs.real hno
    have hsame : r.info = r.object.info := hext.eq_of_resolved hres hv
    exact ⟨hsame, hsame ▸ hres, hsame ▸ hnone⟩
  · obtain ⟨hkind, hindex, d, hd, hvirtual, hnoslot, hdkind⟩ := hs.slot s hslot
    exact ⟨hkind, hindex, ⟨d, d.info⟩, hreal hd hvirtual, hvirtual, hnoslot, hdkind⟩
  · obtain ⟨_, _, d, hd, hvirtual, _⟩ := hs.slot s hslot
    obtain ⟨d', n, hd', hn, hinfo', hage⟩ := hs.template s hslot
    rw [hd] at hd'
    cases hd'
    have hno : r.object.isVirtual = false := by
      by_contra hyes
      rw [hs.virtual (by simpa using hyes)] at hslot
      contradiction
    have hsame : r.info = r.object.info := hext.eq_of_resolved (hs.real hno).1 hv
    exact ⟨_, n, hreal hd hvirtual, hn, hsame.trans hinfo', hage⟩

/-- The step of a node is valid in the plan. -/
theorem valid {c : Checked} (hc : c ∈ l) : (step c).Valid (g.planOf l known) c.kernel where
  kernel := h.find_kernel hc
  directions := rfl
  arity := h.length_params hc
  slots x hx := by
    obtain ⟨spec, param⟩ := x
    have hfits := h.fits c hc _ hx
    cases param with
    | none => exact hfits
    | some o =>
      obtain ⟨slot, hslot⟩ := List.mem_iff_getElem?.mp hx
      obtain ⟨_, hparam⟩ := List.getElem?_zip_eq_some.mp hslot
      obtain ⟨object, m, hobject, hm, hres, hget⟩ := h.object_of_bound hg hc (Node.mem_bound.mpr ⟨slot, hparam⟩)
      obtain ⟨object', hobject', hkind, hconst, hbi, _⟩ := hfits
      have heq : object' = object := by simpa [hobject] using hobject'.symm
      subst heq
      exact ⟨_, hget, (h.sound hg hget).kind_eq.trans hkind, hres, hconst, hbi⟩
  settled := by
    -- no later node writes what this one names, so what it was checked against is final
    obtain ⟨infs, hrule, hset, hv⟩ := run_settles h.regular h.after h.run hc
    have hview : ((step c).params.map fun param => param.bind (g.planOf l known).info?) = c.view known := by
      refine List.map_congr_left fun param hp => ?_
      cases param with
      | none => rfl
      | some o =>
        obtain ⟨slot, hslot⟩ := List.mem_iff_getElem?.mp hp
        exact h.info?_eq hg hc (Node.mem_bound.mpr ⟨slot, hslot⟩)
    refine ⟨infs, hview ▸ hrule, fun i hi => ?_⟩
    obtain ⟨m, hm, hext⟩ := hset i hi
    obtain ⟨o, ho, hget⟩ := Checked.slotMeta_view.mp hm
    refine ⟨o, m, ho, ?_, Meta.merge_eq_self (hv i hi) hext⟩
    rw [h.info?_eq hg hc (Node.mem_bound.mpr ⟨_, ho⟩), hget]

/-- The plan of a schedule is sound: every stage has one step and no internal image. -/
theorem planSound : (g.planOf l known).Sound where
  objects _ _ hr := h.sound hg hr
  stages stage hstage := by
    obtain ⟨c, hc, rfl⟩ := List.mem_map.mp hstage
    refine ⟨fun s hs => ?_, by simp [Stage.single], fun _ => ⟨rfl, rfl⟩, nofun, nofun, ?_⟩
    · have hsc : s = step c := by simpa [Stage.single] using hs
      exact ⟨c.kernel, hsc ▸ h.valid hg hc, rfl⟩
    · exact ⟨fun _ _ => List.not_mem_nil, trivial⟩
  after := (h.woven known).after
  separate := (h.woven known).separate

end Resolves

/-- A graph that was built and accepted has a sound plan. -/
theorem sound_of_verify (hg : g.Built) {p : Plan} (h : g.verify .standard = .ok p) : p.Sound := by
  obtain ⟨l, known, hl, rfl⟩ := exists_resolves h
  exact hl.planSound hg.wellFormed

/-- The objects of the plan are objects of the graph. -/
theorem object?_of_plan (hg : g.Built) {p : Plan} (h : g.verify .standard = .ok p) {o : ObjectId} {r : Resolved}
    (hr : p.object? o = some r) : g.object? o = some r.object := by
  obtain ⟨l, known, _, rfl⟩ := exists_resolves h
  exact ((object?_planOf hg.wellFormed).mp hr).1

/-- What verification certifies of the plan of a graph. -/
structure Certified (g : Graph) (p : Plan) : Prop where
  /-- The stages are the nodes of the graph, each once. -/
  nodes : ∃ nodes : List Node, nodes.Perm g.nodes ∧ (nodes.map (·.id)).Nodup ∧
    List.Forall₂ (fun n stage => ∃ k, Registry.standard.find? n.kernel = some k ∧
      stage = .single ⟨n.id, n.kernel, n.params, k.signature.directions, n.border⟩ k.isPixelwise) nodes p.stages
  writersFirst : ∀ (i j : Nat) (a b : Stage) (o : ObjectId), p.stages[i]? = some a → p.stages[j]? = some b →
    o ∈ a.writes → o ∈ b.reads → i ≠ j → i < j
  oneWriter : ∀ (i j : Nat) (a b : Stage) (o : ObjectId), p.stages[i]? = some a → p.stages[j]? = some b →
    o ∈ a.writes → o ∈ b.writes → i = j
  steps : ∀ stage ∈ p.stages, ∀ s ∈ stage.steps, ∃ k, s.Valid p k
  objects : ∀ (o : ObjectId) (r : Resolved), p.object? o = some r → g.object? o = some r.object ∧
    r.info.Extends r.object.info ∧ (r.object.isVirtual = false → r.info = r.object.info)

theorem mem_writes_of_stage {c : Checked} {pixelwise : Bool} {o : ObjectId}
    (h : o ∈ (Stage.single (step c) pixelwise).writes) : o ∈ c.access.writes :=
  List.mem_eraseDups.mpr (Stage.mem_writes_single.mp h)

/-- Verification is sound: the plan of a graph that was built and accepted carries the certificate. -/
theorem certified_of_verify (g : Graph) (hg : g.Built) (p : Plan) (h : g.verify .standard = .ok p) :
    g.Certified p := by
  obtain ⟨l, known, hl, rfl⟩ := exists_resolves h
  have hwf := hg.wellFormed
  have hstage : ∀ (i : Nat) (a : Stage), (g.planOf l known).stages[i]? = some a →
      ∃ hi : i < l.length, a = .single (step l[i]) l[i].kernel.isPixelwise := by
    intro i a ha
    simp only [planOf, List.getElem?_map, Option.map_eq_some_iff] at ha
    obtain ⟨c, hc, rfl⟩ := ha
    obtain ⟨hi, rfl⟩ := List.getElem?_eq_some_iff.mp hc
    exact ⟨hi, rfl⟩
  have hafter := List.pairwise_iff_getElem.mp hl.after
  refine ⟨⟨l.map (·.node), hl.nodes, ?_, ?_⟩, ?_, ?_, ?_, ?_⟩
  · exact (hl.nodes.map _).nodup_iff.mpr hwf.nodes
  · -- one stage per node, in the order of the schedule
    refine List.forall₂_map_left_iff.mpr (List.forall₂_map_right_iff.mpr (List.forall₂_same.mpr fun c hc => ?_))
    exact ⟨c.kernel, hl.find_kernel hc, rfl⟩
  · -- a reader before the writer would name what a later node writes
    intro i j a b o ha hb hw hr hne
    obtain ⟨hi, rfl⟩ := hstage i a ha
    obtain ⟨hj, rfl⟩ := hstage j b hb
    have hread : o ∈ l[j].access.reads := List.mem_eraseDups.mpr (Stage.mem_reads_single.mp hr)
    have hbound := (Checked.mem_bound (hl.length_params (List.getElem_mem hj))).mpr (.inl hread)
    by_contra hnot
    exact hafter j i hj hi (by omega) o (mem_writes_of_stage hw) hbound
  · -- of two writers the later one would write what the earlier one names
    intro i j a b o ha hb hwa hwb
    obtain ⟨hi, rfl⟩ := hstage i a ha
    obtain ⟨hj, rfl⟩ := hstage j b hb
    rcases Nat.lt_trichotomy i j with hlt | heq | hlt
    · exact absurd (Checked.bound_of_writes (mem_writes_of_stage hwa))
        (hafter i j hi hj hlt o (mem_writes_of_stage hwb))
    · exact heq
    · exact absurd (Checked.bound_of_writes (mem_writes_of_stage hwb))
        (hafter j i hj hi hlt o (mem_writes_of_stage hwa))
  · intro stage hstage s hs
    obtain ⟨c, hc, rfl⟩ := List.mem_map.mp hstage
    have hsc : s = step c := by simpa [Stage.single] using hs
    exact ⟨c.kernel, hsc ▸ hl.valid hwf hc⟩
  · intro o r hr
    have hs := hl.sound hwf hr
    exact ⟨((object?_planOf hwf).mp hr).1, hs.extend, fun hreal => (hs.real hreal).1⟩

/-- A graph whose second node feeds the first one through an image of which nothing is declared. -/
def backwards : Graph := Graph.empty.edit [.image 3 2 .u8, .virtualImage ⟨none, none, none⟩, .image 3 2 .u8,
  .node "vx.not" [some ⟨1⟩, some ⟨2⟩], .node "vx.not" [some ⟨0⟩, some ⟨1⟩]]

theorem certified_backwards : ∃ p, backwards.verify .standard = .ok p ∧ backwards.Certified p := by
  have hok : (backwards.verify .standard).toOption.isSome = true := by decide +kernel
  cases h : backwards.verify .standard with
  | ok p => exact ⟨p, rfl, certified_of_verify backwards ⟨_, rfl⟩ p h⟩
  | error e => simp [h, Except.toOption] at hok

end Graph

end VisionGraph
