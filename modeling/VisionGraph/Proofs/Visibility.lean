import VisionGraph.Proofs.Certificate
import VisionGraph.Proofs.Footprint

/-! Which objects of a graph the caller binds. Verification keeps every object that the caller can see, but for one
kind: a virtual object that is marked as an output, is not fully declared and is bound to no node. -/
namespace VisionGraph

namespace Graph

variable {g : Graph} {r : Registry} {l : List Checked} {known next : Array Meta} {o : ObjectId}

/-- Not virtual or marked as an output, and not an image of a delay. -/
def sees (object : DataObject) : Bool := (!object.isVirtual || object.markedOutput) && object.slot.isNone

/-- Virtual, not fully declared, and bound to no node. -/
def adrift (g : Graph) (object : DataObject) : Bool :=
  object.isVirtual && !object.info.isResolved && !g.nodes.any (·.bound.contains object.id)

theorem infer_frame {c : Checked} (ho : o ∉ c.node.bound) (h : g.infer known c = .ok next) :
    next[o.index]? = known[o.index]? := by
  obtain ⟨inferences, _, hall⟩ := infer_eq_ok.mp h
  refine foldlM_induction (fun s => s[o.index]? = known[o.index]?) ?_ rfl hall
  intro i _ s t hs hst
  obtain ⟨_, ⟨_, rfl⟩ | ⟨q, _, _, hparam, _, _, rfl⟩⟩ := absorb_eq_ok hst
  · exact hs
  · have hne : q.index ≠ o.index := by
      intro he
      exact ho (IdMap.object_ext he ▸ Node.mem_bound.mpr ⟨_, hparam⟩)
    rw [Array.getElem?_setIfInBounds_ne hne, hs]

theorem infer_size {c : Checked} (h : g.infer known c = .ok next) : next.size = known.size := by
  obtain ⟨inferences, _, hall⟩ := infer_eq_ok.mp h
  refine foldlM_induction (fun s => s.size = known.size) ?_ rfl hall
  intro i _ s t hs hst
  obtain ⟨_, ⟨_, rfl⟩ | ⟨q, _, _, _, _, _, rfl⟩⟩ := absorb_eq_ok hst
  · exact hs
  · rw [Array.size_setIfInBounds, hs]

theorem WellFormed.ids_planOf (hg : g.WellFormed) (l : List Checked) (known : Array Meta) (o : ObjectId) (x : Resolved)
    (hx : (g.planOf l known).object? o = some x) : x.object.id = o :=
  (hg.objects o.index x.object ((object?_planOf hg).mp hx).1).id

namespace Resolves

theorem exists_info (h : Resolves r g l known) {object : DataObject} (ho : g.object? o = some object) :
    ∃ m, known[o.index]? = some m := by
  have hsize : known.size = (g.objects.map (·.info)).size := by
    refine foldlM_induction (fun s => s.size = (g.objects.map (·.info)).size) ?_ rfl h.run
    exact fun c _ s t hs hst => (infer_size hst).trans hs
  have hlt := (Array.getElem?_eq_some_iff.mp ho).1
  exact ⟨_, Array.getElem?_eq_getElem (by rwa [hsize, Array.size_map])⟩

/-- Of an object that no node names, only its declaration is known. -/
theorem info_of_unbound (h : Resolves r g l known) {object : DataObject} (ho : g.object? o = some object)
    (hunbound : ∀ n ∈ g.nodes, o ∉ n.bound) : known[o.index]? = some object.info := by
  have hstart : (g.objects.map (·.info))[o.index]? = some object.info := by
    rw [Array.getElem?_map, show g.objects[o.index]? = some object from ho]
    rfl
  rw [← hstart]
  refine foldlM_induction (fun s => s[o.index]? = (g.objects.map (·.info))[o.index]?) ?_ rfl h.run
  intro c hc s t hs hst
  have hnode : c.node ∈ g.nodes := h.nodes.mem_iff.mp (List.mem_map.mpr ⟨c, hc, rfl⟩)
  exact (infer_frame (hunbound _ hnode) hst).trans hs

theorem mem_entries (hg : g.WellFormed) (h : Resolves r g l known) :
    o ∈ (g.planOf l known).entries ↔
      ∃ object, g.object? o = some object ∧ object.isEntry = true ∧ g.adrift object = false := by
  have hadrift {object : DataObject} (ho : g.object? o = some object) : g.adrift object = true ↔
      object.isVirtual = true ∧ object.info.isResolved = false ∧ ∀ n ∈ g.nodes, o ∉ n.bound := by
    rw [adrift, (hg.objects o.index object ho).id]
    simp [and_assoc]
  rw [Plan.mem_entries (hg.ids_planOf l known)]
  constructor
  · rintro ⟨x, hx, hentry⟩
    obtain ⟨hobject, hinfo, hnamed⟩ := (object?_planOf hg).mp hx
    refine ⟨x.object, hobject, hentry, Bool.eq_false_iff.mpr fun hyes => ?_⟩
    obtain ⟨hvirtual, hopen, hunbound⟩ := (hadrift hobject).mp hyes
    rw [h.info_of_unbound hobject hunbound, Option.some.injEq] at hinfo
    obtain ⟨n, hn, hmem⟩ := List.mem_flatMap.mp (hnamed hvirtual (hinfo ▸ hopen))
    exact hunbound n hn hmem
  · rintro ⟨object, hobject, hentry, hno⟩
    obtain ⟨m, hm⟩ := h.exists_info hobject
    refine ⟨⟨object, m⟩, (object?_planOf hg).mpr ⟨hobject, hm, fun hvirtual hopen => ?_⟩, hentry⟩
    -- what no node names keeps its declaration, so it would be adrift
    by_contra hunbound
    have hunbound : ∀ n ∈ g.nodes, o ∉ n.bound := fun n hn hmem => hunbound (List.mem_flatMap.mpr ⟨n, hn, hmem⟩)
    rw [h.info_of_unbound hobject hunbound, Option.some.injEq] at hm
    have hyes := (hadrift hobject).mpr ⟨hvirtual, hm ▸ hopen, hunbound⟩
    rw [hyes] at hno
    contradiction

end Resolves

theorem WellFormed.sorted_ids (hg : g.WellFormed) : g.objects.toList.Pairwise (·.id.index < ·.id.index) := by
  refine List.pairwise_iff_getElem.mpr fun i j hi hj hij => ?_
  have hposition (k : Nat) (hk : k < g.objects.toList.length) : g.objects.toList[k].id.index = k := by
    rw [(hg.objects k _ (by rw [← Array.getElem?_toList, List.getElem?_eq_getElem hk])).id]
  rw [hposition i hi, hposition j hj]
  exact hij

theorem WellFormed.mem_ids (hg : g.WellFormed) (keep : DataObject → Bool) :
    o ∈ (g.objects.toList.filter keep).map (·.id) ↔ ∃ object, g.object? o = some object ∧ keep object = true := by
  simp only [List.mem_map, List.mem_filter, Array.mem_toList_iff]
  constructor
  · rintro ⟨object, ⟨hmem, hkeep⟩, rfl⟩
    obtain ⟨i, hi⟩ := Array.getElem?_of_mem hmem
    have hid := (hg.objects i object hi).id
    exact ⟨object, by rw [hid]; exact hi, hkeep⟩
  · rintro ⟨object, hobject, hkeep⟩
    exact ⟨object, ⟨Array.mem_of_getElem? hobject, hkeep⟩, (hg.objects o.index object hobject).id⟩

/-- The caller binds, in the order of their numbers, the objects it can see except those that are adrift. So it binds all
that it can see exactly when nothing that is marked as an output is adrift. -/
theorem entries_of_verify (g : Graph) (hg : g.Built) (r : Registry) (p : Plan) (h : g.verify r = .ok p) :
    p.entries = (g.objects.toList.filter fun object => sees object && !g.adrift object).map (·.id) ∧
      p.entries.Pairwise (·.index < ·.index) ∧
      (p.entries = (g.objects.toList.filter sees).map (·.id) ↔
        ∀ object ∈ g.objects, object.markedOutput = true → g.adrift object = false) := by
  have hwf := hg.wellFormed
  obtain ⟨l, known, hl, rfl⟩ := exists_resolves h
  have hsorted (keep : DataObject → Bool) :
      ((g.objects.toList.filter keep).map (·.id)).Pairwise (·.index < ·.index) :=
    List.pairwise_map.mpr (hwf.sorted_ids.sublist List.filter_sublist)
  have hentries : (g.planOf l known).entries.Pairwise (·.index < ·.index) :=
    Plan.sorted_entries (hwf.ids_planOf l known)
  have hall : (g.planOf l known).entries =
      (g.objects.toList.filter fun object => sees object && !g.adrift object).map (·.id) := by
    refine IdMap.eq_of_increasing _ hentries (hsorted _) fun o => ?_
    rw [hl.mem_entries hwf, hwf.mem_ids]
    simp [sees, DataObject.isEntry, DataObject.isExternal]
  refine ⟨hall, hentries, fun hsame object hmem hmark => ?_, fun hnone => ?_⟩
  · -- a virtual object has no place in a delay, so the caller sees the marked one
    refine Bool.eq_false_iff.mpr fun hyes => ?_
    obtain ⟨i, hi⟩ := Array.getElem?_of_mem hmem
    have hobject := hwf.objects i object hi
    have hvirtual : object.isVirtual = true := by simp_all [adrift]
    have hsees : sees object = true := by simp [sees, hmark, hobject.virtual hvirtual]
    have hentry : object.id ∈ (g.planOf l known).entries := by
      rw [hsame, hwf.mem_ids]
      exact ⟨object, by rw [hobject.id]; exact hi, hsees⟩
    obtain ⟨other, hother, _, hno⟩ := (hl.mem_entries hwf).mp hentry
    rw [hobject.id] at hother
    have hsame : other = object := Option.some.inj (hother.symm.trans hi)
    rw [hsame, hyes] at hno
    contradiction
  · rw [hall]
    refine congrArg (List.map _) (List.filter_congr fun object hmem => ?_)
    have hmarked := hnone object (Array.mem_toList_iff.mp hmem)
    cases hadrift : g.adrift object with
    | false => simp
    | true =>
      have hvirtual : object.isVirtual = true := by simp_all [adrift]
      have hunmarked : object.markedOutput = false := by
        refine Bool.eq_false_iff.mpr fun hmark => ?_
        rw [hmarked hmark] at hadrift
        contradiction
      simp [sees, hvirtual, hunmarked]

/-- A virtual image that is marked as an output and bound to no node. -/
def unclaimed (info : ImageMeta) : Graph := Graph.empty.edit [.virtualImage info, .output ⟨0⟩]

theorem entries_of_verify_unclaimed : ∃ p q, (unclaimed ⟨some 2, some 2, some .u8⟩).verify .standard = .ok p ∧
    (unclaimed ⟨none, none, none⟩).verify .standard = .ok q ∧ p.entries = [⟨0⟩] ∧ q.entries = [] := by
  have haccepts (info : ImageMeta) (h : ((unclaimed info).verify .standard).toOption.isSome = true) :
      ∃ p, (unclaimed info).verify .standard = .ok p := by
    obtain ⟨p, hp⟩ := Option.isSome_iff_exists.mp h
    exact ⟨p, toOption_eq_some.mp hp⟩
  obtain ⟨p, hp⟩ := haccepts ⟨some 2, some 2, some .u8⟩ (by decide +kernel)
  obtain ⟨q, hq⟩ := haccepts ⟨none, none, none⟩ (by decide +kernel)
  refine ⟨p, q, hp, hq, ?_, ?_⟩
  · exact (entries_of_verify _ ⟨_, rfl⟩ .standard p hp).1
  · exact (entries_of_verify _ ⟨_, rfl⟩ .standard q hq).1

end Graph

end VisionGraph
