import VisionGraph.Proofs.Resolution
import VisionGraph.Proofs.Schedule

/-! Verification as a relation. A graph is accepted exactly when its nodes have a valid schedule along which
all metadata resolves; nothing else of the order in which nodes were inserted matters. -/
namespace VisionGraph

theorem Access.mem_producers {accesses : List Access} {o : ObjectId} {i : Nat} :
    i ∈ producers accesses o ↔ ∃ a, accesses[i]? = some a ∧ o ∈ a.writes := by
  simp only [producers, List.mem_map, List.mem_filter, Prod.exists, exists_eq_right,
    List.mem_zipIdx_iff_getElem?, List.contains_eq_mem, decide_eq_true_eq]

/-- An object that no two nodes write is written at one position. -/
theorem Access.eq_of_mem_producers {accesses : List Access} {o : ObjectId} {a : Access} {i j : Nat}
    (hs : accesses.Pairwise fun a b => ∀ o ∈ a.writes, o ∉ b.writes) (hi : accesses[i]? = some a)
    (ho : o ∈ a.writes) (hj : j ∈ producers accesses o) : j = i := by
  obtain ⟨b, hb, hw⟩ := mem_producers.mp hj
  obtain ⟨hilt, rfl⟩ := List.getElem?_eq_some_iff.mp hi
  obtain ⟨hjlt, rfl⟩ := List.getElem?_eq_some_iff.mp hb
  rcases Nat.lt_trichotomy j i with hlt | heq | hlt
  · exact absurd ho (List.pairwise_iff_getElem.mp hs _ _ hjlt hilt hlt o hw)
  · exact heq
  · exact absurd hw (List.pairwise_iff_getElem.mp hs _ _ hilt hjlt hlt o ho)

theorem Access.feeds_eq_false {a b : Access} : a.feeds b = false ↔ ∀ o ∈ a.writes, o ∉ b.reads := by
  simp [feeds]

namespace Graph

variable {g : Graph} {r : Registry} {c : Checked}

theorem findSome?_unknown {n : Node} : (n.params.zipIdx.findSome? fun (param, slot) =>
      param.bind fun o => if (g.object? o).isNone then some (slot, o) else none) = none ↔
    ∀ o ∈ n.bound, ∃ object, g.object? o = some object := by
  simp only [List.findSome?_eq_none_iff, Prod.forall, List.mem_zipIdx_iff_getElem?, Node.mem_bound]
  constructor
  · rintro h o ⟨slot, hslot⟩
    have hnone := h (some o) slot hslot
    cases ho : g.object? o with
    | none => simp [ho] at hnone
    | some object => exact ⟨object, rfl⟩
  · rintro h param slot hslot
    cases param with
    | none => rfl
    | some o =>
      obtain ⟨object, ho⟩ := h o ⟨slot, hslot⟩
      simp [ho]

theorem lookUp_eq_ok {n : Node} : g.lookUp r n = .ok c ↔
    c.node = n ∧ r.find? n.kernel = some c.kernel ∧ n.params.length = c.kernel.signature.params.length ∧
      ∀ o ∈ n.bound, ∃ object, g.object? o = some object := by
  unfold lookUp
  cases hk : r.find? n.kernel with
  | none => simp
  | some kernel =>
    by_cases hlen : n.params.length = kernel.signature.params.length
    · simp only [hlen, ne_eq, not_true_eq_false, ↓reduceIte, Option.some.injEq, ← findSome?_unknown]
      obtain ⟨node, k⟩ := c
      cases n.params.zipIdx.findSome? fun (param, slot) =>
          param.bind fun o => if (g.object? o).isNone then some (slot, o) else none with
      | some x => simp
      | none =>
        simp only [Except.ok.injEq, Checked.mk.injEq, and_true]
        constructor
        · rintro ⟨rfl, rfl⟩
          exact ⟨rfl, rfl, rfl⟩
        · rintro ⟨rfl, rfl, _⟩
          exact ⟨rfl, rfl⟩
    · simp only [ne_eq, hlen, not_false_eq_true, ↓reduceIte, reduceCtorEq, Option.some.injEq, false_iff, not_and]
      rintro _ rfl hlen'
      exact absurd hlen' hlen

/-- What a parameter may be bound to, if `written` tells the objects that some node writes. -/
def Fits (g : Graph) (written : ObjectId → Prop) (spec : Param) : Option ObjectId → Prop
  | none => spec.optional = true
  | some o => ∃ object, g.object? o = some object ∧ object.kind = spec.kind ∧
      (spec.direction.writes = true → object.isConstant = false) ∧
      (spec.direction = .bidirectional → object.isVirtual = false) ∧
      (spec.direction = .input → object.isVirtual = true → object.isConstant = false → written o)

theorem Fits.imp {written written' : ObjectId → Prop} {spec : Param} {param : Option ObjectId}
    (h : g.Fits written spec param) (hw : ∀ o, written o → written' o) : g.Fits written' spec param := by
  cases param with
  | none => exact h
  | some o =>
    obtain ⟨object, hobject, hkind, hconst, hbi, hin⟩ := h
    exact ⟨object, hobject, hkind, hconst, hbi, fun hd hv hc => hw o (hin hd hv hc)⟩

theorem checkBound_eq_ok {accesses : List Access} {i : Nat} {n : Node} {slot : Nat} {spec : Param} {o : ObjectId} :
    g.checkBound accesses i n slot spec o = .ok () ↔
      g.Fits (fun o => Access.producers accesses o ≠ []) spec (some o) ∧
        (spec.direction.writes = true → (Access.producers accesses o).head?.getD i = i) := by
  unfold checkBound Fits
  cases ho : g.object? o with
  | none => simp [ho]
  | some object =>
    simp only [ho, Option.some.injEq, exists_eq_left']
    by_cases hkind : object.kind = spec.kind
    · simp only [hkind, ne_eq, not_true_eq_false, ↓reduceIte, true_and]
      cases spec.direction <;> cases object.isConstant <;> cases object.isVirtual <;>
        simp [Direction.writes, List.isEmpty_iff]
    · simp [hkind]

theorem checkNodeBindings_eq_ok {accesses : List Access} {i : Nat} :
    g.checkNodeBindings accesses i c = .ok () ↔
      ∀ x ∈ c.kernel.signature.params.zip c.node.params,
        g.Fits (fun o => Access.producers accesses o ≠ []) x.1 x.2 ∧
          ∀ o, x.2 = some o → x.1.direction.writes = true → (Access.producers accesses o).head?.getD i = i := by
  unfold checkNodeBindings
  rw [forM_eq_ok]
  constructor
  · intro h x hx
    obtain ⟨slot, hslot⟩ := List.mem_iff_getElem?.mp hx
    have hx := h (x, slot) (List.mem_zipIdx_iff_getElem?.mpr hslot)
    obtain ⟨spec, param⟩ := x
    cases param with
    | none => cases ho : spec.optional <;> simp [Fits, ho] at hx ⊢
    | some o => simpa [checkBound_eq_ok] using hx
  · rintro h ⟨⟨spec, param⟩, slot⟩ hx
    have hx := h (spec, param) (List.mem_of_getElem? (List.mem_zipIdx_iff_getElem?.mp hx))
    cases param with
    | none => cases ho : spec.optional <;> simp [Fits, ho] at hx ⊢
    | some o => simpa [checkBound_eq_ok] using hx

/-- The nodes of a graph with their kernels, in an order in which they can run. -/
structure Scheduled (r : Registry) (g : Graph) (l : List Checked) : Prop where
  nodes : (l.map (·.node)).Perm g.nodes
  found : ∀ c ∈ l, g.lookUp r c.node = .ok c
  /-- No node writes what a node before it names: writers come before readers and there is only one. -/
  after : l.Pairwise After
  fits : ∀ c ∈ l, ∀ x ∈ c.kernel.signature.params.zip c.node.params,
    g.Fits (fun o => ∃ b ∈ l, o ∈ b.access.writes) x.1 x.2

namespace Scheduled

variable {l l' : List Checked}

theorem length_params (h : Scheduled r g l) (hc : c ∈ l) :
    c.node.params.length = c.kernel.signature.params.length :=
  (lookUp_eq_ok.mp (h.found c hc)).2.2.1

theorem find_kernel (h : Scheduled r g l) (hc : c ∈ l) : r.find? c.node.kernel = some c.kernel :=
  (lookUp_eq_ok.mp (h.found c hc)).2.1

/-- Any other order in which no node writes what an earlier one names will do. -/
theorem perm (h : Scheduled r g l) (hp : l'.Perm l) (ha : l'.Pairwise After) : Scheduled r g l' where
  nodes := (hp.map _).trans h.nodes
  found c hc := h.found c (hp.mem_iff.mp hc)
  after := ha
  fits c hc x hx := by
    refine (h.fits c (hp.mem_iff.mp hc) x hx).imp fun o ho => ?_
    obtain ⟨b, hb, hw⟩ := ho
    exact ⟨b, hp.mem_iff.mpr hb, hw⟩

end Scheduled

/-- The plan of a schedule. -/
def planOf (g : Graph) (l : List Checked) (known : Array Meta) : Plan where
  objects := g.resolvedObjects known
  stages := l.map fun c => .single (step c) c.kernel.isPixelwise

/-- A schedule along which all metadata resolves. -/
structure Resolves (r : Registry) (g : Graph) (l : List Checked) (known : Array Meta) : Prop extends
    Scheduled r g l where
  run : l.foldlM g.infer (g.objects.map (·.info)) = .ok known
  resolved : ∀ c ∈ l, firstUnresolved known c.node = none

/-- What the steps of verification are. -/
theorem verify_eq_ok {p : Plan} : g.verify r = .ok p ↔
    ∃ checked positions known, g.nodes.mapM (g.lookUp r) = .ok checked ∧
      Access.order (checked.map Checked.access) = .ok positions ∧
      (∀ x ∈ Access.scheduled checked positions,
        g.checkNodeBindings (checked.map Checked.access) x.1 x.2 = .ok ()) ∧
      ((Access.scheduled checked positions).map (·.2)).foldlM g.infer (g.objects.map (·.info)) = .ok known ∧
      (∀ x ∈ Access.scheduled checked positions, firstUnresolved known x.2.node = none) ∧
      p = g.planOf ((Access.scheduled checked positions).map (·.2)) known := by
  have hstages (l : List (Nat × Checked)) (known : Array Meta) : g.planOf (l.map (·.2)) known =
      ⟨g.resolvedObjects known, l.map fun x => .single (step x.2) x.2.kernel.isPixelwise⟩ := by
    simp [planOf]
  unfold verify
  constructor
  · intro h
    obtain ⟨checked, hlook, h⟩ := bind_eq_ok.mp h
    dsimp only at h
    split at h
    · contradiction
    · rename_i positions horder
      obtain ⟨_, hcheck, h⟩ := bind_eq_ok.mp h
      obtain ⟨known, hrun, h⟩ := bind_eq_ok.mp h
      obtain ⟨_, hres, h⟩ := bind_eq_ok.mp h
      cases h
      refine ⟨checked, positions, known, hlook, horder, forM_eq_ok.mp hcheck, hrun, fun x hx => ?_,
        (hstages _ known).symm⟩
      have hx := forM_eq_ok.mp hres x hx
      cases hfirst : firstUnresolved known x.2.node with
      | none => rfl
      | some o => simp [hfirst] at hx
  · rintro ⟨checked, positions, known, hlook, horder, hcheck, hrun, hres, rfl⟩
    refine bind_eq_ok.mpr ⟨checked, hlook, ?_⟩
    simp only [horder]
    refine bind_eq_ok.mpr ⟨(), forM_eq_ok.mpr hcheck, bind_eq_ok.mpr ⟨known, hrun, ?_⟩⟩
    refine bind_eq_ok.mpr ⟨(), forM_eq_ok.mpr fun x hx => ?_, by rw [hstages]; rfl⟩
    simp only [hres x hx]

variable {checked : List Checked} {positions : List Nat}

theorem map_node_eq {nodes : List Node} (h : nodes.mapM (g.lookUp r) = .ok checked) : checked.map (·.node) = nodes := by
  have hall := mapM_eq_ok.mp h
  clear h
  induction hall with
  | nil => rfl
  | cons hc _ ih => rw [List.map_cons, ih, (lookUp_eq_ok.mp hc).1]

theorem mem_scheduled {x : Nat × Checked} (hx : x ∈ Access.scheduled checked positions) : checked[x.1]? = some x.2 := by
  obtain ⟨i, _, hi⟩ := List.mem_filterMap.mp hx
  obtain ⟨c, hc, rfl⟩ := Option.map_eq_some_iff.mp hi
  exact hc

section

variable (h : Access.order (checked.map Checked.access) = .ok positions)

include h

theorem scheduled_perm : ((Access.scheduled checked positions).map (·.2)).Perm checked := by
  have hp := ((Access.scheduled_perm_ordered Checked.access h).1).map (·.1)
  rwa [List.zipIdx_map_fst, List.map_map] at hp

theorem scheduled_positions : (Access.scheduled checked positions).Pairwise fun x y => x.1 ≠ y.1 := by
  have hp := ((Access.scheduled_perm_ordered Checked.access h).1).map (·.2)
  rw [List.map_map] at hp
  exact List.pairwise_map.mp (hp.nodup_iff.mpr (Access.nodup_positions checked))

/-- A scheduled node writes nothing that an earlier one names, provided that no object has two writers. -/
theorem scheduled_after (hlen : ∀ c ∈ checked, c.node.params.length = c.kernel.signature.params.length)
    (hsingle : ∀ x ∈ Access.scheduled checked positions, ∀ y ∈ Access.scheduled checked positions, ∀ o ∈
      x.2.access.writes, o ∈ y.2.access.writes → x.1 = y.1) :
    ((Access.scheduled checked positions).map (·.2)).Pairwise After := by
  have hfeeds := (Access.scheduled_perm_ordered Checked.access h).2
  refine List.pairwise_map.mpr ((hfeeds.and (scheduled_positions h)).imp_of_mem ?_)
  rintro x y hx hy ⟨hno, hne⟩ o ho hbound
  have hmem : x.2 ∈ checked := List.mem_of_getElem? (mem_scheduled hx)
  rcases (Checked.mem_bound (hlen x.2 hmem)).mp hbound with hread | hwrite
  · exact Access.feeds_eq_false.mp hno o ho hread
  · exact hne (hsingle x hx y hy o hwrite ho)

end

/-- The objects that a checked node writes are those of the parameters that its kernel writes. -/
theorem exists_zip_of_writes {o : ObjectId} (ho : o ∈ c.access.writes) :
    ∃ spec, (spec, some o) ∈ c.kernel.signature.params.zip c.node.params ∧ spec.direction.writes = true := by
  obtain ⟨slot, d, hslot, hd, hw⟩ := Checked.mem_writes.mp ho
  simp only [Checked.directions, Signature.directions, List.getElem?_map, Option.map_eq_some_iff] at hd
  obtain ⟨spec, hspec, rfl⟩ := hd
  exact ⟨spec, List.mem_iff_getElem?.mpr ⟨slot, List.getElem?_zip_eq_some.mpr ⟨hspec, hslot⟩⟩, hw⟩

theorem writes_of_zip {x : Param × Option ObjectId} {o : ObjectId}
    (hx : x ∈ c.kernel.signature.params.zip c.node.params) (ho : x.2 = some o) (hw : x.1.direction.writes = true) :
    o ∈ c.access.writes := by
  obtain ⟨slot, hslot⟩ := List.mem_iff_getElem?.mp hx
  obtain ⟨hspec, hparam⟩ := List.getElem?_zip_eq_some.mp hslot
  refine Checked.mem_writes.mpr ⟨slot, x.1.direction, ho ▸ hparam, ?_, hw⟩
  simp [Checked.directions, Signature.directions, hspec]

/-- The steps of verification amount to a schedule along which all metadata resolves. -/
theorem resolves_of_order {known : Array Meta} (hlook : g.nodes.mapM (g.lookUp r) = .ok checked)
    (horder : Access.order (checked.map Checked.access) = .ok positions)
    (hcheck : ∀ x ∈ Access.scheduled checked positions, g.checkNodeBindings (checked.map Checked.access) x.1 x.2 = .ok
      ()) (hrun : ((Access.scheduled checked positions).map (·.2)).foldlM g.infer (g.objects.map (·.info)) = .ok known)
    (hres : ∀ x ∈ Access.scheduled checked positions, firstUnresolved known x.2.node = none) :
    Resolves r g ((Access.scheduled checked positions).map (·.2)) known := by
  have hperm := scheduled_perm horder
  have hfound : ∀ c ∈ checked, g.lookUp r c.node = .ok c := by
    intro c hc
    obtain ⟨n, _, hn⟩ := exists_of_mem_mapM hlook hc
    rwa [(lookUp_eq_ok.mp hn).1]
  have hlen : ∀ c ∈ checked, c.node.params.length = c.kernel.signature.params.length :=
    fun c hc => (lookUp_eq_ok.mp (hfound c hc)).2.2.1
  have hbind := fun x hx => checkNodeBindings_eq_ok.mp (hcheck x hx)
  -- a written object has its first writer at the position of the node at hand
  have hwriter : ∀ x ∈ Access.scheduled checked positions, ∀ o ∈ x.2.access.writes,
      (Access.producers (checked.map Checked.access) o).head?.getD x.1 = x.1 := by
    intro x hx o ho
    obtain ⟨spec, hzip, hw⟩ := exists_zip_of_writes ho
    exact (hbind x hx _ hzip).2 o rfl hw
  have hproducer : ∀ x ∈ Access.scheduled checked positions, ∀ o ∈ x.2.access.writes,
      (Access.producers (checked.map Checked.access) o).head? = some x.1 := by
    intro x hx o ho
    have hmem : x.1 ∈ Access.producers (checked.map Checked.access) o :=
      Access.mem_producers.mpr ⟨x.2.access, by simp [mem_scheduled hx], ho⟩
    have hfirst := List.head?_eq_some_head (List.ne_nil_of_mem hmem)
    have hhead := hwriter x hx o ho
    rw [hfirst, Option.getD_some] at hhead
    rw [hfirst, hhead]
  have hafter := scheduled_after horder hlen fun x hx y hy o hwrite ho => by
    simpa using (hproducer x hx o hwrite).symm.trans (hproducer y hy o ho)
  refine ⟨⟨?_, ?_, hafter, ?_⟩, hrun, ?_⟩
  · exact map_node_eq hlook ▸ hperm.map _
  · exact fun c hc => hfound c (hperm.mem_iff.mp hc)
  · intro c hc z hz
    obtain ⟨x, hx, rfl⟩ := List.mem_map.mp hc
    refine (hbind x hx z hz).1.imp fun o ho => ?_
    obtain ⟨i, hi⟩ := List.exists_mem_of_ne_nil _ ho
    obtain ⟨a, ha, hw⟩ := Access.mem_producers.mp hi
    simp only [List.getElem?_map, Option.map_eq_some_iff] at ha
    obtain ⟨b, hb, rfl⟩ := ha
    exact ⟨b, hperm.mem_iff.mpr (List.mem_of_getElem? hb), hw⟩
  · intro c hc
    obtain ⟨x, hx, rfl⟩ := List.mem_map.mp hc
    exact hres x hx

/-- What verification accepts has a schedule along which all metadata resolves. Another graph with the same nodes is
accepted with the same schedule, if its objects fit where they are bound and its metadata resolves along it too. -/
theorem exists_resolves_along {p : Plan} (h : g.verify r = .ok p) :
    ∃ l known, Resolves r g l known ∧ p = g.planOf l known ∧ ∀ next : Graph, next.nodes = g.nodes →
      (∀ n, next.lookUp r n = g.lookUp r n) →
      (∀ written spec param, g.Fits written spec param → next.Fits written spec param) →
      ∀ known', l.foldlM next.infer (next.objects.map (·.info)) = .ok known' →
        (∀ c ∈ l, firstUnresolved known' c.node = none) → next.verify r = .ok (next.planOf l known') := by
  obtain ⟨checked, positions, known, hlook, horder, hcheck, hrun, hres, rfl⟩ := verify_eq_ok.mp h
  refine ⟨_, known, resolves_of_order hlook horder hcheck hrun hres, rfl, ?_⟩
  intro next hnodes hsame hfits known' hrun' hres'
  refine verify_eq_ok.mpr ⟨checked, positions, known', ?_, horder, ?_, hrun', ?_, rfl⟩
  · rw [hnodes, funext hsame]
    exact hlook
  · intro x hx
    apply checkNodeBindings_eq_ok.mpr
    intro z hz
    obtain ⟨hfit, hwriter⟩ := checkNodeBindings_eq_ok.mp (hcheck x hx) z hz
    exact ⟨hfits _ _ _ hfit, hwriter⟩
  · intro x hx
    exact hres' x.2 (List.mem_map.mpr ⟨x, hx, rfl⟩)

theorem exists_resolves {p : Plan} (h : g.verify r = .ok p) :
    ∃ l known, Resolves r g l known ∧ p = g.planOf l known := by
  obtain ⟨l, known, hl, hp, _⟩ := exists_resolves_along h
  exact ⟨l, known, hl, hp⟩

/-- A schedule along which all metadata resolves makes verification accept. The plan may have another
order, but it has the same metadata. -/
theorem verify_of_resolves {l : List Checked} {known : Array Meta}
    (hreg : ∀ c ∈ l, Rule.Regular c.kernel.rule) (h : Resolves r g l known) :
    ∃ l', Resolves r g l' known ∧ l'.Perm l ∧ g.verify r = .ok (g.planOf l' known) := by
  have hlen := fun c hc => h.length_params (c := c) hc
  -- the nodes are found in the order in which they were inserted
  have hown : (l.map (·.node)).mapM (g.lookUp r) = .ok l := by
    refine mapM_eq_ok.mpr (List.forall₂_map_left_iff.mpr (List.forall₂_same.mpr ?_))
    exact h.found
  obtain ⟨checked, hlook, hperm⟩ := mapM_perm h.nodes hown
  have hfeeds : l.Pairwise fun a b => b.access.feeds a.access = false := by
    refine h.after.imp_of_mem fun {a b} ha _ hab => Access.feeds_eq_false.mpr fun o ho hread => ?_
    exact hab o ho ((Checked.mem_bound (hlen a ha)).mpr (.inl hread))
  obtain ⟨positions, horder⟩ := Access.exists_order_eq_ok Checked.access hperm hfeeds
  have hsperm := scheduled_perm horder
  have hmem : ∀ x ∈ Access.scheduled checked positions, x.2 ∈ l := fun x hx =>
    hperm.mem_iff.mpr (List.mem_of_getElem? (mem_scheduled hx))
  -- no object is written at two positions
  have hsingle : (checked.map Checked.access).Pairwise fun a b => ∀ o ∈ a.writes, o ∉ b.writes := by
    refine List.pairwise_map.mpr ((hperm.pairwise_iff ?_).mp (h.after.imp fun hab o ha hb => ?_))
    · exact fun hab o hb ha => hab o ha hb
    · exact hab o hb (Checked.bound_of_writes ha)
  have hcheck : ∀ x ∈ Access.scheduled checked positions,
      g.checkNodeBindings (checked.map Checked.access) x.1 x.2 = .ok () := by
    intro x hx
    refine checkNodeBindings_eq_ok.mpr fun z hz => ⟨?_, fun o ho hw => ?_⟩
    · refine (h.fits x.2 (hmem x hx) z hz).imp fun o ho => ?_
      obtain ⟨b, hb, hw⟩ := ho
      obtain ⟨i, hi⟩ := List.mem_iff_getElem?.mp (hperm.mem_iff.mp hb)
      have hi' : (checked.map Checked.access)[i]? = some b.access := by simp [hi]
      exact List.ne_nil_of_mem (Access.mem_producers.mpr ⟨_, hi', hw⟩)
    · have hwrites : o ∈ x.2.access.writes := writes_of_zip hz ho hw
      have hget : (checked.map Checked.access)[x.1]? = some x.2.access := by simp [mem_scheduled hx]
      cases hhead : (Access.producers (checked.map Checked.access) o).head? with
      | none => rfl
      | some j => exact Access.eq_of_mem_producers hsingle hget hwrites (List.mem_of_head? hhead)
  have hnew := scheduled_after horder (fun c hc => hlen c (hperm.mem_iff.mpr hc)) fun x hx y hy o hwrite ho => by
    have hx' : (checked.map Checked.access)[x.1]? = some x.2.access := by simp [mem_scheduled hx]
    have hy' : (checked.map Checked.access)[y.1]? = some y.2.access := by simp [mem_scheduled hy]
    exact Access.eq_of_mem_producers hsingle hy' ho (Access.mem_producers.mpr ⟨_, hx', hwrite⟩)
  have hpl : ((Access.scheduled checked positions).map (·.2)).Perm l := hsperm.trans hperm.symm
  have hrun : ((Access.scheduled checked positions).map (·.2)).foldlM g.infer (g.objects.map (·.info)) = .ok known :=
    foldlM_perm After hpl.symm h.after hnew
      (fun a ha b hb hab hba => infer_exchanges (hreg a ha) (hreg b hb) hab hba) h.run
  have hres : ∀ x ∈ Access.scheduled checked positions, firstUnresolved known x.2.node = none :=
    fun x hx => h.resolved x.2 (hmem x hx)
  refine ⟨_, ⟨h.toScheduled.perm hpl hnew, hrun, fun c hc => h.resolved c (hpl.mem_iff.mp hc)⟩, hpl, ?_⟩
  exact verify_eq_ok.mpr ⟨checked, positions, known, hlook, horder, hcheck, hrun, hres, rfl⟩

end Graph

end VisionGraph
