import VisionGraph.Graph.Basic
import VisionGraph.Proofs.Metadata

/-! Graphs that the construction operations build, and what always holds of them. -/
namespace VisionGraph

/-- One operation on a graph under construction. -/
inductive Edit where
  | image (width height : UInt32) (format : Format)
  | virtualImage (info : ImageMeta)
  | array (itemType : ItemType) (capacity : UInt32)
  | virtualArray (info : ArrayMeta)
  | scalar (type : ScalarType)
  | virtualScalar (type : Option ScalarType)
  | constant (v : Scalar)
  | pyramid (levels width height : UInt32) (format : Format)
  | virtualPyramid (levels : UInt32) (base : ImageMeta)
  | delay (slots : UInt32) (template : ImageMeta)
  | node (kernel : String) (params : List (Option ObjectId))
  | border (node : NodeId) (border : Border)
  | bind (node : NodeId) (slot : Nat) (object : Option ObjectId)
  | remove (node : NodeId)
  | output (object : ObjectId)
deriving DecidableEq, Repr

namespace Graph

def apply (g : Graph) : Edit → Except Error Graph
  | .image w h f => .ok (g.createImage w h f).2
  | .virtualImage m => .ok (g.createVirtualImage m).2
  | .array t c => .ok (g.createArray t c).2
  | .virtualArray m => .ok (g.createVirtualArray m).2
  | .scalar t => .ok (g.createScalar t).2
  | .virtualScalar t => .ok (g.createVirtualScalar t).2
  | .constant v => .ok (g.createConstant v).2
  | .pyramid n w h f => .ok (g.createPyramid n w h f).2
  | .virtualPyramid n base => .ok (g.createVirtualPyramid n base).2
  | .delay n template => (g.createDelay n template).map (·.2)
  | .node kernel params => .ok (g.addNode kernel params).2
  | .border id border => g.setBorder id border
  | .bind id slot object => g.bind id slot object
  | .remove id => (g.removeNode id).map (·.2)
  | .output o => g.markOutput o

/-- The graph after operations in turn; one that fails leaves it as it was. -/
def edit (g : Graph) (edits : List Edit) : Graph :=
  edits.foldl (fun g e => ((g.apply e).toOption).getD g) g

/-- Made from nothing by construction operations. -/
def Built (g : Graph) : Prop := ∃ edits, g = Graph.empty.edit edits

end Graph

/-- What holds of the object at a position of a graph. -/
structure DataObject.Sound (objects : Array DataObject) (position : Nat) (o : DataObject) : Prop where
  id : o.id = ⟨position⟩
  real : o.isVirtual = false → o.info.isResolved = true ∧ o.info.value? = none
  virtual : o.isVirtual = true → o.slot = none
  unmarked : o.isConstant = true → o.markedOutput = false
  /-- The images of a delay stand behind it in the order of their ages. -/
  slot : ∀ s, o.slot = some s → o.kind = .image ∧ position = s.delay.index + 1 + s.age.toNat ∧
    ∃ d, objects[s.delay.index]? = some d ∧ d.isVirtual = false ∧ d.slot = none ∧ d.kind = .delay
  /-- They have its template, and there are as many as it has slots. -/
  template : ∀ s, o.slot = some s → ∃ d m, objects[s.delay.index]? = some d ∧ d.info = .delay m ∧
    o.info = .image m.template ∧ s.age.toNat < m.slots.toNat

/-- What holds of every graph that was built. -/
structure Graph.WellFormed (g : Graph) : Prop where
  objects : ∀ (i : Nat) (o : DataObject), g.objects[i]? = some o → o.Sound g.objects i
  nodes : (g.nodes.map (·.id)).Nodup
  fresh : ∀ n ∈ g.nodes, n.id.index < g.nextNode

/-- Objects that are kept up to their marks. -/
def SameButMarks (objects next : Array DataObject) : Prop :=
  ∀ (i : Nat) (o : DataObject), objects[i]? = some o → ∃ o' : DataObject, next[i]? = some o' ∧
    o'.info = o.info ∧ o'.isVirtual = o.isVirtual ∧ o'.slot = o.slot

theorem DataObject.Sound.mono {objects next : Array DataObject} {i : Nat} {o : DataObject}
    (h : o.Sound objects i) (hn : SameButMarks objects next) : o.Sound next i where
  id := h.id
  real := h.real
  virtual := h.virtual
  unmarked := h.unmarked
  slot s hs := by
    obtain ⟨hk, hi, d, hd, hv, hnone, hdk⟩ := h.slot s hs
    obtain ⟨d', hd', hinfo, hv', hs'⟩ := hn _ d hd
    refine ⟨hk, hi, d', hd', hv'.trans hv, hs'.trans hnone, ?_⟩
    rw [← hdk, DataObject.kind, DataObject.kind, hinfo]
  template s hs := by
    obtain ⟨d, m, hd, hm, hrest⟩ := h.template s hs
    obtain ⟨d', hd', hinfo, _⟩ := hn _ d hd
    exact ⟨d', m, hd', hinfo.trans hm, hrest⟩

namespace Graph

variable {g : Graph} {next : Graph} {id : NodeId} {info : Meta} {template : ImageMeta}

/-- Only what is bound from outside is an image of a delay. -/
theorem isVirtual_of_slot {x : DataObject} {slot : DelaySlot} (hvirtual : x.isVirtual = true → x.slot = none)
    (hslot : x.slot = some slot) : x.isVirtual = false := by
  by_contra hnot
  rw [hvirtual (by simpa using hnot)] at hslot
  cases hslot

theorem sameButMarks_push (objects : Array DataObject) (o : DataObject) :
    SameButMarks objects (objects.push o) := by
  intro i x hx
  have hi := (Array.getElem?_eq_some_iff.mp hx).1
  exact ⟨x, by rw [Array.getElem?_push_lt hi, ← hx, Array.getElem?_eq_getElem hi], rfl, rfl, rfl⟩

/-- A new object keeps a graph well formed when it is sound itself. -/
theorem WellFormed.register (h : g.WellFormed) {isVirtual : Bool} {slot : Option DelaySlot}
    (ho : DataObject.Sound g.objects g.objects.size ⟨⟨g.objects.size⟩, info, isVirtual, false, slot⟩) :
    (g.register info isVirtual slot).2.WellFormed where
  objects i o hget := by
    have hn := sameButMarks_push g.objects ⟨⟨g.objects.size⟩, info, isVirtual, false, slot⟩
    simp only [Graph.register] at hget ⊢
    rw [Array.getElem?_push] at hget
    split at hget
    · rename_i hi
      cases hget
      exact hi ▸ ho.mono hn
    · exact (h.objects i o hget).mono hn
  nodes := h.nodes
  fresh := h.fresh

/-- An object without a place in a delay. -/
theorem WellFormed.registerPlain (h : g.WellFormed) {isVirtual : Bool}
    (hreal : isVirtual = false → info.isResolved = true ∧ info.value? = none) :
    (g.register info isVirtual none).2.WellFormed :=
  h.register ⟨rfl, hreal, fun _ => rfl, fun _ => rfl, nofun, nofun⟩

theorem size_register (info : Meta) (isVirtual : Bool) (slot : Option DelaySlot) :
    (g.register info isVirtual slot).2.objects.size = g.objects.size + 1 := by
  simp [Graph.register]

/-- The images of a delay go right behind the delay, as many as ages are left. -/
theorem WellFormed.registerSlots {delay : ObjectId} (hres : template.isResolved = true) {slots : UInt32}
    {d : DataObject} (hd : d.isVirtual = false ∧ d.slot = none ∧ d.info = .delay ⟨slots, template⟩) (left age : Nat)
    (h : g.WellFormed) (hsize : g.objects.size = delay.index + 1 + age) (hage : age + left = slots.toNat)
    (hget : g.objects[delay.index]? = some d) : (registerSlots delay template left age g).WellFormed := by
  induction left generalizing g age with
  | zero => exact h
  | succ left ih =>
    have hlt := slots.toNat_lt
    have hsmall : (UInt32.ofNat age).toNat = age := UInt32.toNat_ofNat_of_lt' (by show age < 2 ^ 32; omega)
    refine ih (age + 1) (h.register ⟨rfl, fun _ => ⟨hres, rfl⟩, nofun, nofun, ?_, ?_⟩) ?_ (by omega) ?_
    · rintro s ⟨⟩
      refine ⟨rfl, by rw [hsmall]; exact hsize, d, hget, hd.1, hd.2.1, ?_⟩
      rw [DataObject.kind, hd.2.2]
      rfl
    · rintro s ⟨⟩
      exact ⟨d, _, hget, hd.2.2, rfl, by rw [hsmall]; show age < slots.toNat; omega⟩
    · rw [size_register, hsize]
      omega
    · have hlt : delay.index < g.objects.size := by omega
      simp only [Graph.register]
      rw [Array.getElem?_push_lt hlt, ← hget, Array.getElem?_eq_getElem hlt]

theorem WellFormed.createDelay (h : g.WellFormed) {slots : UInt32} {o : ObjectId}
    (hok : g.createDelay slots template = .ok (o, next)) : next.WellFormed := by
  unfold Graph.createDelay at hok
  split at hok
  · contradiction
  split at hok
  · contradiction
  rename_i hres
  have hres : template.isResolved = true := by simpa using hres
  cases hok
  have hbase : (g.register (.delay ⟨slots, template⟩) false none).2.WellFormed :=
    h.registerPlain fun _ => ⟨hres, rfl⟩
  exact WellFormed.registerSlots hres (d := ⟨⟨g.objects.size⟩, .delay ⟨slots, template⟩, false, false, none⟩)
    ⟨rfl, rfl, rfl⟩ slots.toNat 0 hbase (size_register ..) (Nat.zero_add _) (by simp)

/-- Changing a node in place keeps the numbers of all nodes. -/
theorem map_id_updateNode {change : Node → Node} (hc : ∀ n, (change n).id = n.id) (id : NodeId) (l : List Node) :
    (updateNode id change l).map (·.id) = l.map (·.id) := by
  induction l with
  | nil => rfl
  | cons n rest ih =>
    unfold updateNode
    split
    · simp [hc]
    · simp [ih]

section

variable (h : g.WellFormed)

include h

/-- Only the numbers of the nodes matter. -/
theorem WellFormed.withNodes {nodes : List Node} (hids : (nodes.map (·.id)).Sublist (g.nodes.map (·.id))) :
    ({ g with nodes := nodes } : Graph).WellFormed where
  objects := h.objects
  nodes := h.nodes.sublist hids
  fresh n hn := by
    obtain ⟨m, hm, he⟩ := List.mem_map.mp (hids.subset (List.mem_map.mpr ⟨n, hn, rfl⟩))
    exact he ▸ h.fresh m hm

theorem WellFormed.withUpdate (id : NodeId) (change : Node → Node) (hc : ∀ n, (change n).id = n.id) :
    ({ g with nodes := updateNode id change g.nodes } : Graph).WellFormed := by
  refine h.withNodes ?_
  rw [map_id_updateNode hc]

theorem WellFormed.addNode (kernel : String) (params : List (Option ObjectId)) :
    (g.addNode kernel params).2.WellFormed where
  objects := h.objects
  nodes := by
    simp only [Graph.addNode, List.map_append, List.map_cons, List.map_nil]
    refine List.nodup_append.mpr ⟨h.nodes, by simp, ?_⟩
    intro a ha b hb heq
    obtain ⟨n, hn, rfl⟩ := List.mem_map.mp ha
    have hlt := h.fresh n hn
    simp only [List.mem_singleton] at hb
    simp [heq, hb] at hlt
  fresh n hn := by
    simp only [Graph.addNode, List.mem_append, List.mem_singleton] at hn ⊢
    rcases hn with hn | rfl
    · exact Nat.lt_succ_of_lt (h.fresh n hn)
    · exact Nat.lt_succ_self _

theorem WellFormed.setBorder {border : Border} (hok : g.setBorder id border = .ok next) : next.WellFormed := by
  simp only [Graph.setBorder, bind_eq_ok, pure, Except.pure, Except.ok.injEq] at hok
  obtain ⟨_, _, rfl⟩ := hok
  exact h.withUpdate id _ fun _ => rfl

theorem WellFormed.bind {slot : Nat} {object : Option ObjectId} (hok : g.bind id slot object = .ok next) :
    next.WellFormed := by
  have hupdate : ({ g with nodes := updateNode id (fun n => { n with params := n.params.set slot object }) g.nodes } :
      Graph).WellFormed := h.withUpdate id _ fun _ => rfl
  unfold Graph.bind at hok
  split at hok
  · obtain ⟨_, _, hok⟩ := bind_eq_ok.mp hok
    obtain ⟨n, _, hok⟩ := bind_eq_ok.mp hok
    split at hok
    · cases hok
      exact hupdate
    · contradiction
  · obtain ⟨n, _, hok⟩ := bind_eq_ok.mp hok
    split at hok
    · cases hok
      exact hupdate
    · contradiction

theorem WellFormed.removeNode {n : Node} (hok : g.removeNode id = .ok (n, next)) : next.WellFormed := by
  simp only [Graph.removeNode, bind_eq_ok, pure, Except.pure, Except.ok.injEq, Prod.mk.injEq] at hok
  obtain ⟨_, _, _, rfl⟩ := hok
  exact h.withNodes (List.eraseP_sublist.map _)

theorem WellFormed.markOutput {o : ObjectId} (hok : g.markOutput o = .ok next) : next.WellFormed := by
  simp only [Graph.markOutput, bind_eq_ok] at hok
  obtain ⟨object, hobject, hok⟩ := hok
  split at hok
  · contradiction
  rename_i hconst
  cases hok
  have hget : g.objects[o.index]? = some object := by
    unfold checkObject Graph.object? at hobject
    split at hobject
    · rename_i heq
      cases hobject
      exact heq
    · contradiction
  -- only marks change, and the object that gets one is not a constant
  have hsame : SameButMarks g.objects
      (g.objects.modify o.index fun object => { object with markedOutput := true }) := by
    intro i x hx
    rw [Array.getElem?_modify, hx]
    by_cases hi : o.index = i
    · exact ⟨{ x with markedOutput := true }, by simp [hi], rfl, rfl, rfl⟩
    · exact ⟨x, by simp [hi], rfl, rfl, rfl⟩
  refine ⟨fun i x hx => ?_, h.nodes, h.fresh⟩
  rw [Array.getElem?_modify] at hx
  split at hx
  · rename_i hi
    subst hi
    rw [hget] at hx
    cases hx
    have hs := (h.objects _ _ hget).mono hsame
    exact ⟨hs.id, hs.real, hs.virtual, fun hc => absurd hc hconst, hs.slot, hs.template⟩
  · exact (h.objects i x hx).mono hsame

/-- Every operation keeps a graph well formed. -/
theorem WellFormed.apply {e : Edit} (hok : g.apply e = .ok next) : next.WellFormed := by
  cases e with
  | image | array | scalar | pyramid =>
    cases hok
    exact h.registerPlain fun _ => ⟨rfl, rfl⟩
  | virtualImage | virtualArray | virtualScalar | constant | virtualPyramid =>
    cases hok
    exact h.registerPlain nofun
  | delay slots template =>
    obtain ⟨⟨o, last⟩, hd, rfl⟩ := map_eq_ok.mp hok
    exact h.createDelay hd
  | node kernel params =>
    cases hok
    exact h.addNode kernel params
  | border id border => exact h.setBorder hok
  | bind id slot object => exact h.bind hok
  | remove id =>
    obtain ⟨⟨n, last⟩, hr, rfl⟩ := map_eq_ok.mp hok
    exact h.removeNode hr
  | output o => exact h.markOutput hok

theorem WellFormed.edit (edits : List Edit) : (g.edit edits).WellFormed := by
  induction edits generalizing g with
  | nil => exact h
  | cons e rest ih =>
    have hstep : (((g.apply e).toOption).getD g).WellFormed := by
      cases hok : g.apply e with
      | error _ => exact h
      | ok next => exact h.apply hok
    exact ih hstep

end

theorem wellFormed_empty : Graph.empty.WellFormed :=
  ⟨fun i o h => by simp [Graph.empty] at h, .nil, nofun⟩

/-- A graph made by construction operations is well formed. -/
theorem Built.wellFormed (h : g.Built) : g.WellFormed := by
  obtain ⟨edits, rfl⟩ := h
  exact wellFormed_empty.edit edits

end Graph

end VisionGraph
