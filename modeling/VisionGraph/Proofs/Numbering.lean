import VisionGraph.Proofs.Construction
import VisionGraph.Session.Basic

/-! Numbers of objects and nodes. An object's number is its place, the images of a delay stand right behind it, and the
numbers of nodes count the insertions, so that none of them comes back after a removal. -/
namespace VisionGraph

/-- The numbers and marks of a graph are in order. -/
structure Graph.Numbered (g : Graph) : Prop where
  position : ∀ (i : Nat) (x : DataObject), g.objects[i]? = some x → x.id = ⟨i⟩
  /-- Every delay is followed by its images, which can be found by their ages. -/
  images : ∀ (d : ObjectId) (x : DataObject) (m : DelayMeta), g.object? d = some x → x.info = .delay m →
    ∀ a : UInt32, a < m.slots → ∃ y, g.object? ⟨d.index + 1 + a.toNat⟩ = some y ∧ y.slot = some ⟨d, a⟩ ∧
      y.info = .image m.template ∧ g.delaySlot d a = .ok y.id
  /-- There are no other images of delays. -/
  only : ∀ (i : Nat) (y : DataObject) (s : DelaySlot), g.objects[i]? = some y → y.slot = some s →
    i = s.delay.index + 1 + s.age.toNat ∧
      ∃ x m, g.object? s.delay = some x ∧ x.info = .delay m ∧ s.age < m.slots
  outside : ∀ (d : ObjectId) (a : UInt32),
    (∀ x m, g.object? d = some x → x.info = .delay m → m.slots ≤ a) → ∃ e, g.delaySlot d a = .error e
  unmarked : ∀ x ∈ g.objects, x.isConstant = true → x.markedOutput = false

namespace Graph

variable {g next : Graph}

/-- An image that a delay keeps for an age. -/
def delayImage (delay : ObjectId) (template : ImageMeta) (age : Nat) : DataObject :=
  ⟨⟨delay.index + 1 + age⟩, .image template, false, false, some ⟨delay, UInt32.ofNat age⟩⟩

variable {slots : UInt32} {template : ImageMeta} {d : ObjectId} {e : Edit}

theorem getElem?_registerSlots (delay : ObjectId) (left age : Nat) (hsize : g.objects.size = delay.index + 1 + age)
    (i : Nat) :
    (registerSlots delay template left age g).objects[i]? =
      if i < delay.index + 1 + age then g.objects[i]?
      else if i < delay.index + 1 + age + left then some (delayImage delay template (i - (delay.index + 1)))
      else none := by
  -- the images are added from the young to the old
  induction left generalizing g age with
  | zero =>
    simp only [registerSlots, Nat.add_zero]
    split
    · rfl
    · apply Array.getElem?_eq_none
      omega
  | succ left ih =>
    have hnext : (g.register (.image template) false (some ⟨delay, UInt32.ofNat age⟩)).2.objects.size =
        delay.index + 1 + (age + 1) := by
      rw [size_register, hsize]
      omega
    simp only [registerSlots]
    rw [ih (age + 1) hnext]
    simp only [Graph.register, Array.getElem?_push, hsize]
    by_cases hlt : i < delay.index + 1 + age
    · rw [if_pos (by omega), if_neg (by omega), if_pos hlt]
    rw [if_neg hlt]
    by_cases hi : i = delay.index + 1 + age
    · subst hi
      rw [if_pos (by omega), if_pos rfl, if_pos (by omega)]
      have hage : delay.index + 1 + age - (delay.index + 1) = age := by omega
      rw [hage]
      rfl
    · rw [if_neg (by omega)]
      congr 1
      · apply propext
        omega

/-- A new delay takes the next number, and its images take the numbers after it. -/
theorem getElem?_createDelay (h : g.createDelay slots template = .ok (d, next)) (i : Nat) : next.objects[i]? =
      if i < g.objects.size then g.objects[i]?
      else if i = g.objects.size then some ⟨⟨g.objects.size⟩, .delay ⟨slots, template⟩, false, false, none⟩
      else if i < g.objects.size + 1 + slots.toNat then
        some (delayImage ⟨g.objects.size⟩ template (i - (g.objects.size + 1)))
      else none := by
  unfold createDelay at h
  split at h
  · contradiction
  split at h
  · contradiction
  cases h
  refine (getElem?_registerSlots ⟨g.objects.size⟩ slots.toNat 0 (size_register ..) i).trans ?_
  simp only [Graph.register, Array.getElem?_push, Nat.add_zero]
  by_cases hlt : i < g.objects.size
  · rw [if_pos (by omega), if_neg (by omega), if_pos hlt]
  rw [if_neg hlt]
  by_cases hi : i = g.objects.size
  · rw [if_pos (by omega), if_pos hi, if_pos hi]
  · rw [if_neg (by omega), if_neg hi]

/-- A new delay leaves the objects before it. -/
theorem sameButMarks_createDelay (h : g.createDelay slots template = .ok (d, next)) :
    SameButMarks g.objects next.objects := by
  intro i x hx
  have hlt := (Array.getElem?_eq_some_iff.mp hx).1
  exact ⟨x, by rw [getElem?_createDelay h, if_pos hlt, hx], rfl, rfl, rfl⟩

theorem sameButMarks_mark (objects : Array DataObject) (i : Nat) :
    SameButMarks objects (objects.modify i fun x => { x with markedOutput := true }) := by
  intro j x hx
  rw [Array.getElem?_modify, hx]
  by_cases hj : i = j
  · exact ⟨{ x with markedOutput := true }, by simp [hj], rfl, rfl, rfl⟩
  · exact ⟨x, by simp [hj], rfl, rfl, rfl⟩

theorem nodes_registerSlots {delay : ObjectId} (left age : Nat) :
    (registerSlots delay template left age g).nodes = g.nodes ∧
      (registerSlots delay template left age g).nextNode = g.nextNode := by
  induction left generalizing g age with
  | zero => exact ⟨rfl, rfl⟩
  | succ left ih => exact ih (age + 1)

theorem nodes_createDelay (h : g.createDelay slots template = .ok (d, next)) :
    next.nodes = g.nodes ∧ next.nextNode = g.nextNode := by
  unfold createDelay at h
  split at h
  · contradiction
  split at h
  · contradiction
  cases h
  exact nodes_registerSlots slots.toNat 0

/-- The number that an operation gives to a new node. -/
def given (g : Graph) : Edit → List NodeId
  | .node kernel params => [(g.addNode kernel params).1]
  | _ => []

/-- The numbers that operations give to new nodes, in turn. -/
def givenAll (g : Graph) : List Edit → List NodeId
  | [] => []
  | e :: rest => g.given e ++ (g.edit [e]).givenAll rest

/-- What an operation does when it succeeds. -/
inductive Change (g : Graph) (e : Edit) (next : Graph) : Prop
  | object (info : Meta) (isVirtual : Bool) (hgiven : g.given e = []) (hinfo : info.delay? = none)
    (hnext : next = (g.register info isVirtual none).2)
  | delay (slots : UInt32) (template : ImageMeta) (d : ObjectId) (hgiven : g.given e = [])
    (hnext : g.createDelay slots template = .ok (d, next))
  | node (kernel : String) (params : List (Option ObjectId)) (he : e = .node kernel params)
    (hnext : next = (g.addNode kernel params).2)
  | nodes (nodes : List Node) (hgiven : g.given e = []) (hids : (nodes.map (·.id)).Sublist (g.nodes.map (·.id)))
    (hnext : next = { g with nodes := nodes })
  | mark (o : ObjectId) (hgiven : g.given e = [])
    (hnext : next = { g with objects := g.objects.modify o.index fun x => { x with markedOutput := true } })

/-- Nodes that are changed in place keep their numbers. -/
theorem change_updateNode (hgiven : g.given e = []) (id : NodeId) (change : Node → Node)
    (hc : ∀ n, (change n).id = n.id) : g.Change e { g with nodes := updateNode id change g.nodes } := by
  refine .nodes _ hgiven ?_ rfl
  rw [map_id_updateNode hc]

theorem eq_of_bind {id : NodeId} {slot : Nat} {object : Option ObjectId} (h : g.bind id slot object = .ok next) :
    next = { g with nodes := updateNode id (fun n => { n with params := n.params.set slot object }) g.nodes } := by
  have hlast : ∀ n : Node, (if slot < n.params.length then
      pure { g with nodes := updateNode id (fun n => { n with params := n.params.set slot object }) g.nodes }
      else throw (.parameter id slot (.noSlot n.params.length)) : Except Error Graph) = .ok next →
      next = { g with nodes := updateNode id (fun n => { n with params := n.params.set slot object }) g.nodes } := by
    intro n hn
    split at hn
    · cases hn
      rfl
    · contradiction
  cases object with
  | none =>
    obtain ⟨n, _, hn⟩ := bind_eq_ok.mp h
    exact hlast n hn
  | some o =>
    obtain ⟨_, _, h⟩ := bind_eq_ok.mp h
    obtain ⟨n, _, hn⟩ := bind_eq_ok.mp h
    exact hlast n hn

theorem change_of_apply (h : g.apply e = .ok next) : g.Change e next := by
  cases e with
  | image | virtualImage | array | virtualArray | scalar | virtualScalar | constant | pyramid | virtualPyramid =>
    cases h
    exact .object _ _ rfl rfl rfl
  | delay slots template =>
    obtain ⟨⟨d, last⟩, hd, rfl⟩ := map_eq_ok.mp h
    exact .delay slots template d rfl hd
  | node kernel params =>
    cases h
    exact .node kernel params rfl rfl
  | border id border =>
    obtain ⟨_, _, h⟩ := bind_eq_ok.mp h
    cases h
    exact change_updateNode rfl id _ fun _ => rfl
  | bind id slot object =>
    rw [eq_of_bind h]
    exact change_updateNode rfl id _ fun _ => rfl
  | remove id =>
    obtain ⟨⟨n, last⟩, hr, rfl⟩ := map_eq_ok.mp h
    obtain ⟨_, _, hr⟩ := bind_eq_ok.mp hr
    cases hr
    exact .nodes _ rfl (List.eraseP_sublist.map _) rfl
  | output o =>
    obtain ⟨x, _, h⟩ := bind_eq_ok.mp h
    dsimp only at h
    split at h
    · contradiction
    · cases h
      exact .mark o rfl rfl

/-- Every delay is followed by images for all of its ages. -/
def Followed (objects : Array DataObject) : Prop :=
  ∀ (d : Nat) (x : DataObject) (m : DelayMeta), objects[d]? = some x → x.info = .delay m →
    ∀ a : UInt32, a < m.slots → ∃ y, objects[d + 1 + a.toNat]? = some y ∧ y.slot = some ⟨⟨d⟩, a⟩ ∧
      y.info = .image m.template

theorem Followed.mono {objects next : Array DataObject} (h : Followed objects) (hsame : SameButMarks objects next)
    {d : Nat} {x : DataObject} {m : DelayMeta} (hx : objects[d]? = some x) (hm : x.info = .delay m) {a : UInt32}
    (ha : a < m.slots) : ∃ y, next[d + 1 + a.toNat]? = some y ∧ y.slot = some ⟨⟨d⟩, a⟩ ∧
      y.info = .image m.template := by
  obtain ⟨y, hy, hslot, hinfo⟩ := h d x m hx hm a ha
  obtain ⟨y', hy', hinfo', _, hslot'⟩ := hsame _ y hy
  exact ⟨y', hy', hslot'.trans hslot, hinfo'.trans hinfo⟩

theorem Followed.push {objects : Array DataObject} (h : Followed objects) {o : DataObject}
    (ho : o.info.delay? = none) : Followed (objects.push o) := by
  intro d x m hx hm a ha
  rw [Array.getElem?_push] at hx
  split at hx
  · cases hx
    rw [hm] at ho
    cases ho
  · exact h.mono (sameButMarks_push objects o) hx hm ha

theorem Followed.createDelay (h : Followed g.objects) (hok : g.createDelay slots template = .ok (d, next)) :
    Followed next.objects := by
  have hget := getElem?_createDelay hok
  have hsame := sameButMarks_createDelay hok
  intro i x m hx hm a ha
  rw [hget] at hx
  split at hx
  · -- an older delay
    exact h.mono hsame hx hm ha
  split at hx
  · -- the delay itself
    rename_i hi
    cases hx
    cases hm
    have hlt : a.toNat < slots.toNat := ha
    refine ⟨delayImage ⟨g.objects.size⟩ template a.toNat, ?_, ?_, rfl⟩
    · rw [hget, if_neg (by omega), if_neg (by omega), if_pos (by omega)]
      congr 2
      omega
    · simp [delayImage, hi]
  split at hx
  · cases hx
    cases hm
  · cases hx

theorem Followed.mark {objects : Array DataObject} (h : Followed objects) (i : Nat) :
    Followed (objects.modify i fun x => { x with markedOutput := true }) := by
  have hsame := sameButMarks_mark objects i
  intro d x m hx hm a ha
  obtain ⟨x', hx', hinfo⟩ : ∃ x', objects[d]? = some x' ∧ x'.info = x.info := by
    rw [Array.getElem?_modify] at hx
    split at hx
    · obtain ⟨x', hx', rfl⟩ := Option.map_eq_some_iff.mp hx
      exact ⟨x', hx', rfl⟩
    · exact ⟨x, hx, rfl⟩
  exact h.mono hsame hx' (hinfo.trans hm) ha

theorem Followed.change (h : Followed g.objects) (hc : g.Change e next) : Followed next.objects := by
  cases hc with
  | object info isVirtual _ hinfo hnext =>
    subst hnext
    exact h.push hinfo
  | delay slots template d _ hnext => exact h.createDelay hnext
  | node kernel params _ hnext =>
    subst hnext
    exact h
  | nodes nodes _ _ hnext =>
    subst hnext
    exact h
  | mark o _ hnext =>
    subst hnext
    exact h.mark o.index

theorem edit_cons (g : Graph) (e : Edit) (rest : List Edit) : g.edit (e :: rest) = (g.edit [e]).edit rest := rfl

/-- One operation: it fails and changes nothing, or it does one of the changes. -/
theorem edit_one_cases (g : Graph) (e : Edit) :
    (∃ err, g.apply e = .error err) ∧ g.edit [e] = g ∨ g.Change e (g.edit [e]) := by
  simp only [Graph.edit, List.foldl_cons, List.foldl_nil]
  cases h : g.apply e with
  | error err => exact .inl ⟨⟨err, rfl⟩, rfl⟩
  | ok next => exact .inr (change_of_apply h)

theorem Change.sameButMarks (h : g.Change e next) : SameButMarks g.objects next.objects := by
  have hrefl : SameButMarks g.objects g.objects := fun i x hx => ⟨x, hx, rfl, rfl, rfl⟩
  cases h with
  | object info isVirtual _ _ hnext =>
    subst hnext
    exact sameButMarks_push _ _
  | delay slots template d _ hnext => exact sameButMarks_createDelay hnext
  | node kernel params _ hnext =>
    subst hnext
    exact hrefl
  | nodes nodes _ _ hnext =>
    subst hnext
    exact hrefl
  | mark o _ hnext =>
    subst hnext
    exact sameButMarks_mark _ _

/-- Operations keep the objects up to their marks. -/
theorem sameButMarks_edit (g : Graph) (edits : List Edit) : SameButMarks g.objects (g.edit edits).objects := by
  induction edits generalizing g with
  | nil => exact fun i x hx => ⟨x, hx, rfl, rfl, rfl⟩
  | cons e rest ih =>
    intro i x hx
    have hfirst : ∃ y : DataObject, (g.edit [e]).objects[i]? = some y ∧
        y.info = x.info ∧ y.isVirtual = x.isVirtual ∧ y.slot = x.slot := by
      rcases edit_one_cases g e with ⟨_, hsame⟩ | hchange
      · rw [hsame]
        exact ⟨x, hx, rfl, rfl, rfl⟩
      · exact hchange.sameButMarks i x hx
    obtain ⟨y, hy, hinfo, hvirtual, hslot⟩ := hfirst
    obtain ⟨z, hz, hinfo', hvirtual', hslot'⟩ := ih (g.edit [e]) i y hy
    exact ⟨z, hz, hinfo'.trans hinfo, hvirtual'.trans hvirtual, hslot'.trans hslot⟩

theorem Followed.edit (h : Followed g.objects) (edits : List Edit) : Followed (g.edit edits).objects := by
  induction edits generalizing g with
  | nil => exact h
  | cons e rest ih =>
    rw [edit_cons]
    apply ih
    rcases edit_one_cases g e with ⟨_, hsame⟩ | hchange
    · rw [hsame]
      exact h
    · exact h.change hchange

/-- A node takes the next number; every other operation leaves the counter alone. -/
theorem given_eq (g : Graph) (e : Edit) : ∃ n, g.given e = (List.range' g.nextNode n).map NodeId.mk ∧
    (g.edit [e]).nextNode = g.nextNode + n ∧
      ((g.edit [e]).nodes.map (·.id)).Sublist (g.nodes.map (·.id) ++ g.given e) := by
  -- without a new node there is nothing to give
  have hkeep (hgiven : g.given e = []) (hnext : (g.edit [e]).nextNode = g.nextNode)
      (hids : ((g.edit [e]).nodes.map (·.id)).Sublist (g.nodes.map (·.id))) :
      ∃ n, g.given e = (List.range' g.nextNode n).map NodeId.mk ∧ (g.edit [e]).nextNode = g.nextNode + n ∧
        ((g.edit [e]).nodes.map (·.id)).Sublist (g.nodes.map (·.id) ++ g.given e) := by
    refine ⟨0, hgiven, hnext, ?_⟩
    rw [hgiven, List.append_nil]
    exact hids
  rcases edit_one_cases g e with ⟨⟨err, herr⟩, hsame⟩ | hchange
  · have hgiven : g.given e = [] := by
      cases e with
      | node kernel params => cases herr
      | _ => rfl
    refine hkeep hgiven ?_ ?_
    · rw [hsame]
    · rw [hsame]
  · cases hchange with
    | object info isVirtual hgiven _ hnext =>
      refine hkeep hgiven ?_ ?_
      · rw [hnext]
        rfl
      · rw [hnext]
        exact List.Sublist.refl _
    | delay slots template d hgiven hok =>
      obtain ⟨hnodes, hnext⟩ := nodes_createDelay hok
      refine hkeep hgiven hnext ?_
      rw [hnodes]
    | node kernel params he hnext =>
      subst he
      refine ⟨1, rfl, ?_, ?_⟩
      · rw [hnext]
        rfl
      · rw [hnext]
        simp [Graph.addNode, given]
    | nodes nodes hgiven hids hnext =>
      refine hkeep hgiven ?_ ?_
      · rw [hnext]
      · rw [hnext]
        exact hids
    | mark o hgiven hnext =>
      refine hkeep hgiven ?_ ?_
      · rw [hnext]
      · rw [hnext]

theorem givenAll_eq (g : Graph) (edits : List Edit) :
    ∃ n, g.givenAll edits = (List.range' g.nextNode n).map NodeId.mk ∧
      (g.edit edits).nextNode = g.nextNode + n ∧
        ((g.edit edits).nodes.map (·.id)).Sublist (g.nodes.map (·.id) ++ g.givenAll edits) := by
  induction edits generalizing g with
  | nil => exact ⟨0, rfl, rfl, by simp [givenAll, Graph.edit]⟩
  | cons e rest ih =>
    obtain ⟨k, hgiven, hnext, hids⟩ := given_eq g e
    obtain ⟨n, hrest, hlast, hall⟩ := ih (g.edit [e])
    refine ⟨k + n, ?_, ?_, ?_⟩
    · rw [givenAll, hgiven, hrest, hnext, ← List.map_append, List.range'_append_1]
    · rw [edit_cons, hlast, hnext, Nat.add_assoc]
    · rw [edit_cons, givenAll, ← List.append_assoc]
      exact hall.trans (hids.append_right _)

theorem delaySlot_of_delay {d : ObjectId} {x : DataObject} {m : DelayMeta} (hx : g.object? d = some x)
    (hm : x.info = .delay m) (a : UInt32) : g.delaySlot d a =
      if a < m.slots then .ok ⟨d.index + 1 + a.toNat⟩ else .error (.state (.noSuchAge d m.slots a)) := by
  have hcheck : g.checkObject d = .ok x := by rw [checkObject, hx]
  have hdelay : x.info.delay? = some m := by rw [hm]; rfl
  simp only [delaySlot, hcheck, Bind.bind, Except.bind, hdelay]

theorem exists_delay_of_delaySlot {d o : ObjectId} {a : UInt32} (h : g.delaySlot d a = .ok o) :
    ∃ x m, g.object? d = some x ∧ x.info = .delay m ∧ a < m.slots := by
  obtain ⟨x, hx, h⟩ := bind_eq_ok.mp h
  have hget : g.object? d = some x := by
    unfold checkObject at hx
    split at hx
    · rename_i heq
      cases hx
      exact heq
    · contradiction
  cases hinfo : x.info with
  | delay m =>
    refine ⟨x, m, hget, hinfo, ?_⟩
    by_contra hlt
    rw [hinfo] at h
    simp [Meta.delay?, hlt] at h
  | _ =>
    rw [hinfo] at h
    cases h

theorem numbered_edit (edits : List Edit) : (Graph.empty.edit edits).Numbered := by
  have hwf : (Graph.empty.edit edits).WellFormed := Built.wellFormed ⟨edits, rfl⟩
  have hempty : Followed Graph.empty.objects := by
    intro d x m hx
    simp [Graph.empty] at hx
  have hfollowed := hempty.edit edits
  generalize Graph.empty.edit edits = g at hwf hfollowed
  refine ⟨fun i x hx => (hwf.objects i x hx).id, ?_, ?_, ?_, ?_⟩
  · intro d x m hx hm a ha
    obtain ⟨y, hy, hslot, hinfo⟩ := hfollowed d.index x m hx hm a ha
    refine ⟨y, hy, hslot, hinfo, ?_⟩
    rw [delaySlot_of_delay hx hm, if_pos ha, (hwf.objects _ y hy).id]
  · intro i y s hy hs
    obtain ⟨_, hi, _⟩ := (hwf.objects i y hy).slot s hs
    obtain ⟨x, m, hx, hm, _, hage⟩ := (hwf.objects i y hy).template s hs
    exact ⟨hi, x, m, hx, hm, hage⟩
  · intro d a hout
    cases hok : g.delaySlot d a with
    | error e => exact ⟨e, rfl⟩
    | ok o =>
      obtain ⟨x, m, hx, hm, ha⟩ := exists_delay_of_delaySlot hok
      exact absurd ha (UInt32.not_lt.mpr (hout x m hx hm))
  · intro x hx hconst
    obtain ⟨i, hi⟩ := Array.mem_iff_getElem?.mp hx
    exact (hwf.objects i x hi).unmarked hconst

end Graph

/-- A change that fails is not made. -/
theorem Session.graph_edit_of_error {α : Type} (s : Session) (change : Graph → Except Error (α × Graph)) {err : Error}
    (h : (s.edit change).1 = .error err) : (s.edit change).2.graph = s.graph := by
  unfold Session.edit at h ⊢
  dsimp only at h ⊢
  split at h
  · cases h
  · rfl

namespace Graph

end Graph

end VisionGraph
