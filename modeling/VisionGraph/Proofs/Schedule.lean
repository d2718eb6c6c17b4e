import Mathlib.Data.List.Perm.Basic
import VisionGraph.Graph.Access

/-! The schedule of a list of nodes: it names every node once, no node feeds an earlier one, and there is one
whenever the nodes can be put in such an order at all. -/
namespace VisionGraph.Access

theorem mem_without {left : List (Access × Nat)} {position : Nat} {e : Access × Nat} :
    e ∈ without left position ↔ e ∈ left ∧ e.2 ≠ position := by
  simp [without]

/-- Taking a node out leaves the others. -/
theorem perm_cons_without {left : List (Access × Nat)} (hn : (left.map (·.2)).Nodup)
    {e : Access × Nat} (he : e ∈ left) : (e :: without left e.2).Perm left := by
  obtain ⟨front, back, rfl⟩ := List.append_of_mem he
  have hne : ∀ p ∈ front ++ back, (p.2 != e.2) = true := by
    have hperm : ((front ++ e :: back).map (·.2)).Perm (e.2 :: (front ++ back).map (·.2)) := by
      simp
    have hnot := (List.nodup_cons.mp (hperm.nodup_iff.mp hn)).1
    intro p hp
    simpa using fun h => hnot (List.mem_map.mpr ⟨p, hp, h⟩)
  have hrest : without (front ++ e :: back) e.2 = front ++ back := by
    rw [List.forall_mem_append] at hne
    simp [without, List.filter_append, List.filter_eq_self.mpr hne.1, List.filter_eq_self.mpr hne.2]
  rw [hrest]
  exact List.perm_middle.symm

theorem nodup_without {left : List (Access × Nat)} (hn : (left.map (·.2)).Nodup) (position : Nat) :
    ((without left position).map (·.2)).Nodup :=
  hn.sublist (List.filter_sublist.map _)

/-- No later node feeds an earlier one. -/
def Ordered (l : List (Access × Nat)) : Prop := l.Pairwise fun a b => b.1.feeds a.1 = false

theorem orderOf_perm_ordered {left : List (Access × Nat)} (hn : (left.map (·.2)).Nodup) {order : List Nat}
    (h : orderOf left = .ok order) :
    ∃ l : List (Access × Nat), l.Perm left ∧ order = l.map (·.2) ∧ Ordered l := by
  fun_induction orderOf left generalizing order with
  | case1 left e hfind ih =>
    have he : e ∈ left := List.mem_of_find?_eq_some hfind
    have hready : ready left e = true := List.find?_some hfind
    obtain ⟨rest, hrest⟩ : ∃ rest, orderOf (without left e.2) = .ok rest := by
      cases hr : orderOf (without left e.2) with
      | error s => simp [hr, Except.map] at h
      | ok rest => exact ⟨rest, rfl⟩
    obtain ⟨l, hperm, rfl, hord⟩ := ih (nodup_without hn e.2) hrest
    have horder : order = e.2 :: l.map (·.2) := by
      rw [hrest] at h
      simpa [Except.map] using h.symm
    -- the entry that goes first is ready: nothing that is left has to come before it
    refine ⟨e :: l, (hperm.cons e).trans (perm_cons_without hn he), by simpa using horder, ?_⟩
    refine List.pairwise_cons.mpr ⟨fun p hp => ?_, hord⟩
    obtain ⟨hpl, hne⟩ := mem_without.mp (hperm.mem_iff.mp hp)
    have := List.all_eq_true.mp hready p hpl
    simpa [hne] using this
  | case2 left hfind hempty =>
    cases h
    exact ⟨[], by simp [List.isEmpty_iff.mp hempty], rfl, .nil⟩
  | case3 left hfind hempty => cases h

theorem exists_orderOf_eq_ok {left : List (Access × Nat)} (hn : (left.map (·.2)).Nodup)
    {l : List (Access × Nat)} (hp : l.Perm left) (hl : Ordered l) : ∃ order, orderOf left = .ok order := by
  fun_induction orderOf left generalizing l with
  | case1 left e hfind ih =>
    have hperm : (l.filter (·.2 != e.2)).Perm (without left e.2) := hp.filter _
    obtain ⟨rest, hrest⟩ := ih (nodup_without hn e.2) hperm (hl.filter _)
    exact ⟨e.2 :: rest, by rw [hrest]; rfl⟩
  | case2 left hfind hempty => exact ⟨[], rfl⟩
  | case3 left hfind hempty =>
    -- the first node of an order is fed by no other, so it is ready
    cases l with
    | nil => simp [List.nil_perm.mp hp] at hempty
    | cons c l =>
      have hc : c ∈ left := hp.mem_iff.mp List.mem_cons_self
      have hready : ready left c = true := by
        rw [ready, List.all_eq_true]
        intro p hpl
        rcases List.mem_cons.mp (hp.mem_iff.mpr hpl) with rfl | hpl
        · simp
        · simp [(List.pairwise_cons.mp hl).1 p hpl]
      exact absurd hready (List.find?_eq_none.mp hfind c hc)

/-! ### The schedule of items with accesses -/

variable {α : Type}

/-- The items at the positions of an order, with their positions. -/
def scheduled (l : List α) (order : List Nat) : List (Nat × α) :=
  order.filterMap fun i => (l[i]?).map fun c => (i, c)

theorem nodup_positions (l : List α) : (l.zipIdx.map (·.2)).Nodup := by
  rw [List.zipIdx_map_snd]
  exact List.nodup_range'

theorem scheduled_of_map (l : List α) {e : List (α × Nat)} (he : ∀ x ∈ e, x ∈ l.zipIdx) :
    scheduled l (e.map (·.2)) = e.map fun x => (x.2, x.1) := by
  induction e with
  | nil => rfl
  | cons x e ih =>
    obtain ⟨hx, he⟩ := List.forall_mem_cons.mp he
    have hget : l[x.2]? = some x.1 := List.mem_zipIdx_iff_getElem?.mp hx
    have := ih he
    simp only [scheduled] at this ⊢
    simp [hget, this]

/-- A list whose image is a rearrangement comes from a rearrangement. -/
theorem exists_perm_map_eq {β : Type} (f : α → β) {l : List α} {r : List β} (h : r.Perm (l.map f)) :
    ∃ s : List α, s.Perm l ∧ s.map f = r := by
  induction r generalizing l with
  | nil =>
    have : l = [] := by simpa using h.symm.eq_nil
    exact ⟨[], by simp [this], rfl⟩
  | cons b r ih =>
    obtain ⟨a, ha, rfl⟩ := List.mem_map.mp (h.mem_iff.mp List.mem_cons_self)
    obtain ⟨front, back, rfl⟩ := List.append_of_mem ha
    have hmid : ((front ++ a :: back).map f).Perm (f a :: (front ++ back).map f) := by
      simp
    obtain ⟨s, hs, rfl⟩ := ih (h.trans hmid).cons_inv
    exact ⟨a :: s, (hs.cons a).trans List.perm_middle.symm, rfl⟩

/-- An order names every item once, and no item feeds an earlier one. -/
theorem scheduled_perm_ordered (f : α → Access) {l : List α} {positions : List Nat}
    (h : order (l.map f) = .ok positions) :
    ((scheduled l positions).map fun x => (x.2, x.1)).Perm l.zipIdx ∧
      (scheduled l positions).Pairwise fun a b => (f b.2).feeds (f a.2) = false := by
  obtain ⟨e, hperm, rfl, hord⟩ := orderOf_perm_ordered (nodup_positions (l.map f)) h
  rw [List.zipIdx_map] at hperm
  obtain ⟨s, hs, rfl⟩ := exists_perm_map_eq _ hperm
  have hpos : (s.map (Prod.map f id)).map (·.2) = s.map (·.2) := by simp
  rw [hpos, scheduled_of_map l fun x hx => hs.mem_iff.mp hx]
  have hback : (s.map fun x => (x.2, x.1)).map (fun x => (x.2, x.1)) = s := by
    rw [List.map_map]
    exact List.map_id' s
  refine ⟨by rwa [hback], ?_⟩
  rw [Ordered, List.pairwise_map] at hord
  rw [List.pairwise_map]
  exact hord

/-- Items that can be put in an order have a schedule. -/
theorem exists_order_eq_ok (f : α → Access) {l s : List α} (hp : s.Perm l)
    (hs : s.Pairwise fun a b => (f b).feeds (f a) = false) : ∃ positions, order (l.map f) = .ok positions := by
  have hfst : (l.map f).zipIdx.map (·.1) = l.map f := List.zipIdx_map_fst ..
  have hperm : (s.map f).Perm ((l.map f).zipIdx.map (·.1)) := by
    rw [hfst]
    exact hp.map f
  obtain ⟨e, he, hmap⟩ := exists_perm_map_eq (fun x : Access × Nat => x.1) hperm
  refine exists_orderOf_eq_ok (nodup_positions (l.map f)) he ?_
  have : (e.map (·.1)).Pairwise fun a b => b.feeds a = false := by
    rw [hmap, List.pairwise_map]
    exact hs
  exact List.pairwise_map.mp this

end VisionGraph.Access
