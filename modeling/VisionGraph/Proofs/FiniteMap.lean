import Mathlib.Data.List.Perm.Basic
import VisionGraph.Data.IdMap

/-! Look-up in finite maps after each operation. Since a map keeps its entries in the order of their numbers,
maps that answer every look-up alike are equal. -/
namespace VisionGraph.IdMap

variable {α β : Type}

theorem object_ext {o p : ObjectId} (h : o.index = p.index) : o = p := by
  cases o
  cases p
  simpa using h

theorem lookup_cons_eq (o p : ObjectId) (a : α) (l : List (ObjectId × α)) :
    ((o, a) :: l).lookup p = if p = o then some a else l.lookup p := by
  rw [List.lookup_cons]
  by_cases h : p = o
  · simp [h]
  · have hbeq : (p == o) = false := by simpa using h
    simp [h, hbeq]

/-- An entry is what a look-up finds: no other entry has its number. -/
theorem get?_eq_some_iff {m : IdMap α} {o : ObjectId} {a : α} :
    m.get? o = some a ↔ (o, a) ∈ m.entries := by
  obtain ⟨entries, sorted⟩ := m
  simp only [get?]
  induction entries with
  | nil => simp
  | cons e rest ih =>
    obtain ⟨p, b⟩ := e
    obtain ⟨hlt, hrest⟩ := List.pairwise_cons.mp sorted
    rw [lookup_cons_eq]
    by_cases he : o = p
    · have hnot : (o, a) ∉ rest := by
        intro hm
        have := hlt _ hm
        simp only [he] at this
        omega
      simp only [he, ↓reduceIte, Option.some.injEq, List.mem_cons, Prod.mk.injEq, true_and]
      constructor
      · exact fun h => .inl h.symm
      · rintro (h | h)
        · exact h.symm
        · exact absurd (he ▸ h) hnot
    · simp only [he, ↓reduceIte, List.mem_cons, Prod.mk.injEq, false_and, false_or, ih hrest]

theorem entries_ext {m n : IdMap α} (h : m.entries = n.entries) : m = n := by
  cases m
  cases n
  simpa using h

/-- Lists that increase along some number are equal when they have the same members. -/
theorem eq_of_increasing (f : α → Nat) {l l' : List α} (h : l.Pairwise (f · < f ·)) (h' : l'.Pairwise (f · < f ·))
    (hmem : ∀ a, a ∈ l ↔ a ∈ l') : l = l' := by
  have hnodup (k : List α) (hk : k.Pairwise (f · < f ·)) : k.Nodup :=
    hk.imp fun hlt he => by rw [he] at hlt; exact Nat.lt_irrefl _ hlt
  have hperm : l.Perm l' := (List.perm_ext_iff_of_nodup (hnodup l h) (hnodup l' h')).mpr hmem
  refine hperm.eq_of_pairwise ?_ h h'
  intro a b _ _ hab hba
  omega

/-- Maps that answer every look-up alike are equal. -/
theorem ext {m n : IdMap α} (h : ∀ o, m.get? o = n.get? o) : m = n := by
  refine entries_ext (eq_of_increasing (fun e => e.1.index) m.sorted n.sorted fun e => ?_)
  obtain ⟨o, a⟩ := e
  rw [← get?_eq_some_iff, ← get?_eq_some_iff, h o]

@[simp] theorem get?_empty (o : ObjectId) : (empty : IdMap α).get? o = none := rfl

theorem contains_iff {m : IdMap α} {o : ObjectId} : m.contains o = true ↔ ∃ a, m.get? o = some a := by
  simp only [contains, Option.isSome_iff_exists]

theorem lookup_place (o p : ObjectId) (a : α) (l : List (ObjectId × α)) :
    (place o a l).lookup p = if p = o then some a else l.lookup p := by
  induction l with
  | nil => rw [place, lookup_cons_eq]
  | cons e rest ih =>
    obtain ⟨q, b⟩ := e
    simp only [place]
    split
    · rw [lookup_cons_eq]
    · split
      · rename_i heq
        have hq : o = q := object_ext heq
        simp only [lookup_cons_eq, hq]
        split <;> rfl
      · rename_i hne
        have hq : q ≠ o := fun h => hne (by rw [h])
        simp only [lookup_cons_eq, ih]
        by_cases hp : p = q
        · simp [hp, hq]
        · simp [hp]

theorem get?_insert (m : IdMap α) (o p : ObjectId) (a : α) :
    (m.insert o a).get? p = if p = o then some a else m.get? p :=
  lookup_place o p a m.entries

@[simp] theorem get?_insert_self (m : IdMap α) (o : ObjectId) (a : α) : (m.insert o a).get? o = some a := by
  simp [get?_insert]

theorem get?_insert_of_ne (m : IdMap α) {o p : ObjectId} (a : α) (h : p ≠ o) :
    (m.insert o a).get? p = m.get? p := by
  simp [get?_insert, h]

theorem get?_filter (m : IdMap α) (keep : ObjectId → α → Bool) (o : ObjectId) :
    (m.filter keep).get? o = (m.get? o).filter (keep o) := by
  apply Option.ext
  intro a
  simp only [get?_eq_some_iff, Option.filter_eq_some_iff, filter, List.mem_filter]

theorem get?_erase (m : IdMap α) (o p : ObjectId) :
    (m.erase o).get? p = if p = o then none else m.get? p := by
  rw [erase, get?_filter]
  by_cases h : p = o
  · cases m.get? p <;> simp [h]
  · cases m.get? p <;> simp [h]

theorem get?_foldl_erase (m : IdMap α) (l : List ObjectId) (p : ObjectId) :
    (l.foldl erase m).get? p = if p ∈ l then none else m.get? p := by
  induction l generalizing m with
  | nil => simp
  | cons o l ih =>
    rw [List.foldl_cons, ih, get?_erase]
    by_cases hl : p ∈ l
    · simp [hl]
    · by_cases ho : p = o <;> simp [hl, ho]

theorem get?_foldl_insert (m : IdMap α) (l : List (ObjectId × α)) (hl : (l.map (·.1)).Nodup) (o : ObjectId) :
    (l.foldl (fun m e => m.insert e.1 e.2) m).get? o = (l.lookup o).or (m.get? o) := by
  induction l generalizing m with
  | nil => simp
  | cons e l ih =>
    obtain ⟨q, b⟩ := e
    obtain ⟨hnot, hl⟩ := List.nodup_cons.mp hl
    rw [List.foldl_cons, ih _ hl, get?_insert, lookup_cons_eq]
    by_cases h : o = q
    · have hnone : l.lookup o = none := by
        rw [List.lookup_eq_none_iff]
        intro p hp
        have : p.1 ≠ q := fun he => hnot (List.mem_map.mpr ⟨p, hp, he⟩)
        simpa [h] using this.symm
      rw [hnone]
      simp [h]
    · simp [h]

/-- A map made from entries of distinct numbers holds just these entries. -/
theorem lookup_eq_some_iff {l : List (ObjectId × α)} (hl : (l.map (·.1)).Nodup) {o : ObjectId} {a : α} :
    l.lookup o = some a ↔ (o, a) ∈ l := by
  induction l with
  | nil => simp
  | cons e l ih =>
    obtain ⟨p, b⟩ := e
    obtain ⟨hp, hrest⟩ := List.nodup_cons.mp hl
    rw [lookup_cons_eq, List.mem_cons, Prod.mk.injEq, ← ih hrest]
    by_cases h : o = p
    · subst h
      have hnone : l.lookup o ≠ some a := fun hs => hp (List.mem_map.mpr ⟨_, (ih hrest).mp hs, rfl⟩)
      simp [hnone, eq_comm]
    · simp [h]

/-- A map made of entries with distinct numbers has exactly these entries. -/
theorem get?_ofList {l : List (ObjectId × α)} (hl : (l.map (·.1)).Nodup) {o : ObjectId} {a : α} :
    (ofList l).get? o = some a ↔ (o, a) ∈ l := by
  rw [ofList, get?_foldl_insert _ _ hl, get?_empty, Option.or_none, lookup_eq_some_iff hl]

/-- A map made of entries has no others, also when numbers occur twice. -/
theorem mem_of_get?_ofList {l : List (ObjectId × α)} {o : ObjectId} {a : α} (h : (ofList l).get? o = some a) :
    (o, a) ∈ l := by
  have hfold : ∀ m : IdMap α, (l.foldl (fun m e => m.insert e.1 e.2) m).get? o = some a →
      (o, a) ∈ l ∨ m.get? o = some a := by
    clear h
    induction l with
    | nil => exact fun m hm => .inr hm
    | cons e l ih =>
      intro m hm
      rcases ih _ hm with hl | he
      · exact .inl (List.mem_cons_of_mem e hl)
      · rw [get?_insert] at he
        split at he
        · rename_i heq
          cases he
          exact .inl (heq ▸ List.mem_cons_self)
        · exact .inr he
  exact (hfold empty h).resolve_right (by simp)

theorem nodup_keys (m : IdMap α) : m.keys.Nodup := by
  rw [keys, List.Nodup, List.pairwise_map]
  apply m.sorted.imp
  intro a b hlt heq
  rw [heq] at hlt
  exact Nat.lt_irrefl _ hlt

/-- A map is made of its own entries. -/
theorem ofList_entries (m : IdMap α) : ofList m.entries = m := by
  apply ext
  intro o
  apply Option.ext
  intro a
  rw [get?_ofList m.nodup_keys, get?_eq_some_iff]

theorem mem_values_iff {m : IdMap α} {a : α} : a ∈ m.values ↔ ∃ o, m.get? o = some a := by
  simp only [values, List.mem_map, get?_eq_some_iff]
  constructor
  · rintro ⟨⟨o, b⟩, hm, rfl⟩
    exact ⟨o, hm⟩
  · rintro ⟨o, hm⟩
    exact ⟨(o, a), hm, rfl⟩

end VisionGraph.IdMap
