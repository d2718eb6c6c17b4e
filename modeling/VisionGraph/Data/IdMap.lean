import VisionGraph.Data.Object
/-!
Finite maps from object numbers, kept as lists in increasing order of the number. A map has one
representation, so maps with the same entries are equal.
-/

namespace VisionGraph

/-- A finite map from object numbers. -/
structure IdMap (α : Type) where
  entries : List (ObjectId × α)
  sorted : entries.Pairwise (fun a b => a.1.index < b.1.index)

namespace IdMap

variable {α β : Type}

instance [Repr α] : Repr (IdMap α) := ⟨fun m n => reprPrec (m.entries.map fun e => (e.1.index, e.2)) n⟩

instance [DecidableEq α] : DecidableEq (IdMap α) := fun a b =>
  if h : a.entries = b.entries then
    .isTrue (by cases a; cases b; simp_all)
  else .isFalse (fun e => h (e ▸ rfl))

def empty : IdMap α := ⟨[], .nil⟩

instance : Inhabited (IdMap α) := ⟨empty⟩

def get? (m : IdMap α) (o : ObjectId) : Option α := m.entries.lookup o

def contains (m : IdMap α) (o : ObjectId) : Bool := (m.get? o).isSome

def size (m : IdMap α) : Nat := m.entries.length

def isEmpty (m : IdMap α) : Bool := m.entries.isEmpty

def keys (m : IdMap α) : List ObjectId := m.entries.map (·.1)

def values (m : IdMap α) : List α := m.entries.map (·.2)

/-- Puts an entry at its place, in place of an entry with the same number. -/
def place (o : ObjectId) (a : α) : List (ObjectId × α) → List (ObjectId × α)
  | [] => [(o, a)]
  | (p, b) :: rest =>
    if o.index < p.index then (o, a) :: (p, b) :: rest
    else if o.index = p.index then (o, a) :: rest
    else (p, b) :: place o a rest

theorem mem_place {o : ObjectId} {a : α} {l : List (ObjectId × α)} {e : ObjectId × α}
    (h : e ∈ place o a l) : e = (o, a) ∨ e ∈ l := by
  induction l with
  | nil => simpa [place] using h
  | cons x rest ih =>
    obtain ⟨p, b⟩ := x
    simp only [place] at h
    split at h
    · simpa using h
    · split at h
      · rcases List.mem_cons.1 h with h | h
        · exact .inl h
        · exact .inr (List.mem_cons_of_mem _ h)
      · rcases List.mem_cons.1 h with h | h
        · exact .inr (h ▸ List.mem_cons_self)
        · exact (ih h).imp id (List.mem_cons_of_mem _)

theorem sorted_place (o : ObjectId) (a : α) {l : List (ObjectId × α)}
    (h : l.Pairwise (fun a b => a.1.index < b.1.index)) :
    (place o a l).Pairwise (fun a b => a.1.index < b.1.index) := by
  induction l with
  | nil => simp [place]
  | cons x rest ih =>
    obtain ⟨p, b⟩ := x
    rw [List.pairwise_cons] at h
    simp only [place]
    split
    · rename_i lt
      refine List.pairwise_cons.2 ⟨fun e he => ?_, List.pairwise_cons.2 h⟩
      rcases List.mem_cons.1 he with rfl | he
      · exact lt
      · exact Nat.lt_trans lt (h.1 e he)
    · split
      · rename_i _ eq
        refine List.pairwise_cons.2 ⟨fun e he => ?_, h.2⟩
        have : p.index < e.1.index := h.1 e he
        show o.index < e.1.index
        omega
      · refine List.pairwise_cons.2 ⟨fun e he => ?_, ih h.2⟩
        rcases mem_place he with rfl | he
        · show p.index < o.index
          omega
        · exact h.1 e he

def insert (m : IdMap α) (o : ObjectId) (a : α) : IdMap α :=
  ⟨place o a m.entries, sorted_place o a m.sorted⟩

def ofList (entries : List (ObjectId × α)) : IdMap α :=
  entries.foldl (fun m e => m.insert e.1 e.2) empty

/-- The entries whose number and value are kept. -/
def filter (keep : ObjectId → α → Bool) (m : IdMap α) : IdMap α :=
  ⟨m.entries.filter fun e => keep e.1 e.2, m.sorted.filter _⟩

def erase (m : IdMap α) (o : ObjectId) : IdMap α := m.filter fun p _ => p != o

/-- Applies a function to every value. -/
def map (f : ObjectId → α → β) (m : IdMap α) : IdMap β :=
  ⟨m.entries.map fun e => (e.1, f e.1 e.2), List.pairwise_map.2 m.sorted⟩

end IdMap

end VisionGraph
