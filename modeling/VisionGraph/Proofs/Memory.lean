import Mathlib.Data.Nat.ModEq
import VisionGraph.Run.Memory
import VisionGraph.Proofs.FiniteMap
import VisionGraph.Proofs.Sequence

/-! Memory of a run as a store of places. The images of a delay are places inside the place of the delay, so
two places are independent only when they are apart. -/
namespace VisionGraph

namespace DelayBuffer

theorem eq_of_fields {d e : DelayBuffer} (ht : d.template = e.template) (hr : d.ring = e.ring)
    (hh : d.head = e.head) : d = e := by
  cases d
  cases e
  simp_all

/-- Two ages of a delay stand at different places of its ring. -/
theorem index_ne (d : DelayBuffer) {a b : Nat} (ha : a < d.ring.size) (hb : b < d.ring.size) (h : a ≠ b) :
    d.index a ≠ d.index b := by
  intro he
  have hab : a ≡ b [MOD d.ring.size] := Nat.ModEq.add_left_cancel' d.head he
  exact h (hab.eq_of_lt_of_lt ha hb)

@[simp] theorem template_setSlot (d : DelayBuffer) (age : Nat) (b : ImageBuffer) :
    (d.setSlot age b).template = d.template := by
  unfold setSlot
  split <;> rfl

@[simp] theorem head_setSlot (d : DelayBuffer) (age : Nat) (b : ImageBuffer) : (d.setSlot age b).head = d.head := by
  unfold setSlot
  split <;> rfl

theorem ring_setSlot (d : DelayBuffer) (age : Nat) (b : ImageBuffer) :
    (d.setSlot age b).ring = if age < d.ring.size then d.ring.setIfInBounds (d.index age) b else d.ring := by
  unfold setSlot
  split <;> rfl

@[simp] theorem size_ring_setSlot (d : DelayBuffer) (age : Nat) (b : ImageBuffer) :
    (d.setSlot age b).ring.size = d.ring.size := by
  rw [ring_setSlot]
  split
  · simp
  · rfl

@[simp] theorem index_setSlot (d : DelayBuffer) (age : Nat) (b : ImageBuffer) (k : Nat) :
    (d.setSlot age b).index k = d.index k := by
  simp [index]

theorem exists_slot? (d : DelayBuffer) {age : Nat} (h : age < d.ring.size) : ∃ b ∈ d.ring, d.slot? age = some b := by
  have hindex : d.index age < d.ring.size := Nat.mod_lt _ (Nat.zero_lt_of_lt h)
  refine ⟨d.ring[d.index age], Array.getElem_mem hindex, ?_⟩
  rw [slot?, if_pos h, Array.getElem?_eq_getElem hindex]

theorem slot?_setSlot_of_ne (d : DelayBuffer) {a b : Nat} (x : ImageBuffer) (h : a ≠ b) :
    (d.setSlot a x).slot? b = d.slot? b := by
  rw [slot?, slot?, size_ring_setSlot, index_setSlot, ring_setSlot]
  by_cases hb : b < d.ring.size
  · by_cases ha : a < d.ring.size
    · simp [hb, ha, Array.getElem?_setIfInBounds_ne (d.index_ne ha hb h)]
    · simp [ha]
  · simp [hb]

theorem setSlot_comm (d : DelayBuffer) {a b : Nat} (x y : ImageBuffer) (h : a ≠ b) :
    (d.setSlot a x).setSlot b y = (d.setSlot b y).setSlot a x := by
  refine eq_of_fields (by simp) ?_ (by simp)
  rw [ring_setSlot (d.setSlot a x), ring_setSlot (d.setSlot b y), size_ring_setSlot, size_ring_setSlot,
    index_setSlot, index_setSlot, ring_setSlot, ring_setSlot]
  by_cases ha : a < d.ring.size
  · by_cases hb : b < d.ring.size
    · simp only [ha, hb, ↓reduceIte]
      exact Array.setIfInBounds_comm _ _ (d.index_ne ha hb h)
    · simp [ha, hb]
  · simp [ha]

end DelayBuffer

namespace Place

/-- Places that share nothing: a delay contains its images. -/
def Apart : Place → Place → Prop
  | .host o, .host p => o ≠ p
  | .host o, .slot d _ => o ≠ d
  | .slot d _, .host o => o ≠ d
  | .slot d a, .slot e b => d ≠ e ∨ a ≠ b
  | .scratch o, .scratch p => o ≠ p
  | .scratch _, _ => True
  | _, .scratch _ => True

theorem Apart.symm {a b : Place} (h : a.Apart b) : b.Apart a := by
  cases a <;> cases b <;> simp_all [Apart]
  case host.host => exact fun he => h he.symm
  case slot.slot d a e b => exact h.imp (fun hne he => hne he.symm) fun hne he => hne he.symm
  case scratch.scratch => exact fun he => h he.symm

theorem Apart.ne {a b : Place} (h : a.Apart b) : a ≠ b := by
  rintro rfl
  cases a <;> simp_all [Apart]

end Place

namespace Memory

variable {m n : Memory}

theorem ext (hh : ∀ o, m.host.get? o = n.host.get? o) (hs : ∀ o, m.scratch.get? o = n.scratch.get? o) : m = n := by
  obtain ⟨host, scratch⟩ := m
  obtain ⟨host', scratch'⟩ := n
  rw [Memory.mk.injEq]
  exact ⟨IdMap.ext hh, IdMap.ext hs⟩

/-- What becomes of a host object when the image of an age is replaced in it. -/
def replaceSlot (age : Nat) (x : Host) : Option Host → Option Host
  | some (.delay d) =>
    match x with
    | .image b => some (.delay (d.setSlot age b))
    | _ => some (.delay d)
  | held => held

theorem replaceSlot_comm {a b : Nat} (h : a ≠ b) (x y : Host) (held : Option Host) :
    replaceSlot b y (replaceSlot a x held) = replaceSlot a x (replaceSlot b y held) := by
  cases held with
  | none => rfl
  | some held =>
    cases held with
    | delay d => cases x <;> cases y <;> simp [replaceSlot, DelayBuffer.setSlot_comm _ _ _ h]
    | _ => rfl

/-! ### What setting a place does to host objects and to scratch objects -/

theorem host_set_host (o p : ObjectId) (x : Host) :
    (m.set (.host o) x).host.get? p = if p = o then some x else m.host.get? p :=
  IdMap.get?_insert ..

theorem host_set_slot (d : ObjectId) (age : Nat) (p : ObjectId) (x : Host) :
    (m.set (.slot d age) x).host.get? p = if p = d then replaceSlot age x (m.host.get? d) else m.host.get? p := by
  simp only [set]
  split
  · rename_i delay image hget
    rw [IdMap.get?_insert, hget]
    rfl
  · rename_i hno
    by_cases hp : p = d
    · rw [if_pos hp, hp]
      unfold replaceSlot
      split
      · rename_i delay heq
        split
        · exact absurd rfl (hno _ _ heq)
        · exact heq
      · rfl
    · rw [if_neg hp]

theorem host_set_scratch (o p : ObjectId) (x : Host) : (m.set (.scratch o) x).host.get? p = m.host.get? p := rfl

theorem scratch_set_host (o p : ObjectId) (x : Host) : (m.set (.host o) x).scratch.get? p = m.scratch.get? p := rfl

theorem scratch_set_slot (d : ObjectId) (age : Nat) (p : ObjectId) (x : Host) :
    (m.set (.slot d age) x).scratch.get? p = m.scratch.get? p := by
  simp only [set]
  split <;> rfl

theorem scratch_set_scratch (o p : ObjectId) (x : Host) :
    (m.set (.scratch o) x).scratch.get? p = if p = o then some x else m.scratch.get? p :=
  IdMap.get?_insert ..

theorem get?_slot (d : ObjectId) (age : Nat) :
    m.get? (.slot d age) = (m.host.get? d).bind fun
      | .delay buffer => (buffer.slot? age).map .image
      | _ => none := by
  simp only [get?]
  cases m.host.get? d with
  | none => rfl
  | some held => cases held <;> rfl

theorem get?_set_of_apart {a b : Place} (h : a.Apart b) (m : Memory) (x : Host) :
    (m.set a x).get? b = m.get? b := by
  cases a with
  | host o =>
    cases b with
    | host p => exact IdMap.get?_insert_of_ne _ _ (Ne.symm h)
    | slot d age =>
      have ho : d ≠ o := Ne.symm h
      rw [get?_slot, get?_slot, host_set_host, if_neg ho]
    | scratch p => rfl
  | scratch o =>
    cases b with
    | host p => rfl
    | slot d age => rfl
    | scratch p => exact IdMap.get?_insert_of_ne _ _ (Ne.symm h)
  | slot d a =>
    -- the delay that contains the image changes, and with it the images of no other age
    cases b with
    | host p =>
      have hp : p ≠ d := h
      show (m.set (.slot d a) x).host.get? p = m.host.get? p
      rw [host_set_slot, if_neg hp]
    | scratch p => exact scratch_set_slot ..
    | slot e b =>
      rw [get?_slot, get?_slot, host_set_slot]
      by_cases he : e = d
      · subst he
        have hab : a ≠ b := h.resolve_left fun hne => hne rfl
        rw [if_pos rfl]
        cases m.host.get? e with
        | none => rfl
        | some held =>
          cases held with
          | delay buffer => cases x <;> simp [replaceSlot, DelayBuffer.slot?_setSlot_of_ne _ _ hab]
          | _ => rfl
      · rw [if_neg he]

/-- Apart places are set in either order. -/
theorem set_comm {a b : Place} (h : a.Apart b) (m : Memory) (x y : Host) :
    (m.set a x).set b y = (m.set b y).set a x := by
  refine ext (fun p => ?_) fun p => ?_
  · cases a <;> cases b <;> simp only [host_set_host, host_set_slot, host_set_scratch] <;> simp only [Place.Apart] at h
    case host.host o q => grind
    case host.slot o d b => grind
    case slot.host d a o => grind
    case slot.slot d a e b =>
      by_cases he : e = d
      · subst he
        have hab : a ≠ b := h.resolve_left fun hne => hne rfl
        by_cases hp : p = e
        · simp only [hp, if_true]
          exact replaceSlot_comm hab x y _
        · simp [hp]
      · grind
  · cases a <;> cases b <;> simp only [scratch_set_host, scratch_set_slot, scratch_set_scratch]
    case scratch.scratch o q =>
      have hoq : o ≠ q := h
      grind

/-! ### Setting many places -/

/-- Sets places in turn. -/
def setAll (m : Memory) (updates : List (Place × Host)) : Memory := updates.foldl (fun m u => m.set u.1 u.2) m

theorem setAll_cons (m : Memory) (u : Place × Host) (updates : List (Place × Host)) :
    m.setAll (u :: updates) = (m.set u.1 u.2).setAll updates := rfl

theorem get?_setAll {updates : List (Place × Host)} {b : Place} (h : ∀ u ∈ updates, u.1.Apart b) (m : Memory) :
    (m.setAll updates).get? b = m.get? b := by
  induction updates generalizing m with
  | nil => rfl
  | cons u updates ih =>
    rw [setAll_cons, ih fun v hv => h v (List.mem_cons_of_mem _ hv)]
    exact get?_set_of_apart (h u List.mem_cons_self) m u.2

theorem set_setAll {updates : List (Place × Host)} {a : Place} (h : ∀ u ∈ updates, u.1.Apart a) (m : Memory)
    (x : Host) : (m.setAll updates).set a x = (m.set a x).setAll updates := by
  induction updates generalizing m with
  | nil => rfl
  | cons u updates ih =>
    rw [setAll_cons, setAll_cons, ih fun v hv => h v (List.mem_cons_of_mem _ hv),
      set_comm (h u List.mem_cons_self)]

theorem setAll_comm {l l' : List (Place × Host)} (h : ∀ u ∈ l, ∀ v ∈ l', u.1.Apart v.1) (m : Memory) :
    (m.setAll l).setAll l' = (m.setAll l').setAll l := by
  induction l' generalizing m with
  | nil => rfl
  | cons v l' ih =>
    rw [setAll_cons, setAll_cons, set_setAll fun u hu => h u hu v List.mem_cons_self]
    exact ih (fun u hu w hw => h u hu w (List.mem_cons_of_mem _ hw)) _

/-- Places that are apart from each other are set in any order. -/
theorem setAll_perm {l l' : List (Place × Host)} (hp : l.Perm l') (h : l.Pairwise fun u v => u.1.Apart v.1)
    (m : Memory) : m.setAll l = m.setAll l' := by
  induction hp generalizing m with
  | nil => rfl
  | cons u _ ih => exact ih (List.pairwise_cons.mp h).2 _
  | swap u v l =>
    have huv : v.1.Apart u.1 := (List.pairwise_cons.mp h).1 u List.mem_cons_self
    simp only [setAll_cons, set_comm huv]
  | trans h₁ _ ih₁ ih₂ =>
    exact (ih₁ h m).trans (ih₂ ((h₁.pairwise_iff fun huv => huv.symm).mp h) m)

theorem store_eq_setAll (m : Memory) (places written : List Place) (objects : Array Host) :
    m.store places written objects = m.setAll ((places.zip objects.toList).filter (·.1 ∈ written)) := by
  unfold store setAll
  rw [List.foldl_filter]
  congr 1
  funext m x
  simp

theorem load_congr {places : List Place} (h : ∀ a ∈ places, m.get? a = n.get? a) : m.load places = n.load places := by
  rw [load, load, mapM_congr h]

/-- Places can be loaded when all of them have contents. -/
theorem load_eq_some {places : List Place} {objects : Array Host} : m.load places = some objects ↔
    (∀ a ∈ places, ∃ x, m.get? a = some x) ∧ objects = (places.filterMap m.get?).toArray := by
  simp only [load, Option.map_eq_some_iff, mapM_eq_some_filterMap]
  constructor
  · rintro ⟨_, ⟨hall, rfl⟩, rfl⟩
    exact ⟨hall, rfl⟩
  · rintro ⟨hall, rfl⟩
    exact ⟨_, ⟨hall, rfl⟩, rfl⟩

/-- The contents of a place stand where the place does. -/
theorem getElem?_of_load {places : List Place} {objects : Array Host} (h : m.load places = some objects) {k : Nat}
    {a : Place} (hk : places[k]? = some a) : ∃ x, objects[k]? = some x ∧ m.get? a = some x := by
  obtain ⟨hall, rfl⟩ := load_eq_some.mp h
  clear h
  induction places generalizing k with
  | nil => simp at hk
  | cons b places ih =>
    obtain ⟨x, hx⟩ := hall b List.mem_cons_self
    simp only [List.getElem?_toArray, List.filterMap_cons, hx]
    cases k with
    | zero =>
      have hb : b = a := by simpa using hk
      exact ⟨x, rfl, hb ▸ hx⟩
    | succ k => simpa using ih (by simpa using hk) fun c hc => hall c (List.mem_cons_of_mem b hc)

/-! ### Memories that agree on host objects and on some scratch objects -/

/-- The same host objects and the same contents of the scratch objects that are kept. -/
structure Agree (keep : ObjectId → Prop) (m n : Memory) : Prop where
  host : ∀ o, m.host.get? o = n.host.get? o
  scratch : ∀ o, keep o → m.scratch.get? o = n.scratch.get? o

namespace Agree

variable {keep : ObjectId → Prop}

theorem get?_eq (h : Agree keep m n) {a : Place} (ha : ∀ o, a = .scratch o → keep o) : m.get? a = n.get? a := by
  cases a with
  | host o => exact h.host o
  | slot d age => rw [get?_slot, get?_slot, h.host d]
  | scratch o => exact h.scratch o (ha o rfl)

theorem set (h : Agree keep m n) (a : Place) (x : Host) : Agree keep (m.set a x) (n.set a x) := by
  cases a with
  | host o => exact ⟨fun p => by simp only [host_set_host, h.host], h.scratch⟩
  | slot d age =>
    refine ⟨fun p => by simp only [host_set_slot, h.host], fun p hp => ?_⟩
    rw [scratch_set_slot, scratch_set_slot, h.scratch p hp]
  | scratch o => exact ⟨h.host, fun p hp => by simp only [scratch_set_scratch, h.scratch p hp]⟩

theorem setAll (h : Agree keep m n) (updates : List (Place × Host)) :
    Agree keep (m.setAll updates) (n.setAll updates) := by
  induction updates generalizing m n with
  | nil => exact h
  | cons u updates ih => exact ih (h.set u.1 u.2)

/-- What is not kept may be set on one side. -/
theorem setAll_left (h : Agree keep m n) {updates : List (Place × Host)}
    (hu : ∀ u ∈ updates, ∃ o, u.1 = .scratch o ∧ ¬keep o) : Agree keep (m.setAll updates) n := by
  induction updates generalizing m with
  | nil => exact h
  | cons u updates ih =>
    obtain ⟨o, ho, hno⟩ := hu u List.mem_cons_self
    rw [setAll_cons, ho]
    refine ih ⟨h.host, fun p hp => ?_⟩ fun v hv => hu v (List.mem_cons_of_mem _ hv)
    have hpo : p ≠ o := fun he => hno (he ▸ hp)
    rw [scratch_set_scratch, if_neg hpo, h.scratch p hp]

end Agree

end Memory

end VisionGraph
