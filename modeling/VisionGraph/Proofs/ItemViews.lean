import VisionGraph.Buffer.Image
import VisionGraph.Buffer.Items
import VisionGraph.Proofs.Sequence

/-! The items of an array, seen through any type of elements. Whatever is done to an array, its items lie within its
storage; what is written is read back, and another type of the same size reads the same bytes. -/
namespace VisionGraph

variable {α β : Type}

/-- The bytes of an element in storage, the lowest first. -/
def View.stored (v : View α) (x : α) : List UInt8 := ImageBuffer.littleEndian v.bytes (v.bits x).toNat

namespace ArrayBuffer

inductive Op : Type 1 where
  | create (itemType : ItemType) (capacity : Nat)
  | write {α : Type} (v : View α) (items : List α)
  | clear
  | sync (len : UInt64)

/-- The array after an operation; a write that fails changes nothing. -/
def perform (a : ArrayBuffer) : Op → ArrayBuffer
  | .create t capacity => .empty t capacity
  | .write v items => (a.setItemsAs v items).toOption.getD a
  | .clear => a.clear
  | .sync len => a.setLen len.toNat

/-- The type and the capacity that were asked for last. -/
def Op.asked (known : ItemType × Nat) : Op → ItemType × Nat
  | .create t capacity => (t, capacity)
  | _ => known

/-- An array accepts the items that have its size and fit in, keeps what it does not write, and reads its items, no fewer
and no more, through every type of their size. -/
structure Coherent (a : ArrayBuffer) : Prop where
  len_le : a.len ≤ a.capacity
  readable {α : Type} (v : View α) : (∃ xs, a.itemsAs v = .ok xs) ↔ v.bytes = a.itemType.size
  length {α : Type} (v : View α) (xs : List α) : a.itemsAs v = .ok xs → xs.length = a.len
  accepts {α : Type} (v : View α) (xs : List α) :
    (∃ b, a.setItemsAs v xs = .ok b) ↔ v.bytes = a.itemType.size ∧ xs.length ≤ a.capacity
  written {α : Type} (v : View α) (xs : List α) (b : ArrayBuffer) : a.setItemsAs v xs = .ok b →
    a.perform (.write v xs) = b ∧ b.itemsAs v = .ok xs ∧ ∀ i, xs.length ≤ i → b.get? i = a.get? i
  refused {α : Type} (v : View α) (xs : List α) (fault : BufferFault) :
    a.setItemsAs v xs = .error fault → a.perform (.write v xs) = a
  reinterpreted {α β : Type} (v : View α) (w : View β) (xs : List α) (ys : List β) :
    a.itemsAs v = .ok xs → a.itemsAs w = .ok ys → ys.map w.stored = xs.map v.stored

variable {a b : ArrayBuffer} {v : View α} {w : View β} {xs : List α} {i : Nat}

theorem checkView_eq_ok {bytes : Nat} : a.checkView bytes = .ok () ↔ bytes = a.itemType.size := by
  unfold checkView
  split <;> simp_all

theorem itemsAs_eq_ok : a.itemsAs v = .ok xs ↔
    v.bytes = a.itemType.size ∧ xs = (a.slots.toList.take a.len).map fun x => v.ofBits (.ofInt _ x) := by
  rw [itemsAs, bind_eq_ok]
  constructor
  · rintro ⟨_, hview, hxs⟩
    exact ⟨checkView_eq_ok.mp hview, (Except.ok.inj hxs).symm⟩
  · rintro ⟨hsize, rfl⟩
    exact ⟨(), checkView_eq_ok.mpr hsize, rfl⟩

theorem setItemsAs_eq_ok : a.setItemsAs v xs = .ok b ↔
    v.bytes = a.itemType.size ∧ xs.length ≤ a.capacity ∧ b = (a.store v 0 xs).setLen xs.length := by
  rw [setItemsAs, bind_eq_ok]
  constructor
  · rintro ⟨_, hview, hb⟩
    dsimp only at hb
    split at hb
    · cases hb
    · exact ⟨checkView_eq_ok.mp hview, Nat.le_of_not_lt ‹_›, (Except.ok.inj hb).symm⟩
  · rintro ⟨hsize, hfits, rfl⟩
    exact ⟨(), checkView_eq_ok.mpr hsize, if_neg (Nat.not_lt.mpr hfits)⟩

/-- The bytes that are read do not depend on the type of the elements. -/
theorem map_stored (h : a.itemsAs v = .ok xs) : xs.map v.stored = (a.slots.toList.take a.len).map fun x =>
    ImageBuffer.littleEndian a.itemType.size (BitVec.ofInt (8 * a.itemType.size) x).toNat := by
  obtain ⟨hsize, rfl⟩ := itemsAs_eq_ok.mp h
  rw [List.map_map, ← hsize]
  refine List.map_congr_left fun x _ => ?_
  simp only [Function.comp_apply, View.stored, v.bits_ofBits]

/-- A list of items takes the place of as many items in the storage. -/
theorem slots_store (a : ArrayBuffer) (v : View α) (i : Nat) (xs : List α) (h : i + xs.length ≤ a.slots.size) :
    (a.store v i xs).slots.toList = a.slots.toList.take i ++
      xs.map (fun x => a.itemType.element.wrap (v.bits x).toNat) ++ a.slots.toList.drop (i + xs.length) := by
  induction xs generalizing a i with
  | nil => simp [store]
  | cons x xs ih =>
    rw [List.length_cons] at h
    have hi : i < a.slots.toList.length := by
      rw [Array.length_toList]
      omega
    -- the first item is in place when the others are written behind it
    rw [store, ih _ _ (by simp only [set, Array.size_setIfInBounds]; omega)]
    simp only [set, Array.toList_setIfInBounds, List.length_cons, List.map_cons]
    rw [List.drop_set_of_lt (by omega), List.take_add_one, List.take_set_of_le (Nat.le_refl i), List.getElem?_set_self hi]
    simp [Nat.add_assoc, Nat.add_comm 1]

theorem shape_store (a : ArrayBuffer) (v : View α) (i : Nat) (xs : List α) :
    (a.store v i xs).itemType = a.itemType ∧ (a.store v i xs).capacity = a.capacity := by
  induction xs generalizing a i with
  | nil => exact ⟨rfl, rfl⟩
  | cons x xs ih => exact ih _ _

theorem ofBits_wrap {e : Element} (h : v.bytes = e.bytes) (x : α) :
    v.ofBits (BitVec.ofInt (8 * v.bytes) (e.wrap (v.bits x).toNat)) = x := by
  have hwrap (n : Int) : BitVec.ofInt (8 * v.bytes) (e.wrap n) = BitVec.ofInt (8 * v.bytes) n := by
    rw [h]
    exact e.ofInt_wrap n
  rw [hwrap]
  simp [v.ofBits_bits]

theorem coherent (a : ArrayBuffer) : a.Coherent where
  len_le := a.len_le
  readable v := ⟨fun ⟨_, h⟩ => (itemsAs_eq_ok.mp h).1, fun h => ⟨_, itemsAs_eq_ok.mpr ⟨h, rfl⟩⟩⟩
  length v xs h := by
    have hlen := a.len_le
    have hsize := a.size_eq
    rw [(itemsAs_eq_ok.mp h).2, List.length_map, List.length_take, Array.length_toList]
    omega
  accepts v xs := by
    constructor
    · rintro ⟨b, h⟩
      obtain ⟨hsize, hfits, _⟩ := setItemsAs_eq_ok.mp h
      exact ⟨hsize, hfits⟩
    · rintro ⟨hsize, hfits⟩
      exact ⟨_, setItemsAs_eq_ok.mpr ⟨hsize, hfits, rfl⟩⟩
  written v xs b h := by
    refine ⟨by rw [perform, h]; rfl, ?_⟩
    obtain ⟨hsize, hfits, rfl⟩ := setItemsAs_eq_ok.mp h
    have hslots := a.slots_store v 0 xs (by rw [a.size_eq]; omega)
    rw [List.take_zero, List.nil_append, Nat.zero_add] at hslots
    obtain ⟨htype, hcapacity⟩ := a.shape_store v 0 xs
    constructor
    · refine itemsAs_eq_ok.mpr ⟨hsize.trans (congrArg ItemType.size htype.symm), ?_⟩
      simp only [setLen, hslots, hcapacity, Nat.min_eq_left hfits]
      rw [List.take_left' (List.length_map _), List.map_map]
      exact (List.map_id'' (ofBits_wrap hsize) xs).symm
    · intro i hi
      simp only [get?, setLen, ← Array.getElem?_toList, hslots]
      rw [List.getElem?_append_right (by simpa using hi), List.getElem?_drop, List.length_map, Nat.add_sub_cancel' hi]
  refused v xs fault h := by
    rw [perform, h]
    rfl
  reinterpreted v w xs ys hxs hys := (map_stored hys).trans (map_stored hxs).symm

/-- No operation but the making of an array gives it another type or capacity. -/
theorem shape_perform (a : ArrayBuffer) (op : Op) :
    ((a.perform op).itemType, (a.perform op).capacity) = op.asked (a.itemType, a.capacity) := by
  cases op with
  | create | clear | sync => rfl
  | write v xs =>
    cases h : a.setItemsAs v xs with
    | error fault =>
      rw [a.coherent.refused v xs fault h]
      rfl
    | ok b =>
      obtain ⟨_, _, rfl⟩ := setItemsAs_eq_ok.mp h
      rw [(a.coherent.written v xs _ h).1]
      exact Prod.ext (a.shape_store v 0 xs).1 (a.shape_store v 0 xs).2

end ArrayBuffer

end VisionGraph
