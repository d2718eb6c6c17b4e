import VisionGraph.Buffer.Fault
/-!
Array storage: a bounded list of items. The number of items never exceeds the capacity, and storage
past the last item keeps what was there.
-/

namespace VisionGraph

/-- A type of elements as storage sees it: every value is so many bytes, and every bit pattern is a value. -/
structure View (α : Type) where
  bytes : Nat
  bits : α → BitVec (8 * bytes)
  ofBits : BitVec (8 * bytes) → α
  ofBits_bits (x : α) : ofBits (bits x) = x
  bits_ofBits (b : BitVec (8 * bytes)) : bits (ofBits b) = b

namespace Element

theorem ofInt_wrap (e : Element) (v : Int) : BitVec.ofInt (8 * e.bytes) (e.wrap v) = BitVec.ofInt (8 * e.bytes) v := by
  apply BitVec.eq_of_toNat_eq
  cases e <;> simp only [BitVec.toNat_ofInt, bytes, wrap] <;> omega

/-- The stored numbers of an element. -/
def view (e : Element) : View {v // e.Holds v} where
  bytes := e.bytes
  bits v := .ofInt _ v
  ofBits b := ⟨e.wrap b.toNat, e.holds_wrap _⟩
  ofBits_bits := by
    rintro ⟨v, hv⟩
    apply Subtype.ext
    rw [BitVec.toNat_ofInt]
    cases e <;> simp only [Holds, bytes, wrap] at hv ⊢ <;> omega
  bits_ofBits b := by
    rw [ofInt_wrap]
    simp

end Element

structure ArrayBuffer where
  itemType : ItemType
  capacity : Nat
  len : Nat
  slots : Array Int
  size_eq : slots.size = capacity
  len_le : len ≤ capacity
  fits : ∀ v ∈ slots, itemType.element.Holds v
deriving DecidableEq

namespace ArrayBuffer

/-- An array without items. -/
def empty (itemType : ItemType) (capacity : Nat) : ArrayBuffer where
  itemType := itemType
  capacity := capacity
  len := 0
  slots := Array.replicate capacity 0
  size_eq := by simp
  len_le := Nat.zero_le _
  fits := by
    intro v hv
    rw [(Array.mem_replicate.1 hv).2]
    exact itemType.element.holds_zero

def ofMeta (m : ArrayMeta) : Except BufferFault ArrayBuffer :=
  match m.itemType, m.capacity with
  | some t, some c => .ok (empty t c.toNat)
  | _, _ => .error (.unresolved .array)

def isEmpty (a : ArrayBuffer) : Bool := a.len == 0

def info (a : ArrayBuffer) : ArrayMeta := .known a.itemType (UInt32.ofNat a.capacity)

def element (a : ArrayBuffer) : Element := a.itemType.element

/-- Storage at a place, whether it holds an item or not. -/
def get? (a : ArrayBuffer) (i : Nat) : Option Int := a.slots[i]?

/-- Writes storage at a place; past the capacity nothing changes. -/
@[inline] def set (a : ArrayBuffer) (i : Nat) (v : Int) : ArrayBuffer where
  itemType := a.itemType
  capacity := a.capacity
  len := a.len
  slots := a.slots.setIfInBounds i (a.itemType.element.wrap v)
  size_eq := by rw [Array.size_setIfInBounds]; exact a.size_eq
  len_le := a.len_le
  fits := by
    intro w hw
    rcases Array.mem_or_eq_of_mem_setIfInBounds hw with h | h
    · exact a.fits w h
    · exact h ▸ a.itemType.element.holds_wrap v

@[inline] def set? (a : ArrayBuffer) (i : Nat) (v : Int) : Option ArrayBuffer :=
  if i < a.slots.size then some (a.set i v) else none

/-- Sets the number of items, at most the capacity. -/
def setLen (a : ArrayBuffer) (n : Nat) : ArrayBuffer :=
  { a with len := min n a.capacity, len_le := Nat.min_le_right _ _ }

/-- Adds an item, unless the array is full. -/
@[inline] def push (a : ArrayBuffer) (v : Int) : ArrayBuffer :=
  if a.len < a.capacity then (a.set a.len v).setLen (a.len + 1) else a

def clear (a : ArrayBuffer) : ArrayBuffer := a.setLen 0

variable {α : Type}

def checkView (a : ArrayBuffer) (bytes : Nat) : Except BufferFault Unit :=
  if bytes = a.itemType.size then .ok () else .error (.itemView bytes a.itemType)

/-- The items, seen as elements of the same size. -/
def itemsAs (a : ArrayBuffer) (v : View α) : Except BufferFault (List α) := do
  a.checkView v.bytes
  return (a.slots.toList.take a.len).map fun x => v.ofBits (.ofInt _ x)

def items (a : ArrayBuffer) (e : Element) : Except BufferFault (List Int) := do
  return (← a.itemsAs e.view).map (·.val)

/-- Writes items into the first places of the storage. -/
def store (a : ArrayBuffer) (v : View α) : Nat → List α → ArrayBuffer
  | _, [] => a
  | i, x :: rest => store (a.set i (v.bits x).toNat) v (i + 1) rest

/-- Replaces the items by a list of elements of the same size. -/
def setItemsAs (a : ArrayBuffer) (v : View α) (items : List α) : Except BufferFault ArrayBuffer := do
  a.checkView v.bytes
  if a.capacity < items.length then
    throw (.capacity items.length a.capacity)
  return (a.store v 0 items).setLen items.length

def setItems (a : ArrayBuffer) (e : Element) (items : List Int) : Except BufferFault ArrayBuffer :=
  a.setItemsAs e.view (items.map fun v => ⟨e.wrap v, e.holds_wrap v⟩)

end ArrayBuffer

/-- A place in an image, stored as one item of eight bytes. -/
structure Point where
  x : Int
  y : Int
deriving DecidableEq, Repr

namespace Point

def pack (p : Point) : Int := p.x % 4294967296 + p.y % 4294967296 * 4294967296

def unpack (v : Int) : Point := ⟨Element.s32.wrap v, Element.s32.wrap (v / 4294967296)⟩

end Point

end VisionGraph
