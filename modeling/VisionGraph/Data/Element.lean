/-!
Stored numbers: the widths in which samples, scalars and items are kept in memory.

An integer element is kept as its value, a single-precision element and a coordinate pair as their
unsigned bit pattern. `Element.wrap` maps every integer to the stored number it stands for.
-/

namespace VisionGraph

/-- The representation of one stored number. -/
inductive Element where
  | u8 | u16 | s16 | u32 | s32 | f32 | pair
deriving DecidableEq, Repr, Inhabited

namespace Element

def all : List Element := [.u8, .u16, .s16, .u32, .s32, .f32, .pair]

/-- The name; a pair is seen as one wide integer. -/
def name : Element → String
  | .u8 => "u8"
  | .u16 => "u16"
  | .s16 => "s16"
  | .u32 => "u32"
  | .s32 => "s32"
  | .f32 => "f32"
  | .pair => "u64"

/-- Bytes of one stored number. -/
def bytes : Element → Nat
  | .u8 => 1
  | .u16 | .s16 => 2
  | .u32 | .s32 | .f32 => 4
  | .pair => 8

/-- One more than the largest bit pattern. -/
def modulus : Element → Nat
  | .u8 => 256
  | .u16 | .s16 => 65536
  | .u32 | .s32 | .f32 => 4294967296
  | .pair => 18446744073709551616

/-- The stored number congruent to `v`. -/
@[inline] def wrap (e : Element) (v : Int) : Int :=
  match e with
  | .u8 => v % 256
  | .u16 => v % 65536
  | .s16 => (v + 32768) % 65536 - 32768
  | .u32 | .f32 => v % 4294967296
  | .s32 => (v + 2147483648) % 4294967296 - 2147483648
  | .pair => v % 18446744073709551616

/-- The stored numbers of an element. -/
def Holds (e : Element) (v : Int) : Prop := e.wrap v = v

instance (e : Element) (v : Int) : Decidable (e.Holds v) := inferInstanceAs (Decidable (_ = _))

theorem holds_wrap (e : Element) (v : Int) : e.Holds (e.wrap v) := by
  cases e <;> simp only [Holds, wrap] <;> omega

theorem holds_zero (e : Element) : e.Holds 0 := by
  cases e <;> decide

/-- The least and the greatest stored integer. -/
def lo : Element → Int
  | .s16 => -32768
  | .s32 => -2147483648
  | _ => 0

def hi : Element → Int
  | .u8 => 255
  | .u16 => 65535
  | .s16 => 32767
  | .u32 | .f32 => 4294967295
  | .s32 => 2147483647
  | .pair => 18446744073709551615

theorem holds_iff (e : Element) (v : Int) : e.Holds v ↔ e.lo ≤ v ∧ v ≤ e.hi := by
  cases e <;> simp only [Holds, wrap, lo, hi] <;> omega

/-- Limits an integer to the stored range. -/
@[inline] def clamp (e : Element) (v : Int) : Int :=
  if v < e.lo then e.lo else if e.hi < v then e.hi else v

theorem holds_clamp (e : Element) (v : Int) : e.Holds (e.clamp v) := by
  have h : e.lo ≤ e.hi := by cases e <;> decide
  rw [holds_iff, clamp]
  split
  · omega
  · split <;> omega

/-- The bit pattern of a stored number. -/
def pattern (e : Element) (v : Int) : Nat := (v % e.modulus).toNat

/-- The stored number of a bit pattern. -/
def ofPattern (e : Element) (bits : Nat) : Int := e.wrap bits

end Element

end VisionGraph
