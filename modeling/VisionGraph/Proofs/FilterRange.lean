import VisionGraph.Proofs.Reduction

/-! The range of the filters over neighbourhoods. A filtered pixel stays within the samples around it, so no byte ever
wraps; the gradients stay within signed shorts; and an image that is nowhere brighter than another one stays so under
every filter. -/
namespace VisionGraph

/-- Borders of one mode, with a constant that is not larger. -/
def Border.Below : Border → Border → Prop
  | .replicate, .replicate => True
  | .constant v, .constant w => v ≤ w
  | _, _ => False

instance : DecidableRel Border.Below := fun border border' =>
  match border, border' with
  | .replicate, .replicate => isTrue trivial
  | .constant v, .constant w => inferInstanceAs (Decidable (v ≤ w))
  | .replicate, .constant _ | .constant _, .replicate => isFalse id

namespace ImageBuffer

variable {b c : ImageBuffer} {border border' : Border}

/-- Images of one extent, where no pixel of the first is larger than that of the second. -/
structure Below (b c : ImageBuffer) : Prop where
  width : b.width = c.width
  height : b.height = c.height
  pixel : ∀ x y, x < b.width.toNat → y < b.height.toNat → b.pixel x y ≤ c.pixel x y

theorem Below.around_le (h : b.Below c) (hborder : border.Below border') (hw : 0 < b.width.toNat)
    (hh : 0 < b.height.toNat) (x y : Int) : b.around border x y ≤ c.around border' x y := by
  cases border with
  | replicate =>
    cases border' with
    | replicate =>
      simp only [around, ← h.width, ← h.height]
      exact h.pixel _ _ (nearest_lt hw x) (nearest_lt hh y)
    | constant w => exact hborder.elim
  | constant v =>
    cases border' with
    | replicate => exact hborder.elim
    | constant w =>
      simp only [around, ← h.width, ← h.height]
      by_cases hin : 0 ≤ x ∧ x < b.width.toNat ∧ 0 ≤ y ∧ y < b.height.toNat
      · rw [if_pos hin, if_pos hin]
        exact h.pixel _ _ (by omega) (by omega)
      · rw [if_neg hin, if_neg hin]
        have hvw : v.toNat ≤ w.toNat := hborder
        omega

theorem Below.window (h : b.Below c) (hborder : border.Below border') (hw : 0 < b.width.toNat)
    (hh : 0 < b.height.toNat) (x y : Int) : (b.window border x y).Below (c.window border' x y) := by
  simp [Taps.Below, Taps.toList, ImageBuffer.window, h.around_le hborder hw hh]

/-- The order of two images carries over to what they are reduced to. -/
theorem Below.reduces {out out' : ImageBuffer} {op : Kernel.Filter} (h : b.Below c) (hborder : border.Below border')
    (hout : out.Reduces b border .u8 op.reduce) (hout' : out'.Reduces c border' .u8 op.reduce) : out.Below out' := by
  obtain ⟨hw, hh, _⟩ := extent_of_info hout.info
  obtain ⟨hw', hh', _⟩ := extent_of_info hout'.info
  refine ⟨by rw [hw, hw', h.width], by rw [hh, hh', h.height], fun x y hx hy => ?_⟩
  rw [hw] at hx
  rw [hh] at hy
  rw [hout.pixel x y hx hy, hout'.pixel x y (h.width ▸ hx) (h.height ▸ hy)]
  exact op.reduce_mono (h.window hborder (by omega) (by omega) x y)

end ImageBuffer

namespace Kernel

/-- What is promised of the number that a filter gives for some samples. -/
def Filter.Meets (op : Filter) (samples : List Int) (v : Int) : Prop :=
  (∃ a ∈ samples, a ≤ v) ∧ (∃ a ∈ samples, v ≤ a) ∧
    match op with
    | .dilate => v ∈ samples ∧ ∀ a ∈ samples, a ≤ v
    | .erode => v ∈ samples ∧ ∀ a ∈ samples, v ≤ a
    | .median => 5 ≤ samples.countP (· ≤ v) ∧ 5 ≤ samples.countP (v ≤ ·)
    | .gaussian | .box => True

theorem Filter.meets_reduce (op : Filter) (t : Taps) : op.Meets t.toList (op.reduce t) := by
  obtain ⟨hlow, hhigh⟩ := op.reduce_between t
  refine ⟨hlow, hhigh, ?_⟩
  cases op with
  | gaussian => trivial
  | box => trivial
  | median => exact t.median_spec.2
  | dilate => exact t.largest_spec
  | erode => exact t.smallest_spec

/-- A slope, as steep as bytes allow when it is the fifty-fold one. -/
def slope (steepness : Nat) : ImageBuffer := .ofPixels 3 2 .u8 fun x y => steepness * (y * 3 + x)

theorem pixel_slope (steepness : Nat) {x y : Nat} (hx : x < 3) (hy : y < 2) :
    (slope steepness).pixel x y = steepness * (y * 3 + x) % 256 := by
  rw [slope, ImageBuffer.pixel_ofPixels rfl _ hx hy]
  rfl

theorem slope_below : (slope 40).Below (slope 50) where
  width := rfl
  height := rfl
  pixel x y hx hy := by
    change x < 3 at hx
    change y < 2 at hy
    rw [pixel_slope 40 hx hy, pixel_slope 50 hx hy, Int.emod_eq_of_lt (by omega) (by omega),
      Int.emod_eq_of_lt (by omega) (by omega)]
    omega

end Kernel

end VisionGraph
