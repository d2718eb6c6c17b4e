import Mathlib.Algebra.Order.Floor.Div
import Mathlib.GroupTheory.GroupAction.Ring
import VisionGraph.Proofs.KernelSafety

/-! Extents of the levels of a pyramid. From level to level an extent is halved and rounded up, which is the base divided
by a power of two and rounded up. The power stops growing at level 31, which is one level too early: an extent of more than
2147483648 stays at two from there on, where it should come down to one. -/
namespace VisionGraph

/-- To divide by one factor after the other and to round up each time is to divide by the product. -/
theorem ceilDiv_ceilDiv {a b : Nat} (ha : 0 < a) (hb : 0 < b) (n : Nat) : n ⌈/⌉ a ⌈/⌉ b = n ⌈/⌉ (a * b) := by
  refine eq_of_forall_ge_iff fun c => ?_
  rw [ceilDiv_le_iff_le_mul hb, ceilDiv_le_iff_le_mul ha, ceilDiv_le_iff_le_mul (Nat.mul_pos ha hb), Nat.mul_assoc]

theorem ceilDiv_pos {n d : Nat} (hn : 0 < n) (hd : 0 < d) : 0 < n ⌈/⌉ d := by
  by_contra hzero
  have hle := (ceilDiv_le_iff_le_mul hd).mp (Nat.le_of_not_lt hzero)
  rw [Nat.mul_zero] at hle
  omega

theorem ceilDiv_eq_one {n d : Nat} (hn : 0 < n) (hle : n ≤ d) : n ⌈/⌉ d = 1 := by
  have hd : 0 < d := Nat.lt_of_lt_of_le hn hle
  have hpos := ceilDiv_pos hn hd
  have hone := (ceilDiv_le_iff_le_mul hd).mpr (Nat.mul_one d ▸ hle)
  omega

namespace PyramidMeta

section Extent

variable {extent : UInt32}

/-- An extent is divided by the power of two of its level, and by that of level 31 from there on. -/
theorem toNat_shrink_eq (hpos : 1 ≤ extent) (level : UInt32) :
    (shrink extent level).toNat = extent.toNat ⌈/⌉ 2 ^ min level.toNat 31 := by
  have hround := ceilDiv_pos (UInt32.le_iff_toNat_le.mp hpos) (Nat.two_pow_pos (min level.toNat 31))
  rw [Kernel.toNat_shrink, ← Nat.ceilDiv_eq_add_pred_div]
  omega

/-- From level 31 on an extent is one or two. -/
theorem toNat_shrink_past (hpos : 1 ≤ extent) {level : UInt32} (hpast : 31 ≤ level.toNat) :
    (shrink extent level).toNat = if extent ≤ 2147483648 then 1 else 2 := by
  rw [toNat_shrink_eq hpos, Nat.min_eq_right hpast, Nat.ceilDiv_eq_add_pred_div]
  have hpos' := UInt32.le_iff_toNat_le.mp hpos
  have hlt := extent.toNat_lt
  split
  · rename_i hle
    have hle' := UInt32.le_iff_toNat_le.mp hle
    simp only [UInt32.reduceToNat] at hpos' hle'
    omega
  · rename_i hgt
    rw [UInt32.le_iff_toNat_le] at hgt
    simp only [UInt32.reduceToNat] at hgt
    omega

/-- A level has the right extent up to level 31, and past it if the base is not too large. -/
theorem shrink_exact_iff (hpos : 1 ≤ extent) (level : UInt32) :
    (shrink extent level).toNat = extent.toNat ⌈/⌉ 2 ^ level.toNat ↔ level ≤ 31 ∨ extent ≤ 2147483648 := by
  by_cases hlevel : level ≤ 31
  · have hmin : min level.toNat 31 = level.toNat := Nat.min_eq_left (UInt32.le_iff_toNat_le.mp hlevel)
    rw [toNat_shrink_eq hpos, hmin]
    exact iff_of_true rfl (.inl hlevel)
  · have hpast : 32 ≤ level.toNat := by
      rw [UInt32.le_iff_toNat_le] at hlevel
      exact Nat.lt_of_not_le hlevel
    -- every extent is below the thirty-second power of two
    have hone : extent.toNat ⌈/⌉ 2 ^ level.toNat = 1 := by
      apply ceilDiv_eq_one (UInt32.le_iff_toNat_le.mp hpos)
      exact Nat.le_trans (Nat.le_of_lt extent.toNat_lt) (Nat.pow_le_pow_right (by decide) hpast)
    rw [hone, toNat_shrink_past hpos (Nat.le_of_succ_le hpast)]
    by_cases hsmall : extent ≤ 2147483648 <;> simp [hsmall, hlevel]

/-- The next level has half of the extent, rounded up, under the same condition. -/
theorem shrink_next_iff (hpos : 1 ≤ extent) {level next : UInt32} (hnext : next.toNat = level.toNat + 1) :
    (shrink extent next).toNat = (shrink extent level).toNat ⌈/⌉ 2 ↔ level < 31 ∨ extent ≤ 2147483648 := by
  by_cases hlevel : level < 31
  · have hlt : level.toNat < 31 := UInt32.lt_iff_toNat_lt.mp hlevel
    have hmin : min level.toNat 31 = level.toNat := Nat.min_eq_left (Nat.le_of_lt hlt)
    have hmin' : min next.toNat 31 = level.toNat + 1 := by omega
    rw [toNat_shrink_eq hpos, toNat_shrink_eq hpos, hmin, hmin', ceilDiv_ceilDiv (Nat.two_pow_pos _) (by decide),
      ← Nat.pow_succ]
    exact iff_of_true rfl (.inl hlevel)
  · have hpast : 31 ≤ level.toNat := by
      rw [UInt32.lt_iff_toNat_lt] at hlevel
      exact Nat.le_of_not_lt hlevel
    rw [toNat_shrink_past hpos hpast, toNat_shrink_past hpos (by omega)]
    by_cases hsmall : extent ≤ 2147483648 <;> simp [hsmall, hlevel, Nat.ceilDiv_eq_add_pred_div]

end Extent

/-- The first level is the base. The extents of a level are those of the base divided by the power of two and rounded up,
and those of the next level are half of them, rounded up: always up to level 31, and past it exactly if both extents of
the base are at most 2147483648. The levels past 31 are all like level 31. -/
theorem levelDims_exact (m : PyramidMeta) (width height : UInt32) (hwidth : m.width = some width)
    (hheight : m.height = some height) (hw : 1 ≤ width) (hh : 1 ≤ height) :
    m.levelDims 0 = some (width, height) ∧ (∀ k, 31 ≤ k → m.levelDims k = m.levelDims 31) ∧
      ∀ k : UInt32, ∃ x y, m.levelDims k = some (x, y) ∧
        (x.toNat = width.toNat ⌈/⌉ 2 ^ k.toNat ∧ y.toNat = height.toNat ⌈/⌉ 2 ^ k.toNat ↔
          k ≤ 31 ∨ width ≤ 2147483648 ∧ height ≤ 2147483648) ∧
        ∀ next : UInt32, next.toNat = k.toNat + 1 → ∃ x' y', m.levelDims next = some (x', y') ∧
          (x'.toNat = x.toNat ⌈/⌉ 2 ∧ y'.toNat = y.toNat ⌈/⌉ 2 ↔ k < 31 ∨ width ≤ 2147483648 ∧ height ≤ 2147483648) := by
  have hdims (k : UInt32) : m.levelDims k = some (shrink width k, shrink height k) := by
    rw [levelDims, hwidth, hheight]
    rfl
  refine ⟨?_, fun k hk => ?_, fun k => ⟨_, _, hdims k, ?_, fun next hnext => ⟨_, _, hdims next, ?_⟩⟩⟩
  · have hzero (extent : UInt32) (hpos : 1 ≤ extent) : shrink extent 0 = extent := by
      apply UInt32.toNat_inj.mp
      rw [toNat_shrink_eq hpos, Nat.ceilDiv_eq_add_pred_div]
      exact Nat.div_one extent.toNat
    rw [hdims, hzero width hw, hzero height hh]
  · have hpast : 31 ≤ k.toNat := UInt32.le_iff_toNat_le.mp hk
    have hsame (extent : UInt32) (hpos : 1 ≤ extent) : shrink extent k = shrink extent 31 := by
      apply UInt32.toNat_inj.mp
      rw [toNat_shrink_past hpos hpast, toNat_shrink_past hpos (by decide)]
    rw [hdims, hdims, hsame width hw, hsame height hh]
  · rw [shrink_exact_iff hw, shrink_exact_iff hh, or_and_left]
  · rw [shrink_next_iff hw hnext, shrink_next_iff hh hnext, or_and_left]

/-- A base with one pixel too many: level 31 is right, and level 32 should be one wide. -/
theorem levelDims_exact_overlong :
    (known 40 2147483649 7 .u8).levelDims 31 = some (2, 1) ∧ (known 40 2147483649 7 .u8).levelDims 32 = some (2, 1) ∧
      2147483649 ⌈/⌉ 2 ^ 32 = 1 ∧ ¬((2 : UInt32).toNat = (2147483649 : UInt32).toNat ⌈/⌉ 2 ^ (32 : UInt32).toNat ∧
        (1 : UInt32).toNat = (7 : UInt32).toNat ⌈/⌉ 2 ^ (32 : UInt32).toNat) := by
  obtain ⟨_, hpast, hlevels⟩ := levelDims_exact (known 40 2147483649 7 .u8) 2147483649 7 rfl rfl (by decide) (by decide)
  have hlast : (known 40 2147483649 7 .u8).levelDims 31 = some (2, 1) := by decide
  obtain ⟨x, y, hdims, hexact, _⟩ := hlevels 32
  rw [hpast 32 (by decide), hlast] at hdims
  cases hdims
  refine ⟨hlast, (hpast 32 (by decide)).trans hlast, by decide, fun hright => ?_⟩
  exact absurd (hexact.mp hright) (by decide)

end PyramidMeta

end VisionGraph
