import Mathlib.Data.List.Sort
import VisionGraph.Proofs.Stencil

/-! What the samples around a pixel reduce to. Every filter gives a number between the smallest and the largest of the
nine samples, and a larger one when the samples are larger; so a filtered image holds the very numbers that the
samples reduce to. -/
namespace VisionGraph

/-- A fold by the maximum that starts within a list ends with its largest number. -/
theorem foldl_max_spec {l : List Int} {a : Int} (ha : a ∈ l) :
    l.foldl max a ∈ l ∧ ∀ v ∈ l, v ≤ l.foldl max a := by
  obtain ⟨hmem, hle⟩ := List.max?_eq_some_iff.mp (@List.max?_cons' _ a _ l)
  refine ⟨?_, fun v hv => hle v (List.mem_cons_of_mem a hv)⟩
  rcases List.mem_cons.mp hmem with heq | hin
  · rwa [heq]
  · exact hin

theorem foldl_min_spec {l : List Int} {a : Int} (ha : a ∈ l) :
    l.foldl min a ∈ l ∧ ∀ v ∈ l, l.foldl min a ≤ v := by
  obtain ⟨hmem, hle⟩ := List.min?_eq_some_iff.mp (@List.min?_cons' _ a _ l)
  refine ⟨?_, fun v hv => hle v (List.mem_cons_of_mem a hv)⟩
  rcases List.mem_cons.mp hmem with heq | hin
  · rwa [heq]
  · exact hin

/-- In an increasing list, those up to a place are not above it and those from it on are not below. -/
theorem countP_of_pairwise {l : List Int} (h : l.Pairwise (· ≤ ·)) {i : Nat} (hi : i < l.length) :
    i + 1 ≤ l.countP (· ≤ l[i]) ∧ l.length - i ≤ l.countP (l[i] ≤ ·) := by
  have hle (j k : Nat) (hjk : j ≤ k) (hk : k < l.length) : l[j] ≤ l[k] := by
    rcases Nat.lt_or_eq_of_le hjk with hlt | rfl
    · exact List.pairwise_iff_getElem.mp h j k (by omega) hk hlt
    · exact Int.le_refl _
  constructor
  · have hall : (l.take (i + 1)).countP (· ≤ l[i]) = (l.take (i + 1)).length := by
      refine List.countP_eq_length.mpr fun v hv => ?_
      obtain ⟨j, hj, rfl⟩ := List.mem_take_iff_getElem.mp hv
      exact decide_eq_true (hle j i (by omega) hi)
    have hsub := (List.take_sublist (i + 1) l).countP_le (p := (· ≤ l[i]))
    rw [hall, List.length_take] at hsub
    omega
  · have hall : (l.drop i).countP (l[i] ≤ ·) = (l.drop i).length := by
      refine List.countP_eq_length.mpr fun v hv => ?_
      obtain ⟨j, hj, rfl⟩ := List.mem_drop_iff_getElem.mp hv
      exact decide_eq_true (hle i (i + j) (by omega) (by omega))
    have hsub := (List.drop_sublist i l).countP_le (p := (l[i] ≤ ·))
    rwa [hall, List.length_drop] at hsub

/-- No number is both below a bound and above a larger one. -/
theorem countP_add_countP_le {c d : Int} (hcd : c < d) (l : List Int) :
    l.countP (· ≤ c) + l.countP (d ≤ ·) ≤ l.length := by
  induction l with
  | nil => exact Nat.le_refl _
  | cons v l ih =>
    simp only [List.countP_cons, List.length_cons, decide_eq_true_eq]
    split <;> split <;> omega

/-- Smaller numbers are more often below a bound. -/
theorem countP_le_of_forall₂ {l l' : List Int} (h : List.Forall₂ (· ≤ ·) l l') (c : Int) :
    l'.countP (· ≤ c) ≤ l.countP (· ≤ c) := by
  induction h with
  | nil => exact Nat.le_refl _
  | cons hab _ ih =>
    simp only [List.countP_cons, decide_eq_true_eq]
    split <;> split <;> omega

namespace Taps

variable {t u : Taps}

/-! ### The extremes -/

theorem largest_spec (t : Taps) : t.largest ∈ t.toList ∧ ∀ v ∈ t.toList, v ≤ t.largest :=
  foldl_max_spec List.mem_cons_self

theorem smallest_spec (t : Taps) : t.smallest ∈ t.toList ∧ ∀ v ∈ t.toList, t.smallest ≤ v :=
  foldl_min_spec List.mem_cons_self

/-! ### The median -/

theorem sorted_eq (t : Taps) : t.sorted = t.toList.insertionSort (· ≤ ·) := by
  have hinsert (v : Int) (l : List Int) : insertSorted v l = l.orderedInsert (· ≤ ·) v := by
    induction l with
    | nil => rfl
    | cons w rest ih => rw [insertSorted, List.orderedInsert_cons, ih]
  rw [sorted, List.insertionSort]
  congr 1
  funext v l
  exact hinsert v l

/-- At least five of the samples are not above the median, and at least five are not below. -/
theorem median_spec (t : Taps) : t.median ∈ t.toList ∧ 5 ≤ t.toList.countP (· ≤ t.median) ∧
    5 ≤ t.toList.countP (t.median ≤ ·) := by
  have hperm : t.sorted.Perm t.toList := t.sorted_eq ▸ List.perm_insertionSort ..
  have hsorted : t.sorted.Pairwise (· ≤ ·) := t.sorted_eq ▸ List.pairwise_insertionSort ..
  have hlength : t.sorted.length = 9 := hperm.length_eq
  have hmiddle : t.median = t.sorted[4] := by
    rw [median, List.getD_eq_getElem?_getD, List.getElem?_eq_getElem, Option.getD_some]
  obtain ⟨hbelow, habove⟩ := countP_of_pairwise hsorted (i := 4) (by omega)
  rw [← hmiddle, hperm.countP_eq] at hbelow habove
  refine ⟨?_, hbelow, by omega⟩
  rw [hmiddle]
  exact hperm.mem_iff.mp (List.getElem_mem _)

/-- The median follows the number of samples below each bound. -/
theorem median_le (h : ∀ c, u.toList.countP (· ≤ c) ≤ t.toList.countP (· ≤ c)) : t.median ≤ u.median := by
  by_contra hlt
  have hbelow : 5 ≤ t.toList.countP (· ≤ u.median) := (median_spec u).2.1.trans (h _)
  have habove := (median_spec t).2.2
  have htotal := countP_add_countP_le (Int.not_le.mp hlt) t.toList
  have hnine : t.toList.length = 9 := rfl
  omega

/-- The extremes and the median do not depend on the places of the samples. -/
theorem largest_perm (h : t.toList.Perm u.toList) : t.largest = u.largest :=
  Int.le_antisymm (u.largest_spec.2 _ (h.mem_iff.mp t.largest_spec.1))
    (t.largest_spec.2 _ (h.mem_iff.mpr u.largest_spec.1))

theorem smallest_perm (h : t.toList.Perm u.toList) : t.smallest = u.smallest :=
  Int.le_antisymm (t.smallest_spec.2 _ (h.mem_iff.mpr u.smallest_spec.1))
    (u.smallest_spec.2 _ (h.mem_iff.mp t.smallest_spec.1))

theorem median_perm (h : t.toList.Perm u.toList) : t.median = u.median :=
  Int.le_antisymm (median_le fun _ => (h.countP_eq _).ge) (median_le fun _ => (h.countP_eq _).le)

/-- Each sample is at most the one in its place. -/
def Below (t u : Taps) : Prop := List.Forall₂ (· ≤ ·) t.toList u.toList

/-- All samples are bytes. -/
def Bytes (t : Taps) : Prop := ∀ v ∈ t.toList, 0 ≤ v ∧ v ≤ 255

/-- The gradients of bytes lie between -1020 and 1020. -/
theorem Bytes.sobel_holds (h : t.Bytes) : Element.s16.Holds t.sobelX ∧ Element.s16.Holds t.sobelY := by
  simp only [Bytes, toList, List.forall_mem_cons] at h
  simp only [Element.holds_iff, Element.lo, Element.hi, sobelX, sobelY]
  omega

end Taps

/-! ### The filters -/

namespace Kernel.Filter

variable {t u : Taps}

/-- What the samples reduce to lies between two of them. -/
theorem reduce_between (op : Filter) (t : Taps) :
    (∃ a ∈ t.toList, a ≤ op.reduce t) ∧ ∃ a ∈ t.toList, op.reduce t ≤ a := by
  have hleast := t.smallest_spec
  have hgreatest := t.largest_spec
  -- a weighted mean is compared with the extremes, the others are samples themselves
  have hmean (v : Int) (hv : t.smallest ≤ v ∧ v ≤ t.largest) :
      (∃ a ∈ t.toList, a ≤ v) ∧ ∃ a ∈ t.toList, v ≤ a :=
    ⟨⟨_, hleast.1, hv.1⟩, ⟨_, hgreatest.1, hv.2⟩⟩
  have hsample (v : Int) (hv : v ∈ t.toList) : (∃ a ∈ t.toList, a ≤ v) ∧ ∃ a ∈ t.toList, v ≤ a :=
    ⟨⟨v, hv, Int.le_refl v⟩, ⟨v, hv, Int.le_refl v⟩⟩
  have hlow := hleast.2
  have hhigh := hgreatest.2
  simp only [Taps.toList, List.forall_mem_cons] at hlow hhigh
  cases op with
  | gaussian =>
    refine hmean _ ?_
    simp only [reduce, Taps.gaussian]
    omega
  | box =>
    refine hmean _ ?_
    simp only [reduce, Taps.mean]
    omega
  | median => exact hsample _ t.median_spec.1
  | dilate => exact hsample _ hgreatest.1
  | erode => exact hsample _ hleast.1

/-- Larger samples reduce to a larger number. -/
theorem reduce_mono (op : Filter) (h : t.Below u) : op.reduce t ≤ op.reduce u := by
  have hplaces := h
  simp only [Taps.Below, Taps.toList, List.forall₂_cons] at hplaces
  have hleast := t.smallest_spec.2
  have hgreatest := u.largest_spec.2
  simp only [Taps.toList, List.forall_mem_cons] at hleast hgreatest
  cases op with
  | gaussian =>
    simp only [reduce, Taps.gaussian]
    omega
  | box =>
    simp only [reduce, Taps.mean]
    omega
  | median => exact Taps.median_le (countP_le_of_forall₂ h)
  | dilate =>
    have hmem := t.largest_spec.1
    simp only [Taps.toList, List.mem_cons, List.not_mem_nil, or_false] at hmem
    simp only [reduce]
    omega
  | erode =>
    have hmem := u.smallest_spec.1
    simp only [Taps.toList, List.mem_cons, List.not_mem_nil, or_false] at hmem
    simp only [reduce]
    omega

theorem reduce_byte (op : Filter) (h : t.Bytes) : 0 ≤ op.reduce t ∧ op.reduce t ≤ 255 := by
  obtain ⟨⟨a, ha, hlow⟩, ⟨c, hc, hhigh⟩⟩ := op.reduce_between t
  exact ⟨(h a ha).1.trans hlow, hhigh.trans (h c hc).2⟩

end Kernel.Filter

/-! ### Filtered images -/

namespace ImageBuffer

variable {b : ImageBuffer} {border : Border}

/-- The samples around the pixels of a byte image are bytes, whatever the border. -/
theorem around_byte (hbytes : b.format = .u8) (border : Border) (x y : Int) :
    0 ≤ b.around border x y ∧ b.around border x y ≤ 255 := by
  have hpixel (x y : Nat) : 0 ≤ b.pixel x y ∧ b.pixel x y ≤ 255 := by
    have hholds := b.holds_pixel x y
    rw [hbytes] at hholds
    exact (Element.u8.holds_iff _).mp hholds
  cases border with
  | replicate => exact hpixel _ _
  | constant v =>
    simp only [around]
    by_cases hin : 0 ≤ x ∧ x < b.width.toNat ∧ 0 ≤ y ∧ y < b.height.toNat
    · rw [if_pos hin]
      exact hpixel _ _
    · have hlt : v.toNat < 256 := v.toNat_lt
      rw [if_neg hin]
      omega

theorem bytes_window (hbytes : b.format = .u8) (border : Border) (x y : Int) : (b.window border x y).Bytes := by
  simp [Taps.Bytes, Taps.toList, window, around_byte hbytes border]

/-- An image whose pixels are the very numbers that the samples around them reduce to. -/
structure Reduces (out src : ImageBuffer) (border : Border) (format : Format) (reduce : Taps → Int) : Prop where
  info : out.info = .known src.width src.height format
  pixel : ∀ x y, x < src.width.toNat → y < src.height.toNat → out.pixel x y = reduce (src.window border x y)

/-- What fits the format is stored as it is. -/
theorem reduces_filtered {format : Format} {reduce : Taps → Int} (hone : format.channels = 1)
    (hfits : ∀ x y : Nat, format.element.Holds (reduce (b.window border x y))) :
    (b.filtered border format reduce).Reduces b border format reduce where
  info := rfl
  pixel x y hx hy := (pixel_filtered hone reduce hx hy).trans (hfits x y)

theorem reduces_filter (hbytes : b.format = .u8) (op : Kernel.Filter) :
    (b.filtered border .u8 op.reduce).Reduces b border .u8 op.reduce :=
  reduces_filtered rfl fun x y => (Element.u8.holds_iff _).mpr (op.reduce_byte (bytes_window hbytes border x y))

theorem reduces_gradients (hbytes : b.format = .u8) :
    (b.filtered border .s16 Taps.sobelX).Reduces b border .s16 Taps.sobelX ∧
      (b.filtered border .s16 Taps.sobelY).Reduces b border .s16 Taps.sobelY := by
  have hholds (x y : Nat) := (bytes_window hbytes border x y).sobel_holds
  exact ⟨reduces_filtered rfl fun x y => (hholds x y).1, reduces_filtered rfl fun x y => (hholds x y).2⟩

end ImageBuffer

end VisionGraph
