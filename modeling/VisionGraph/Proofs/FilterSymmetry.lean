import VisionGraph.Proofs.Reduction

/-! The symmetries of the filters over neighbourhoods. A flip or a transposition of an image moves the samples around
a pixel to other places; what does not depend on those places commutes with it, and the gradients change their sign
or their roles. -/
namespace VisionGraph

/-- The symmetries of the square grid that generate all others. -/
inductive Symmetry where
  | flipAcross | flipOver | transpose
deriving DecidableEq, Repr

namespace Symmetry

variable {b : ImageBuffer} {border : Border}

/-- The extent of a moved image. -/
def width : Symmetry → ImageBuffer → UInt32
  | .transpose, b => b.height
  | _, b => b.width

def height : Symmetry → ImageBuffer → UInt32
  | .transpose, b => b.width
  | _, b => b.height

/-- The place of an image that a symmetry brings to a given one. -/
def place : Symmetry → ImageBuffer → Int → Int → Int × Int
  | .flipAcross, b, x, y => (b.width.toNat - 1 - x, y)
  | .flipOver, b, x, y => (x, b.height.toNat - 1 - y)
  | .transpose, _, x, y => (y, x)

/-- The moved image. -/
def image (σ : Symmetry) (b : ImageBuffer) : ImageBuffer :=
  .ofPixels (σ.width b) (σ.height b) b.format fun x y => b.pixel (σ.place b x y).1.toNat (σ.place b x y).2.toNat

/-- The moved samples around a pixel. -/
def taps : Symmetry → Taps → Taps
  | .flipAcross, t => ⟨t.p2, t.p1, t.p0, t.p5, t.p4, t.p3, t.p8, t.p7, t.p6⟩
  | .flipOver, t => ⟨t.p6, t.p7, t.p8, t.p3, t.p4, t.p5, t.p0, t.p1, t.p2⟩
  | .transpose, t => ⟨t.p0, t.p3, t.p6, t.p1, t.p4, t.p7, t.p2, t.p5, t.p8⟩

variable (σ : Symmetry)

theorem pixel_image (hone : b.format.channels = 1) {x y : Nat} (hx : x < (σ.width b).toNat)
    (hy : y < (σ.height b).toNat) : (σ.image b).pixel x y = b.pixel (σ.place b x y).1.toNat (σ.place b x y).2.toNat :=
  (ImageBuffer.pixel_ofPixels hone _ hx hy).trans (b.holds_pixel _ _)

/-- What is inside of the moved image comes from inside of the image. -/
theorem place_inside (x y : Int) :
    (0 ≤ x ∧ x < (σ.width b).toNat ∧ 0 ≤ y ∧ y < (σ.height b).toNat) ↔
      0 ≤ (σ.place b x y).1 ∧ (σ.place b x y).1 < b.width.toNat ∧ 0 ≤ (σ.place b x y).2 ∧
        (σ.place b x y).2 < b.height.toNat := by
  cases σ <;> simp only [place, width, height] <;> omega

theorem place_nearest (hw : 0 < b.width.toNat) (hh : 0 < b.height.toNat) (x y : Int) :
    (σ.place b (ImageBuffer.nearest (σ.width b).toNat x) (ImageBuffer.nearest (σ.height b).toNat y)).1.toNat =
        ImageBuffer.nearest b.width.toNat (σ.place b x y).1 ∧
      (σ.place b (ImageBuffer.nearest (σ.width b).toNat x) (ImageBuffer.nearest (σ.height b).toNat y)).2.toNat =
        ImageBuffer.nearest b.height.toNat (σ.place b x y).2 := by
  cases σ <;> simp only [place, width, height, ImageBuffer.nearest] <;> omega

/-- The border moves along with the image. -/
theorem around_image (hone : b.format.channels = 1) (hw : 0 < b.width.toNat) (hh : 0 < b.height.toNat) (x y : Int) :
    (σ.image b).around border x y = b.around border (σ.place b x y).1 (σ.place b x y).2 := by
  have hw' : 0 < (σ.width b).toNat := by cases σ <;> assumption
  have hh' : 0 < (σ.height b).toNat := by cases σ <;> assumption
  cases border with
  | replicate =>
    obtain ⟨hcolumn, hrow⟩ := σ.place_nearest hw hh x y
    calc (σ.image b).around .replicate x y
      _ = (σ.image b).pixel (ImageBuffer.nearest (σ.width b).toNat x) (ImageBuffer.nearest (σ.height b).toNat y) := rfl
      _ = _ := σ.pixel_image hone (ImageBuffer.nearest_lt hw' x) (ImageBuffer.nearest_lt hh' y)
      _ = b.around .replicate (σ.place b x y).1 (σ.place b x y).2 := by rw [hcolumn, hrow]; rfl
  | constant v =>
    by_cases hin : 0 ≤ x ∧ x < (σ.width b).toNat ∧ 0 ≤ y ∧ y < (σ.height b).toNat
    · have hpixel := σ.pixel_image hone (x := x.toNat) (y := y.toNat) (by omega) (by omega)
      rw [Int.toNat_of_nonneg hin.1, Int.toNat_of_nonneg hin.2.2.1] at hpixel
      calc (σ.image b).around (.constant v) x y
        _ = (σ.image b).pixel x.toNat y.toNat := if_pos hin
        _ = b.pixel (σ.place b x y).1.toNat (σ.place b x y).2.toNat := hpixel
        _ = b.around (.constant v) (σ.place b x y).1 (σ.place b x y).2 := (if_pos ((σ.place_inside x y).mp hin)).symm
    · calc (σ.image b).around (.constant v) x y
        _ = v.toNat := if_neg hin
        _ = b.around (.constant v) (σ.place b x y).1 (σ.place b x y).2 :=
          (if_neg fun h => hin ((σ.place_inside x y).mpr h)).symm

/-- The samples around a pixel of the moved image are the moved samples around the pixel that it comes from. -/
theorem window_image (hone : b.format.channels = 1) (hw : 0 < b.width.toNat) (hh : 0 < b.height.toNat) (x y : Int) :
    (σ.image b).window border x y = σ.taps (b.window border (σ.place b x y).1 (σ.place b x y).2) := by
  have hback (n i : Int) : n - 1 - (i - 1) = n - 1 - i + 1 := by omega
  have hforth (n i : Int) : n - 1 - (i + 1) = n - 1 - i - 1 := by omega
  cases σ <;> simp only [ImageBuffer.window, around_image _ hone hw hh, taps, place, hback, hforth]

theorem pixel_filtered_image (hone : b.format.channels = 1) {format : Format} (hformat : format.channels = 1)
    (reduce : Taps → Int) {x y : Nat} (hx : x < (σ.width b).toNat) (hy : y < (σ.height b).toNat) :
    ((σ.image b).filtered border format reduce).pixel x y =
      format.element.wrap (reduce (σ.taps (b.window border (σ.place b x y).1 (σ.place b x y).2))) := by
  obtain ⟨hleft, hright, htop, hbottom⟩ := (σ.place_inside (b := b) x y).mp (by omega)
  rw [← σ.window_image hone (by omega) (by omega)]
  exact ImageBuffer.pixel_filtered hformat reduce hx hy

theorem pixel_image_filtered {format : Format} (hformat : format.channels = 1) (reduce : Taps → Int) {x y : Nat}
    (hx : x < (σ.width b).toNat) (hy : y < (σ.height b).toNat) :
    (σ.image (b.filtered border format reduce)).pixel x y =
      format.element.wrap (reduce (b.window border (σ.place b x y).1 (σ.place b x y).2)) := by
  obtain ⟨hleft, hright, htop, hbottom⟩ := (σ.place_inside (b := b) x y).mp (by omega)
  have hpixel := @ImageBuffer.pixel_filtered b border format (σ.place b x y).1.toNat (σ.place b x y).2.toNat hformat
    reduce (by omega) (by omega)
  rw [Int.toNat_of_nonneg hleft, Int.toNat_of_nonneg htop] at hpixel
  -- the filtered image has the extent of the image, so places move alike
  rw [← hpixel]
  cases σ <;> exact pixel_image _ hformat hx hy

/-- What the moved samples reduce to alike gives the moved image. -/
theorem filtered_image (hone : b.format.channels = 1) {format : Format} (hformat : format.channels = 1)
    {reduce reduce' : Taps → Int} (hreduce : ∀ t, reduce' (σ.taps t) = reduce t) :
    (σ.image b).filtered border format reduce' = σ.image (b.filtered border format reduce) := by
  have hinfo : ((σ.image b).filtered border format reduce').info =
      (σ.image (b.filtered border format reduce)).info := by cases σ <;> rfl
  refine ImageBuffer.ext_pixel hinfo hformat fun x y hx hy => ?_
  rw [σ.pixel_filtered_image hone hformat reduce' hx hy, hreduce]
  exact (σ.pixel_image_filtered hformat reduce hx hy).symm

theorem perm_taps (t : Taps) : (σ.taps t).toList.Perm t.toList := by
  refine List.perm_iff_count.mpr fun v => ?_
  cases σ <;> simp only [taps, Taps.toList, List.count_cons, List.count_nil] <;> omega

/-- No filter depends on how the samples are moved. -/
theorem reduce_taps (op : Kernel.Filter) (t : Taps) : op.reduce (σ.taps t) = op.reduce t := by
  cases op with
  | gaussian => cases σ <;> simp only [Kernel.Filter.reduce, Taps.gaussian, taps] <;> omega
  | box => cases σ <;> simp only [Kernel.Filter.reduce, Taps.mean, taps] <;> omega
  | median => exact Taps.median_perm (σ.perm_taps t)
  | dilate => exact Taps.largest_perm (σ.perm_taps t)
  | erode => exact Taps.smallest_perm (σ.perm_taps t)

end Symmetry

namespace Kernel

variable {b : ImageBuffer}

/-- The first gradient of an image that is flipped across has the opposite sign. -/
theorem pixel_flipped_gradient (hbytes : b.format = .u8) (border : Border) {x y : Nat} (hx : x < b.width.toNat)
    (hy : y < b.height.toNat) :
    ((Symmetry.flipAcross.image b).filtered border .s16 Taps.sobelX).pixel x y =
      -(Symmetry.flipAcross.image (b.filtered border .s16 Taps.sobelX)).pixel x y := by
  have hone : b.format.channels = 1 := by rw [hbytes]; rfl
  rw [Symmetry.flipAcross.pixel_filtered_image hone rfl _ hx hy, Symmetry.flipAcross.pixel_image_filtered rfl _ hx hy]
  let t := b.window border (Symmetry.flipAcross.place b x y).1 (Symmetry.flipAcross.place b x y).2
  have hsamples : t.Bytes := ImageBuffer.bytes_window hbytes border _ _
  have hmoved : (Symmetry.flipAcross.taps t).Bytes := fun v hv =>
    hsamples v ((Symmetry.flipAcross.perm_taps t).mem_iff.mp hv)
  calc Element.s16.wrap (Symmetry.flipAcross.taps t).sobelX
    _ = (Symmetry.flipAcross.taps t).sobelX := hmoved.sobel_holds.1
    _ = -t.sobelX := by
      simp only [Symmetry.taps, Taps.sobelX]
      omega
    _ = -Element.s16.wrap t.sobelX := congrArg Neg.neg hsamples.sobel_holds.1.symm

/-- A ramp that none of the symmetries leaves as it is. -/
def ramp : ImageBuffer := .ofPixels 3 2 .u8 fun x y => 70 * x + 9 * y

end Kernel

end VisionGraph
