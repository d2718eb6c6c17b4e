import VisionGraph.Proofs.FilterRange
import VisionGraph.Proofs.Relay

/-! Filters of the complement. To take complements turns the order of the bytes around: the largest sample of a
neighbourhood becomes the smallest, and the median stays the median. When what stands outside of the image is
complemented too, erosion of the complement is the complement of dilation, and the median goes through complements. -/
namespace VisionGraph

/-! ### Neighbourhoods -/

namespace Taps

/-- The complements of all samples. -/
def complement (t : Taps) : Taps where
  p0 := 255 - t.p0
  p1 := 255 - t.p1
  p2 := 255 - t.p2
  p3 := 255 - t.p3
  p4 := 255 - t.p4
  p5 := 255 - t.p5
  p6 := 255 - t.p6
  p7 := 255 - t.p7
  p8 := 255 - t.p8

theorem toList_complement (t : Taps) : t.complement.toList = t.toList.map (255 - ·) := rfl

theorem complement_complement (t : Taps) : t.complement.complement = t := by
  simp [complement]

theorem smallest_complement (t : Taps) : t.complement.smallest = 255 - t.largest := by
  apply Int.le_antisymm
  · apply t.complement.smallest_spec.2
    rw [toList_complement]
    exact List.mem_map_of_mem t.largest_spec.1
  · have hmem := t.complement.smallest_spec.1
    rw [toList_complement] at hmem
    obtain ⟨v, hv, heq⟩ := List.mem_map.mp hmem
    have hle := t.largest_spec.2 v hv
    omega

theorem largest_complement (t : Taps) : t.complement.largest = 255 - t.smallest := by
  have hback := smallest_complement t.complement
  rw [complement_complement] at hback
  omega

/-- The median is the only number with at least five samples not above it and five not below. -/
theorem eq_median {t : Taps} {v : Int} (hbelow : 5 ≤ t.toList.countP (· ≤ v)) (habove : 5 ≤ t.toList.countP (v ≤ ·)) :
    v = t.median := by
  obtain ⟨_, hbelow', habove'⟩ := t.median_spec
  have hnine : t.toList.length = 9 := rfl
  rcases Int.lt_trichotomy v t.median with hlt | heq | hgt
  · have htotal := countP_add_countP_le hlt t.toList
    omega
  · exact heq
  · have htotal := countP_add_countP_le hgt t.toList
    omega

/-- As many complements are at most the complement of a number as samples are at least the number. -/
theorem countP_complement (t : Taps) (v : Int) :
    t.complement.toList.countP (· ≤ 255 - v) = t.toList.countP (v ≤ ·) := by
  rw [toList_complement, List.countP_map]
  congr 1
  funext a
  simp only [Function.comp_apply, decide_eq_decide]
  omega

theorem median_complement (t : Taps) : t.complement.median = 255 - t.median := by
  obtain ⟨_, hbelow, habove⟩ := t.median_spec
  symm
  -- the samples not below the median become those not above it, and the other way round
  apply eq_median
  · rwa [countP_complement]
  · rw [← countP_complement, complement_complement]
    convert hbelow using 4
    omega

end Taps

namespace Kernel.Filter

/-- Dilation and erosion change places; every other filter keeps its own. -/
def dual : Filter → Filter
  | .dilate => .erode
  | .erode => .dilate
  | op => op

theorem reduce_dual {op : Filter} (hop : op ∈ [median, dilate, erode]) (t : Taps) :
    op.dual.reduce t.complement = 255 - op.reduce t := by
  simp only [List.mem_cons, List.not_mem_nil, or_false] at hop
  rcases hop with rfl | rfl | rfl
  · exact t.median_complement
  · exact t.smallest_complement
  · exact t.largest_complement

end Kernel.Filter

/-! ### Images -/

/-- The border around the complement. -/
def Border.dual : Border → Border
  | .replicate => .replicate
  | .constant v => .constant (255 - v)

namespace ImageBuffer

variable {b : ImageBuffer} {border : Border}

/-- The complement of every byte. -/
def complement (b : ImageBuffer) : ImageBuffer := ofPixels b.width b.height .u8 fun x y => 255 - b.pixel x y

theorem pixel_complement (hbytes : b.format = .u8) {x y : Nat} (hx : x < b.width.toNat) (hy : y < b.height.toNat) :
    b.complement.pixel x y = 255 - b.pixel x y := by
  have hholds := b.holds_pixel x y
  rw [hbytes] at hholds
  obtain ⟨hlow, hhigh⟩ := (Element.u8.holds_iff _).mp hholds
  rw [complement, pixel_ofPixels rfl _ hx hy]
  apply (Element.u8.holds_iff _).mpr
  simp only [Element.lo, Element.hi] at hlow hhigh ⊢
  omega

theorem sample_complement {i : Nat} (hi : i < b.width.toNat * b.height.toNat) :
    b.complement.samples.getD i 0 = Element.u8.wrap (255 - b.samples.getD i 0) := by
  have hflat : i / b.width.toNat * b.width.toNat + i % b.width.toNat = i := Nat.div_add_mod' i _
  have hwrap : Format.u8.element = Element.u8 := rfl
  simp [complement, ofPixels, generate, pixel, hflat, hwrap, Format.channels, hi]

/-- Inside and outside of the image, what is around in the complement is the complement of what is around. -/
theorem around_complement (hbytes : b.format = .u8) (hw : 0 < b.width.toNat) (hh : 0 < b.height.toNat) (x y : Int) :
    b.complement.around border.dual x y = 255 - b.around border x y := by
  have hwidth : b.complement.width = b.width := rfl
  have hheight : b.complement.height = b.height := rfl
  cases border with
  | replicate =>
    simp only [Border.dual, around, hwidth, hheight]
    exact pixel_complement hbytes (nearest_lt hw x) (nearest_lt hh y)
  | constant v =>
    simp only [Border.dual, around, hwidth, hheight]
    by_cases hin : 0 ≤ x ∧ x < b.width.toNat ∧ 0 ≤ y ∧ y < b.height.toNat
    · rw [if_pos hin, if_pos hin]
      exact pixel_complement hbytes (by omega) (by omega)
    · have hlt := v.toNat_lt
      have hle : v ≤ 255 := UInt8.le_iff_toNat_le.mpr (Nat.le_of_lt_succ hlt)
      have hdual : (255 - v).toNat = 255 - v.toNat := UInt8.toNat_sub_of_le 255 v hle
      rw [if_neg hin, if_neg hin, hdual]
      omega

theorem window_complement (hbytes : b.format = .u8) (hw : 0 < b.width.toNat) (hh : 0 < b.height.toNat) (x y : Int) :
    b.complement.window border.dual x y = (b.window border x y).complement := by
  simp only [window, Taps.complement, around_complement hbytes hw hh]

/-- The dual filter of the complement is the complement of the filtered image. -/
theorem filtered_complement {op : Kernel.Filter} (hop : op ∈ [.median, .dilate, .erode]) (hbytes : b.format = .u8) :
    b.complement.filtered border.dual .u8 op.dual.reduce = (b.filtered border .u8 op.reduce).complement := by
  refine ext_pixel rfl rfl fun x y hx hy => ?_
  change x < b.width.toNat at hx
  change y < b.height.toNat at hy
  have hleft := (@reduces_filter b.complement border.dual rfl op.dual).pixel x y hx hy
  have hright := (@reduces_filter b border hbytes op).pixel x y hx hy
  have hwhole := @pixel_complement (b.filtered border .u8 op.reduce) rfl x y hx hy
  calc (b.complement.filtered border.dual .u8 op.dual.reduce).pixel x y
      = op.dual.reduce (b.complement.window border.dual x y) := hleft
    _ = op.dual.reduce (b.window border x y).complement := by
      rw [window_complement hbytes (by omega) (by omega)]
    _ = 255 - op.reduce (b.window border x y) := Kernel.Filter.reduce_dual hop _
    _ = 255 - (b.filtered border .u8 op.reduce).pixel x y := by rw [hright]
    _ = (b.filtered border .u8 op.reduce).complement.pixel x y := hwhole.symm

end ImageBuffer

/-! ### Kernels -/

namespace Kernel

theorem isPixelwise_filter (op : Filter) : op.kernel.isPixelwise = false := by
  cases op <;> rfl

/-- A filter draws the filtered image. -/
theorem draws_filter (op : Filter) (border : Border) : op.kernel.Draws border fun src =>
    src.filtered border .u8 op.reduce where
  found := by cases op <;> rfl
  specs := by cases op <;> rfl
  rule := by cases op <;> rfl
  steady := by cases op <;> decide
  stage := by
    intro p s m n step input output src hlinks hborder hm hrun hsrc
    subst hborder
    have hblock := isPixelwise_filter op
    obtain ⟨f, g, hready, hshows, heffect, hleft⟩ := hm.exists_effect hlinks.sound hlinks.storage hlinks.extrema
      hlinks.mem hblock rfl hlinks.valid hrun
    have hinput : step.params[0]? = some (some input) := by rw [hlinks.params]; rfl
    have houtput : step.params[1]? = some (some output) := by rw [hlinks.params]; rfl
    have hfilters : Filters f src := by
      obtain ⟨_, hrule, hset⟩ := hready.accepted
      rw [hlinks.rule] at hrule
      obtain ⟨shape, hbytes, hin, hout⟩ := byteRule_known hrule hset
      obtain ⟨shown, hshown, hinfo⟩ := hready.suits.image hin
      obtain ⟨dst, hdst, hinfo'⟩ := hready.suits.image hout
      have hsame := hshows.held 0 input _ hinput hshown
      rw [hsrc] at hsame
      cases hsame
      have happart := hshows.apart 1 0 output input houtput hinput hlinks.apart.symm
      have hformat : src.format = .u8 := (ImageBuffer.fields_of_info hinfo).2.2.trans hbytes
      exact ⟨hshown, hformat, ⟨dst, hdst, hinfo'.trans hinfo.symm⟩, happart⟩
    obtain ⟨g', hrun', _, hfiltered⟩ := op.run step.border hfilters
    rw [heffect] at hrun'
    cases hrun'
    exact hleft 1 output _ houtput (hlinks.mem_writes.mpr rfl) hfiltered

/-- What the complement leaves at a sample. -/
theorem finish_not {p : Plan} {s : Storage} {m : Memory} {step : Step} {input output : ObjectId} {src dst : ImageBuffer}
    (h : step.Links p s Kernel.not input output) (hsrc : p.held m input = some (.image src))
    (hdst : p.held m output = some (.image dst)) (hbytes : dst.format = .u8) (i : Nat) :
    (Stage.single step Kernel.not.isPixelwise).finish p m i output = Element.u8.wrap (255 - src.samples.getD i 0) := by
  have hown (o : ObjectId) : o ∉ (Stage.single step Kernel.not.isPixelwise).internal := List.not_mem_nil
  have hkernel : Registry.standard.find? step.kernel = some Kernel.not := h.valid.kernel
  have htarget : step.target? = some output := by
    rw [Step.target?, hkernel, h.params]
    rfl
  have hsink : (Stage.single step Kernel.not.isPixelwise).sink p m output = some .u8 := by
    rw [Stage.sink, if_neg (hown output), hdst, Option.bind_some, Host.element?, hbytes]
    rfl
  have hcell : (Stage.single step Kernel.not.isPixelwise).start p m i input = src.samples.getD i 0 := by
    rw [Stage.start, if_neg (hown input), Plan.cell_of_image hsrc]
  have hvalue : step.value p ((Stage.single step Kernel.not.isPixelwise).start p m i) = 255 - src.samples.getD i 0 := by
    rw [Step.value, hkernel, ← hcell]
    simp only [Option.map_some, Option.getD_some]
    show 255 - step.args _ 0 = _
    rw [Step.args, h.params]
    rfl
  show Step.act p _ _ step output = _
  rw [Step.act, if_pos htarget, hsink, hvalue]
  rfl

/-- The complement of every sample is the complement of the image. -/
theorem draws_not (border : Border) : Kernel.not.Draws border ImageBuffer.complement where
  found := rfl
  specs := rfl
  rule := rfl
  steady := by decide
  stage := by
    intro p s m n step input output src hlinks _ hm hrun hsrc
    obtain ⟨src', dst, hsrc', hdst, hbytes, hinfo⟩ := hlinks.images hm
    rw [hsrc] at hsrc'
    cases hsrc'
    obtain ⟨hw, hh, hf⟩ := ImageBuffer.extent_of_info hinfo
    rw [hlinks.sound.held_pixelwise hlinks.storage hlinks.mem rfl hrun (hlinks.mem_writes.mpr rfl) hdst]
    refine congrArg some (Host.eq_refill ?_ fun b hb i hi => ?_).symm
    · simp only [Host.blank, hw, hh, hf, hbytes]
      rfl
    · cases hb
      rw [finish_not hlinks hsrc hdst (hf.trans hbytes)]
      apply ImageBuffer.sample_complement
      simpa [dst.size_eq, hw, hh, hf, hbytes, Format.channels] using hi

end Kernel

namespace Graph

end Graph

end VisionGraph
