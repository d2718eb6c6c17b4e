import Mathlib.Algebra.BigOperators.Ring.List
import Mathlib.Tactic.Ring
import VisionGraph.Kernel.Pyramid
import VisionGraph.Proofs.Reduction

/-! The levels of a gaussian pyramid. The first level is the image itself. A pixel of a further level is the rounded
binomial mean of the five by five samples around twice its place in the level before, so it lies between them; and since
the extents are halved upwards, that place is always inside of the level before. -/
namespace VisionGraph

/-! ### Weighted sums -/

/-- The sum of the values of a function at some places, each with its weight. -/
def weightedSum (weights : List (Int × Int)) (value : Int → Int) : Int :=
  (weights.map fun w => w.2 * value w.1).sum

/-- Weights that are not negative keep a sum within the bounds of the values. -/
theorem weightedSum_between {weights : List (Int × Int)} {value : Int → Int} {lo hi : Int}
    (hweights : ∀ w ∈ weights, 0 ≤ w.2) (hvalue : ∀ w ∈ weights, lo ≤ value w.1 ∧ value w.1 ≤ hi) :
    (weights.map (·.2)).sum * lo ≤ weightedSum weights value ∧
      weightedSum weights value ≤ (weights.map (·.2)).sum * hi := by
  induction weights with
  | nil => simp [weightedSum]
  | cons w weights ih =>
    obtain ⟨hfirst, hrest⟩ := List.forall_mem_cons.mp hweights
    obtain ⟨hlow, hhigh⟩ := (List.forall_mem_cons.mp hvalue).1
    obtain ⟨ihlow, ihhigh⟩ := ih hrest (List.forall_mem_cons.mp hvalue).2
    have hsum : weightedSum (w :: weights) value = w.2 * value w.1 + weightedSum weights value := List.sum_cons
    rw [hsum, List.map_cons, List.sum_cons, Int.add_mul, Int.add_mul]
    constructor
    · exact Int.add_le_add (Int.mul_le_mul_of_nonneg_left hlow hfirst) ihlow
    · exact Int.add_le_add (Int.mul_le_mul_of_nonneg_left hhigh hfirst) ihhigh

/-- A fold that adds something for every member of a list. -/
theorem foldlM_add {α : Type} {step : Int → α → Option Int} {value : α → Int} {l : List α}
    (h : ∀ a ∈ l, ∀ acc, step acc a = some (acc + value a)) (acc : Int) :
    l.foldlM step acc = some (acc + (l.map value).sum) := by
  induction l generalizing acc with
  | nil => simp
  | cons a l ih =>
    obtain ⟨hfirst, hrest⟩ := List.forall_mem_cons.mp h
    rw [List.foldlM_cons, hfirst]
    calc l.foldlM step (acc + value a) = some (acc + value a + (l.map value).sum) := ih hrest _
      _ = some (acc + ((a :: l).map value).sum) := by rw [List.map_cons, List.sum_cons, Int.add_assoc]

/-! ### Halved images -/

namespace ImageBuffer

open Kernel

variable {a b : ImageBuffer} {border : Border}

/-- The five by five samples around a place. -/
def patch (b : ImageBuffer) (border : Border) (x y : Int) : List Int :=
  [-2, -1, 0, 1, 2].flatMap fun dy => [-2, -1, 0, 1, 2].map fun dx => b.around border (x + dx) (y + dy)

/-- The sum of the samples around a place with binomial weights along both axes. -/
def binomialTotal (b : ImageBuffer) (border : Border) (x y : Int) : Int :=
  weightedSum binomialWeights fun dy => weightedSum binomialWeights fun dx => b.around border (x + dx) (y + dy)

/-- The binomial mean of the samples around a place, rounded to the nearest number. -/
def binomialMean (b : ImageBuffer) (border : Border) (x y : Int) : Int := (b.binomialTotal border x y + 128) / 256

theorem around_mem_patch (x y : Int) {row column : Int × Int} (hrow : row ∈ binomialWeights)
    (hcolumn : column ∈ binomialWeights) : b.around border (x + column.1) (y + row.1) ∈ b.patch border x y := by
  have hoffset (w : Int × Int) (hw : w ∈ binomialWeights) : w.1 ∈ [(-2 : Int), -1, 0, 1, 2] :=
    List.mem_map_of_mem (f := Prod.fst) hw
  exact List.mem_flatMap.mpr ⟨row.1, hoffset row hrow, List.mem_map.mpr ⟨column.1, hoffset column hcolumn, rfl⟩⟩

/-- A mean stays within all bounds of the samples. -/
theorem binomialMean_within {lo hi x y : Int} (h : ∀ v ∈ b.patch border x y, lo ≤ v ∧ v ≤ hi) :
    lo ≤ b.binomialMean border x y ∧ b.binomialMean border x y ≤ hi := by
  have hnonneg : ∀ w ∈ binomialWeights, 0 ≤ w.2 := by decide
  have hsum : (binomialWeights.map (·.2)).sum = 16 := by decide
  -- first along every row, then over the rows
  have hrows : ∀ row ∈ binomialWeights,
      16 * lo ≤ weightedSum binomialWeights (fun dx => b.around border (x + dx) (y + row.1)) ∧
        weightedSum binomialWeights (fun dx => b.around border (x + dx) (y + row.1)) ≤ 16 * hi := by
    intro row hrow
    rw [← hsum]
    apply weightedSum_between hnonneg
    intro column hcolumn
    exact h _ (around_mem_patch x y hrow hcolumn)
  have htotal : 16 * (16 * lo) ≤ b.binomialTotal border x y ∧ b.binomialTotal border x y ≤ 16 * (16 * hi) := by
    rw [← hsum, binomialTotal]
    apply weightedSum_between hnonneg
    rwa [hsum]
  unfold binomialMean
  omega

/-- The mean lies between two of the samples. -/
theorem binomialMean_between (b : ImageBuffer) (border : Border) (x y : Int) :
    (∃ v ∈ b.patch border x y, v ≤ b.binomialMean border x y) ∧
      ∃ v ∈ b.patch border x y, b.binomialMean border x y ≤ v := by
  have hcentre : b.around border (x + 0) (y + 0) ∈ b.patch border x y :=
    @around_mem_patch b border x y (0, 6) (0, 6) (by decide) (by decide)
  obtain ⟨hleast, hlow⟩ := foldl_min_spec hcentre
  obtain ⟨hgreatest, hhigh⟩ := foldl_max_spec hcentre
  obtain ⟨hmin, hmax⟩ := binomialMean_within fun v hv => ⟨hlow v hv, hhigh v hv⟩
  exact ⟨⟨_, hleast, hmin⟩, ⟨_, hgreatest, hmax⟩⟩

/-- So it is a byte, and storing it changes nothing. -/
theorem wrap_binomialMean (hbytes : b.format = .u8) (border : Border) (x y : Int) :
    Element.u8.wrap (b.binomialMean border x y) = b.binomialMean border x y := by
  apply (Element.u8.holds_iff _).mpr
  apply binomialMean_within
  intro v hv
  obtain ⟨dy, _, hv⟩ := List.mem_flatMap.mp hv
  obtain ⟨dx, _, rfl⟩ := List.mem_map.mp hv
  exact around_byte hbytes border _ _

/-- The image of the means around every second pixel. -/
def halved (b : ImageBuffer) (border : Border) (width height : UInt32) : ImageBuffer :=
  ofPixels width height .u8 fun x y => b.binomialMean border (2 * x : Nat) (2 * y : Nat)

theorem pixel_halved (hbytes : b.format = .u8) (border : Border) {width height : UInt32} {x y : Nat}
    (hx : x < width.toNat) (hy : y < height.toNat) :
    (b.halved border width height).pixel x y = b.binomialMean border (2 * x : Nat) (2 * y : Nat) := by
  rw [halved, pixel_ofPixels rfl _ hx hy]
  exact wrap_binomialMean hbytes border _ _

/-- All pixels of the image are one number. -/
def Uniform (b : ImageBuffer) (v : Int) : Prop := ∀ x y, x < b.width.toNat → y < b.height.toNat → b.pixel x y = v

/-- A uniform image that is continued by its nearest pixels stays uniform. -/
theorem Uniform.halved {v : Int} (h : b.Uniform v) (hb : IsLevel b) (width height : UInt32) :
    (b.halved .replicate width height).Uniform v := by
  intro x y hx hy
  change x < width.toNat at hx
  change y < height.toNat at hy
  have hsample : ∀ u ∈ b.patch .replicate (2 * x : Nat) (2 * y : Nat), v ≤ u ∧ u ≤ v := by
    intro u hu
    obtain ⟨dy, _, hu⟩ := List.mem_flatMap.mp hu
    obtain ⟨dx, _, rfl⟩ := List.mem_map.mp hu
    have heq : b.around .replicate ((2 * x : Nat) + dx) ((2 * y : Nat) + dy) = v :=
      h _ _ (nearest_lt hb.width _) (nearest_lt hb.height _)
    omega
  rw [pixel_halved hb.format .replicate hx hy]
  obtain ⟨hlow, hhigh⟩ := binomialMean_within hsample
  omega

/-! ### Images that are written sample by sample -/

/-- The first `n` samples of an image are those of a function of the place. -/
structure Drawn (b : ImageBuffer) (n : Nat) (info : ImageMeta) (value : Nat → Int) : Prop where
  info : b.info = info
  sample : ∀ j < n, b.samples[j]? = some (b.format.element.wrap (value j))

/-- One more sample is written. -/
theorem Drawn.set? {i : Nat} {width height : UInt32} {format : Format} {value : Nat → Int}
    (h : b.Drawn i (.known width height format) value) (hi : i < width.toNat * height.toNat * format.channels) :
    ∃ c, b.set? i (value i) = some c ∧ c.Drawn (i + 1) (.known width height format) value := by
  have hlt : i < b.samples.size := by
    obtain ⟨rfl, rfl, rfl⟩ := extent_of_info h.info
    rwa [b.size_eq]
  refine ⟨b.set i (value i), if_pos hlt, h.info, fun j hj => ?_⟩
  show (b.samples.setIfInBounds i _)[j]? = _
  by_cases hij : i = j
  · subst hij
    exact Array.getElem?_setIfInBounds_self_of_lt hlt
  · rw [Array.getElem?_setIfInBounds_ne hij]
    exact h.sample j (by omega)

/-- When all samples are written, nothing is left of what the image was before. -/
theorem Drawn.eq_ofPixels {width height : UInt32} {format : Format} {value : Nat → Nat → Int}
    (hone : format.channels = 1) (h : b.Drawn (width.toNat * height.toNat) (.known width height format) fun i =>
      value (i % width.toNat) (i / width.toNat)) : b = ofPixels width height format value := by
  obtain ⟨hw, hh, hf⟩ := extent_of_info h.info
  apply ext_pixel h.info (by rwa [hf])
  intro x y hx hy
  rw [hw] at hx
  rw [hh] at hy
  have hat := h.sample _ (flat_lt hy hx)
  simp only [hf, column_of_flat hx, row_of_flat hx] at hat
  rw [pixel_ofPixels hone _ hx hy, pixel, hw, Array.getD_eq_getD_getElem?, hat, Option.getD_some]

/-- An image is made of its pixels. -/
theorem ofPixels_pixel (hone : b.format.channels = 1) : ofPixels b.width b.height b.format b.pixel = b := by
  apply ext_pixel (b := ofPixels b.width b.height b.format b.pixel) (c := b) rfl hone
  intro x y hx hy
  exact (pixel_ofPixels hone b.pixel hx hy).trans (b.holds_pixel x y)

end ImageBuffer

/-! ### Filling the levels -/

namespace Kernel

variable {a b src source target : ImageBuffer} {border : Border} {f : Frame} {levels : UInt32}

/-- The weighted sum of the fetched samples is the one of the samples that the border tells. -/
theorem binomialSum_eq (hb : IsLevel b) (border : Border) (x y : Int) :
    binomialSum b border x y = some (b.binomialTotal border x y) := by
  have hone : b.format.channels = 1 := by rw [hb.format]; rfl
  have hrow (row : Int × Int) (acc : Int) :
      binomialWeights.foldlM (fun acc column => do
        return acc + row.2 * column.2 * (← b.fetch border (x + column.1) (y + row.1))) acc =
      some (acc + row.2 * weightedSum binomialWeights fun dx => b.around border (x + dx) (y + row.1)) := by
    rw [weightedSum, ← List.sum_map_mul_left]
    apply foldlM_add
    intro column _ acc
    rw [ImageBuffer.fetch_eq hone hb.width hb.height, ← Int.mul_assoc]
    rfl
  calc binomialSum b border x y = some (0 + b.binomialTotal border x y) :=
        foldlM_add (fun row _ acc => hrow row acc) 0
    _ = some (b.binomialTotal border x y) := by rw [Int.zero_add]

/-- A level is copied as it is. -/
theorem copyLevel_eq (hs : source.format = .u8) (ht : target.info = source.info) :
    copyLevel source target = .ok source := by
  have hone : source.format.channels = 1 := by rw [hs]; rfl
  let value (i : Nat) : Int := source.pixel (i % source.width.toNat) (i / source.width.toNat)
  have hcopy : ∃ out, copyLevel source target = .ok out ∧
      out.Drawn (source.width.toNat * source.height.toNat) source.info value := by
    refine loop_invariant (fun i (b : ImageBuffer) => b.Drawn i source.info value) (fun i b hi hb => ?_)
      ⟨ht, fun j hj => absurd hj (Nat.not_lt_zero j)⟩
    obtain ⟨c, hset, hc⟩ := hb.set? (by rwa [hone, Nat.mul_one])
    refine ⟨c, ?_, hc⟩
    rw [ImageBuffer.get?, ImageBuffer.samples_getElem? hone hi]
    simp only [value] at hset
    simp only [hset]
  obtain ⟨out, hout, hall⟩ := hcopy
  rw [hout, @ImageBuffer.Drawn.eq_ofPixels _ _ _ _ source.pixel hone hall, ImageBuffer.ofPixels_pixel hone]

/-- A level is overwritten by the halved one before it. -/
theorem shrinkLevel_eq (hs : IsLevel source) (ht : target.format = .u8) (border : Border) :
    shrinkLevel border source target = .ok (source.halved border target.width target.height) := by
  let value (i : Nat) : Int :=
    source.binomialMean border (2 * (i % target.width.toNat) : Nat) (2 * (i / target.width.toNat) : Nat)
  have hinfo : target.info = .known target.width target.height .u8 := by rw [ImageBuffer.info, ht]
  have hshrink : ∃ out, shrinkLevel border source target = .ok out ∧
      out.Drawn (target.width.toNat * target.height.toNat) (.known target.width target.height .u8) value := by
    refine loop_invariant (fun i (b : ImageBuffer) => b.Drawn i (.known target.width target.height .u8) value) (fun i b hi hb => ?_)
      ⟨hinfo, fun j hj => absurd hj (Nat.not_lt_zero j)⟩
    obtain ⟨c, hset, hc⟩ := hb.set? (by simpa [Format.channels] using hi)
    refine ⟨c, ?_, hc⟩
    simp only [value, ImageBuffer.binomialMean] at hset
    simp only [binomialSum_eq hs, hset]
  obtain ⟨out, hout, hall⟩ := hshrink
  rw [hout]
  exact congrArg Except.ok (hall.eq_ofPixels rfl)

/-- Every level is overwritten by the halved one before it. -/
theorem exists_halved (border : Border) {targets : List ImageBuffer} (hs : IsLevel source)
    (ht : ∀ b ∈ targets, IsLevel b) :
    ∃ out, shrinkLevels border source targets = .ok out ∧ out.map (·.info) = targets.map (·.info) ∧
      (source :: out).IsChain fun a b => b = a.halved border b.width b.height := by
  induction targets generalizing source with
  | nil => exact ⟨[], rfl, rfl, .singleton source⟩
  | cons target targets ih =>
    obtain ⟨htarget, hrest⟩ := List.forall_mem_cons.mp ht
    have hinfo : (source.halved border target.width target.height).info = target.info := by
      rw [ImageBuffer.info, ImageBuffer.info, htarget.format]
      rfl
    obtain ⟨out, hout, hinfos, hchain⟩ := ih (htarget.of_info hinfo) hrest
    refine ⟨_ :: out, ?_, ?_, List.isChain_cons_cons.mpr ⟨rfl, hchain⟩⟩
    · exact bind_eq_ok.mpr ⟨_, shrinkLevel_eq hs htarget.format border, bind_eq_ok.mpr ⟨out, hout, rfl⟩⟩
    · rw [List.map_cons, List.map_cons, hinfo, hinfos]

/-! ### Extents -/

theorem shrink_zero {extent : UInt32} (h : 0 < extent.toNat) : PyramidMeta.shrink extent (UInt32.ofNat 0) = extent := by
  have hscale : 2 ^ min (UInt32.ofNat 0).toNat 31 = 1 := rfl
  apply UInt32.toNat_inj.mp
  rw [toNat_shrink, hscale, Nat.div_one]
  omega

/-- Twice a place of a level is a place of the level before. -/
theorem two_mul_lt_shrink {extent : UInt32} {k x : Nat} (hk : k < 31)
    (hx : x < (PyramidMeta.shrink extent (UInt32.ofNat (k + 1))).toNat) :
    2 * x < (PyramidMeta.shrink extent (UInt32.ofNat k)).toNat := by
  have hscale : min (UInt32.ofNat k).toNat 31 = k := by
    rw [UInt32.toNat_ofNat_of_lt' (by simp only [UInt32.size]; omega)]
    omega
  have hscale' : min (UInt32.ofNat (k + 1)).toNat 31 = k + 1 := by
    rw [UInt32.toNat_ofNat_of_lt' (by simp only [UInt32.size]; omega)]
    omega
  rw [toNat_shrink, hscale', Nat.pow_succ] at hx
  rw [toNat_shrink, hscale]
  have hpos : 0 < 2 ^ k := Nat.two_pow_pos k
  generalize 2 ^ k = scale at hx hpos
  rcases Nat.eq_zero_or_pos x with rfl | hxpos
  · omega
  -- the places of a level stand `scale * 2` pixels of the image apart
  have hle : (x + 1) * (scale * 2) ≤ extent.toNat + scale * 2 - 1 :=
    (Nat.le_div_iff_mul_le (by omega)).mp (by omega)
  have hnext : (2 * x + 1) * scale ≤ extent.toNat + scale - 1 := by
    have hleft : (x + 1) * (scale * 2) = (2 * x + 1) * scale + scale := by ring
    omega
  have hdiv := (Nat.le_div_iff_mul_le hpos).mpr hnext
  omega

/-! ### The pyramid over an image -/

/-- The input and the output of a pyramid: a byte image with pixels, and up to 32 levels for it. -/
structure Pyramids (f : Frame) (src : ImageBuffer) (levels : UInt32) : Prop where
  input : f.host 0 = .ok (.image src)
  level : IsLevel src
  output : ∃ p, f.host 1 = .ok (.pyramid p) ∧ p.info = .known levels src.width src.height .u8 ∧ p.Sound
  positive : 1 ≤ levels.toNat
  few : levels.toNat ≤ 32

/-- The frame in which a pyramid finds an image and blank levels. -/
def pyramidFrame (src : ImageBuffer) (levels : UInt32) : Frame :=
  .ofObjects #[.image src, .pyramid (.zero levels src.width src.height .u8)]

theorem pyramids_pyramidFrame (hsrc : IsLevel src) (hpos : 1 ≤ levels.toNat) (hfew : levels.toNat ≤ 32) :
    Pyramids (pyramidFrame src levels) src levels where
  input := Frame.host_ofObjects rfl
  level := hsrc
  output := ⟨_, Frame.host_ofObjects rfl, rfl, PyramidBuffer.sound_zero ..⟩
  positive := hpos
  few := hfew

/-- An image is no pyramid, so the two stand in different objects. -/
theorem Pyramids.apart (h : Pyramids f src levels) : f.Apart 1 0 := by
  obtain ⟨p, hp, _, _⟩ := h.output
  intro k hk hk'
  obtain ⟨j, hj, himage⟩ := Frame.host_eq_ok.mp h.input
  obtain ⟨i, hi, hpyramid⟩ := Frame.host_eq_ok.mp hp
  grind

/-- What stands in the levels after a run. -/
theorem Pyramids.run (h : Pyramids f src levels) (border : Border) :
    ∃ g p, gaussianPyramid.effect border f = .ok g ∧ g.host 0 = .ok (.image src) ∧ g.host 1 = .ok (.pyramid p) ∧
      p.info = .known levels src.width src.height .u8 ∧ p.Sound ∧ p.level? 0 = some src ∧
      p.levels.toList.IsChain fun a b => b = a.halved border b.width b.height := by
  obtain ⟨p, hp, hinfo, hsound⟩ := h.output
  have hcount : p.levels.toList.length = levels.toNat := by
    rw [Array.length_toList]
    exact hsound.count levels (by rw [hinfo]; rfl)
  have hlevels : ∀ b ∈ p.levels.toList, IsLevel b := by
    intro b hb
    obtain ⟨k, hk⟩ := List.mem_iff_getElem?.mp hb
    exact isLevel_of_shrink (info_level hsound hinfo (by simpa using hk))
  cases hlist : p.levels.toList with
  | nil =>
    have hpositive := h.positive
    rw [hlist, List.length_nil] at hcount
    omega
  | cons first rest =>
    have hzero : p.levels[0]? = some first := by
      rw [← Array.getElem?_toList, hlist]
      rfl
    have hfirst : first.info = src.info := by
      rw [info_level hsound hinfo hzero, shrink_zero h.level.width, shrink_zero h.level.height, ImageBuffer.info,
        h.level.format]
      rfl
    obtain ⟨out, hout, hinfos, hchain⟩ := exists_halved border h.level fun b hb =>
      hlevels b (hlist ▸ List.mem_cons_of_mem first hb)
    let filled : PyramidBuffer := { p with levels := (src :: out).toArray }
    have hsame : filled.levels.map (·.info) = p.levels.map (·.info) := by
      apply Array.toList_inj.mp
      rw [Array.toList_map, Array.toList_map, hlist, List.map_cons, List.map_cons, ← hinfos, hfirst]
    have hrun : ∃ change, gaussianPyramid.effect border f = .ok (f.modify 1 change) ∧
        change (.pyramid p) = .pyramid filled := by
      apply Exists.intro
      constructor
      · refine bind_eq_ok.mpr ⟨src, Frame.image_eq_ok.mpr h.input, ?_⟩
        refine bind_eq_ok.mpr ⟨p, Frame.pyramid_eq_ok.mpr hp, ?_⟩
        rw [hlist]
        exact bind_eq_ok.mpr ⟨src, copyLevel_eq h.level.format hfirst, bind_eq_ok.mpr ⟨out, hout, rfl⟩⟩
      · rfl
    obtain ⟨change, hrun, hchange⟩ := hrun
    refine ⟨f.modify 1 change, filled, hrun, ?_, ?_, hinfo, ?_, rfl, hchain⟩
    · exact (Frame.host_modify_of_apart h.apart).trans h.input
    · rw [Frame.host_modify_self hp, hchange]
    · have houtline : (Host.pyramid filled).outline = (Host.pyramid p).outline :=
        congrArg (Outline.pyramid p.info) hsame
      exact Host.Sound.of_outline (x := .pyramid p) hsound houtline

/-- What is promised of a level and the one before it: a pixel is the mean around twice its place, which lies between
two of the samples there, and twice its place is inside of the level before. -/
structure Halves (b a : ImageBuffer) (border : Border) : Prop where
  inside : ∀ x y, x < b.width.toNat → y < b.height.toNat → 2 * x < a.width.toNat ∧ 2 * y < a.height.toNat
  mean : ∀ x y, x < b.width.toNat → y < b.height.toNat →
    b.pixel x y = a.binomialMean border (2 * x : Nat) (2 * y : Nat)
  between : ∀ x y, x < b.width.toNat → y < b.height.toNat →
    (∃ v ∈ a.patch border (2 * x : Nat) (2 * y : Nat), v ≤ b.pixel x y) ∧
      ∃ v ∈ a.patch border (2 * x : Nat) (2 * y : Nat), b.pixel x y ≤ v

/-- The halved level before it is such a level. -/
theorem halves_of_eq {width height : UInt32} {k : Nat} (hk : k < 31)
    (ha : a.info = .known (PyramidMeta.shrink width (UInt32.ofNat k)) (PyramidMeta.shrink height (UInt32.ofNat k)) .u8)
    (hb : b.info = .known (PyramidMeta.shrink width (UInt32.ofNat (k + 1)))
      (PyramidMeta.shrink height (UInt32.ofNat (k + 1))) .u8)
    (h : b = a.halved border b.width b.height) : Halves b a border := by
  obtain ⟨haw, hah, hbytes⟩ := ImageBuffer.extent_of_info ha
  obtain ⟨hbw, hbh, _⟩ := ImageBuffer.extent_of_info hb
  have hmean (x y : Nat) (hx : x < b.width.toNat) (hy : y < b.height.toNat) :
      b.pixel x y = a.binomialMean border (2 * x : Nat) (2 * y : Nat) := by
    rw [h]
    exact ImageBuffer.pixel_halved hbytes border hx hy
  refine ⟨fun x y hx hy => ?_, hmean, fun x y hx hy => ?_⟩
  · rw [hbw] at hx
    rw [hbh] at hy
    rw [haw, hah]
    exact ⟨two_mul_lt_shrink hk hx, two_mul_lt_shrink hk hy⟩
  · rw [hmean x y hx hy]
    exact a.binomialMean_between border _ _

/-- The gaussian pyramid. Its first level is the image. Every level has the extent that its number gives it, and all
its pixels are means of the level before, within the samples there. A uniform image that is continued by its nearest
pixels gives uniform levels. -/
theorem gaussianPyramid_levels (border : Border) (f : Frame) (src : ImageBuffer) (levels : UInt32)
    (h : Pyramids f src levels) :
    ∃ g p, gaussianPyramid.effect border f = .ok g ∧ g.host 0 = .ok (.image src) ∧ g.host 1 = .ok (.pyramid p) ∧
      p.info = .known levels src.width src.height .u8 ∧ p.level? 0 = some src ∧
      (∀ k < levels.toNat, ∃ b, p.level? k = some b ∧ b.format = .u8 ∧
        p.info.levelDims (UInt32.ofNat k) = some (b.width, b.height)) ∧
      (∀ k a b, p.level? k = some a → p.level? (k + 1) = some b → Halves b a border) ∧
      ∀ v, border = .replicate → src.Uniform v → ∀ k b, p.level? k = some b → b.Uniform v := by
  obtain ⟨g, p, hrun, hinput, houtput, hinfo, hsound, hbase, hchain⟩ := h.run border
  have hcount : p.levels.size = levels.toNat := hsound.count levels (by rw [hinfo]; rfl)
  have hnext (k : Nat) (a b : ImageBuffer) (ha : p.level? k = some a) (hb : p.level? (k + 1) = some b) :
      b = a.halved border b.width b.height := by
    obtain ⟨hk, rfl⟩ := Array.getElem?_eq_some_iff.mp ha
    obtain ⟨hk', rfl⟩ := Array.getElem?_eq_some_iff.mp hb
    exact List.isChain_iff_getElem.mp hchain k (by rwa [Array.length_toList])
  refine ⟨g, p, hrun, hinput, houtput, hinfo, hbase, fun k hk => ?_, fun k a b ha hb => ?_, fun v hborder hv => ?_⟩
  · have hlt : k < p.levels.size := hcount ▸ hk
    have hlevel := info_level hsound hinfo (Array.getElem?_eq_getElem hlt)
    obtain ⟨hw, hh, hf⟩ := ImageBuffer.fields_of_info hlevel
    refine ⟨p.levels[k], Array.getElem?_eq_getElem hlt, hf, ?_⟩
    rw [hinfo, hw, hh]
    rfl
  · have hk : k < 31 := by
      obtain ⟨hlt, _⟩ := Array.getElem?_eq_some_iff.mp hb
      have hfew := h.few
      omega
    exact halves_of_eq hk (info_level hsound hinfo ha) (info_level hsound hinfo hb) (hnext k a b ha hb)
  · subst hborder
    -- from level to level: each has pixels, and the next one is the halved one
    intro k
    induction k with
    | zero =>
      intro b hb
      rw [hbase] at hb
      cases hb
      exact hv
    | succ k ih =>
      intro b hb
      obtain ⟨hlt, _⟩ := Array.getElem?_eq_some_iff.mp hb
      have ha : p.level? k = some p.levels[k] := Array.getElem?_eq_getElem (by omega)
      rw [hnext k _ b ha hb]
      exact (ih _ ha).halved (isLevel_of_shrink (info_level hsound hinfo ha)) _ _

/-- Four levels over a steep image of five by three pixels, down to a single pixel. -/
theorem gaussianPyramid_levels_steep : ∃ g p b c, gaussianPyramid.effect (.constant 200)
      (pyramidFrame (.ofPixels 5 3 .u8 fun x y => 60 * x + y) 4) = .ok g ∧ g.host 1 = .ok (.pyramid p) ∧
    p.level? 2 = some b ∧ p.level? 3 = some c ∧ (b.width, b.height) = (2, 1) ∧ (c.width, c.height) = (1, 1) ∧
    Halves c b (.constant 200) := by
  have hlevel : IsLevel (.ofPixels 5 3 .u8 fun x y => 60 * x + y) := ⟨rfl, by decide, by decide⟩
  obtain ⟨g, p, hrun, _, houtput, hinfo, _, hextents, hhalves, _⟩ := gaussianPyramid_levels (.constant 200) _ _ 4
    (pyramids_pyramidFrame hlevel (by decide) (by decide))
  obtain ⟨b, hb, _, hbextent⟩ := hextents 2 (by decide)
  obtain ⟨c, hc, _, hcextent⟩ := hextents 3 (by decide)
  rw [hinfo] at hbextent hcextent
  refine ⟨g, p, b, c, hrun, houtput, hb, hc, ?_, ?_, hhalves 2 b c hb hc⟩
  · exact (Option.some.inj hbextent).symm
  · exact (Option.some.inj hcextent).symm

end Kernel

end VisionGraph
