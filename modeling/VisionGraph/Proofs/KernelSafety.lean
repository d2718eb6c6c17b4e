import Mathlib.Algebra.Group.Nat.Defs
import VisionGraph.Proofs.FrameSafety

/-! Effects of the standard kernels over whole objects. On a frame that suits what the rule of a kernel has accepted,
every element that the kernel addresses is there; so the kernel comes to its end. -/
namespace VisionGraph

/-- An image that a rule infers is known with its shape. -/
theorem Rule.Settled.image {known : Known} {inferences : List Inference} (h : Settled known inferences) {slot : Nat}
    {like : ImageShape} {format : Format} (hi : inferImage slot like format ∈ inferences) :
    slotMeta known slot = some (.image (shapeMeta ⟨like.width, like.height, format⟩)) := by
  obtain ⟨m, hm, hext⟩ := h _ hi
  cases m with
  | image b =>
    have hb : b = shapeMeta ⟨like.width, like.height, format⟩ := Meta.image.inj (hext.eq_of_resolved rfl rfl)
    exact hb ▸ hm
  | _ => exact hext.elim

/-- What the effect of a kernel can rely on. -/
structure Frame.Ready (f : Frame) (k : Kernel) (known : Known) : Prop where
  suits : f.Suits known
  written : ∀ (slot : Nat) (spec : Param) (m : Meta), k.signature.params[slot]? = some spec →
    spec.direction.writes = true → Rule.slotMeta known slot = some m → m.value? = none
  accepted : ∃ inferences, k.rule known = .ok inferences ∧ Rule.Settled known inferences

/-- The optional parameters that a frame binds are those that the rule looks at. -/
theorem Frame.Ready.mem_bound {f g : Frame} {k : Kernel} {known : Known} (h : f.Ready k known) {slot : Nat}
    {slots : List Nat} (hslot : slot ∈ slots) (hg : f.Keeps g) (hbound : g.isBound slot = true) :
    slot ∈ slots.filter (Rule.isBound known) := by
  obtain ⟨m, hm⟩ := (h.suits.keeps hg).exists_meta hbound
  refine List.mem_filter.mpr ⟨hslot, ?_⟩
  unfold Rule.slotMeta at hm
  rw [Rule.isBound, hm]
  rfl

/-- A row and a column of an image lead to one of its samples. -/
theorem flat_lt {w h row column : Nat} (hrow : row < h) (hcolumn : column < w) : row * w + column < w * h := by
  calc row * w + column < row * w + w := by omega
    _ = (row + 1) * w := by rw [Nat.add_mul, Nat.one_mul]
    _ ≤ h * w := Nat.mul_le_mul_right w hrow
    _ = w * h := Nat.mul_comm h w

/-- A channel of a pixel is one of the samples. -/
theorem channel_lt {n channels i c : Nat} (hi : i < n) (hc : c < channels) : i * channels + c < n * channels := by
  rw [Nat.mul_comm n channels]
  exact flat_lt hi hc

/-! ### Samples around a pixel -/

/-- Along an axis with pixels a border that replicates stays inside; a constant border needs no pixel outside. -/
theorem Border.along_lt (border : Border) {n : Nat} (hn : 0 < n) (i : Int) :
    border.along n i < n ∨ ∃ v, border = .constant v := by
  cases border with
  | constant v => exact .inr ⟨v, rfl⟩
  | replicate =>
    left
    unfold along
    split
    · exact hn
    · split
      · assumption
      · exact Nat.sub_lt hn Nat.one_pos

namespace ImageBuffer

variable {b : ImageBuffer} {border : Border}

theorem exists_pick (hone : b.format.channels = 1) {column row : Nat}
    (h : column < b.width.toNat ∧ row < b.height.toNat ∨ ∃ v, border = .constant v) :
    ∃ v, b.pick border column row = some v := by
  unfold pick
  split
  · rename_i hin
    have hlt : row * b.width.toNat + column < b.samples.size := by
      rw [b.size_eq, hone, Nat.mul_one]
      exact flat_lt hin.2 hin.1
    exact ⟨_, Array.getElem?_eq_getElem hlt⟩
  · rename_i hout
    rcases h with hin | ⟨v, rfl⟩
    · exact absurd hin hout
    · exact ⟨_, rfl⟩

/-- Every place has a sample, or a border in its stead. -/
theorem exists_fetch (border : Border) (hone : b.format.channels = 1) (hw : 0 < b.width.toNat) (hh : 0 < b.height.toNat)
    (x y : Int) : ∃ v, b.fetch border x y = some v := by
  refine exists_pick hone ?_
  rcases border.along_lt hw x with hx | hconst
  · rcases border.along_lt hh y with hy | hconst
    · exact .inl ⟨hx, hy⟩
    · exact .inr hconst
  · exact .inr hconst

theorem exists_gather (border : Border) (hone : b.format.channels = 1) (hw : 0 < b.width.toNat)
    (hh : 0 < b.height.toNat) (x y : Int) : ∃ taps, Taps.gather b border x y = some taps := by
  have hpick (x y : Int) := exists_fetch border hone hw hh x y
  unfold fetch at hpick
  obtain ⟨_, h0⟩ := hpick (x - 1) (y - 1)
  obtain ⟨_, h1⟩ := hpick x (y - 1)
  obtain ⟨_, h2⟩ := hpick (x + 1) (y - 1)
  obtain ⟨_, h3⟩ := hpick (x - 1) y
  obtain ⟨_, h4⟩ := hpick x y
  obtain ⟨_, h5⟩ := hpick (x + 1) y
  obtain ⟨_, h6⟩ := hpick (x - 1) (y + 1)
  obtain ⟨_, h7⟩ := hpick x (y + 1)
  obtain ⟨_, h8⟩ := hpick (x + 1) (y + 1)
  simp only [Taps.gather, h0, h1, h2, h3, h4, h5, h6, h7, h8]
  exact ⟨_, rfl⟩

end ImageBuffer

namespace Kernel

/-- A kernel over whole objects that comes to its end on every frame that is ready. -/
def Completes (k : Kernel) : Prop :=
  ∀ (border : Border) (f : Frame) (known : Known), f.Ready k known → f.Reaches (k.effect border f)

variable {f : Frame} {known : Known} {border : Border}

/-! ### Neighbourhoods -/

theorem reaches_overTaps {store : Nat → Taps → Frame → Except Halt Frame} {s : ImageShape} (hf : f.Suits known)
    (hs : Rule.slotMeta known 0 = some (.image (Rule.shapeMeta s))) (hone : s.format.channels = 1)
    (hstore : ∀ i taps g, i < s.pixels → f.Keeps g → g.Reaches (store i taps g)) :
    f.Reaches (overTaps store border f) := by
  obtain ⟨b, hb, hinfo⟩ := hf.image hs
  obtain ⟨hw, hh, _⟩ := ImageBuffer.fields_of_info hinfo
  refine Frame.Reaches.after (Frame.image_eq_ok.mpr hb) ?_
  rw [hw, hh]
  refine Frame.Reaches.loop fun i g hi hg => ?_
  -- the image is read again in each round, with other contents perhaps but with the same shape
  obtain ⟨c, hc, hcinfo⟩ := (hf.keeps hg).image hs
  obtain ⟨hcw, hch, hcf⟩ := ImageBuffer.fields_of_info hcinfo
  refine Frame.Reaches.after (Frame.image_eq_ok.mpr hc) ?_
  have hwidth : 0 < c.width.toNat := by
    rw [hcw]
    exact Nat.pos_of_ne_zero fun hzero => by simp [hzero] at hi
  have hheight : 0 < c.height.toNat := by
    rw [hch]
    exact Nat.pos_of_ne_zero fun hzero => by simp [hzero] at hi
  obtain ⟨taps, htaps⟩ := ImageBuffer.exists_gather border (hcf ▸ hone) hwidth hheight
    (i % s.width.toNat : Nat) (i / s.width.toNat : Nat)
  rw [htaps]
  exact hstore i taps g hi hg

/-- The rule that infers a byte image settles both images with one shape. -/
theorem byteRule_known {known : Known} {target : Nat} {inferences : List Inference}
    (h : byteRule target known = .ok inferences) (hset : Rule.Settled known inferences) :
    ∃ shape : ImageShape, shape.format = .u8 ∧ Rule.slotMeta known 0 = some (.image (Rule.shapeMeta shape)) ∧
      Rule.slotMeta known target = some (.image (Rule.shapeMeta shape)) := by
  obtain ⟨input, hinput, h⟩ := bind_eq_ok.mp h
  obtain ⟨_, hsource, h⟩ := bind_eq_ok.mp h
  obtain ⟨_, _, h⟩ := bind_eq_ok.mp h
  obtain ⟨format, hchoose, h⟩ := bind_eq_ok.mp h
  cases h
  have hbytes : input.format = .u8 := by simpa using (Rule.requireFormat_eq_ok.mp hsource).1
  have htarget : format = .u8 := by simpa using (Rule.chooseFormat_eq_ok.mp hchoose).1
  have hout := hset.image (List.mem_singleton.mpr rfl)
  refine ⟨input, hbytes, Rule.inputImage_eq_ok.mp hinput, ?_⟩
  rwa [htarget, ← hbytes] at hout

theorem completes_filter (name : String) (number : UInt32) (reduction : String) (helpers : List Helper)
    (reduce : Taps → Int) : (filter name number reduction helpers reduce).Completes := by
  intro border f known h
  obtain ⟨_, hrule, hset⟩ := h.accepted
  obtain ⟨shape, hbytes, hinput, hout⟩ := byteRule_known hrule hset
  refine reaches_overTaps h.suits hinput (by rw [hbytes]; rfl) fun i taps g hi hg => ?_
  refine (h.suits.keeps hg).write hout ?_ _
  simpa [ImageShape.pixels, Format.channels, hbytes] using hi

/-- The outputs that are bound are images of the extent of the input. -/
theorem completes_sobel3x3 : sobel3x3.Completes := by
  intro border f known h
  obtain ⟨_, hrule, hset⟩ := h.accepted
  obtain ⟨input, hinput, hrule⟩ := bind_eq_ok.mp hrule
  obtain ⟨_, hsource, hrule⟩ := bind_eq_ok.mp hrule
  have hbyte : input.format = .u8 := by simpa using (Rule.requireFormat_eq_ok.mp hsource).1
  obtain ⟨_, hrule⟩ := Rule.unless_refused_eq_ok.mp hrule
  have hwrite : ∀ slot ∈ [1, 2], ∀ (g : Frame) (i : Nat) (v : Int), i < input.pixels → f.Keeps g →
      g.isBound slot = true → g.Reaches (g.write slot i v) := by
    intro slot hslot g i v hi hg hbound
    obtain ⟨_, hinference, hgradient⟩ := exists_ok_of_mapM hrule (h.mem_bound hslot hg hbound)
    obtain ⟨_, _, hgradient⟩ := bind_eq_ok.mp hgradient
    obtain ⟨format, hchoose, hgradient⟩ := bind_eq_ok.mp hgradient
    cases hgradient
    have hformat : format = .s16 := by simpa using (Rule.chooseFormat_eq_ok.mp hchoose).1
    refine (h.suits.keeps hg).write (hset.image hinference) ?_ v
    rw [hformat]
    simpa [ImageShape.pixels, Format.channels] using hi
  refine reaches_overTaps h.suits (Rule.inputImage_eq_ok.mp hinput) (by rw [hbyte]; rfl) fun i taps g hi hg => ?_
  refine Frame.Reaches.bindIf (hwrite 1 (by simp) g i _ hi hg) fun g' hg' => ?_
  exact Frame.Reaches.ifOk (hwrite 2 (by simp) g' i _ hi (hg.trans hg'))

/-! ### Colours -/

theorem reaches_writeSamples {slot : Nat} {s : ImageShape}
    (hs : Rule.slotMeta known slot = some (.image (Rule.shapeMeta s))) {values : List Int} {i : Nat} (hf : f.Suits known)
    (hi : i + values.length ≤ s.pixels * s.format.channels) : f.Reaches (writeSamples slot i values f) := by
  induction values generalizing i f with
  | nil => exact .ok f
  | cons v values ih =>
    rw [List.length_cons] at hi
    refine (hf.write hs (by omega) v).bind fun g hg => ?_
    exact ih (hf.keeps hg) (by omega)

theorem completes_colorConvert : colorConvert.Completes := by
  intro border f known h
  obtain ⟨_, hrule, hset⟩ := h.accepted
  obtain ⟨input, hinput, hrule⟩ := bind_eq_ok.mp hrule
  obtain ⟨source, hsource, hrule⟩ := bind_eq_ok.mp hrule
  obtain ⟨_, _, hrule⟩ := bind_eq_ok.mp hrule
  obtain ⟨format, hchoose, hrule⟩ := bind_eq_ok.mp hrule
  cases hrule
  have hin := Rule.inputImage_eq_ok.mp hinput
  have hout := hset.image (List.mem_singleton.mpr rfl)
  -- a colour has at least three channels, and a pixel gets as many samples as its format has channels
  have hchannels : 3 ≤ input.format.channels := by
    have hmem := (Rule.requireFormat_eq_ok.mp hsource).1
    simp only [List.mem_cons, List.not_mem_nil, or_false] at hmem
    rcases hmem with hmem | hmem <;> rw [hmem] <;> decide
  have hlength : ∀ r g b, (convertPixel format r g b).length = format.channels := by
    have hmem := (Rule.chooseFormat_eq_ok.mp hchoose).1
    intro r g b
    split at hmem <;> simp only [List.mem_cons, List.not_mem_nil, or_false] at hmem <;>
      rcases hmem with rfl | rfl <;> rfl
  obtain ⟨src, hsrc, hsinfo⟩ := h.suits.image hin
  obtain ⟨dst, hdst, hdinfo⟩ := h.suits.image hout
  obtain ⟨hw, hh, hf⟩ := ImageBuffer.fields_of_info hsinfo
  obtain ⟨_, _, hdf⟩ := ImageBuffer.fields_of_info hdinfo
  refine Frame.Reaches.after (Frame.image_eq_ok.mpr hsrc) (Frame.Reaches.after (Frame.image_eq_ok.mpr hdst) ?_)
  rw [hw, hh, hf, hdf]
  refine Frame.Reaches.loop fun i g hi hg => ?_
  have hg' := h.suits.keeps hg
  have hpixel : i < input.pixels := hi
  obtain ⟨red, hred⟩ := hg'.sample hin (channel_lt hpixel (c := 0) (by omega))
  obtain ⟨green, hgreen⟩ := hg'.sample hin (channel_lt hpixel (c := 1) (by omega))
  obtain ⟨blue, hblue⟩ := hg'.sample hin (channel_lt hpixel (c := 2) (by omega))
  refine Frame.Reaches.after hred (Frame.Reaches.after hgreen (Frame.Reaches.after hblue ?_))
  refine reaches_writeSamples hout hg' ?_
  rw [hlength]
  calc i * format.channels + format.channels = (i + 1) * format.channels := by rw [Nat.add_mul, Nat.one_mul]
    _ ≤ input.pixels * format.channels := Nat.mul_le_mul_right _ hpixel

theorem completes_channelExtract : channelExtract.Completes := by
  intro border f known h
  obtain ⟨_, hrule, hset⟩ := h.accepted
  obtain ⟨input, hinput, hrule⟩ := bind_eq_ok.mp hrule
  obtain ⟨format, hsource, hrule⟩ := bind_eq_ok.mp hrule
  have hformat : input.format = format := (Rule.requireFormat_eq_ok.mp hsource).2
  obtain ⟨a, ha, hrule⟩ := bind_eq_ok.mp hrule
  have hin := Rule.inputImage_eq_ok.mp hinput
  have hscalar := Rule.scalar_eq_ok.mp ha
  dsimp only at hrule
  -- the channel is a constant of the graph, and the format has it
  split at hrule
  · rename_i channel hvalue
    obtain ⟨_, hok, hrule⟩ := bind_eq_ok.mp hrule
    cases hok
    cases hindex : channelIndex? channel with
    | none => simp [hindex, Rule.refuse, Bind.bind, Except.bind] at hrule
    | some index =>
      rw [hindex] at hrule
      obtain ⟨hpresent, hrule⟩ := Rule.unless_refused_eq_ok.mp hrule
      obtain ⟨_, _, hrule⟩ := bind_eq_ok.mp hrule
      obtain ⟨target, hchoose, hrule⟩ := bind_eq_ok.mp hrule
      cases hrule
      have htarget : target = .u8 := by simpa using (Rule.chooseFormat_eq_ok.mp hchoose).1
      have hout := hset.image (List.mem_singleton.mpr rfl)
      have hconstant : f.scalar 1 = .ok (.enum channel) :=
        Frame.scalar_of_constant (h.suits.constant 1 _ _ hscalar hvalue)
      obtain ⟨src, hsrc, hinfo⟩ := h.suits.image hin
      obtain ⟨hw, hh, hf⟩ := ImageBuffer.fields_of_info hinfo
      refine Frame.Reaches.after (Frame.image_eq_ok.mpr hsrc) (Frame.Reaches.after hconstant ?_)
      simp only [Scalar.enum?, Option.bind_some, hindex, hw, hh, hf]
      refine Frame.Reaches.loop fun i g hi hg => ?_
      have hpixel : i < input.pixels := hi
      obtain ⟨v, hv⟩ := (h.suits.keeps hg).sample hin (channel_lt hpixel (c := index) (by rw [hformat]; omega))
      refine Frame.Reaches.after hv ((h.suits.keeps hg).write hout ?_ v)
      rw [htarget]
      simpa [ImageShape.pixels, Format.channels] using hi
  · cases hrule

/-- What the rule of the combination knows: every plane is a byte image of the extent of the first. -/
theorem channelCombine_known {inferences : List Inference} (h : channelCombine.rule known = .ok inferences) :
    ∃ first format, inferences = [Rule.inferImage 4 first format] ∧
      ∀ c ∈ 0 :: (if Rule.isBound known 3 then [1, 2, 3] else [1, 2]), ∃ s : ImageShape,
        Rule.slotMeta known c = some (.image (Rule.shapeMeta s)) ∧ s.format = .u8 ∧ s.pixels = first.pixels := by
  obtain ⟨first, hfirst, h⟩ := bind_eq_ok.mp h
  obtain ⟨_, hsource, h⟩ := bind_eq_ok.mp h
  obtain ⟨_, hplanes, h⟩ := bind_eq_ok.mp h
  obtain ⟨_, _, h⟩ := bind_eq_ok.mp h
  have hinferred : ∃ format, inferences = [Rule.inferImage 4 first format] := by
    dsimp only at h
    split at h
    · obtain ⟨format, _, h⟩ := bind_eq_ok.mp h
      exact ⟨format, (Except.ok.inj h).symm⟩
    · obtain ⟨format, _, h⟩ := bind_eq_ok.mp h
      exact ⟨format, (Except.ok.inj h).symm⟩
  obtain ⟨format, hformat⟩ := hinferred
  refine ⟨first, format, hformat, fun c hc => ?_⟩
  rcases List.mem_cons.mp hc with rfl | hc
  · exact ⟨first, Rule.inputImage_eq_ok.mp hfirst, by simpa using (Rule.requireFormat_eq_ok.mp hsource).1, rfl⟩
  · obtain ⟨plane, hplane, hrest⟩ := bind_eq_ok.mp (forM_eq_ok.mp hplanes c hc)
    obtain ⟨_, hbyte, hextent⟩ := bind_eq_ok.mp hrest
    have hsame : first.extent = plane.extent := Rule.sameExtent_eq_ok.mp hextent
    simp only [ImageShape.extent, Extent.mk.injEq] at hsame
    refine ⟨plane, Rule.inputImage_eq_ok.mp hplane, by simpa using (Rule.requireFormat_eq_ok.mp hbyte).1, ?_⟩
    rw [ImageShape.pixels, ImageShape.pixels, hsame.1, hsame.2]

theorem completes_channelCombine : channelCombine.Completes := by
  intro border f known h
  obtain ⟨_, hrule, hset⟩ := h.accepted
  obtain ⟨first, format, rfl, hplanes⟩ := channelCombine_known hrule
  have hout := hset.image (List.mem_singleton.mpr rfl)
  have hchannels : format.channels ≤ 4 := by cases format <;> decide
  obtain ⟨dst, hdst, hinfo⟩ := h.suits.image hout
  obtain ⟨hw, hh, hf⟩ := ImageBuffer.fields_of_info hinfo
  refine Frame.Reaches.after (Frame.image_eq_ok.mpr hdst) ?_
  rw [hw, hh, hf]
  refine Frame.Reaches.loop fun i g hi hg => Frame.Reaches.loop fun c g' hc hg' => ?_
  have hkeeps := hg.trans hg'
  have hwrite := (h.suits.keeps hkeeps).write hout (channel_lt hi hc)
  dsimp only
  split
  · rename_i hbound
    -- the last plane alone may be missing, and then it is not read
    have hlast : c < 4 := Nat.lt_of_lt_of_le hc hchannels
    have hmem : c ∈ 0 :: (if Rule.isBound known 3 then [1, 2, 3] else [1, 2]) := by
      by_cases hthree : c = 3
      · subst hthree
        have hkept := h.mem_bound (List.mem_singleton_self 3) hkeeps hbound
        have hbound' : Rule.isBound known 3 = true := (List.mem_filter.mp hkept).2
        simp [hbound']
      · have hc' : c = 0 ∨ c = 1 ∨ c = 2 := by omega
        split <;> rcases hc' with rfl | rfl | rfl <;> simp
    obtain ⟨s, hs, hbyte, hpixels⟩ := hplanes c hmem
    have hlt : i < s.pixels * s.format.channels := by
      rw [hbyte, hpixels]
      simpa [ImageShape.pixels, Format.channels] using hi
    obtain ⟨v, hv⟩ := (h.suits.keeps hkeeps).sample hs hlt
    exact Frame.Reaches.after hv (hwrite v)
  · exact hwrite 255

/-! ### Statistics -/

/-- What the rule of the accumulation accepts: bytes, and signed shorts of the same extent. -/
theorem accumulate_known {f : Frame} {known : Known} (h : f.Ready accumulate known) : ∃ input accum : ImageShape,
    Rule.slotMeta known 0 = some (.image (Rule.shapeMeta input)) ∧
      Rule.slotMeta known 1 = some (.image (Rule.shapeMeta accum)) ∧ input.format = .u8 ∧ accum.format = .s16 ∧
      input.width = accum.width ∧ input.height = accum.height := by
  obtain ⟨_, hrule, _⟩ := h.accepted
  obtain ⟨input, hinput, hrule⟩ := bind_eq_ok.mp hrule
  obtain ⟨_, hsource, hrule⟩ := bind_eq_ok.mp hrule
  obtain ⟨_, _, hrule⟩ := bind_eq_ok.mp hrule
  obtain ⟨_, hrule⟩ := Rule.unless_refused_eq_ok.mp hrule
  obtain ⟨accum, haccum, hrule⟩ := bind_eq_ok.mp hrule
  obtain ⟨_, hwide, hrule⟩ := bind_eq_ok.mp hrule
  obtain ⟨_, hextent, _⟩ := bind_eq_ok.mp hrule
  have hbyte : input.format = .u8 := by simpa using (Rule.requireFormat_eq_ok.mp hsource).1
  have hword : accum.format = .s16 := by simpa using (Rule.requireFormat_eq_ok.mp hwide).1
  have hsame : input.extent = accum.extent := Rule.sameExtent_eq_ok.mp hextent
  simp only [ImageShape.extent, Extent.mk.injEq] at hsame
  exact ⟨input, accum, Rule.inputImage_eq_ok.mp hinput, Rule.inputImage_eq_ok.mp haccum, hbyte, hword, hsame⟩

theorem completes_accumulate : accumulate.Completes := by
  intro border f known h
  obtain ⟨input, accum, hin, hsum, hbyte, hword, hsame⟩ := accumulate_known h
  obtain ⟨src, hsrc, hinfo⟩ := h.suits.image hin
  obtain ⟨hw, hh, _⟩ := ImageBuffer.fields_of_info hinfo
  refine Frame.Reaches.after (Frame.image_eq_ok.mpr hsrc) ?_
  rw [hw, hh]
  refine Frame.Reaches.loop fun i g hi hg => ?_
  have hbytes : i < input.pixels * input.format.channels := by
    rw [hbyte]
    simpa [ImageShape.pixels, Format.channels] using hi
  have hwords : i < accum.pixels * accum.format.channels := by
    rw [hword, ImageShape.pixels, ← hsame.1, ← hsame.2]
    simpa [Format.channels] using hi
  obtain ⟨v, hv⟩ := (h.suits.keeps hg).sample hin hbytes
  obtain ⟨sum, hsample⟩ := (h.suits.keeps hg).sample hsum hwords
  exact Frame.Reaches.after hv (Frame.Reaches.after hsample ((h.suits.keeps hg).write hsum hwords _))

/-- What the rule of the histogram knows: a byte image, and an array that has an item for every byte. -/
theorem histogram_known (h : f.Ready histogram known) : ∃ src bins, f.host 0 = .ok (.image src) ∧
    f.host 1 = .ok (.array bins) ∧ src.format = .u8 ∧ binCount ≤ bins.capacity := by
  obtain ⟨_, hrule, hset⟩ := h.accepted
  obtain ⟨input, hinput, hrule⟩ := bind_eq_ok.mp hrule
  obtain ⟨_, hsource, hrule⟩ := bind_eq_ok.mp hrule
  obtain ⟨declared, hdeclared, hrule⟩ := bind_eq_ok.mp hrule
  obtain ⟨_, hrule⟩ := Rule.unless_refused_eq_ok.mp hrule
  obtain ⟨hbins, hrule⟩ := Rule.unless_refused_eq_ok.mp hrule
  cases hrule
  have hbyte : input.format = .u8 := by simpa using (Rule.requireFormat_eq_ok.mp hsource).1
  obtain ⟨src, hsrc, hsinfo⟩ := h.suits.image (Rule.inputImage_eq_ok.mp hinput)
  have hslot : Rule.slotMeta known 1 = some (.array declared) := Rule.array_eq_ok.mp hdeclared
  obtain ⟨bins, harray, hinfo⟩ := h.suits.array hslot
  refine ⟨src, bins, hsrc, harray, (ImageBuffer.fields_of_info hsinfo).2.2.trans hbyte, ?_⟩
  obtain ⟨m, hm, hext⟩ := hset _ (List.mem_singleton.mpr rfl)
  have hmd : m = .array declared := by simpa [hslot] using hm.symm
  subst hmd
  have htype : declared.itemType = some .u32 := hext.1 _ rfl
  have hcap : declared.capacity = some (declared.capacity.getD (UInt32.ofNat binCount)) := hext.2 _ rfl
  refine Nat.le_trans (Nat.not_lt.mp hbins) (ArrayBuffer.le_capacity_of_info (t := .u32) ?_)
  rw [hinfo, ArrayMeta.known, ← htype, ← hcap]

/-- Counting keeps the bins; there is one for every byte. -/
theorem completes_histogram : histogram.Completes := by
  intro border f known h
  obtain ⟨src, bins, hsrc, harray, hbyte, hcapacity⟩ := histogram_known h
  have hsize : src.samples.size = src.width.toNat * src.height.toNat := by
    rw [src.size_eq, hbyte]
    exact Nat.mul_one _
  -- what the two loops keep of the array
  let Same : ArrayBuffer → Prop := fun a => a.itemType = bins.itemType ∧ a.capacity = bins.capacity
  have hset? : ∀ (a : ArrayBuffer) (k : Nat) (v : Int), Same a → k < binCount → a.set? k v = some (a.set k v) := by
    intro a k v ha hk
    refine if_pos ?_
    rw [a.size_eq, ha.2]
    exact Nat.lt_of_lt_of_le hk hcapacity
  refine Frame.Reaches.after (Frame.image_eq_ok.mpr hsrc) (Frame.Reaches.after (Frame.array_eq_ok.mpr harray) ?_)
  refine Frame.Reaches.afterLoop Same (fun k a hk ha => ⟨a.set k 0, by rw [hset? a k 0 ha hk], ha⟩) ⟨rfl, rfl⟩ ?_
  intro cleared hcleared
  refine Frame.Reaches.afterLoop Same (fun i a hi ha => ?_) hcleared fun counted hcounted => ?_
  · have hv : src.samples[i]? = some src.samples[i] := Array.getElem?_eq_getElem (hsize ▸ hi)
    have hbin := ImageBuffer.toNat_lt_of_bytes hbyte hv
    have hget : (src.samples[i]).toNat < a.slots.size := by
      rw [a.size_eq, ha.2]
      exact Nat.lt_of_lt_of_le hbin hcapacity
    refine ⟨a.set (src.samples[i]).toNat (a.slots[(src.samples[i]).toNat] + 1), ?_, ha⟩
    simp only [ImageBuffer.get?, hv, ArrayBuffer.get?, Array.getElem?_eq_getElem hget, hset? a _ _ ha hbin]
  · refine Frame.reaches_modify fun x hx => ?_
    rw [harray] at hx
    cases hx
    exact congrArg₂ Outline.array hcounted.1 hcounted.2

/-- What the rule of the extrema knows: an image of one channel, scalars, and of the optional parameters two arrays and
two more scalars. -/
theorem extremaRule_known {inferences : List Inference} (h : extremaRule known = .ok inferences) :
    ∃ input, Rule.slotMeta known 0 = some (.image (Rule.shapeMeta input)) ∧ input.format.channels = 1 ∧
      (∀ slot ∈ [1, 2] ++ [5, 6].filter (Rule.isBound known), ∃ a, Rule.slotMeta known slot = some (.scalar a)) ∧
      ∀ slot ∈ [3, 4].filter (Rule.isBound known), ∃ a, Rule.slotMeta known slot = some (.array a) := by
  obtain ⟨input, hinput, h⟩ := bind_eq_ok.mp h
  obtain ⟨format, hsource, h⟩ := bind_eq_ok.mp h
  dsimp only at h
  split at h
  · obtain ⟨_, hok, h⟩ := bind_eq_ok.mp h
    cases hok
    obtain ⟨lo, hlo, h⟩ := bind_eq_ok.mp h
    obtain ⟨hi, hhi, h⟩ := bind_eq_ok.mp h
    obtain ⟨places, hplaces, h⟩ := bind_eq_ok.mp h
    obtain ⟨counts, hcounts, _⟩ := bind_eq_ok.mp h
    have hscalar : ∀ {slot t i}, scalarOutput known slot t = .ok i → ∃ a, Rule.slotMeta known slot = some (.scalar a) := by
      intro slot t i hout
      obtain ⟨a, ha, _⟩ := scalarOutput_eq_ok.mp hout
      exact ⟨a, ha⟩
    refine ⟨input, Rule.inputImage_eq_ok.mp hinput, ?_, fun slot hslot => ?_, fun slot hslot => ?_⟩
    · have hmem := (Rule.requireFormat_eq_ok.mp hsource).1
      simp only [List.mem_cons, List.not_mem_nil, or_false] at hmem
      rcases hmem with hmem | hmem <;> rw [hmem] <;> rfl
    · rcases List.mem_append.mp hslot with hslot | hslot
      · simp only [List.mem_cons, List.not_mem_nil, or_false] at hslot
        rcases hslot with rfl | rfl
        · exact hscalar hlo
        · exact hscalar hhi
      · obtain ⟨_, _, hcount⟩ := exists_ok_of_mapM hcounts hslot
        exact hscalar hcount
    · obtain ⟨_, _, hplace⟩ := exists_ok_of_mapM hplaces hslot
      obtain ⟨a, _, ha, _⟩ := locationOutput_eq_ok.mp hplace
      exact ⟨a, ha⟩
  · cases h

/-- The extrema of an image with pixels; what is optional is written where it is bound. -/
theorem reaches_minMaxLoc (h : f.Ready minMaxLoc known)
    (hpixels : ∀ s, Rule.slotMeta known 0 = some (.image (Rule.shapeMeta s)) → s.pixels ≠ 0) :
    f.Reaches (minMaxLoc.effect border f) := by
  obtain ⟨_, hrule, _⟩ := h.accepted
  obtain ⟨input, hin, hone, hscalars, harrays⟩ := extremaRule_known hrule
  -- scalars that are written are no constants
  have hscalar : ∀ slot ∈ [1, 2] ++ [5, 6].filter (Rule.isBound known), ∀ spec : Param,
      minMaxLoc.signature.params[slot]? = some spec → spec.direction.writes = true →
      ∀ (g : Frame) (v : Int), f.Keeps g → g.Reaches (g.writeScalar slot v) := by
    intro slot hslot spec hspec hwrites g v hg
    obtain ⟨a, ha⟩ := hscalars slot hslot
    exact (h.suits.keeps hg).writeScalar ha (h.written slot spec _ hspec hwrites ha) v
  have hcount : ∀ slot ∈ [5, 6], ∀ spec : Param, minMaxLoc.signature.params[slot]? = some spec →
      spec.direction.writes = true → ∀ (g : Frame) (v : Int), f.Keeps g → g.Reaches (writeBound slot v g) := by
    intro slot hslot spec hspec hwrites g v hg
    refine Frame.Reaches.ifOk fun hbound => ?_
    exact hscalar slot (List.mem_append_right _ (h.mem_bound hslot hg hbound)) spec hspec hwrites g v hg
  have harray : ∀ slot ∈ [3, 4], ∀ (g : Frame) (change : ArrayBuffer → ArrayBuffer),
      (∀ a, (change a).itemType = a.itemType ∧ (change a).capacity = a.capacity) → f.Keeps g →
      g.Reaches (if g.isBound slot then g.changeArray slot change else .ok g) := by
    intro slot hslot g change hchange hg
    refine Frame.Reaches.ifOk fun hbound => ?_
    obtain ⟨a, ha⟩ := harrays slot (h.mem_bound hslot hg hbound)
    exact (h.suits.keeps hg).changeArray ha hchange
  have hreset : ∀ slot ∈ [3, 4], ∀ g, f.Keeps g → g.Reaches (resetArray slot g) := fun slot hslot g hg =>
    harray slot hslot g (·.clear) (fun _ => ⟨rfl, rfl⟩) hg
  have hrecord : ∀ slot ∈ [3, 4], ∀ (w i : Nat) (g : Frame), f.Keeps g → g.Reaches (recordExtreme slot w i g) := by
    intro slot hslot w i g hg
    refine harray slot hslot g _ (fun a => ?_) hg
    unfold ArrayBuffer.push
    split <;> exact ⟨rfl, rfl⟩
  obtain ⟨src, hsrc, hinfo⟩ := h.suits.image hin
  have hpos : 0 < src.samples.size := by
    rw [ImageBuffer.size_of_info hinfo, hone, Nat.mul_one]
    exact Nat.pos_of_ne_zero (hpixels input hin)
  refine Frame.Reaches.after (Frame.image_eq_ok.mpr hsrc) ?_
  simp only [ImageBuffer.get?, Array.getElem?_eq_getElem hpos]
  refine (hscalar 1 (by simp) _ rfl rfl f _ (.refl f)).bind fun g₁ hg₁ => ?_
  refine (hscalar 2 (by simp) _ rfl rfl g₁ _ hg₁).bind fun g₂ hg₂ => ?_
  have hk₂ := hg₁.trans hg₂
  refine (hreset 3 (by simp) g₂ hk₂).bind fun g₃ hg₃ => ?_
  have hk₃ := hk₂.trans hg₃
  refine (hreset 4 (by simp) g₃ hk₃).bind fun g₄ hg₄ => ?_
  have hk₄ := hk₃.trans hg₄
  refine (Frame.Reaches.loop fun i g hi hg => ?_).bind fun g₅ hg₅ => ?_
  · have hlt : i < src.samples.size := hi
    simp only [Array.getElem?_eq_getElem hlt]
    refine Frame.Reaches.bindIf (fun _ => hrecord 3 (by simp) _ i g (hk₄.trans hg)) fun g' hg' => ?_
    exact Frame.Reaches.ifOk fun _ => hrecord 4 (by simp) _ i g' ((hk₄.trans hg).trans hg')
  · have hk₅ := hk₄.trans hg₅
    refine (hcount 5 (by simp) _ rfl rfl g₅ _ hk₅).bind fun g₆ hg₆ => ?_
    exact hcount 6 (by simp) _ rfl rfl g₆ _ (hk₅.trans hg₆)

/-! ### Pyramids -/

theorem toNat_shrink (extent level : UInt32) : (PyramidMeta.shrink extent level).toNat =
    max ((extent.toNat + 2 ^ min level.toNat 31 - 1) / 2 ^ min level.toNat 31) 1 := by
  have hscale : 0 < 2 ^ min level.toNat 31 := Nat.two_pow_pos _
  have hle : (extent.toNat + 2 ^ min level.toNat 31 - 1) / 2 ^ min level.toNat 31 ≤ extent.toNat := by
    generalize 2 ^ min level.toNat 31 = scale at hscale
    cases he : extent.toNat with
    | zero => exact Nat.le_of_eq (Nat.div_eq_of_lt (by omega))
    | succ e =>
      -- both `e` and `scale - 1` are at least zero, and so is their product
      refine Nat.div_le_of_le_mul ?_
      cases scale with
      | zero => contradiction
      | succ c =>
        calc e + 1 + (c + 1) - 1 = c + (e + 1) := by omega
          _ ≤ c * (e + 1) + (e + 1) := Nat.add_le_add_right (Nat.le_mul_of_pos_right c e.succ_pos) _
          _ = (c + 1) * (e + 1) := (Nat.succ_mul c (e + 1)).symm
  have hlt := extent.toNat_lt
  exact UInt32.toNat_ofNat_of_lt' (by simp only [Nat.pow_eq, UInt32.size]; omega)

/-- A byte image with pixels, as all levels of a pyramid are. -/
structure IsLevel (b : ImageBuffer) : Prop where
  format : b.format = .u8
  width : 0 < b.width.toNat
  height : 0 < b.height.toNat

theorem IsLevel.size_eq {b : ImageBuffer} (h : IsLevel b) : b.samples.size = b.width.toNat * b.height.toNat := by
  rw [b.size_eq, h.format]
  exact Nat.mul_one _

theorem IsLevel.of_info {b c : ImageBuffer} (h : IsLevel b) (hc : c.info = b.info) : IsLevel c := by
  have hfields : c.width = b.width ∧ c.height = b.height ∧ c.format = b.format := by
    simpa [ImageBuffer.info, ImageMeta.known] using hc
  obtain ⟨hw, hh, hf⟩ := hfields
  exact ⟨hf ▸ h.format, hw ▸ h.width, hh ▸ h.height⟩

/-- The first level is not smaller than the image. -/
theorem le_shrink_zero (extent : UInt32) : extent.toNat ≤ (PyramidMeta.shrink extent (UInt32.ofNat 0)).toNat := by
  have hscale : 2 ^ min (UInt32.ofNat 0).toNat 31 = 1 := rfl
  rw [toNat_shrink, hscale, Nat.div_one]
  omega

theorem info_level {p : PyramidBuffer} (hp : p.Sound) {levels width height : UInt32}
    (hinfo : p.info = .known levels width height .u8) {k : Nat} {b : ImageBuffer} (hb : p.levels[k]? = some b) :
    b.info = Rule.shapeMeta ⟨PyramidMeta.shrink width (UInt32.ofNat k), PyramidMeta.shrink height (UInt32.ofNat k), .u8⟩ := by
  have hlevel := hp.level k b hb
  rw [hinfo] at hlevel
  exact (Option.some.inj hlevel).symm

theorem isLevel_of_shrink {b : ImageBuffer} {width height level : UInt32} (hb : b.info =
    Rule.shapeMeta ⟨PyramidMeta.shrink width level, PyramidMeta.shrink height level, .u8⟩) : IsLevel b := by
  obtain ⟨hw, hh, hf⟩ := ImageBuffer.fields_of_info hb
  refine ⟨hf, ?_, ?_⟩
  · rw [hw, toNat_shrink]
    omega
  · rw [hh, toNat_shrink]
    omega

theorem exists_foldlM_some {α σ : Type} {step : σ → α → Option σ} {l : List α}
    (h : ∀ a ∈ l, ∀ s, ∃ t, step s a = some t) (s : σ) : ∃ t, l.foldlM step s = some t := by
  induction l generalizing s with
  | nil => exact ⟨s, rfl⟩
  | cons a l ih =>
    obtain ⟨t, ht⟩ := h a List.mem_cons_self s
    rw [List.foldlM_cons, ht]
    exact ih (fun b hb => h b (List.mem_cons_of_mem a hb)) t

theorem exists_binomialSum (border : Border) {b : ImageBuffer} (hb : IsLevel b) (x y : Int) :
    ∃ v, binomialSum b border x y = some v := by
  refine exists_foldlM_some (fun row _ acc => exists_foldlM_some (fun column _ acc => ?_) acc) 0
  obtain ⟨v, hv⟩ := ImageBuffer.exists_fetch border (by rw [hb.format]; rfl) hb.width hb.height
    (x + column.1) (y + row.1)
  exact ⟨acc + row.2 * column.2 * v, by simp [hv]⟩

theorem exists_shrinkLevel (border : Border) {source target : ImageBuffer} (hs : IsLevel source) (ht : IsLevel target) :
    ∃ b, shrinkLevel border source target = .ok b ∧ b.info = target.info := by
  refine exists_loop (P := fun b : ImageBuffer => b.info = target.info) (fun i b _ hi hb => ?_) rfl
  obtain ⟨sum, hsum⟩ := exists_binomialSum border hs (2 * (i % target.width.toNat) : Nat)
    (2 * (i / target.width.toNat) : Nat)
  have hlt : i < b.samples.size := by
    rw [(ht.of_info hb).size_eq]
    have hfields : b.width = target.width ∧ b.height = target.height ∧ b.format = target.format := by
      simpa [ImageBuffer.info, ImageMeta.known] using hb
    rw [hfields.1, hfields.2.1]
    omega
  refine ⟨b.set i ((sum + 128) / 256), ?_, hb⟩
  simp only [hsum, ImageBuffer.set?, hlt, if_true]

theorem exists_shrinkLevels (border : Border) {source : ImageBuffer} {targets : List ImageBuffer}
    (hs : IsLevel source) (ht : ∀ b ∈ targets, IsLevel b) :
    ∃ out, shrinkLevels border source targets = .ok out ∧ out.map (·.info) = targets.map (·.info) := by
  induction targets generalizing source with
  | nil => exact ⟨[], rfl, rfl⟩
  | cons target targets ih =>
    have hfirst := ht target List.mem_cons_self
    obtain ⟨level, hlevel, hinfo⟩ := exists_shrinkLevel border hs hfirst
    obtain ⟨out, hout, hinfos⟩ := ih (hfirst.of_info hinfo) fun b hb => ht b (List.mem_cons_of_mem target hb)
    refine ⟨level :: out, ?_, by rw [List.map_cons, List.map_cons, hinfo, hinfos]⟩
    exact bind_eq_ok.mpr ⟨level, hlevel, bind_eq_ok.mpr ⟨out, hout, rfl⟩⟩

/-- An image is copied into a level that is not smaller. -/
theorem exists_copyLevel {source target : ImageBuffer} (hs : source.format = .u8) (ht : IsLevel target)
    (hw : source.width.toNat ≤ target.width.toNat) (hh : source.height.toNat ≤ target.height.toNat) :
    ∃ b, copyLevel source target = .ok b ∧ b.info = target.info := by
  have hsize : source.samples.size = source.width.toNat * source.height.toNat := by
    rw [source.size_eq, hs]
    exact Nat.mul_one _
  have hle : source.samples.size ≤ target.samples.size := by
    rw [hsize, ht.size_eq]
    exact Nat.mul_le_mul hw hh
  let P : ImageBuffer → Prop := fun b => b.info = target.info ∧ b.samples.size = target.samples.size
  have hcopy : ∃ b, copyLevel source target = .ok b ∧ P b := by
    refine exists_loop (fun i b _ hi hb => ?_) ⟨rfl, rfl⟩
    have hread : i < source.samples.size := by omega
    have hwrite : i < b.samples.size := by omega
    refine ⟨b.set i source.samples[i], ?_, hb.1, by simpa [ImageBuffer.set] using hb.2⟩
    simp only [ImageBuffer.get?, Array.getElem?_eq_getElem hread, ImageBuffer.set?, hwrite, if_true]
  obtain ⟨b, hb, hinfo, _⟩ := hcopy
  exact ⟨b, hb, hinfo⟩

theorem completes_gaussianPyramid : gaussianPyramid.Completes := by
  intro border f known h
  obtain ⟨_, hrule, hset⟩ := h.accepted
  obtain ⟨input, hinput, hrule⟩ := bind_eq_ok.mp hrule
  obtain ⟨_, hsource, hrule⟩ := bind_eq_ok.mp hrule
  obtain ⟨a, n, ha, _, hn, _, rfl⟩ := pyramid_rest_eq_ok.mp hrule
  have hbyte : input.format = .u8 := by simpa using (Rule.requireFormat_eq_ok.mp hsource).1
  have hknown : a = .known n input.width input.height .u8 := by
    obtain ⟨m, hm, hext⟩ := hset _ (List.mem_singleton.mpr rfl)
    have hma : m = .pyramid a := by simpa [ha] using hm.symm
    subst hma
    exact Meta.pyramid.inj (hext.eq_of_resolved rfl rfl)
  obtain ⟨src, hsrc, hsinfo⟩ := h.suits.image (Rule.inputImage_eq_ok.mp hinput)
  obtain ⟨hw, hh, hf⟩ := ImageBuffer.fields_of_info hsinfo
  obtain ⟨x, hx, hfits⟩ := h.suits.object 1 _ ha rfl
  obtain ⟨p, rfl, hpinfo, hsound⟩ := hfits.pyramid
  rw [hknown] at hpinfo
  have hlevels : ∀ b ∈ p.levels.toList, IsLevel b := by
    intro b hb
    obtain ⟨k, hk⟩ := List.mem_iff_getElem?.mp hb
    exact isLevel_of_shrink (info_level hsound hpinfo (by simpa using hk))
  refine Frame.Reaches.after (Frame.image_eq_ok.mpr hsrc) (Frame.Reaches.after (Frame.pyramid_eq_ok.mpr hx) ?_)
  cases hlist : p.levels.toList with
  | nil =>
    have hzero : p.levels.size = 0 := by simpa using congrArg List.length hlist
    have hcount := hsound.count n (by rw [hpinfo]; rfl)
    have hnone : n.toNat = (0 : UInt32).toNat := hcount.symm.trans hzero
    exact absurd (UInt32.toNat_inj.mp hnone) hn
  | cons first rest =>
    rw [hlist] at hlevels
    have hzero : p.levels[0]? = some first := by
      rw [← Array.getElem?_toList, hlist]
      rfl
    obtain ⟨hfw, hfh, _⟩ := ImageBuffer.fields_of_info (info_level hsound hpinfo hzero)
    obtain ⟨base, hcopy, hbinfo⟩ := exists_copyLevel (hf.trans hbyte) (hlevels first List.mem_cons_self)
      (by rw [hw, hfw]; exact le_shrink_zero _) (by rw [hh, hfh]; exact le_shrink_zero _)
    obtain ⟨out, hout, hinfos⟩ := exists_shrinkLevels border
      ((hlevels first List.mem_cons_self).of_info hbinfo) fun b hb => hlevels b (List.mem_cons_of_mem first hb)
    refine Frame.Reaches.after hcopy (Frame.Reaches.after hout (Frame.reaches_modify fun y hy => ?_))
    rw [hx] at hy
    cases hy
    refine congrArg (Outline.pyramid p.info) (Array.toList_inj.mp ?_)
    rw [Array.toList_map, Array.toList_map, hlist, List.map_cons, List.map_cons, hbinfo, hinfos]

end Kernel

end VisionGraph
