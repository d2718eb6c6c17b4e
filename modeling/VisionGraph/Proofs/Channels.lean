import VisionGraph.Proofs.Acceptance

/-! The channels of images. A kernel takes one channel out of an image, puts planes side by side as the channels of an
image, or converts the colours of all pixels; each of them leaves in its output the image whose channels are told
here. -/
namespace VisionGraph

namespace ImageBuffer

variable {b b' : ImageBuffer} {width height : UInt32} {format : Format} {i c : Nat}

/-- One sample of a pixel. -/
def channel (b : ImageBuffer) (i c : Nat) : Int := b.samples.getD (i * b.format.channels + c) 0

theorem holds_channel (b : ImageBuffer) (i c : Nat) : b.format.element.Holds (b.channel i c) := b.holds_sample _

theorem getElem?_channel (hi : i < b.width.toNat * b.height.toNat) (hc : c < b.format.channels) :
    b.samples[i * b.format.channels + c]? = some (b.channel i c) := by
  have hlt : i * b.format.channels + c < b.samples.size := by
    rw [b.size_eq]
    exact channel_lt hi hc
  rw [channel, Array.getD_eq_getD_getElem?, Array.getElem?_eq_getElem hlt, Option.getD_some]

/-- Images of one shape whose channels agree are equal. -/
theorem ext_channel (hinfo : b.info = b'.info)
    (h : ∀ i c, i < b.width.toNat * b.height.toNat → c < b.format.channels → b.channel i c = b'.channel i c) :
    b = b' := by
  refine ext_sample hinfo fun i hi => ?_
  rw [b.size_eq] at hi
  have hpos : 0 < b.format.channels := Nat.pos_of_ne_zero fun hzero => by simp [hzero] at hi
  have hflat : i / b.format.channels * b.format.channels + i % b.format.channels = i := Nat.div_add_mod' i _
  have hpixel : i / b.format.channels < b.width.toNat * b.height.toNat :=
    Nat.div_lt_of_lt_mul (by rwa [Nat.mul_comm])
  have hsame := h _ _ hpixel (Nat.mod_lt i hpos)
  rw [channel, channel, ← (extent_of_info hinfo).2.2, hflat] at hsame
  exact hsame

/-- The image with given channels. -/
def ofChannels (width height : UInt32) (format : Format) (value : Nat → Nat → Int) : ImageBuffer :=
  generate width height format fun k => value (k / format.channels) (k % format.channels)

theorem channel_ofChannels (value : Nat → Nat → Int) (hi : i < width.toNat * height.toNat) (hc : c < format.channels) :
    (ofChannels width height format value).channel i c = format.element.wrap (value i c) := by
  have hlt : i * format.channels + c < width.toNat * height.toNat * format.channels := channel_lt hi hc
  simp [channel, ofChannels, generate, Array.getD_eq_getD_getElem?, hlt, column_of_flat hc, row_of_flat hc]

/-- One channel as an image of its own. -/
def plane (b : ImageBuffer) (c : Nat) : ImageBuffer := ofChannels b.width b.height .u8 fun i _ => b.channel i c

/-- Planes side by side as the channels of an image; channels without a plane are white. -/
def combined (width height : UInt32) (format : Format) (planes : List ImageBuffer) : ImageBuffer :=
  ofChannels width height format fun i c => ((planes[c]?).map (·.channel i 0)).getD 255

/-- The colours of all pixels converted. -/
def converted (b : ImageBuffer) (target : Format) : ImageBuffer :=
  ofChannels b.width b.height target fun i c =>
    (Kernel.convertPixel target (b.channel i 0) (b.channel i 1) (b.channel i 2)).getD c 0

end ImageBuffer

/-! ### Painting an output -/

namespace Frame

variable {f g : Frame} {slot i c : Nat} {width height : UInt32} {format : Format} {value : Nat → Nat → Int}

/-- On the way from a frame to another one the samples of an output are painted, up to some number of them; nothing
else is changed. -/
structure Painting (f : Frame) (slot : Nat) (width height : UInt32) (format : Format) (value : Nat → Nat → Int)
    (n : Nat) (g : Frame) : Prop where
  handles : g.handles = f.handles
  others : ∀ t, f.Apart slot t → g.host t = f.host t
  painted : g.Painted slot n (.known width height format) fun k => value (k / format.channels) (k % format.channels)

namespace Painting

/-- The channel of a pixel is written. -/
theorem write (h : f.Painting slot width height format value (i * format.channels + c) g)
    (hi : i < width.toNat * height.toNat) (hc : c < format.channels) :
    ∃ g', g.write slot (i * format.channels + c) (value i c) = .ok g' ∧
      f.Painting slot width height format value (i * format.channels + c + 1) g' := by
  obtain ⟨g', hwrite, hsame, hnext, hothers⟩ := h.painted.write (channel_lt hi hc)
  rw [row_of_flat hc, column_of_flat hc] at hwrite
  refine ⟨g', hwrite, hsame.trans h.handles, fun t ht => ?_, hnext⟩
  rw [hothers t (ht.of_handles h.handles), h.others t ht]

/-- Channels of a pixel are written side by side. -/
theorem writeSamples (h : f.Painting slot width height format value (i * format.channels + c) g)
    (hi : i < width.toNat * height.toNat) {values : List Int} (hlength : c + values.length ≤ format.channels)
    (hvalues : ∀ j v, values[j]? = some v → v = value i (c + j)) :
    ∃ g', Kernel.writeSamples slot (i * format.channels + c) values g = .ok g' ∧
      f.Painting slot width height format value (i * format.channels + (c + values.length)) g' := by
  induction values generalizing c g with
  | nil => exact ⟨g, rfl, h⟩
  | cons v values ih =>
    rw [List.length_cons] at hlength ⊢
    obtain rfl : v = value i c := hvalues 0 v rfl
    have hrest (j : Nat) (v : Int) (hv : values[j]? = some v) : v = value i (c + 1 + j) := by
      rw [Nat.add_right_comm]
      exact hvalues (j + 1) v hv
    refine exists_bind (h.write hi (by omega)) fun g' hg' => ?_
    obtain ⟨last, hlast, hpainted⟩ := ih (c := c + 1) hg' (by omega) hrest
    exact ⟨last, hlast, by rwa [Nat.add_right_comm] at hpainted⟩

end Painting

/-- Rounds that paint one pixel each paint the image. -/
theorem exists_loop_painting {dst : ImageBuffer} {round : Nat → Frame → Except Halt Frame}
    (hdst : f.host slot = .ok (.image dst)) (hinfo : dst.info = .known width height format)
    (hround : ∀ i g, i < width.toNat * height.toNat →
      f.Painting slot width height format value (i * format.channels) g →
      ∃ g', round i g = .ok g' ∧ f.Painting slot width height format value (i * format.channels + format.channels) g') :
    ∃ g, loop round (width.toNat * height.toNat) 0 f = .ok g ∧
      g.host slot = .ok (.image (.ofChannels width height format value)) := by
  have hstart : f.Painting slot width height format value (0 * format.channels) f := by
    refine ⟨rfl, fun _ _ => rfl, dst, hdst, hinfo, fun j hj => ?_⟩
    rw [Nat.zero_mul] at hj
    exact absurd hj (Nat.not_lt_zero j)
  obtain ⟨g, hg, hpainted⟩ := loop_invariant
    (fun i g => f.Painting slot width height format value (i * format.channels) g)
    (fun i g hi hg => by rw [Nat.succ_mul]; exact hround i g hi hg) hstart
  exact ⟨g, hg, hpainted.painted.host_generate⟩

end Frame

/-! ### Kernels -/

namespace Kernel

variable {f : Frame} {src : ImageBuffer}

/-- What the extraction finds: an image with the channel that a number names, and a plane in another object. -/
structure Extracts (f : Frame) (src : ImageBuffer) (index : Nat) : Prop where
  input : f.host 0 = .ok (.image src)
  number : ∃ number, f.scalar 1 = .ok (.enum number) ∧ channelIndex? number = some index
  present : index < src.format.channels
  output : ∃ dst, f.host 2 = .ok (.image dst) ∧ dst.info = .known src.width src.height .u8
  apart : f.Apart 2 0

theorem Extracts.run {index : Nat} (h : Extracts f src index) (border : Border) :
    ∃ g, channelExtract.effect border f = .ok g ∧ g.host 2 = .ok (.image (src.plane index)) := by
  obtain ⟨number, hnumber, hindex⟩ := h.number
  obtain ⟨dst, hdst, hinfo⟩ := h.output
  refine exists_bind_ok (Frame.image_eq_ok.mpr h.input) (exists_bind_ok hnumber ?_)
  simp only [Scalar.enum?, Option.bind_some, hindex]
  refine Frame.exists_loop_painting hdst hinfo fun i g hi hg => ?_
  have hinput := (hg.others 0 h.apart).trans h.input
  refine exists_bind_ok (Frame.sample_of_host hinput (ImageBuffer.getElem?_channel hi h.present)) ?_
  have hwrite := Frame.Painting.write (c := 0) hg hi Nat.zero_lt_one
  have hone : i * Format.u8.channels = i := Nat.mul_one i
  rw [Nat.add_zero, hone] at hwrite
  rw [hone]
  exact hwrite

/-- What the combination finds: byte planes of one extent, and an image in another object; channels without a plane are
not bound. -/
structure Combines (f : Frame) (width height : UInt32) (format : Format) (planes : List ImageBuffer) : Prop where
  input : ∀ c plane, planes[c]? = some plane → f.host c = .ok (.image plane) ∧ plane.info = .known width height .u8
  missing : ∀ c, planes.length ≤ c → c < format.channels → f.isBound c = false
  output : ∃ dst, f.host 4 = .ok (.image dst) ∧ dst.info = .known width height format
  apart : ∀ c, c < planes.length → f.Apart 4 c

theorem Combines.run {width height : UInt32} {format : Format} {planes : List ImageBuffer}
    (h : Combines f width height format planes) (border : Border) :
    ∃ g, channelCombine.effect border f = .ok g ∧
      g.host 4 = .ok (.image (.combined width height format planes)) := by
  obtain ⟨dst, hdst, hinfo⟩ := h.output
  refine exists_bind_ok (Frame.image_eq_ok.mpr hdst) ?_
  obtain ⟨hw, hh, hf⟩ := ImageBuffer.extent_of_info hinfo
  rw [hw, hh, hf]
  refine Frame.exists_loop_painting hdst hinfo fun i g hi hg => ?_
  refine loop_invariant (fun c g => f.Painting 4 width height format _ (i * format.channels + c) g)
    (fun c g hc hg => ?_) hg
  have hsample : (if g.isBound c then g.sample c i else .ok 255) =
      .ok (((planes[c]?).map (·.channel i 0)).getD 255) := by
    rw [Frame.isBound_of_handles hg.handles]
    cases hplane : planes[c]? with
    | none =>
      rw [h.missing c (List.getElem?_eq_none_iff.mp hplane) hc]
      rfl
    | some plane =>
      obtain ⟨hhost, hshape⟩ := h.input c plane hplane
      obtain ⟨rfl, rfl, hbytes⟩ := ImageBuffer.extent_of_info hshape
      have hat := ImageBuffer.getElem?_channel (b := plane) (c := 0) hi (by rw [hbytes]; decide)
      have hone : i * plane.format.channels + 0 = i := by rw [hbytes]; exact Nat.mul_one i
      rw [hone] at hat
      have hkept := (hg.others c (h.apart c (List.getElem?_eq_some_iff.mp hplane).1)).trans hhost
      rw [Frame.isBound_of_host hhost, if_pos rfl]
      exact Frame.sample_of_host hkept hat
  obtain ⟨g', hwrite, hnext⟩ := hg.write hi hc
  exact ⟨g', bind_ite_eq_ok hsample hwrite, hnext⟩

/-- What the conversion finds: a colour image, and an image of bytes or colours in another object. -/
structure Converts (f : Frame) (src : ImageBuffer) (target : Format) : Prop where
  input : f.host 0 = .ok (.image src)
  colours : 3 ≤ src.format.channels
  allowed : target ∈ [.u8, .rgb, .rgbx]
  output : ∃ dst, f.host 1 = .ok (.image dst) ∧ dst.info = .known src.width src.height target
  apart : f.Apart 1 0

theorem Converts.run {target : Format} (h : Converts f src target) (border : Border) :
    ∃ g, colorConvert.effect border f = .ok g ∧ g.host 1 = .ok (.image (src.converted target)) := by
  obtain ⟨dst, hdst, hinfo⟩ := h.output
  refine exists_bind_ok (Frame.image_eq_ok.mpr h.input) (exists_bind_ok (Frame.image_eq_ok.mpr hdst) ?_)
  obtain ⟨_, _, hf⟩ := ImageBuffer.extent_of_info hinfo
  have hcolours := h.colours
  rw [hf]
  refine Frame.exists_loop_painting hdst hinfo fun i g hi hg => ?_
  have hinput := (hg.others 0 h.apart).trans h.input
  have hsample (c : Nat) (hc : c < 3) : g.sample 0 (i * src.format.channels + c) = .ok (src.channel i c) :=
    Frame.sample_of_host hinput (ImageBuffer.getElem?_channel hi (by omega))
  refine exists_bind_ok (hsample 0 (by decide)) (exists_bind_ok (hsample 1 (by decide))
    (exists_bind_ok (hsample 2 (by decide)) ?_))
  have hlength (r g b : Int) : (convertPixel target r g b).length = target.channels := by
    have hmem := h.allowed
    simp only [List.mem_cons, List.not_mem_nil, or_false] at hmem
    rcases hmem with rfl | rfl | rfl <;> rfl
  let pixel := convertPixel target (src.channel i 0) (src.channel i 1) (src.channel i 2)
  have hpixel : pixel.length = target.channels := hlength ..
  have hvalues (j : Nat) (v : Int) (hv : pixel[j]? = some v) : v = pixel.getD (0 + j) 0 := by
    rw [Nat.zero_add, List.getD_eq_getElem?_getD, hv, Option.getD_some]
  obtain ⟨g', hwrite, hnext⟩ := Frame.Painting.writeSamples (c := 0) hg hi (by omega) hvalues
  rw [Nat.zero_add, hpixel] at hnext
  exact ⟨g', hwrite, hnext⟩

/-! ### Rules -/

theorem rule_channelExtract {width height number : UInt32} {source : Format} {index : Nat} {m : ImageMeta}
    (hsource : source ∈ [.rgb, .rgbx]) (hindex : channelIndex? number = some index) (hpresent : index < source.channels)
    (hm : m.format.getD .u8 = .u8) :
    channelExtract.rule [some (.image (.known width height source)), some (.scalar (.constant (.enum number))),
      some (.image m)] = .ok [Rule.inferImage 2 ⟨width, height, source⟩ .u8] := by
  refine bind_eq_ok.mpr ⟨⟨width, height, source⟩, rfl, bind_eq_ok.mpr ⟨source, ?_, bind_eq_ok.mpr
    ⟨.constant (.enum number), rfl, ?_⟩⟩⟩
  · exact Rule.requireFormat_eq_ok.mpr ⟨hsource, rfl⟩
  · refine bind_eq_ok.mpr ⟨number, rfl, ?_⟩
    dsimp only
    rw [hindex]
    refine Rule.unless_refused_eq_ok.mpr ⟨Nat.not_le.mpr hpresent, bind_eq_ok.mpr ⟨m, rfl, bind_eq_ok.mpr ⟨.u8, ?_, rfl⟩⟩⟩
    exact Rule.chooseFormat_eq_ok.mpr ⟨by decide, hm⟩

/-- The rule of the combination, with three or with four planes. -/
theorem rule_channelCombine {width height : UInt32} {target : Format} {m : ImageMeta} {four : Bool}
    (htarget : target ∈ if four then [.rgbx] else [.rgb, .rgbx])
    (hm : m.format.getD (if four then .rgbx else .rgb) = target) :
    channelCombine.rule [some (.image (.known width height .u8)), some (.image (.known width height .u8)),
      some (.image (.known width height .u8)), if four then some (.image (.known width height .u8)) else none,
      some (.image m)] = .ok [Rule.inferImage 4 ⟨width, height, .u8⟩ target] := by
  have hextent (slot : Nat) : Rule.sameExtent slot ⟨width, height, .u8⟩ ⟨width, height, .u8⟩ = .ok () :=
    Rule.sameExtent_eq_ok.mpr rfl
  refine bind_eq_ok.mpr ⟨⟨width, height, .u8⟩, rfl, bind_eq_ok.mpr ⟨.u8, rfl, ?_⟩⟩
  cases four with
  | false =>
    refine bind_eq_ok.mpr ⟨(), forM_eq_ok.mpr fun slot hslot => ?_, bind_eq_ok.mpr ⟨m, rfl, bind_eq_ok.mpr
      ⟨target, Rule.chooseFormat_eq_ok.mpr ⟨htarget, hm⟩, rfl⟩⟩⟩
    have hslot : slot = 1 ∨ slot = 2 := by simpa [Rule.isBound] using hslot
    rcases hslot with rfl | rfl <;> exact hextent _
  | true =>
    refine bind_eq_ok.mpr ⟨(), forM_eq_ok.mpr fun slot hslot => ?_, bind_eq_ok.mpr ⟨m, rfl, bind_eq_ok.mpr
      ⟨target, Rule.chooseFormat_eq_ok.mpr ⟨htarget, hm⟩, rfl⟩⟩⟩
    have hslot : slot = 1 ∨ slot = 2 ∨ slot = 3 := by simpa [Rule.isBound] using hslot
    rcases hslot with rfl | rfl | rfl <;> exact hextent _

theorem rule_colorConvert {width height : UInt32} {source target : Format} {m : ImageMeta}
    (hsource : source ∈ [.rgb, .rgbx]) (htarget : target ∈ if source = .rgb then [.u8, .rgbx] else [.u8, .rgb])
    (hm : m.format.getD .u8 = target) :
    colorConvert.rule [some (.image (.known width height source)), some (.image m)] =
      .ok [Rule.inferImage 1 ⟨width, height, source⟩ target] := by
  refine bind_eq_ok.mpr ⟨⟨width, height, source⟩, rfl, bind_eq_ok.mpr ⟨source, ?_, bind_eq_ok.mpr ⟨m, rfl,
    bind_eq_ok.mpr ⟨target, Rule.chooseFormat_eq_ok.mpr ⟨htarget, hm⟩, rfl⟩⟩⟩⟩
  exact Rule.requireFormat_eq_ok.mpr ⟨hsource, rfl⟩

/-- A node of a kernel, with the border that nodes have at first. -/
def node (k : Kernel) (id : Nat) (params : List (Option ObjectId)) : Checked :=
  ⟨⟨⟨id⟩, k.name, params, .replicate⟩, k⟩

end Kernel

namespace Graph

open Kernel

variable {g : Graph} {known : Array Meta} {id : Nat} {width height : UInt32} {m : ImageMeta} {object : DataObject}
  {input output : ObjectId}

theorem infer_channelExtract {number : ObjectId} {v : UInt32} {source : Format} {index : Nat}
    (hin : known[input.index]? = some (.image (.known width height source)))
    (hnumber : known[number.index]? = some (.scalar (.constant (.enum v))))
    (hout : known[output.index]? = some (.image m)) (hobject : g.object? output = some object)
    (hsource : source ∈ [.rgb, .rgbx]) (hindex : channelIndex? v = some index) (hpresent : index < source.channels)
    (hm : (Meta.image (.known width height .u8)).Extends (.image m)) (hformat : m.format.getD .u8 = .u8) :
    g.infer known (channelExtract.node id [some input, some number, some output]) =
      .ok (known.setIfInBounds output.index (.image (.known width height .u8))) := by
  refine infer_image 2 ⟨width, height, source⟩ ?_ rfl rfl hobject hout hm
  have hview : (channelExtract.node id [some input, some number, some output]).view known =
      [some (.image (.known width height source)), some (.scalar (.constant (.enum v))), some (.image m)] := by
    simp [Checked.view, Kernel.node, hin, hnumber, hout]
  rw [hview]
  exact rule_channelExtract hsource hindex hpresent hformat

theorem infer_channelCombine {first second third : ObjectId} {fourth : Option ObjectId} {target : Format}
    (hfirst : known[first.index]? = some (.image (.known width height .u8)))
    (hsecond : known[second.index]? = some (.image (.known width height .u8)))
    (hthird : known[third.index]? = some (.image (.known width height .u8)))
    (hfourth : ∀ o, fourth = some o → known[o.index]? = some (.image (.known width height .u8)))
    (hout : known[output.index]? = some (.image m)) (hobject : g.object? output = some object)
    (htarget : target ∈ if fourth.isSome then [.rgbx] else [.rgb, .rgbx])
    (hm : (Meta.image (.known width height target)).Extends (.image m))
    (hformat : m.format.getD (if fourth.isSome then .rgbx else .rgb) = target) :
    g.infer known (channelCombine.node id [some first, some second, some third, fourth, some output]) =
      .ok (known.setIfInBounds output.index (.image (.known width height target))) := by
  refine infer_image 4 ⟨width, height, .u8⟩ ?_ rfl rfl hobject hout hm
  have hview : (channelCombine.node id [some first, some second, some third, fourth, some output]).view known =
      [some (.image (.known width height .u8)), some (.image (.known width height .u8)),
        some (.image (.known width height .u8)), if fourth.isSome then some (.image (.known width height .u8)) else none,
        some (.image m)] := by
    cases fourth with
    | none => simp [Checked.view, Kernel.node, hfirst, hsecond, hthird, hout]
    | some o => simp [Checked.view, Kernel.node, hfirst, hsecond, hthird, hfourth o rfl, hout]
  rw [hview]
  exact rule_channelCombine htarget hformat

theorem infer_colorConvert {source target : Format}
    (hin : known[input.index]? = some (.image (.known width height source)))
    (hout : known[output.index]? = some (.image m)) (hobject : g.object? output = some object)
    (hsource : source ∈ [.rgb, .rgbx]) (htarget : target ∈ if source = .rgb then [.u8, .rgbx] else [.u8, .rgb])
    (hm : (Meta.image (.known width height target)).Extends (.image m)) (hformat : m.format.getD .u8 = target) :
    g.infer known (colorConvert.node id [some input, some output]) =
      .ok (known.setIfInBounds output.index (.image (.known width height target))) := by
  refine infer_image 1 ⟨width, height, source⟩ ?_ rfl rfl hobject hout hm
  have hview : (colorConvert.node id [some input, some output]).view known =
      [some (.image (.known width height source)), some (.image m)] := by
    simp [Checked.view, Kernel.node, hin, hout]
  rw [hview]
  exact rule_colorConvert hsource htarget hformat

end Graph

/-! ### Runs -/

namespace Plan.Ended

variable {p : Plan} {s : Storage} {b : Bindings} {last : Memory} {step : Step} {input output : ObjectId}
  {src : ImageBuffer}

/-- When a run is over, the plane holds the channel of the image. -/
theorem extracted (h : p.Ended s b last) (hstep : p.Has Kernel.channelExtract step) {number : ObjectId}
    (hparams : step.params = [some input, some number, some output]) (hne : input ≠ output) {v : UInt32}
    (hnumber : p.info? number = some (.scalar (.constant (.enum v)))) {index : Nat}
    (hindex : Kernel.channelIndex? v = some index) (hsrc : p.held last input = some (.image src))
    (hpresent : index < src.format.channels)
    (hplane : p.info? output = some (.image (.known src.width src.height .u8))) :
    p.held last output = some (.image (src.plane index)) := by
  obtain ⟨f, g, hperformed⟩ := h.exists_performed hstep rfl
  have hwrites : step.writes = [output] := hstep.boundBy hparams _
  have hin : step.params[0]? = some (some input) := by rw [hparams]; rfl
  have hone : step.params[1]? = some (some number) := by rw [hparams]; rfl
  have hout : step.params[2]? = some (some output) := by rw [hparams]; rfl
  have hconstant := hperformed.ready.suits.constant 1 _ (.enum v) (slotMeta_known.mpr ⟨number, hone, hnumber⟩) rfl
  have hextracts : Kernel.Extracts f src index := by
    refine ⟨?_, ⟨v, Frame.scalar_of_constant hconstant, hindex⟩, hpresent, hperformed.image hout hplane, ?_⟩
    · exact hperformed.given 0 input _ hin (by simpa [hwrites] using hne) hsrc
    · exact hperformed.apart 2 0 output input hout hin hne.symm
  exact hperformed.held hout (by simp [hwrites]) (hextracts.run step.border)

/-- When a run is over, the combination holds the planes. -/
theorem combined (h : p.Ended s b last) (hstep : p.Has Kernel.channelCombine step)
    {first second third fourth : Option ObjectId} (hparams : step.params = [first, second, third, fourth, some output])
    {width height : UInt32} {format : Format} {planes : List ImageBuffer}
    (hplanes : ∀ (c : Nat) plane, planes[c]? = some plane → plane.info = .known width height .u8 ∧
      ∃ o, step.params[c]? = some (some o) ∧ o ≠ output ∧ p.held last o = some (.image plane))
    (hmissing : ∀ c, planes.length ≤ c → c < format.channels → step.params[c]? = some none)
    (hinfo : p.info? output = some (.image (.known width height format))) :
    p.held last output = some (.image (.combined width height format planes)) := by
  obtain ⟨f, g, hperformed⟩ := h.exists_performed hstep rfl
  have hwrites : step.writes = [output] := hstep.boundBy hparams _
  have hout : step.params[4]? = some (some output) := by rw [hparams]; rfl
  have hcombines : Kernel.Combines f width height format planes := by
    refine ⟨fun c plane hplane => ?_, fun c hlength hc => ?_, hperformed.image hout hinfo, fun c hc => ?_⟩
    · obtain ⟨hshape, o, ho, hne, hheld⟩ := hplanes c plane hplane
      exact ⟨hperformed.given c o _ ho (by simpa [hwrites] using hne) hheld, hshape⟩
    · apply hperformed.ready.suits.unbound
      simp [Rule.slotMeta, Plan.known, hmissing c hlength hc]
    · obtain ⟨_, o, ho, hne, _⟩ := hplanes c _ (List.getElem?_eq_getElem hc)
      exact hperformed.apart 4 c output o hout ho hne.symm
  exact hperformed.held hout (by simp [hwrites]) (hcombines.run step.border)

/-- When a run is over, the output holds the converted colours. -/
theorem converted (h : p.Ended s b last) (hstep : p.Has Kernel.colorConvert step)
    (hparams : step.params = [some input, some output]) (hne : input ≠ output)
    (hsrc : p.held last input = some (.image src)) (hcolours : 3 ≤ src.format.channels) {target : Format}
    (htarget : target ∈ [.u8, .rgb, .rgbx])
    (hinfo : p.info? output = some (.image (.known src.width src.height target))) :
    p.held last output = some (.image (src.converted target)) := by
  obtain ⟨f, g, hperformed⟩ := h.exists_performed hstep rfl
  have hwrites : step.writes = [output] := hstep.boundBy hparams _
  have hin : step.params[0]? = some (some input) := by rw [hparams]; rfl
  have hout : step.params[1]? = some (some output) := by rw [hparams]; rfl
  have hconverts : Kernel.Converts f src target := by
    refine ⟨?_, hcolours, htarget, hperformed.image hout hinfo, ?_⟩
    · exact hperformed.given 0 input _ hin (by simpa [hwrites] using hne) hsrc
    · exact hperformed.apart 1 0 output input hout hin hne.symm
  exact hperformed.held hout (by simp [hwrites]) (hconverts.run step.border)

end Plan.Ended

end VisionGraph
