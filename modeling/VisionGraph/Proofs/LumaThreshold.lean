import VisionGraph.Proofs.Channels

/-! The grey of a colour image, cut at a level. A graph of two nodes computes it, with the grey in an image of its own;
the mask is told here by the colours of each pixel. -/
namespace VisionGraph

/-- The grey of bytes is a byte. -/
theorem Kernel.holds_luma {r g b : Int} (hr : Element.u8.Holds r) (hg : Element.u8.Holds g) (hb : Element.u8.Holds b) :
    Element.u8.Holds (Kernel.luma r g b) := by
  simp only [Element.holds_iff, Element.lo, Element.hi, luma] at *
  omega

namespace ImageBuffer

variable {b : ImageBuffer} {i : Nat}

theorem channel_grey (hbytes : b.format.element = .u8) (hi : i < b.width.toNat * b.height.toNat) :
    (b.converted .u8).channel i 0 = Kernel.luma (b.channel i 0) (b.channel i 1) (b.channel i 2) := by
  have hholds (c : Nat) : Element.u8.Holds (b.channel i c) := hbytes ▸ b.holds_channel i c
  rw [converted, channel_ofChannels _ hi (by decide)]
  exact Kernel.holds_luma (hholds 0) (hholds 1) (hholds 2)

/-- White where a sample exceeds the level, black elsewhere. -/
def cut (b : ImageBuffer) (level : UInt8) : ImageBuffer :=
  ofChannels b.width b.height .u8 fun i _ => if (level.toNat : Int) < b.channel i 0 then 255 else 0

theorem channel_cut (level : UInt8) (hi : i < b.width.toNat * b.height.toNat) :
    (b.cut level).channel i 0 = if (level.toNat : Int) < b.channel i 0 then 255 else 0 := by
  rw [cut, channel_ofChannels _ hi (by decide)]
  split <;> rfl

end ImageBuffer

/-! ### The threshold -/

theorem Kernel.rule_threshold {width height : UInt32} {level : UInt8} {m : ImageMeta} (hm : m.format.getD .u8 = .u8) :
    threshold.rule [some (.image (.known width height .u8)), some (.scalar (.constant (.u8 level))), some (.image m)] =
      .ok [Rule.inferImage 2 ⟨width, height, .u8⟩ .u8] := by
  refine bind_eq_ok.mpr ⟨⟨width, height, .u8⟩, rfl, bind_eq_ok.mpr ⟨.u8, rfl, bind_eq_ok.mpr
    ⟨.constant (.u8 level), rfl, bind_eq_ok.mpr ⟨m, rfl, bind_eq_ok.mpr ⟨.u8, ?_, rfl⟩⟩⟩⟩⟩
  exact Rule.chooseFormat_eq_ok.mpr ⟨by decide, hm⟩

theorem Graph.infer_threshold {g : Graph} {known : Array Meta} {id : Nat} {width height : UInt32} {m : ImageMeta}
    {object : DataObject} {input number output : ObjectId} {level : UInt8}
    (hin : known[input.index]? = some (.image (.known width height .u8)))
    (hnumber : known[number.index]? = some (.scalar (.constant (.u8 level))))
    (hout : known[output.index]? = some (.image m)) (hobject : g.object? output = some object)
    (hm : (Meta.image (.known width height .u8)).Extends (.image m)) (hformat : m.format.getD .u8 = .u8) :
    g.infer known (Kernel.threshold.node id [some input, some number, some output]) =
      .ok (known.setIfInBounds output.index (.image (.known width height .u8))) := by
  refine infer_image 2 ⟨width, height, .u8⟩ ?_ rfl rfl hobject hout hm
  have hview : (Kernel.threshold.node id [some input, some number, some output]).view known =
      [some (.image (.known width height .u8)), some (.scalar (.constant (.u8 level))), some (.image m)] := by
    simp [Checked.view, Kernel.node, hin, hnumber, hout]
  rw [hview]
  exact Kernel.rule_threshold hformat

namespace Plan

variable {p : Plan} {s : Storage} {b : Bindings} {last : Memory} {step : Step} {input number output : ObjectId}

/-- When a run is over, the output of a threshold holds the cut image. -/
theorem Ended.thresholded (h : p.Ended s b last) (hstep : p.Has Kernel.threshold step)
    (hparams : step.params = [some input, some number, some output]) (hne : input ≠ output) {level : UInt8}
    (hnumber : p.info? number = some (.scalar (.constant (.u8 level)))) {src : ImageBuffer} (hbytes : src.format = .u8)
    (hsrc : p.held last input = some (.image src))
    (hinfo : p.info? output = some (.image (.known src.width src.height .u8))) :
    p.held last output = some (.image (src.cut level)) := by
  have hwrites : step.writes = [output] := hstep.boundBy hparams _
  have hreads : step.reads = [input, number] := hstep.boundBy hparams _
  -- the level is a constant, and no constant is written
  have hconstant : number ≠ output := by
    rintro rfl
    rw [hnumber] at hinfo
    cases hinfo
  have hno (q : ObjectId) (hq : q ∈ step.reads) : q ∉ step.writes := by
    rw [hreads, List.mem_cons, List.mem_singleton] at hq
    rw [hwrites, List.mem_singleton]
    rcases hq with rfl | rfl
    · exact hne
    · exact hconstant
  have hvalue (i : Nat) : step.value p (p.cell last i) = if (level.toNat : Int) < src.channel i 0 then 255 else 0 := by
    have hsample : src.channel i 0 = p.cell last i input := by
      rw [cell_of_image hsrc, ImageBuffer.channel, hbytes]
      exact congrArg (src.samples.getD · 0) (Nat.mul_one i)
    have hlevel : p.cell last i number = level.toNat := h.sound.cell_of_constant hnumber i
    have hkernel : Registry.standard.find? step.kernel = some Kernel.threshold := hstep.valid.kernel
    rw [Step.value, hkernel, Option.map_some, Option.getD_some, hsample, ← hlevel]
    show (if step.args _ 1 < step.args _ 0 then 255 else 0) = _
    rw [Step.args, Step.args, hparams]
    rfl
  rw [h.held_pixelwise hstep rfl hno (by rw [hwrites]; exact .head _) hinfo]
  simp only [hvalue, ImageBuffer.cut, ImageBuffer.ofChannels, Format.channels, Nat.div_one]

end Plan

/-! ### The graph -/

namespace Graph

open Kernel (colorConvert threshold luma)

/-- A colour image is made grey, and the grey is cut at a level. -/
def lumaMask (width height : UInt32) (level : UInt8) : Graph :=
  Graph.empty.edit [.image width height .rgb, .virtualImage ⟨none, none, some .u8⟩, .constant (.u8 level),
    .image width height .u8, .node "vx.color_convert" [some ⟨0⟩, some ⟨1⟩],
    .node "vx.threshold" [some ⟨1⟩, some ⟨2⟩, some ⟨3⟩]]

section Mask

variable {width height : UInt32} {level : UInt8}

def lumaMaskNodes : List Checked :=
  [colorConvert.node 0 [some ⟨0⟩, some ⟨1⟩], threshold.node 1 [some ⟨1⟩, some ⟨2⟩, some ⟨3⟩]]

/-- What is known, with the grey image as far as it is settled. -/
def lumaMaskInfos (width height : UInt32) (level : UInt8) (grey : ImageMeta) : List Meta :=
  [.image (.known width height .rgb), .image grey, .scalar (.constant (.u8 level)), .image (.known width height .u8)]

theorem exists_accepted_lumaMask : ∃ p, Accepted (lumaMask width height level) lumaMaskNodes
    (lumaMaskInfos width height level (.known width height .u8)).toArray p := by
  have hscheduled : Scheduled .standard (lumaMask width height level) lumaMaskNodes := by
    refine @scheduled_of_arranged _ _ [⟨.image, false, false⟩, ⟨.image, false, true⟩, ⟨.scalar, true, true⟩,
      ⟨.image, false, false⟩] rfl rfl (fun c hc => ?_) ?_ ?_
    · simp only [lumaMaskNodes, List.mem_cons, List.not_mem_nil, or_false] at hc
      rcases hc with rfl | rfl <;> rfl
    · decide +kernel
    · decide +kernel
  have hgrey : (Meta.image (.known width height .u8)).Extends (.image ⟨none, none, some .u8⟩) :=
    ⟨.none _, .none _, .refl _⟩
  refine exists_accepted (lumaMaskInfos width height level ⟨none, none, some .u8⟩) ⟨_, rfl⟩ hscheduled rfl
    (foldlM_cons_eq_ok.mpr ⟨(lumaMaskInfos width height level (.known width height .u8)).toArray, ?_,
      foldlM_cons_eq_ok.mpr ⟨_, ?_, rfl⟩⟩) fun m hm => ?_
  · exact infer_colorConvert rfl rfl rfl (by decide) (by decide) hgrey rfl
  · exact infer_threshold rfl rfl rfl rfl (.refl _) rfl
  · simp only [lumaMaskInfos, List.mem_toArray, List.mem_cons, List.not_mem_nil, or_false] at hm
    rcases hm with rfl | rfl | rfl | rfl <;> rfl

theorem yields_lumaMask {src : ImageBuffer} (hformat : src.format = .rgb) :
    (lumaMask src.width src.height level).Yields [(⟨0⟩, src)] ⟨3⟩ ((src.converted .u8).cut level) := by
  obtain ⟨p, hp⟩ := @exists_accepted_lumaMask src.width src.height level
  refine hp.yields (fun c hc => ?_) ?_ (fun x hx => ?_) rfl ?_
  · simp only [lumaMaskNodes, List.mem_cons, List.not_mem_nil, or_false] at hc
    rcases hc with rfl | rfl
    · show colorConvert.name ∉ _
      decide
    · show threshold.name ∉ _
      decide
  · show ∀ o : ObjectId, o ∈ [⟨0⟩, ⟨3⟩] → o ∈ [⟨3⟩, ⟨0⟩]
    decide
  · rw [List.mem_singleton.mp hx]
    refine ⟨?_, fun c hc => ?_⟩
    · rw [Takes, ImageBuffer.info, hformat]
      rfl
    · show (⟨0⟩ : ObjectId) ∉ c.access.writes
      simp only [lumaMaskNodes, List.mem_cons, List.not_mem_nil, or_false] at hc
      rcases hc with rfl | rfl <;> decide
  · intro s b last hended hheld
    have hsrc : p.held last ⟨0⟩ = some (.image src) := hheld (⟨0⟩, src) (List.mem_singleton_self _)
    have hgrey := hended.converted (hp.has _ (.head _)) rfl (by decide) hsrc (by rw [hformat]; decide)
      (by decide) (hp.info ⟨1⟩ _ rfl)
    exact hended.thresholded (hp.has _ (.tail _ (.head _))) rfl (by decide) (hp.info ⟨2⟩ _ rfl) rfl hgrey
      (hp.info ⟨3⟩ _ rfl)

end Mask

/-- For every colour image and every level the graph is accepted; and however its plan is optimised, a run keeps the
image and makes white exactly the pixels whose luma exceeds the level. -/
theorem luma_threshold (width height : UInt32) (level : UInt8) (src : ImageBuffer)
    (hsrc : src.info = .known width height .rgb) :
    ∃ mask, (lumaMask width height level).Yields [(⟨0⟩, src)] ⟨3⟩ mask ∧ mask.info = .known width height .u8 ∧
      ∀ i < width.toNat * height.toNat, mask.channel i 0 =
        if luma (src.channel i 0) (src.channel i 1) (src.channel i 2) > level.toNat then 255 else 0 := by
  obtain ⟨rfl, rfl, hformat⟩ := ImageBuffer.extent_of_info hsrc
  refine ⟨_, yields_lumaMask hformat, rfl, fun i hi => ?_⟩
  have hcut : ((src.converted .u8).cut level).channel i 0 =
      if (level.toNat : Int) < (src.converted .u8).channel i 0 then 255 else 0 := ImageBuffer.channel_cut level hi
  rw [hcut, ImageBuffer.channel_grey (by rw [hformat]; rfl) hi]

/-- Two pixels of three colours each. -/
def twoColours : ImageBuffer := .generate 2 1 .rgb fun i => 40 * i

/-- The luma of the first pixel is the level itself. -/
theorem luma_threshold_at_level : ∃ p P b b' mask, (lumaMask 2 1 35).verify .standard = .ok p ∧
    (p.optimize .standard).1.LoadedAs P ∧ b.get? ⟨0⟩ = some (.image twoColours) ∧ P.process b = (.ok (), b') ∧
    b'.get? ⟨3⟩ = some (.image mask) ∧ luma 0 40 80 = 35 ∧ mask.channel 0 0 = 0 ∧ mask.channel 1 0 = 255 := by
  obtain ⟨mask, hyields, _, hmask⟩ := luma_threshold 2 1 35 twoColours rfl
  obtain ⟨p, P, b, b', hp, hP, hb, hrun, hout⟩ := hyields.exists_run (by decide) .standard
  refine ⟨p, P, b, b', mask, hp, hP, hb _ (.head _), hrun, hout, by decide, ?_, ?_⟩
  · rw [hmask 0 (by decide)]
    decide +kernel
  · rw [hmask 1 (by decide)]
    decide +kernel

end Graph

end VisionGraph
