import VisionGraph.Proofs.ChannelParting

/-! The kernels for channels are inverse to each other: a channel of planes that are put together, and colours that are
converted to and fro. -/
namespace VisionGraph

open Kernel (channelIndex?)

namespace Graph

open Kernel (channelExtract channelCombine colorConvert)

/-! ### Putting together and taking out -/

/-- Planes are put together, and one channel of the whole is taken out. -/
def joining (width height : UInt32) (format : Format) (count : Nat) (number : UInt32) : Graph :=
  Graph.empty.edit ([.image width height .u8, .constant (.enum number), .virtualImage ⟨none, none, some format⟩] ++
    List.replicate count (.image width height .u8) ++
    [.node "vx.channel_combine" (planeSlots count 3 ++ [some ⟨2⟩]),
      .node "vx.channel_extract" [some ⟨2⟩, some ⟨1⟩, some ⟨0⟩]])

section Joining

variable {width height number : UInt32} {format : Format} {count : Nat}

def joiningNodes (count : Nat) : List Checked :=
  [channelCombine.node 0 (planeSlots count 3 ++ [some ⟨2⟩]), channelExtract.node 1 [some ⟨2⟩, some ⟨1⟩, some ⟨0⟩]]

def joiningRoles (count : Nat) : List Role :=
  [⟨.image, false, false⟩, ⟨.scalar, true, true⟩, ⟨.image, false, true⟩] ++ List.replicate count ⟨.image, false, false⟩

def joiningObjects (width height : UInt32) (format : Format) (count : Nat) (number : UInt32) : List DataObject :=
  [⟨⟨0⟩, .image (.known width height .u8), false, false, none⟩,
    ⟨⟨1⟩, .scalar (.constant (.enum number)), true, false, none⟩,
    ⟨⟨2⟩, .image ⟨none, none, some format⟩, true, false, none⟩] ++
    (List.range count).map fun i => ⟨⟨3 + i⟩, .image (.known width height .u8), false, false, none⟩

/-- What is known, with the whole as far as it is settled. -/
def joiningInfos (width height : UInt32) (count : Nat) (number : UInt32) (whole : ImageMeta) : List Meta :=
  [.image (.known width height .u8), .scalar (.constant (.enum number)), .image whole] ++
    List.replicate count (.image (.known width height .u8))

theorem objects_joining (hcount : count = 3 ∨ count = 4) :
    (joining width height format count number).objects.toList = joiningObjects width height format count number := by
  rcases hcount with rfl | rfl <;> rfl

theorem seen_joining (hcount : count = 3 ∨ count = 4) :
    (joining width height format count number).seen = ⟨0⟩ :: (List.range count).map fun i => ⟨3 + i⟩ := by
  rcases hcount with rfl | rfl <;> rfl

theorem getElem?_joiningObjects {i : Nat} (hi : i < count) :
    (joiningObjects width height format count number)[3 + i]? =
      some ⟨⟨3 + i⟩, .image (.known width height .u8), false, false, none⟩ := by
  rw [joiningObjects, List.getElem?_append_right (by simp)]
  simp [hi]

theorem scheduled_joining (hcount : count = 3 ∨ count = 4) :
    Scheduled .standard (joining width height format count number) (joiningNodes count) := by
  have hfound (c : Checked) (hc : c ∈ joiningNodes count) : Registry.standard.find? c.node.kernel = some c.kernel := by
    simp only [joiningNodes, List.mem_cons, List.not_mem_nil, or_false] at hc
    rcases hc with rfl | rfl <;> rfl
  rcases hcount with rfl | rfl
  · refine @scheduled_of_arranged _ _ (joiningRoles 3) rfl rfl hfound ?_ ?_ <;> decide +kernel
  · refine @scheduled_of_arranged _ _ (joiningRoles 4) rfl rfl hfound ?_ ?_ <;> decide +kernel

/-- Three planes give an image with three channels or with four, and four planes one with four. -/
inductive Joins : Nat → Format → Prop
  | rgb : Joins 3 .rgb
  | white : Joins 3 .rgbx
  | rgbx : Joins 4 .rgbx

theorem Joins.length (h : Joins count format) : count = 3 ∨ count = 4 := by cases h <;> decide

theorem Joins.colour (h : Joins count format) : format ∈ [.rgb, .rgbx] := by cases h <;> decide

/-- Putting the planes together settles the whole. -/
theorem infer_joining {g : Graph} {object : DataObject} (hjoins : Joins count format)
    (hobject : g.object? ⟨2⟩ = some object) :
    g.infer (joiningInfos width height count number ⟨none, none, some format⟩).toArray
      (channelCombine.node 0 (planeSlots count 3 ++ [some ⟨2⟩])) =
        .ok (joiningInfos width height count number (.known width height format)).toArray := by
  have hwhole : (Meta.image (.known width height format)).Extends (.image ⟨none, none, some format⟩) :=
    ⟨.none _, .none _, .refl _⟩
  -- only the last case has a fourth plane
  cases hjoins <;> refine infer_channelCombine rfl rfl rfl (fun o ho => ?_) rfl hobject (by decide) hwhole rfl <;>
    cases ho
  rfl

theorem object?_joining (hcount : count = 3 ∨ count = 4) {o : ObjectId} {object : DataObject}
    (ho : (joiningObjects width height format count number)[o.index]? = some object) :
    (joining width height format count number).object? o = some object := by
  rw [object?, ← Array.getElem?_toList, objects_joining hcount, ho]

theorem exists_accepted_joining {c : Nat} (hjoins : Joins count format) (hindex : channelIndex? number = some c)
    (hc : c < format.channels) :
    ∃ p, Accepted (joining width height format count number) (joiningNodes count)
      (joiningInfos width height count number (.known width height format)).toArray p := by
  have hinfos : (joining width height format count number).objects.toList.map (·.info) =
      joiningInfos width height count number ⟨none, none, some format⟩ := by
    rw [objects_joining hjoins.length, joiningObjects, joiningInfos, List.map_append, List.map_map]
    simp [Function.comp_def]
  refine exists_accepted _ ⟨_, rfl⟩ (scheduled_joining hjoins.length) hinfos (foldlM_cons_eq_ok.mpr
    ⟨_, infer_joining hjoins (object?_joining hjoins.length rfl), foldlM_cons_eq_ok.mpr ⟨_, ?_, rfl⟩⟩) fun m hm => ?_
  · exact infer_channelExtract rfl rfl rfl (object?_joining hjoins.length rfl) hjoins.colour hindex hc (.refl _) rfl
  · simp only [joiningInfos, List.mem_toArray, List.mem_append, List.mem_cons, List.not_mem_nil, or_false,
      List.mem_replicate] at hm
    rcases hm with (rfl | rfl | rfl) | ⟨_, rfl⟩ <;> rfl

/-- A channel of planes that are put together is its plane, or white. -/
theorem yields_joining {planes : List ImageBuffer} {c : Nat} (hjoins : Joins planes.length format)
    (hplanes : ∀ plane ∈ planes, plane.info = .known width height .u8) (hindex : channelIndex? number = some c)
    (hc : c < format.channels) :
    (joining width height format planes.length number).Yields (planes.mapIdx fun i plane => (⟨3 + i⟩, plane)) ⟨0⟩
      (planes.getD c (.white width height)) := by
  obtain ⟨p, hp⟩ := @exists_accepted_joining width height number format _ c hjoins hindex hc
  have hinput {x : ObjectId × ImageBuffer} (hx : x ∈ planes.mapIdx fun i plane => (⟨3 + i⟩, plane)) :
      ∃ i, x.1 = ⟨3 + i⟩ ∧ planes[i]? = some x.2 := by
    obtain ⟨i, hi, rfl⟩ := List.mem_mapIdx.mp hx
    exact ⟨i, rfl, List.getElem?_eq_getElem hi⟩
  -- the plane is told as a channel of the whole, which is what the second node finds
  rw [← ImageBuffer.plane_combined hplanes (Format.element_of_colour hjoins.colour) hc]
  refine hp.yields (fun x hx => ?_) (fun o ho => ?_) (fun x hx => ?_) (object?_joining hjoins.length rfl) ?_
  · simp only [joiningNodes, List.mem_cons, List.not_mem_nil, or_false] at hx
    rcases hx with rfl | rfl
    · show channelCombine.name ∉ _
      decide
    · show channelExtract.name ∉ _
      decide
  · rw [seen_joining hjoins.length, List.mem_cons, List.mem_map] at ho
    rcases ho with rfl | ⟨i, hi, rfl⟩
    · exact .head _
    · exact .tail _ (List.mem_map.mpr ⟨_, List.mem_mapIdx.mpr ⟨i, List.mem_range.mp hi, rfl⟩, rfl⟩)
  · obtain ⟨i, ho, hi⟩ := hinput hx
    refine ⟨object?_joining hjoins.length ?_, fun y hy => ?_⟩
    · rw [ho, hplanes _ (List.mem_of_getElem? hi)]
      exact getElem?_joiningObjects (List.getElem?_eq_some_iff.mp hi).1
    · simp only [joiningNodes, List.mem_cons, List.not_mem_nil, or_false] at hy
      rw [ho]
      rcases hy with rfl | rfl
      · rw [writes_planeSlots, List.mem_singleton, ObjectId.mk.injEq]
        omega
      · rw [writes_channelExtract, List.mem_singleton, ObjectId.mk.injEq]
        omega
  · intro s b last hended hheld
    have hfour : planes.length ≤ 4 := by
      have := hjoins.length
      omega
    have hcombined := held_planeSlots hended (hp.has _ (.head _)) rfl hfour (fun i _ => ?_) (fun i plane hplane => ?_)
      (hp.info ⟨2⟩ _ rfl)
    · exact hended.extracted (hp.has _ (.tail _ (.head _))) rfl (by decide) (hp.info ⟨1⟩ _ rfl) hindex hcombined hc
        (hp.info ⟨0⟩ _ rfl)
    · rw [ne_eq, ObjectId.mk.injEq]
      omega
    · refine ⟨hplanes plane (List.mem_of_getElem? hplane), hheld (⟨3 + i⟩, plane) (List.mem_mapIdx.mpr ?_)⟩
      obtain ⟨hi, rfl⟩ := List.getElem?_eq_some_iff.mp hplane
      exact ⟨i, hi, rfl⟩

end Joining

/-! ### Converting to and fro -/

/-- Colours are converted, and converted back. -/
def recolouring (width height : UInt32) (outer inner : Format) : Graph :=
  Graph.empty.edit [.image width height outer, .virtualImage ⟨none, none, some inner⟩, .image width height outer,
    .node "vx.color_convert" [some ⟨0⟩, some ⟨1⟩], .node "vx.color_convert" [some ⟨1⟩, some ⟨2⟩]]

section Recolouring

variable {width height : UInt32} {outer inner : Format}

def recolouringNodes : List Checked :=
  [colorConvert.node 0 [some ⟨0⟩, some ⟨1⟩], colorConvert.node 1 [some ⟨1⟩, some ⟨2⟩]]

/-- What is known, with the image between as far as it is settled. -/
def recolouringInfos (width height : UInt32) (outer : Format) (between : ImageMeta) : List Meta :=
  [.image (.known width height outer), .image between, .image (.known width height outer)]

theorem exists_accepted_recolouring (houter : outer ∈ [.rgb, .rgbx]) (hinner : inner ∈ [.rgb, .rgbx])
    (hne : outer ≠ inner) :
    ∃ p, Accepted (recolouring width height outer inner) recolouringNodes
      (recolouringInfos width height outer (.known width height inner)).toArray p := by
  have hscheduled : Scheduled .standard (recolouring width height outer inner) recolouringNodes := by
    refine @scheduled_of_arranged _ _ [⟨.image, false, false⟩, ⟨.image, false, true⟩, ⟨.image, false, false⟩] rfl rfl
      (fun c hc => ?_) ?_ ?_
    · simp only [recolouringNodes, List.mem_cons, List.not_mem_nil, or_false] at hc
      rcases hc with rfl | rfl <;> rfl
    · decide +kernel
    · decide +kernel
  have htarget : ∀ source ∈ [Format.rgb, .rgbx], ∀ target ∈ [Format.rgb, .rgbx], source ≠ target →
      target ∈ if source = .rgb then [.u8, .rgbx] else [.u8, .rgb] := by decide
  have hbetween : (Meta.image (.known width height inner)).Extends (.image ⟨none, none, some inner⟩) :=
    ⟨.none _, .none _, .refl _⟩
  refine exists_accepted (recolouringInfos width height outer ⟨none, none, some inner⟩) ⟨_, rfl⟩ hscheduled rfl
    (foldlM_cons_eq_ok.mpr ⟨(recolouringInfos width height outer (.known width height inner)).toArray, ?_,
      foldlM_cons_eq_ok.mpr ⟨_, ?_, rfl⟩⟩) fun m hm => ?_
  · exact infer_colorConvert rfl rfl rfl houter (htarget _ houter _ hinner hne) hbetween rfl
  · exact infer_colorConvert rfl rfl rfl hinner (htarget _ hinner _ houter hne.symm) (.refl _) rfl
  · simp only [recolouringInfos, List.mem_toArray, List.mem_cons, List.not_mem_nil, or_false] at hm
    rcases hm with rfl | rfl | rfl <;> rfl

theorem yields_recolouring {src : ImageBuffer} (houter : src.format ∈ [.rgb, .rgbx]) (hinner : inner ∈ [.rgb, .rgbx])
    (hne : src.format ≠ inner) :
    (recolouring src.width src.height src.format inner).Yields [(⟨0⟩, src)] ⟨2⟩
      ((src.converted inner).converted src.format) := by
  obtain ⟨p, hp⟩ := @exists_accepted_recolouring src.width src.height _ _ houter hinner hne
  refine hp.yields (fun c hc => ?_) ?_ (fun x hx => ?_) rfl ?_
  · simp only [recolouringNodes, List.mem_cons, List.not_mem_nil, or_false] at hc
    rcases hc with rfl | rfl <;> show colorConvert.name ∉ _ <;> decide
  · show ∀ o : ObjectId, o ∈ [⟨0⟩, ⟨2⟩] → o ∈ [⟨2⟩, ⟨0⟩]
    decide
  · rw [List.mem_singleton.mp hx]
    refine ⟨rfl, fun c hc => ?_⟩
    show (⟨0⟩ : ObjectId) ∉ c.access.writes
    simp only [recolouringNodes, List.mem_cons, List.not_mem_nil, or_false] at hc
    rcases hc with rfl | rfl <;> decide
  · intro s b last hended hheld
    have hsrc : p.held last ⟨0⟩ = some (.image src) := hheld (⟨0⟩, src) (List.mem_singleton_self _)
    have hcolours : ∀ format ∈ [Format.rgb, .rgbx], 3 ≤ format.channels ∧ format ∈ [.u8, .rgb, .rgbx] := by decide
    obtain ⟨hthree, hallowed⟩ := hcolours _ houter
    obtain ⟨hthree', hallowed'⟩ := hcolours _ hinner
    have hbetween := hended.converted (hp.has _ (.head _)) rfl (by decide) hsrc hthree hallowed' (hp.info ⟨1⟩ _ rfl)
    exact hended.converted (hp.has _ (.tail _ (.head _))) rfl (by decide) hbetween hthree' hallowed (hp.info ⟨2⟩ _ rfl)

end Recolouring

end Graph

/-- Both families of numbers name the channels in their order, by position and by colour. -/
theorem Kernel.channelIndex?_family {c : Nat} (hc : c < 4) :
    channelIndex? (0x9000 + UInt32.ofNat c) = some c ∧ channelIndex? (0x9010 + UInt32.ofNat c) = some c := by
  have hcases : c = 0 ∨ c = 1 ∨ c = 2 ∨ c = 3 := by omega
  rcases hcases with rfl | rfl | rfl | rfl <;> decide

/-- Colours that are converted to and fro keep red, green and blue; a fourth channel gets white. -/
theorem ImageBuffer.channel_converted_twice {b : ImageBuffer} {inner : Format} {i c : Nat}
    (houter : b.format ∈ [.rgb, .rgbx]) (hinner : inner ∈ [.rgb, .rgbx]) (hi : i < b.width.toNat * b.height.toNat)
    (hc : c < b.format.channels) :
    ((b.converted inner).converted b.format).channel i c = if c < 3 then b.channel i c else 255 := by
  have hthree : ∀ format ∈ [Format.rgb, .rgbx], 3 ≤ format.channels := by decide
  have hback : ((b.converted inner).converted b.format).channel i c =
      if c < 3 then (b.converted inner).channel i c else 255 := channel_converted hinner houter hi hc
  rw [hback]
  refine if_ctx_congr Iff.rfl (fun hcolour => ?_) fun _ => rfl
  rw [channel_converted houter hinner hi (by have := hthree inner hinner; omega), if_pos hcolour]

/-- A fourth channel that comes and goes leaves no trace. -/
theorem ImageBuffer.converted_converted {b : ImageBuffer} (hformat : b.format = .rgb) :
    (b.converted .rgbx).converted b.format = b := by
  have hcolour : b.format ∈ [.rgb, .rgbx] := by rw [hformat]; decide
  refine ext_channel rfl fun i c hi hc => ?_
  change c < b.format.channels at hc
  have hthree : c < 3 := by rwa [hformat] at hc
  rw [channel_converted_twice hcolour (by decide) hi hc, if_pos hthree]

namespace Graph

/-- Taking channels out of an image and putting planes together are inverse to each other, and the conversions between
colours are, but for the fourth channel, which becomes white. This is so for images of any extent, by numbers of either
family for the channels, and however the plans are optimised. -/
theorem channel_kernels_inverse (width height : UInt32) :
    (∀ c < 4, channelIndex? (0x9000 + UInt32.ofNat c) = some c ∧ channelIndex? (0x9010 + UInt32.ofNat c) = some c) ∧
    (∀ (format : Format) (src : ImageBuffer) (numbers : List UInt32), format ∈ [.rgb, .rgbx] →
      src.info = .known width height format → numbers.map channelIndex? = (List.range format.channels).map some →
      (parting width height format numbers).Yields [(⟨0⟩, src)] ⟨1⟩ src) ∧
    (∀ (format : Format) (planes : List ImageBuffer) (number : UInt32) (c : Nat), Joins planes.length format →
      (∀ plane ∈ planes, plane.info = .known width height .u8) → channelIndex? number = some c → c < format.channels →
      (joining width height format planes.length number).Yields (planes.mapIdx fun i plane => (⟨3 + i⟩, plane)) ⟨0⟩
        (planes.getD c (.white width height))) ∧
    (∀ src : ImageBuffer, src.info = .known width height .rgb →
      (recolouring width height .rgb .rgbx).Yields [(⟨0⟩, src)] ⟨2⟩ src) ∧
    ∀ src : ImageBuffer, src.info = .known width height .rgbx →
      ∃ out, (recolouring width height .rgbx .rgb).Yields [(⟨0⟩, src)] ⟨2⟩ out ∧ out.info = src.info ∧
        ∀ i < width.toNat * height.toNat, (∀ c < 3, out.channel i c = src.channel i c) ∧ out.channel i 3 = 255 := by
  refine ⟨fun c => Kernel.channelIndex?_family, fun format src numbers hformat hinfo hnumbers => ?_,
    fun format planes number c => yields_joining, fun src hinfo => ?_, fun src hinfo => ?_⟩
  · obtain ⟨rfl, rfl, rfl⟩ := ImageBuffer.extent_of_info hinfo
    exact yields_parting hformat hnumbers
  · obtain ⟨rfl, rfl, hf⟩ := ImageBuffer.extent_of_info hinfo
    have hyields := @yields_recolouring .rgbx src (by rw [hf]; decide) (by decide) (by rw [hf]; decide)
    rwa [ImageBuffer.converted_converted hf, hf] at hyields
  · obtain ⟨rfl, rfl, hf⟩ := ImageBuffer.extent_of_info hinfo
    have hcolour : src.format ∈ [.rgb, .rgbx] := by rw [hf]; decide
    have hyields := @yields_recolouring .rgb src hcolour (by decide) (by rw [hf]; decide)
    have hchannel (i : Nat) (hi : i < src.width.toNat * src.height.toNat) (c : Nat) (hc : c < 4) :
        ((src.converted .rgb).converted .rgbx).channel i c = if c < 3 then src.channel i c else 255 := by
      rw [← hf]
      exact ImageBuffer.channel_converted_twice hcolour (by decide) hi (by rwa [hf])
    rw [hf] at hyields
    refine ⟨_, hyields, hinfo.symm, fun i hi => ⟨fun c hc => ?_, ?_⟩⟩
    · rw [hchannel i hi c (by omega), if_pos hc]
    · exact hchannel i hi 3 (by decide)

/-- Two pixels with four channels each. -/
def twoPixels : ImageBuffer := .generate 2 1 .rgbx fun i => 30 * i

/-- Four channels of two pixels, named by position and by colour; the channel that three planes do not fill; and a
fourth channel that is lost. -/
theorem channel_kernels_inverse_two_pixels : ∃ p q r P Q R b b' d d' e e' out,
    (parting 2 1 .rgbx [0x9000, 0x9011, 0x9002, 0x9013]).verify .standard = .ok p ∧
    (joining 2 1 .rgbx 3 0x9013).verify .standard = .ok q ∧ (recolouring 2 1 .rgbx .rgb).verify .standard = .ok r ∧
    (p.optimize .standard).1.LoadedAs P ∧ (q.optimize .disabled).1.LoadedAs Q ∧ (r.optimize .standard).1.LoadedAs R ∧
    b.get? ⟨0⟩ = some (.image twoPixels) ∧ P.process b = (.ok (), b') ∧
    b'.get? ⟨1⟩ = some (.image twoPixels) ∧
    (∀ i < 3, d.get? ⟨3 + i⟩ = some (.image (.zero 2 1 .u8))) ∧ Q.process d = (.ok (), d') ∧
    d'.get? ⟨0⟩ = some (.image (.white 2 1)) ∧
    e.get? ⟨0⟩ = some (.image twoPixels) ∧ R.process e = (.ok (), e') ∧
    e'.get? ⟨2⟩ = some (.image out) ∧ out.channel 1 2 = 180 ∧ out.channel 1 3 = 255 := by
  obtain ⟨_, hparting, hjoining, _, hrecolouring⟩ := channel_kernels_inverse 2 1
  obtain ⟨out, hout, _, hchannel⟩ := hrecolouring twoPixels rfl
  have hplanes : ∀ plane ∈ List.replicate 3 (ImageBuffer.zero 2 1 .u8), plane.info = .known 2 1 .u8 := by
    intro plane hplane
    rw [(List.mem_replicate.mp hplane).2]
    rfl
  obtain ⟨p, P, b, b', hp, hP, hb, hrun, hsame⟩ := (hparting .rgbx twoPixels [0x9000, 0x9011, 0x9002, 0x9013]
    (by decide) rfl (by decide)).exists_run (by decide) .standard
  obtain ⟨q, Q, d, d', hq, hQ, hd, hrun', hwhite⟩ := (hjoining .rgbx (List.replicate 3 (.zero 2 1 .u8)) 0x9013 3 .white
    hplanes (by decide) (by decide)).exists_run (by decide) .disabled
  obtain ⟨r, R, e, e', hr, hR, he, hrun'', hlast⟩ := hout.exists_run (by decide) .standard
  obtain ⟨hcolour, hfourth⟩ := hchannel 1 (by decide)
  refine ⟨p, q, r, P, Q, R, b, b', d, d', e, e', out, hp, hq, hr, hP, hQ, hR, hb _ (.head _), hrun, hsame,
    fun i hi => ?_, hrun', hwhite, he _ (.head _), hrun'', hlast, ?_, hfourth⟩
  · refine hd (⟨3 + i⟩, .zero 2 1 .u8) (List.mem_mapIdx.mpr ⟨i, by simpa using hi, ?_⟩)
    rw [List.getElem_replicate]
  · rw [hcolour 2 (by decide)]
    decide +kernel

end Graph

end VisionGraph
