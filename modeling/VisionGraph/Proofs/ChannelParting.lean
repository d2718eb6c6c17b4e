import VisionGraph.Proofs.Channels

/-! An image taken apart into its channels and put together again. The graph has one node for each channel of the image;
what is known of the planes is followed along these nodes. -/
namespace VisionGraph

open Kernel (channelIndex?)

/-- The channels of colours are bytes. -/
theorem Format.element_of_colour {format : Format} (h : format ∈ [.rgb, .rgbx]) : format.element = .u8 := by
  simp only [List.mem_cons, List.not_mem_nil, or_false] at h
  rcases h with rfl | rfl <;> rfl

/-! ### Images -/

namespace ImageBuffer

variable {b : ImageBuffer} {width height : UInt32} {format : Format} {i c : Nat}

theorem channel_plane (hbytes : b.format.element = .u8) (hi : i < b.width.toNat * b.height.toNat) :
    (b.plane c).channel i 0 = b.channel i c := by
  have hholds := b.holds_channel i c
  rw [hbytes] at hholds
  rw [plane, channel_ofChannels _ hi (by decide)]
  exact hholds

/-- All channels of an image, put together again. -/
theorem combined_planes (hbytes : b.format.element = .u8) :
    combined b.width b.height b.format ((List.range b.format.channels).map b.plane) = b := by
  refine ext_channel rfl fun i c hi hc => ?_
  change i < b.width.toNat * b.height.toNat at hi
  change c < b.format.channels at hc
  rw [combined, channel_ofChannels _ hi hc]
  simp only [List.getElem?_map, List.getElem?_range hc, Option.map_some, Option.getD_some]
  rw [channel_plane hbytes hi]
  exact b.holds_channel i c

/-- The plane that is white everywhere. -/
def white (width height : UInt32) : ImageBuffer := ofChannels width height .u8 fun _ _ => 255

/-- A channel of planes put together is its plane, or white if there is none. -/
theorem plane_combined {planes : List ImageBuffer} (hplanes : ∀ plane ∈ planes, plane.info = .known width height .u8)
    (hbytes : format.element = .u8) (hc : c < format.channels) :
    (combined width height format planes).plane c = planes.getD c (white width height) := by
  rw [List.getD_eq_getElem?_getD]
  cases hplane : planes[c]? with
  | none =>
    refine ext_channel rfl fun i d hi hd => ?_
    obtain rfl : d = 0 := Nat.lt_one_iff.mp hd
    change i < width.toNat * height.toNat at hi
    rw [channel_plane hbytes hi, combined, channel_ofChannels _ hi hc, Option.getD_none, white,
      channel_ofChannels _ hi (by decide), hplane, hbytes]
    rfl
  | some plane =>
    have hinfo := hplanes plane (List.mem_of_getElem? hplane)
    obtain ⟨hw, hh, hf⟩ := extent_of_info hinfo
    refine ext_channel hinfo.symm fun i d hi hd => ?_
    obtain rfl : d = 0 := Nat.lt_one_iff.mp hd
    change i < width.toNat * height.toNat at hi
    have hholds := plane.holds_channel i 0
    rw [hf] at hholds
    rw [channel_plane hbytes hi, combined, channel_ofChannels _ hi hc, hplane, hbytes]
    exact hholds

/-- Among colours a conversion keeps red, green and blue, and what it adds is white. -/
theorem channel_converted {target : Format} (hsource : b.format ∈ [.rgb, .rgbx]) (htarget : target ∈ [.rgb, .rgbx])
    (hi : i < b.width.toNat * b.height.toNat) (hc : c < target.channels) :
    (b.converted target).channel i c = if c < 3 then b.channel i c else 255 := by
  have hbytes := Format.element_of_colour hsource
  have hholds (c : Nat) : Element.u8.wrap (b.channel i c) = b.channel i c := hbytes ▸ b.holds_channel i c
  rw [converted, channel_ofChannels _ hi hc]
  simp only [List.mem_cons, List.not_mem_nil, or_false] at htarget
  rcases htarget with rfl | rfl
  · have hcolour : c = 0 ∨ c = 1 ∨ c = 2 := by
      change c < 3 at hc
      omega
    rcases hcolour with rfl | rfl | rfl <;> exact hholds _
  · have hcolour : c = 0 ∨ c = 1 ∨ c = 2 ∨ c = 3 := by
      change c < 4 at hc
      omega
    rcases hcolour with rfl | rfl | rfl | rfl
    · exact hholds 0
    · exact hholds 1
    · exact hholds 2
    · rfl

end ImageBuffer

/-! ### Graphs -/

namespace Graph

open Kernel (channelExtract channelCombine)

/-- The parameters of the combination for planes that are numbered from an object on. -/
def planeSlots (count first : Nat) : List (Option ObjectId) :=
  (List.range 4).map fun c => if c < count then some ⟨first + c⟩ else none

theorem getElem?_planeSlots {count first c : Nat} {output : ObjectId} (hc : c < 4) :
    (planeSlots count first ++ [some output])[c]? = some (if c < count then some ⟨first + c⟩ else none) := by
  rw [List.getElem?_append_left (by simpa [planeSlots] using hc), planeSlots, List.getElem?_map, List.getElem?_range hc,
    Option.map_some]

/-- The combination writes nothing but its output. -/
theorem writes_planeSlots (id count first : Nat) (output : ObjectId) :
    (channelCombine.node id (planeSlots count first ++ [some output])).access.writes = [output] := rfl

/-- When a run is over, the combination of planes that are numbered from an object on holds them. -/
theorem held_planeSlots {p : Plan} {s : Storage} {b : Bindings} {last : Memory} (h : p.Ended s b last)
    {id count first : Nat} {output : ObjectId}
    (hstep : p.Has channelCombine (step (channelCombine.node id (planeSlots count first ++ [some output]))))
    {width height : UInt32} {format : Format} {planes : List ImageBuffer} (hcount : planes.length = count)
    (hfour : count ≤ 4) (hout : ∀ c < count, ⟨first + c⟩ ≠ output)
    (hplanes : ∀ (c : Nat) plane, planes[c]? = some plane →
      plane.info = .known width height .u8 ∧ p.held last ⟨first + c⟩ = some (.image plane))
    (hinfo : p.info? output = some (.image (.known width height format))) :
    p.held last output = some (.image (.combined width height format planes)) := by
  refine h.combined hstep rfl (fun c plane hplane => ?_) (fun c hle hlt => ?_) hinfo
  · obtain ⟨hshape, hheld⟩ := hplanes c plane hplane
    have hc : c < count := hcount ▸ (List.getElem?_eq_some_iff.mp hplane).1
    have hslot : (planeSlots count first ++ [some output])[c]? = some (some ⟨first + c⟩) := by
      rw [getElem?_planeSlots (by omega), if_pos hc]
    exact ⟨hshape, _, hslot, hout c hc, hheld⟩
  · -- past the planes no object is bound
    have hchannels : format.channels ≤ 4 := by cases format <;> decide
    show (planeSlots count first ++ [some output])[c]? = some none
    rw [getElem?_planeSlots (by omega), if_neg (by omega)]

theorem writes_channelExtract (id : Nat) (input number output : ObjectId) :
    (channelExtract.node id [some input, some number, some output]).access.writes = [output] := rfl

/-- An image is taken apart by one node for each number, and the planes are put together. -/
def parting (width height : UInt32) (format : Format) (numbers : List UInt32) : Graph :=
  Graph.empty.edit ([.image width height format, .image width height format] ++
    numbers.map (fun number => .constant (.enum number)) ++
    numbers.map (fun _ => .virtualImage ⟨none, none, none⟩) ++
    (List.range numbers.length).map (fun i =>
      .node "vx.channel_extract" [some ⟨0⟩, some ⟨2 + i⟩, some ⟨2 + numbers.length + i⟩]) ++
    [.node "vx.channel_combine" (planeSlots numbers.length (2 + numbers.length) ++ [some ⟨1⟩])])

section Parting

variable {width height : UInt32} {format : Format} {numbers : List UInt32}

/-- The nodes that take the first planes out. -/
def extractions (count done : Nat) : List Checked :=
  (List.range done).map fun i => channelExtract.node i [some ⟨0⟩, some ⟨2 + i⟩, some ⟨2 + count + i⟩]

def partingNodes (count : Nat) : List Checked :=
  extractions count count ++ [channelCombine.node count (planeSlots count (2 + count) ++ [some ⟨1⟩])]

def partingRoles (count : Nat) : List Role :=
  [⟨.image, false, false⟩, ⟨.image, false, false⟩] ++ List.replicate count ⟨.scalar, true, true⟩ ++
    List.replicate count ⟨.image, false, true⟩

def partingObjects (width height : UInt32) (format : Format) (numbers : List UInt32) : List DataObject :=
  [⟨⟨0⟩, .image (.known width height format), false, false, none⟩,
    ⟨⟨1⟩, .image (.known width height format), false, false, none⟩] ++
    numbers.mapIdx (fun i number => ⟨⟨2 + i⟩, .scalar (.constant (.enum number)), true, false, none⟩) ++
    (List.range numbers.length).map fun i => ⟨⟨2 + numbers.length + i⟩, .image ⟨none, none, none⟩, true, false, none⟩

/-- What is known when the first planes are settled. -/
def partingInfos (width height : UInt32) (format : Format) (numbers : List UInt32) (done : Nat) : List Meta :=
  [.image (.known width height format), .image (.known width height format)] ++
    numbers.map (fun number => .scalar (.constant (.enum number))) ++
    (List.range numbers.length).map fun i => .image (if i < done then .known width height .u8 else ⟨none, none, none⟩)

theorem index_of_numbers (hnumbers : numbers.map channelIndex? = (List.range format.channels).map some) {c : Nat}
    (hc : c < format.channels) : ∃ v, numbers[c]? = some v ∧ channelIndex? v = some c := by
  have hat := congrArg (·[c]?) hnumbers
  rw [List.getElem?_map, List.getElem?_map, List.getElem?_range hc] at hat
  exact Option.map_eq_some_iff.mp hat

theorem mem_partingNodes {count : Nat} {c : Checked} : c ∈ partingNodes count ↔
    (∃ i < count, c = channelExtract.node i [some ⟨0⟩, some ⟨2 + i⟩, some ⟨2 + count + i⟩]) ∨
      c = channelCombine.node count (planeSlots count (2 + count) ++ [some ⟨1⟩]) := by
  simp [partingNodes, extractions, eq_comm]

section

variable (hformat : format ∈ [.rgb, .rgbx]) (hlength : numbers.length = format.channels)

include hformat hlength

/-- Only three numbers for three channels and four for four have to be looked at. -/
@[elab_as_elim]
theorem elim_parting {P : Format → List UInt32 → Prop} (hthree : ∀ red green blue, P .rgb [red, green, blue])
    (hfour : ∀ red green blue fourth, P .rgbx [red, green, blue, fourth]) : P format numbers := by
  have hformat : format = .rgb ∨ format = .rgbx := by simpa using hformat
  rcases hformat with rfl | rfl
  · obtain ⟨red, green, blue, rfl⟩ := List.length_eq_three.mp hlength
    exact hthree red green blue
  · obtain ⟨red, rest, rfl⟩ := List.exists_cons_of_length_eq_add_one hlength
    obtain ⟨green, blue, fourth, rfl⟩ := List.length_eq_three.mp (Nat.succ.inj hlength)
    exact hfour red green blue fourth

theorem objects_parting :
    (parting width height format numbers).objects.toList = partingObjects width height format numbers :=
  elim_parting hformat hlength (fun _ _ _ => rfl) fun _ _ _ _ => rfl

theorem infos_parting :
    (parting width height format numbers).objects.toList.map (·.info) =
      partingInfos width height format numbers 0 := by
  rw [objects_parting hformat hlength]
  exact elim_parting hformat hlength (fun _ _ _ => rfl) fun _ _ _ _ => rfl

theorem seen_parting : (parting width height format numbers).seen = [⟨0⟩, ⟨1⟩] := by
  rw [seen, objects_parting hformat hlength]
  exact elim_parting hformat hlength (fun _ _ _ => rfl) fun _ _ _ _ => rfl

theorem object?_parting {o : ObjectId} (ho : o = ⟨0⟩ ∨ o = ⟨1⟩) :
    (parting width height format numbers).object? o =
      some ⟨o, .image (.known width height format), false, false, none⟩ := by
  rw [object?, ← Array.getElem?_toList, objects_parting hformat hlength]
  rcases ho with rfl | rfl <;> rfl

theorem scheduled_parting :
    Scheduled .standard (parting width height format numbers) (partingNodes format.channels) := by
  have hnodes : (parting width height format numbers).nodes = (partingNodes format.channels).map (·.node) :=
    elim_parting hformat hlength (fun _ _ _ => rfl) fun _ _ _ _ => rfl
  have hroles : (parting width height format numbers).roles = partingRoles format.channels := by
    rw [roles, objects_parting hformat hlength]
    exact elim_parting hformat hlength (fun _ _ _ => rfl) fun _ _ _ _ => rfl
  have harranged : ∀ format ∈ [Format.rgb, .rgbx], Role.arranged (partingRoles format.channels)
      (partingNodes format.channels) = true ∧ (partingNodes format.channels).Pairwise After := by decide +kernel
  obtain ⟨hall, hafter⟩ := harranged format hformat
  refine scheduled_of_arranged hnodes hroles (fun c hc => ?_) hall hafter
  rcases mem_partingNodes.mp hc with ⟨i, _, rfl⟩ | rfl <;> rfl

end

theorem getElem?_number {done i : Nat} {v : UInt32} (hv : numbers[i]? = some v) :
    (partingInfos width height format numbers done).toArray[2 + i]? = some (.scalar (.constant (.enum v))) := by
  have hlt := (List.getElem?_eq_some_iff.mp hv).1
  rw [List.getElem?_toArray, partingInfos, List.getElem?_append_left (by simp; omega),
    List.getElem?_append_right (by simp)]
  simp [hv]

theorem getElem?_plane {done i : Nat} (hi : i < numbers.length) :
    (partingInfos width height format numbers done).toArray[2 + numbers.length + i]? =
      some (.image (if i < done then .known width height .u8 else ⟨none, none, none⟩)) := by
  rw [List.getElem?_toArray, partingInfos, List.getElem?_append_right (by simp; omega)]
  simp [hi, Nat.add_comm 2 numbers.length]

/-- In the end all planes are settled. -/
theorem getElem?_settled (hlength : numbers.length = format.channels) {c : Nat} (hc : c < format.channels) :
    (partingInfos width height format numbers format.channels).toArray[2 + format.channels + c]? =
      some (.image (.known width height .u8)) := by
  have hat := @getElem?_plane width height format numbers format.channels c (hlength ▸ hc)
  rwa [if_pos hc, hlength] at hat

/-- One more plane is settled. -/
theorem partingInfos_succ {done : Nat} (hdone : done < numbers.length) :
    (partingInfos width height format numbers done).toArray.setIfInBounds (2 + numbers.length + done)
      (.image (.known width height .u8)) = (partingInfos width height format numbers (done + 1)).toArray := by
  let before : List Meta := [.image (.known width height format), .image (.known width height format)] ++
    numbers.map (fun number => .scalar (.constant (.enum number)))
  have hbefore : before.length = 2 + numbers.length := by
    simp only [before, List.length_append, List.length_map, List.length_cons, List.length_nil]
  rw [List.setIfInBounds_toArray, partingInfos, partingInfos, List.set_append_right _ _ (by rw [hbefore]; omega),
    show 2 + numbers.length + done - before.length = done by omega]
  congr 2
  -- of the planes only the new one is told differently
  refine List.ext_getElem? fun i => ?_
  simp only [List.getElem?_set, List.getElem?_map, List.length_map, List.length_range, hdone, if_true]
  by_cases hi : done = i
  · subst hi
    simp [hdone]
  · rw [if_neg hi]
    refine Option.map_congr fun j hj => ?_
    have hj : j = i := by simpa using (List.getElem?_eq_some_iff.mp hj).2.symm
    have hsame : j < done ↔ j < done + 1 := by omega
    simp only [hsame]

/-- The nodes that take the image apart settle all planes. -/
theorem infer_partingNodes {g : Graph} (hformat : format ∈ [.rgb, .rgbx])
    (hnumbers : numbers.map channelIndex? = (List.range format.channels).map some)
    (hobjects : ∀ i < numbers.length, ∃ object, g.object? ⟨2 + numbers.length + i⟩ = some object) {done : Nat}
    (hdone : done ≤ numbers.length) :
    (extractions numbers.length done).foldlM g.infer (partingInfos width height format numbers 0).toArray =
      .ok (partingInfos width height format numbers done).toArray := by
  induction done with
  | zero => rfl
  | succ done ih =>
    obtain ⟨object, hobject⟩ := hobjects done hdone
    have hlength : numbers.length = format.channels := by simpa using congrArg List.length hnumbers
    obtain ⟨v, hv, hindex⟩ := index_of_numbers hnumbers (hlength ▸ hdone)
    have hplane : (Meta.image (.known width height .u8)).Extends (.image ⟨none, none, none⟩) :=
      ⟨.none _, .none _, .none _⟩
    have hout := @getElem?_plane width height format numbers done done hdone
    rw [if_neg (Nat.lt_irrefl done)] at hout
    -- the node after the first ones settles the plane after theirs
    rw [extractions, List.range_succ, List.map_append]
    refine foldlM_append_eq_ok.mpr ⟨_, ih (Nat.le_of_lt hdone), foldlM_cons_eq_ok.mpr ⟨_, ?_, rfl⟩⟩
    rw [← partingInfos_succ hdone]
    exact infer_channelExtract rfl (getElem?_number hv) hout hobject hformat hindex
      (hlength ▸ hdone) hplane rfl

/-- When all planes are settled, putting them together settles nothing more. -/
theorem infer_planeSlots {g : Graph} {object : DataObject} (hformat : format ∈ [.rgb, .rgbx])
    (hlength : numbers.length = format.channels) (hobject : g.object? ⟨1⟩ = some object) :
    g.infer (partingInfos width height format numbers format.channels).toArray
      (channelCombine.node format.channels (planeSlots format.channels (2 + format.channels) ++ [some ⟨1⟩])) =
        .ok (partingInfos width height format numbers format.channels).toArray := by
  have hplane (c : Nat) (hc : c < format.channels) := @getElem?_settled width height _ _ hlength c hc
  have hformat : format = .rgb ∨ format = .rgbx := by simpa using hformat
  rcases hformat with rfl | rfl
  · refine infer_channelCombine (hplane 0 (by decide)) (hplane 1 (by decide)) (hplane 2 (by decide)) ?_ rfl hobject
      (by decide) (.refl _) rfl
    intro o ho
    cases ho
  · refine infer_channelCombine (hplane 0 (by decide)) (hplane 1 (by decide)) (hplane 2 (by decide)) ?_ rfl hobject
      (by decide) (.refl _) rfl
    intro o ho
    cases ho
    exact hplane 3 (by decide)

theorem exists_accepted_parting (hformat : format ∈ [.rgb, .rgbx])
    (hnumbers : numbers.map channelIndex? = (List.range format.channels).map some) :
    ∃ p, Accepted (parting width height format numbers) (partingNodes format.channels)
      (partingInfos width height format numbers format.channels).toArray p := by
  have hlength : numbers.length = format.channels := by simpa using congrArg List.length hnumbers
  have hinfos := @infos_parting width height format numbers hformat hlength
  have hobjects (i : Nat) (hi : i < 2 + 2 * numbers.length) :
      ∃ object, (parting width height format numbers).object? ⟨i⟩ = some object := by
    have hsize := congrArg List.length hinfos
    simp only [partingInfos, List.length_map, Array.length_toList, List.length_append, List.length_cons,
      List.length_nil, List.length_range] at hsize
    have hlt : i < (parting width height format numbers).objects.size := by omega
    exact ⟨_, Array.getElem?_eq_getElem hlt⟩
  have hresolved (m : Meta) (hm : m ∈ (partingInfos width height format numbers format.channels).toArray) :
      m.isResolved = true := by
    simp only [partingInfos, List.mem_toArray, List.mem_append, List.mem_cons, List.not_mem_nil, or_false, List.mem_map,
      List.mem_range] at hm
    rcases hm with ((rfl | rfl) | ⟨_, _, rfl⟩) | ⟨i, hi, rfl⟩
    · rfl
    · rfl
    · rfl
    · rw [if_pos (hlength ▸ hi)]
      rfl
  have hextractions := @infer_partingNodes width height format numbers _ hformat hnumbers
    (fun i hi => hobjects _ (by omega)) _ (Nat.le_refl _)
  obtain ⟨object, hobject⟩ := hobjects 1 (by omega)
  rw [hlength] at hextractions
  exact exists_accepted _ ⟨_, rfl⟩ (scheduled_parting hformat hlength) hinfos (foldlM_append_eq_ok.mpr ⟨_, hextractions,
    foldlM_cons_eq_ok.mpr ⟨_, infer_planeSlots hformat hlength hobject, rfl⟩⟩) hresolved

/-- When a run is over, each plane holds its channel. -/
theorem held_part {p : Plan} {s : Storage} {b : Bindings} {last : Memory} {src : ImageBuffer}
    (hp : Accepted (parting src.width src.height src.format numbers) (partingNodes src.format.channels)
      (partingInfos src.width src.height src.format numbers src.format.channels).toArray p) (hended : p.Ended s b last)
    (hnumbers : numbers.map channelIndex? = (List.range src.format.channels).map some)
    (hsrc : p.held last ⟨0⟩ = some (.image src)) {c : Nat} (hc : c < src.format.channels) :
    p.held last ⟨2 + src.format.channels + c⟩ = some (.image (src.plane c)) := by
  have hlength : numbers.length = src.format.channels := by simpa using congrArg List.length hnumbers
  obtain ⟨v, hv, hindex⟩ := index_of_numbers hnumbers hc
  refine hended.extracted (hp.has _ (mem_partingNodes.mpr (.inl ⟨c, hc, rfl⟩))) rfl ?_
    (hp.info _ _ (getElem?_number hv)) hindex hsrc hc (hp.info _ _ (getElem?_settled hlength hc))
  rw [ne_eq, ObjectId.mk.injEq]
  omega

/-- An image that is taken apart and put together is the same again. -/
theorem yields_parting {src : ImageBuffer} (hformat : src.format ∈ [.rgb, .rgbx])
    (hnumbers : numbers.map channelIndex? = (List.range src.format.channels).map some) :
    (parting src.width src.height src.format numbers).Yields [(⟨0⟩, src)] ⟨1⟩ src := by
  have hlength : numbers.length = src.format.channels := by simpa using congrArg List.length hnumbers
  obtain ⟨p, hp⟩ := @exists_accepted_parting src.width src.height src.format numbers hformat hnumbers
  refine hp.yields (fun c hc => ?_) (fun o ho => ?_) (fun x hx => ?_) (object?_parting hformat hlength (.inr rfl)) ?_
  · rcases mem_partingNodes.mp hc with ⟨i, _, rfl⟩ | rfl
    · show channelExtract.name ∉ _
      decide
    · show channelCombine.name ∉ _
      decide
  · rw [seen_parting hformat hlength] at ho
    revert o
    show ∀ o : ObjectId, o ∈ [⟨0⟩, ⟨1⟩] → o ∈ [⟨1⟩, ⟨0⟩]
    decide
  · rw [List.mem_singleton.mp hx]
    refine ⟨object?_parting hformat hlength (.inl rfl), fun c hc => ?_⟩
    rcases mem_partingNodes.mp hc with ⟨i, _, rfl⟩ | rfl
    · rw [writes_channelExtract, List.mem_singleton, ObjectId.mk.injEq]
      omega
    · rw [writes_planeSlots]
      show (⟨0⟩ : ObjectId) ∉ [⟨1⟩]
      decide
  · intro s b last hended hheld
    have hsrc : p.held last ⟨0⟩ = some (.image src) := hheld (⟨0⟩, src) (List.mem_singleton_self _)
    have hplanes (c : Nat) (plane : ImageBuffer)
        (hat : ((List.range src.format.channels).map src.plane)[c]? = some plane) :
        plane.info = .known src.width src.height .u8 ∧
          p.held last ⟨2 + src.format.channels + c⟩ = some (.image plane) := by
      have hc : c < src.format.channels := by simpa using (List.getElem?_eq_some_iff.mp hat).1
      rw [List.getElem?_map, List.getElem?_range hc, Option.map_some] at hat
      cases hat
      exact ⟨rfl, held_part hp hended hnumbers hsrc hc⟩
    have hfour : src.format.channels ≤ 4 := by cases src.format <;> decide
    have hcombined := held_planeSlots hended (hp.has _ (mem_partingNodes.mpr (.inr rfl))) (by simp) hfour
      (fun c _ => ?_) hplanes (hp.info ⟨1⟩ _ rfl)
    · rwa [ImageBuffer.combined_planes (Format.element_of_colour hformat)] at hcombined
    · rw [ne_eq, ObjectId.mk.injEq]
      omega

end Parting

end Graph

end VisionGraph
