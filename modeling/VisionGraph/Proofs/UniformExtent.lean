import VisionGraph.Proofs.KernelSafety
import VisionGraph.Proofs.Optimization
import VisionGraph.Proofs.Generation
import VisionGraph.Proofs.Sample

/-! The images of a pixel-wise stage. The rules of the pixel-wise kernels accept images of one channel and one extent
only, and a joint connects stages through an image that both of them name. So all images of a pixel-wise stage have as
many samples as its loop has rounds, however many stages were joined in it. -/
namespace VisionGraph

/-- An image with one sample for each pixel of an extent. -/
def ImageMeta.Covers (m : ImageMeta) (e : Extent) : Prop :=
  ∃ f : Format, m = .known e.width e.height f ∧ f.channels = 1

theorem ImageMeta.Covers.unique {m : ImageMeta} {d e : Extent} (hd : m.Covers d) (he : m.Covers e) : d = e := by
  obtain ⟨f, rfl, _⟩ := hd
  obtain ⟨g, hg, _⟩ := he
  obtain ⟨w, h⟩ := d
  obtain ⟨v, k⟩ := e
  simp only [known, mk.injEq, Option.some.injEq] at hg
  rw [hg.1, hg.2.1]

namespace Rule

variable {known : Known} {slot : Nat} {e : Extent} {allowed : List Format}

/-- A parameter is known as an image that covers an extent. -/
def Spans (known : Known) (e : Extent) (slot : Nat) : Prop :=
  ∃ m, slotMeta known slot = some (.image m) ∧ m.Covers e

theorem spans_of_shape {s : ImageShape} (hs : slotMeta known slot = some (.image (shapeMeta s)))
    (hone : s.format.channels = 1) : Spans known s.extent slot :=
  ⟨_, hs, s.format, rfl, hone⟩

theorem spans_of_input {s : ImageShape} {f : Format} (hs : inputImage known slot = .ok s)
    (hf : requireFormat slot s allowed = .ok f) (hall : ∀ f ∈ allowed, f.channels = 1) :
    Spans known s.extent slot :=
  spans_of_shape (inputImage_eq_ok.mp hs) (hall _ (requireFormat_eq_ok.mp hf).1)

theorem spans_of_imagePair {first second : ImageShape} (h : imagePair known allowed = .ok (first, second))
    (hall : ∀ f ∈ allowed, f.channels = 1) : Spans known first.extent 0 ∧ Spans known first.extent 1 := by
  obtain ⟨h0, hf0, h1, hf1, he⟩ := imagePair_eq_ok.mp h
  refine ⟨spans_of_shape h0 (hall _ hf0), ?_⟩
  rw [he]
  exact spans_of_shape h1 (hall _ hf1)

/-- The usual last part of a rule settles an output that covers what the input does. -/
theorem spans_of_output {like : ImageShape} {default : Format} {inferences : List Inference}
    (h : (do
      let out ← image known slot
      let format ← chooseFormat slot out.format default allowed
      return [inferImage slot like format] : Except Rejection (List Inference)) = .ok inferences)
    (hset : Settled known inferences) (hall : ∀ f ∈ allowed, f.channels = 1) : Spans known like.extent slot := by
  obtain ⟨out, _, h⟩ := bind_eq_ok.mp h
  obtain ⟨format, hformat, h⟩ := bind_eq_ok.mp h
  cases h
  have hone : format.channels = 1 := hall format (chooseFormat_eq_ok.mp hformat).1
  exact spans_of_shape (s := ⟨like.width, like.height, format⟩) (hset.image (List.mem_singleton.mpr rfl)) hone

end Rule

namespace Kernel

open Rule

/-- The parameters of a kernel that are images. -/
def imageSlots (k : Kernel) : List Nat := (k.signature.params.zipIdx.filter (·.1.kind == .image)).map (·.2)

theorem mem_imageSlots {k : Kernel} {slot : Nat} {spec : Param} (hs : k.signature.params[slot]? = some spec)
    (hkind : spec.kind = .image) : slot ∈ k.imageSlots := by
  refine List.mem_map.mpr ⟨(spec, slot), List.mem_filter.mpr ⟨List.mem_zipIdx_iff_getElem?.mpr hs, ?_⟩, rfl⟩
  simp [hkind]

/-- A kernel whose rule accepts images of one channel and one extent only. -/
def Uniform (k : Kernel) : Prop :=
  ∀ known inferences, k.rule known = .ok inferences → Settled known inferences →
    ∃ e, ∀ slot ∈ k.imageSlots, Spans known e slot

theorem channels_arithmeticFormats (first second : ImageShape) :
    ∀ f ∈ (arithmeticFormats first second).2, f.channels = 1 := by
  unfold arithmeticFormats
  split <;> decide

theorem uniform_additive (name : String) (number : UInt32) (sign : String) (combine : Int → Int → Int) :
    (additive name number sign combine).Uniform := by
  intro known inferences hrule hset
  obtain ⟨⟨first, second⟩, hpair, hrule⟩ := bind_eq_ok.mp hrule
  obtain ⟨_, _, hrule⟩ := bind_eq_ok.mp hrule
  obtain ⟨h0, h1⟩ := spans_of_imagePair hpair (by decide)
  have h3 := spans_of_output hrule hset (channels_arithmeticFormats first second)
  have hslots : (additive name number sign combine).imageSlots = [0, 1, 3] := rfl
  exact ⟨first.extent, by simp [hslots, h0, h1, h3]⟩

theorem uniform_multiply : multiply.Uniform := by
  intro known inferences hrule hset
  obtain ⟨⟨first, second⟩, hpair, hrule⟩ := bind_eq_ok.mp hrule
  obtain ⟨_, _, hrule⟩ := bind_eq_ok.mp hrule
  obtain ⟨_, _, hrule⟩ := bind_eq_ok.mp hrule
  obtain ⟨h0, h1⟩ := spans_of_imagePair hpair (by decide)
  have h4 := spans_of_output hrule hset (channels_arithmeticFormats first second)
  have hslots : multiply.imageSlots = [0, 1, 4] := rfl
  exact ⟨first.extent, by simp [hslots, h0, h1, h4]⟩

theorem uniform_absdiff : absdiff.Uniform := by
  intro known inferences hrule hset
  obtain ⟨⟨first, second⟩, hpair, hrule⟩ := bind_eq_ok.mp hrule
  obtain ⟨_, hrule⟩ := unless_refused_eq_ok.mp hrule
  obtain ⟨h0, h1⟩ := spans_of_imagePair hpair (by decide)
  have hmem : first.format ∈ [Format.u8, .s16] := (imagePair_eq_ok.mp hpair).2.1
  have hone : first.format.channels = 1 := (by decide : ∀ f ∈ [Format.u8, .s16], f.channels = 1) _ hmem
  have h2 := spans_of_output hrule hset (by simpa using hone)
  have hslots : absdiff.imageSlots = [0, 1, 2] := rfl
  exact ⟨first.extent, by simp [hslots, h0, h1, h2]⟩

theorem uniform_bitwise (name : String) (number : UInt32) (sign : String) (combine : Nat → Nat → Nat) :
    (bitwise name number sign combine).Uniform := by
  intro known inferences hrule hset
  obtain ⟨⟨first, second⟩, hpair, hrule⟩ := bind_eq_ok.mp hrule
  obtain ⟨h0, h1⟩ := spans_of_imagePair hpair (by decide)
  have h2 := spans_of_output hrule hset (by decide)
  have hslots : (bitwise name number sign combine).imageSlots = [0, 1, 2] := rfl
  exact ⟨first.extent, by simp [hslots, h0, h1, h2]⟩

theorem uniform_of_gradientRule {k : Kernel} {format : Format} (hrule : k.rule = gradientRule format)
    (hslots : k.imageSlots = [0, 1, 2]) (hone : format.channels = 1) : k.Uniform := by
  intro known inferences hok hset
  rw [hrule] at hok
  obtain ⟨⟨first, second⟩, hpair, hok⟩ := bind_eq_ok.mp hok
  obtain ⟨h0, h1⟩ := spans_of_imagePair hpair (by decide)
  have h2 := spans_of_output hok hset (by simpa using hone)
  exact ⟨first.extent, by simp [hslots, h0, h1, h2]⟩

theorem uniform_not : Kernel.not.Uniform := by
  intro known inferences hrule hset
  obtain ⟨input, hinput, hrule⟩ := bind_eq_ok.mp hrule
  obtain ⟨_, hformat, hrule⟩ := bind_eq_ok.mp hrule
  have h0 := spans_of_input hinput hformat (by decide)
  have h1 := spans_of_output hrule hset (by decide)
  have hslots : Kernel.not.imageSlots = [0, 1] := rfl
  exact ⟨input.extent, by simp [hslots, h0, h1]⟩

theorem uniform_threshold : threshold.Uniform := by
  intro known inferences hrule hset
  obtain ⟨input, hinput, hrule⟩ := bind_eq_ok.mp hrule
  obtain ⟨_, hformat, hrule⟩ := bind_eq_ok.mp hrule
  obtain ⟨_, _, hrule⟩ := bind_eq_ok.mp hrule
  have h0 := spans_of_input hinput hformat (by decide)
  have h2 := spans_of_output hrule hset (by decide)
  have hslots : threshold.imageSlots = [0, 2] := rfl
  exact ⟨input.extent, by simp [hslots, h0, h2]⟩

theorem uniform_multiplyScalar : multiplyScalar.Uniform := by
  intro known inferences hrule hset
  obtain ⟨input, hinput, hrule⟩ := bind_eq_ok.mp hrule
  obtain ⟨_, hformat, hrule⟩ := bind_eq_ok.mp hrule
  obtain ⟨_, _, hrule⟩ := bind_eq_ok.mp hrule
  have h0 := spans_of_input hinput hformat (by decide)
  have h2 := spans_of_output hrule hset (by decide)
  have hslots : multiplyScalar.imageSlots = [0, 2] := rfl
  exact ⟨input.extent, by simp [hslots, h0, h2]⟩

theorem uniform_clamp : Kernel.clamp.Uniform := by
  intro known inferences hrule hset
  obtain ⟨input, hinput, hrule⟩ := bind_eq_ok.mp hrule
  obtain ⟨_, hformat, hrule⟩ := bind_eq_ok.mp hrule
  obtain ⟨_, _, hrule⟩ := bind_eq_ok.mp hrule
  obtain ⟨_, _, hrule⟩ := bind_eq_ok.mp hrule
  have hmem : input.format ∈ singleChannel := (requireFormat_eq_ok.mp hformat).1
  have hone : input.format.channels = 1 := (by decide : ∀ f ∈ singleChannel, f.channels = 1) _ hmem
  have h0 := spans_of_input hinput hformat (by decide)
  have h3 := spans_of_output hrule hset (by simpa using hone)
  have hslots : Kernel.clamp.imageSlots = [0, 3] := rfl
  exact ⟨input.extent, by simp [hslots, h0, h3]⟩

theorem channels_depthFormats {f default : Format} {allowed : List Format}
    (h : depthFormats? f = some (default, allowed)) : f.channels = 1 ∧ ∀ g ∈ allowed, g.channels = 1 := by
  cases f <;> simp only [depthFormats?, Option.some.injEq, Prod.mk.injEq, reduceCtorEq] at h <;>
    obtain ⟨_, rfl⟩ := h <;> decide

theorem uniform_convertDepth : convertDepth.Uniform := by
  intro known inferences hrule hset
  obtain ⟨input, hinput, hrule⟩ := bind_eq_ok.mp hrule
  dsimp only at hrule
  split at hrule
  case h_2 => contradiction
  rename_i formats hformats
  obtain ⟨⟨default, allowed⟩, hsame, hrule⟩ := bind_eq_ok.mp hrule
  obtain ⟨hone, hall⟩ := channels_depthFormats (hformats.trans (congrArg some (Except.ok.inj hsame)))
  obtain ⟨_, _, hrule⟩ := bind_eq_ok.mp hrule
  obtain ⟨shift, _, hrule⟩ := bind_eq_ok.mp hrule
  have h0 := spans_of_shape (inputImage_eq_ok.mp hinput) hone
  -- a constant shift is checked first, and then the rule goes on as for any other
  have h1 : Spans known input.extent 1 := by
    dsimp only at hrule
    split at hrule
    · exact spans_of_output (unless_refused_eq_ok.mp hrule).2 hset hall
    · exact spans_of_output hrule hset hall
  have hslots : convertDepth.imageSlots = [0, 1] := rfl
  exact ⟨input.extent, by simp [hslots, h0, h1]⟩

end Kernel

theorem Registry.uniform_of_mem_standard {k : Kernel} (hk : k ∈ Registry.standard.kernels)
    (hpixel : k.isPixelwise = true) : k.Uniform := by
  have hmem : k ∈ Registry.standard.kernels.filter (·.isPixelwise) := List.mem_filter.mpr ⟨hk, hpixel⟩
  simp only [Registry.pixelwise_standard, List.mem_cons, List.not_mem_nil, or_false] at hmem
  repeat' rcases hmem with rfl | hmem
  · exact Kernel.uniform_additive _ _ _ _
  · exact Kernel.uniform_additive _ _ _ _
  · exact Kernel.uniform_multiply
  · exact Kernel.uniform_absdiff
  · exact Kernel.uniform_bitwise _ _ _ _
  · exact Kernel.uniform_bitwise _ _ _ _
  · exact Kernel.uniform_bitwise _ _ _ _
  · exact Kernel.uniform_not
  · exact Kernel.uniform_threshold
  · exact Kernel.uniform_of_gradientRule rfl rfl rfl
  · exact Kernel.uniform_of_gradientRule rfl rfl rfl
  · exact Kernel.uniform_convertDepth
  · exact Kernel.uniform_multiplyScalar
  · exact Kernel.uniform_clamp

/-! ### Steps, stages and plans -/

/-- What a plan knows of the parameters of a step. -/
def Plan.known (p : Plan) (s : Step) : Known := s.params.map fun param => param.bind p.info?

theorem Plan.slotMeta_known {p : Plan} {s : Step} {slot : Nat} {m : Meta} :
    Rule.slotMeta (p.known s) slot = some m ↔ ∃ o, s.params[slot]? = some (some o) ∧ p.info? o = some m := by
  unfold Rule.slotMeta Plan.known
  rw [List.getElem?_map]
  cases s.params[slot]? with
  | none => simp
  | some param => cases param <;> simp

namespace Step.Valid

variable {p : Plan} {s : Step} {k : Kernel}

theorem name_eq (h : s.Valid p k) : s.kernel = k.name := by
  have hfound := List.find?_some h.kernel
  exact (beq_iff_eq.mp hfound).symm

/-- The rule of a kernel accepts what the plan knows of its parameters, and infers nothing that the plan does not know. -/
theorem accepted (h : s.Valid p k) :
    ∃ inferences, k.rule (p.known s) = .ok inferences ∧ Rule.Settled (p.known s) inferences := by
  obtain ⟨inferences, hrule, hall⟩ := h.settled
  refine ⟨inferences, hrule, fun i hi => ?_⟩
  obtain ⟨o, m, hslot, hm, hmerge⟩ := hall i hi
  have hv : i.info.value? = none := ((Registry.regular_of_mem_standard h.mem_standard).names hrule i hi).1
  have hext := (Meta.merge_ok hv (by rw [hmerge])).2.1
  rw [hmerge] at hext
  exact ⟨m, Plan.slotMeta_known.mpr ⟨o, hslot, hm⟩, hext⟩

theorem exists_extent (h : s.Valid p k) (hpixel : k.isPixelwise = true) :
    ∃ e, ∀ o ∈ s.bound, ∀ m, p.info? o = some (.image m) → m.Covers e := by
  obtain ⟨inferences, hrule, hset⟩ := h.accepted
  obtain ⟨e, he⟩ := Registry.uniform_of_mem_standard h.mem_standard hpixel _ _ hrule hset
  refine ⟨e, fun o ho m hm => ?_⟩
  obtain ⟨slot, hslot⟩ := Step.mem_bound.mp ho
  obtain ⟨spec, hspec, _, r, hr, hkind, _⟩ := h.exists_spec hslot
  have hinfo : r.info = .image m := Plan.info_eq hr hm
  have himage : spec.kind = .image := by rw [← hkind, hinfo]; rfl
  obtain ⟨m', hm', hcovers⟩ := he slot (Kernel.mem_imageSlots hspec himage)
  have hsame : m' = m := by
    rw [Plan.slotMeta_known.mpr ⟨o, hslot, hm⟩] at hm'
    exact (Meta.image.inj (Option.some.inj hm')).symm
  exact hsame ▸ hcovers

end Step.Valid

/-- Every image of a stage covers one extent. -/
def Stage.Covers (p : Plan) (stage : Stage) (e : Extent) : Prop :=
  ∀ o ∈ stage.referenced, ∀ m, p.info? o = some (.image m) → m.Covers e

namespace Plan

/-- Every pixel-wise stage keeps to one extent. -/
def Uniform (p : Plan) : Prop := ∀ stage ∈ p.stages, stage.pixelwise = true → ∃ e, stage.Covers p e

variable {p q : Plan}

theorem Uniform.prune (hp : p.Sound) (h : p.Uniform) : p.prune.1.Uniform := by
  intro stage hstage hpixel
  obtain ⟨e, he⟩ := h stage (stages_prune_sublist.mem hstage) hpixel
  refine ⟨e, fun o ho m hm => he o ho m ?_⟩
  exact (congrArg (Option.map _) (hp.object?_of_referenced hstage ho)).symm.trans hm

/-- The image between two stages is an image of both, so they keep to the same extent. -/
theorem Fusable.covers_join {front between back : List Stage} {producer consumer : Stage} {t : ObjectId} (hp : p.Sound)
    (hf : p.Fusable front between back producer consumer t) (h : p.Uniform) :
    ∃ e, (join producer consumer t).Covers p e := by
  obtain ⟨hproducer, hconsumer, _⟩ := hf.mem
  obtain ⟨d, hd⟩ := h producer hproducer hf.pixelwise.1
  obtain ⟨e, he⟩ := h consumer hconsumer hf.pixelwise.2
  obtain ⟨hwritten, _, hnamed, _⟩ := hf.written
  have hsame : d = e := by
    obtain ⟨r, hr, hsound, _⟩ := hp.exists_object hconsumer hnamed
    obtain ⟨m, hm⟩ := info_eq_image_of_private hsound hr hf.hidden
    have hinfo : p.info? t = some (.image m) := hm ▸ info?_of_object? hr
    exact (hd t (Stage.referenced_of_writes hwritten) m hinfo).unique (he t hnamed m hinfo)
  refine ⟨e, fun o ho => ?_⟩
  rcases Fusable.referenced_join.mp ho with ho | ho
  · exact hsame ▸ hd o ho
  · exact he o ho

theorem Fusable.uniform {front between back : List Stage} {producer consumer : Stage} {t : ObjectId} (hp : p.Sound)
    (hf : p.Fusable front between back producer consumer t) (h : p.Uniform) :
    (p.joined front between back producer consumer t).Uniform := by
  intro stage hstage hpixel
  rcases Fusable.mem_joined.mp hstage with hold | rfl
  · exact h stage (hf.mem.2.2 stage hold) hpixel
  · obtain ⟨e, he⟩ := hf.covers_join hp h
    exact ⟨e, he⟩

theorem Uniform.fuseOnce {e : Event} (hp : p.Sound) (h : p.Uniform) (hq : p.fuseOnce = some (q, e)) : q.Uniform := by
  obtain ⟨_, _, _, _, _, _, hf, rfl⟩ := fuseOnce_eq_some hp.woven hq
  exact hf.uniform hp h

theorem stable_uniform : Stable fun p => p.Sound ∧ p.Uniform where
  prune _ h := ⟨h.1.prune, h.2.prune h.1⟩
  fuseOnce _ _ _ h hq := ⟨h.1.fuseOnce hq, h.2.fuseOnce h.1 hq⟩

/-- The rounds of the loop of a pixel-wise stage. -/
theorem extent?_of_covers {stage : Stage} {e : Extent} (he : stage.Covers p e) {count : Nat}
    (hcount : p.extent? stage = some count) : count = e.width.toNat * e.height.toNat := by
  obtain ⟨o, ho, hsize⟩ := List.exists_of_findSome?_eq_some hcount
  simp only [bind, Option.bind_eq_some_iff] at hsize
  obtain ⟨x, hx, m, hm, n, hn, f, hf, hsize⟩ := hsize
  cases x with
  | image b =>
    obtain ⟨g, rfl, hone⟩ := he o ho b hx
    cases hm
    cases hn
    cases hf
    cases hsize
    rw [hone, Nat.mul_one]
  | _ => contradiction

/-- All images of a pixel-wise stage have one sample for each round of its loop. -/
theorem Uniform.samples (h : p.Uniform) {stage : Stage} (hstage : stage ∈ p.stages) (hpixel : stage.pixelwise = true)
    {count : Nat} (hcount : p.extent? stage = some count) {o : ObjectId} (ho : o ∈ stage.referenced) {b : ImageBuffer}
    (hb : p.info? o = some (.image b.info)) : b.samples.size = count := by
  obtain ⟨e, he⟩ := h stage hstage hpixel
  obtain ⟨f, hf, hone⟩ := he o ho b.info hb
  have hfields : b.width = e.width ∧ b.height = e.height ∧ b.format = f := by
    simpa [ImageBuffer.info, ImageMeta.known] using hf
  rw [b.size_eq, hfields.1, hfields.2.1, hfields.2.2, hone, Nat.mul_one, extent?_of_covers he hcount]

end Plan

theorem Graph.uniform_of_verify {g : Graph} (hg : g.Built) {p : Plan} (h : g.verify .standard = .ok p) :
    p.Sound ∧ p.Uniform := by
  have hp := sound_of_verify hg h
  refine ⟨hp, fun stage hstage hpixel => ?_⟩
  obtain ⟨l, known, _, rfl⟩ := exists_resolves h
  obtain ⟨c, hc, rfl⟩ := List.mem_map.mp hstage
  -- verification makes stages of one step
  obtain ⟨k, hk, hkpixel⟩ := (hp.stages _ hstage).steps (step c) (List.mem_singleton.mpr rfl)
  obtain ⟨e, he⟩ := hk.exists_extent (hkpixel.trans hpixel)
  refine ⟨e, fun o ho => ?_⟩
  obtain ⟨s, hs, hbound⟩ := Stage.mem_referenced.mp ho
  rw [List.mem_singleton.mp hs] at hbound
  exact he o hbound

end VisionGraph
