import Mathlib.Algebra.BigOperators.Ring.Finset
import VisionGraph.Proofs.DelayHistory
import VisionGraph.Proofs.LiveStages
import VisionGraph.Proofs.StageTurn

/-! Accumulation over runs. Every successful run raises the accumulator by one frame, pixel by pixel, up to the largest
signed short. No byte is negative, so to saturate after every frame is to saturate once after all of them, and the order
of the frames plays no part. -/
namespace VisionGraph

namespace ImageBuffer

/-- An accumulator after some frames: every pixel is the sum of its pixels, saturated once. -/
structure Accumulated (out acc : ImageBuffer) (frames : List ImageBuffer) : Prop where
  info : out.info = acc.info
  shapes : ∀ frame ∈ frames, frame.info = .known acc.width acc.height .u8
  pixel : ∀ x y, x < acc.width.toNat → y < acc.height.toNat →
    out.pixel x y = min 32767 (acc.pixel x y + (frames.map (·.pixel x y)).sum)

variable {out mid acc frame : ImageBuffer} {frames : List ImageBuffer}

theorem pixel_short (hshort : acc.format = .s16) (x y : Nat) : -32768 ≤ acc.pixel x y ∧ acc.pixel x y ≤ 32767 := by
  have hholds := acc.holds_pixel x y
  rw [hshort] at hholds
  exact (Element.s16.holds_iff _).mp hholds

theorem accumulated_nil (hshort : acc.format = .s16) : acc.Accumulated acc [] where
  info := rfl
  shapes _ hframe := absurd hframe List.not_mem_nil
  pixel x y _ _ := by
    have hbounds := pixel_short hshort x y
    rw [List.map_nil, List.sum_nil]
    omega

/-- Saturated sums compose, because the later frame only adds. -/
theorem Accumulated.cons (h : mid.Accumulated acc frames) (hnext : out.Accumulated mid [frame]) :
    out.Accumulated acc (frame :: frames) := by
  obtain ⟨hw, hh, _⟩ := extent_of_info h.info
  have hframe : frame.info = .known acc.width acc.height .u8 := by
    rw [hnext.shapes frame (List.mem_singleton_self frame), hw, hh]
  obtain ⟨_, _, hbytes⟩ := extent_of_info hframe
  refine ⟨hnext.info.trans h.info, fun other hother => ?_, fun x y hx hy => ?_⟩
  · rcases List.mem_cons.mp hother with rfl | hother
    · exact hframe
    · exact h.shapes other hother
  · have hbyte : 0 ≤ frame.pixel x y := by
      have hholds := frame.holds_pixel x y
      rw [hbytes] at hholds
      exact ((Element.u8.holds_iff _).mp hholds).1
    calc out.pixel x y
        = min 32767 (mid.pixel x y + ([frame].map (·.pixel x y)).sum) := hnext.pixel x y (hw ▸ hx) (hh ▸ hy)
      _ = min 32767 (min 32767 (acc.pixel x y + (frames.map (·.pixel x y)).sum) + frame.pixel x y) := by
          rw [h.pixel x y hx hy, List.map_singleton, List.sum_singleton]
      _ = min 32767 (acc.pixel x y + (frame.pixel x y + (frames.map (·.pixel x y)).sum)) := by omega
      _ = min 32767 (acc.pixel x y + ((frame :: frames).map (·.pixel x y)).sum) := by
          rw [List.map_cons, List.sum_cons]

/-- The same frames in another order lead to the same accumulator. -/
theorem Accumulated.eq_of_perm {out' : ImageBuffer} {frames' : List ImageBuffer} (hshort : acc.format = .s16)
    (h : out.Accumulated acc frames) (h' : out'.Accumulated acc frames') (hperm : frames.Perm frames') : out = out' := by
  obtain ⟨hw, hh, hf⟩ := extent_of_info h.info
  apply ext_pixel (h.info.trans h'.info.symm)
  · rw [hf, hshort]
    rfl
  · intro x y hx hy
    rw [h.pixel x y (hw ▸ hx) (hh ▸ hy), h'.pixel x y (hw ▸ hx) (hh ▸ hy), (hperm.map (·.pixel x y)).sum_eq]

end ImageBuffer

/-! ### One call of the kernel -/

namespace Kernel

variable {f : Frame} {src acc : ImageBuffer} {known : Known}

/-- A byte image and an accumulator of the same extent. -/
structure Accumulates (f : Frame) (src acc : ImageBuffer) : Prop where
  input : f.host 0 = .ok (.image src)
  bytes : src.format = .u8
  accum : f.host 1 = .ok (.image acc)
  shorts : acc.format = .s16
  width : src.width = acc.width
  height : src.height = acc.height

theorem exists_accumulates (h : f.Ready accumulate known) : ∃ src acc, Accumulates f src acc := by
  obtain ⟨input, accum, hin, hsum, hbyte, hword, hw, hh⟩ := accumulate_known h
  obtain ⟨src, hsrc, hsinfo⟩ := h.suits.image hin
  obtain ⟨acc, hacc, hainfo⟩ := h.suits.image hsum
  obtain ⟨hsw, hsh, hsf⟩ := ImageBuffer.fields_of_info hsinfo
  obtain ⟨haw, hah, haf⟩ := ImageBuffer.fields_of_info hainfo
  exact ⟨src, acc, hsrc, hsf.trans hbyte, hacc, haf.trans hword, by rw [hsw, haw, hw], by rw [hsh, hah, hh]⟩

/-- The sum at a sample, limited to signed shorts. -/
def raisedAt (src acc : ImageBuffer) (i : Nat) : Int := Element.s16.clamp (acc.samples.getD i 0 + src.samples.getD i 0)

namespace Accumulates

theorem sizes (h : Accumulates f src acc) :
    src.samples.size = src.width.toNat * src.height.toNat ∧ acc.samples.size = src.width.toNat * src.height.toNat := by
  rw [src.size_eq, acc.size_eq, h.bytes, h.shorts, h.width, h.height]
  exact ⟨Nat.mul_one _, Nat.mul_one _⟩

/-- The input is not the accumulator, which holds other numbers. -/
theorem host_input (h : Accumulates f src acc) (change : Host → Host) :
    (f.modify 1 change).host 0 = .ok (.image src) := by
  rcases Frame.host_modify_other change h.accum h.input with hkept | ⟨hboth, _⟩
  · exact hkept
  · cases hboth
    have hformats := h.bytes.symm.trans h.shorts
    contradiction

/-- The loop raises one sample after the other. -/
theorem effect_eq (h : Accumulates f src acc) (border : Border) : accumulate.effect border f =
    .ok (f.modify 1 fun _ => .image (acc.overwrite acc.samples.size (raisedAt src acc))) := by
  obtain ⟨hsrc, hacc⟩ := h.sizes
  have hrounds : ∃ g, accumulate.effect border f = .ok g ∧
      g = f.modify 1 fun _ => .image (acc.overwrite (src.width.toNat * src.height.toNat) (raisedAt src acc)) := by
    refine exists_bind ⟨src, Frame.image_eq_ok.mpr h.input, rfl⟩ ?_
    rintro _ rfl
    apply loop_invariant fun i g => g = f.modify 1 fun _ => .image (acc.overwrite i (raisedAt src acc))
    · rintro i _ hi rfl
      have hframe : src.samples[i]? = some (src.samples.getD i 0) := by simp [hsrc, hi]
      have hold : (acc.overwrite i (raisedAt src acc)).samples[i]? = some (acc.samples.getD i 0) := by
        rw [ImageBuffer.getElem?_overwrite, if_neg (Nat.lt_irrefl i)]
        simp [hacc, hi]
      refine ⟨_, bind_eq_ok.mpr ⟨_, Frame.sample_of_host (h.host_input _) hframe, ?_⟩, rfl⟩
      refine bind_eq_ok.mpr ⟨_, Frame.sample_of_host (Frame.host_modify h.accum) hold, ?_⟩
      exact Frame.write_overwrite h.accum (hacc ▸ hi)
    · rw [ImageBuffer.overwrite_zero]
      exact (Frame.modify_eq_self h.accum rfl).symm
  obtain ⟨g, hrun, rfl⟩ := hrounds
  rw [hrun, hacc]

theorem accumulated (h : Accumulates f src acc) :
    (acc.overwrite acc.samples.size (raisedAt src acc)).Accumulated acc [src] := by
  refine ⟨rfl, fun frame hframe => ?_, fun x y hx hy => ?_⟩
  · rw [List.mem_singleton.mp hframe, ImageBuffer.info, h.bytes, h.width, h.height]
  · have hlt : y * acc.width.toNat + x < acc.samples.size := by
      rw [h.sizes.2, h.width, h.height]
      exact flat_lt hy hx
    have hshort := ImageBuffer.pixel_short h.shorts x y
    have hbyte : 0 ≤ src.pixel x y ∧ src.pixel x y ≤ 255 := by
      have hholds := src.holds_pixel x y
      rw [h.bytes] at hholds
      exact (Element.u8.holds_iff _).mp hholds
    have hraised : raisedAt src acc (y * acc.width.toNat + x) = min 32767 (acc.pixel x y + src.pixel x y) := by
      have hplace : src.samples.getD (y * acc.width.toNat + x) 0 = src.pixel x y := by
        rw [ImageBuffer.pixel, h.width]
      rw [raisedAt, hplace]
      show Element.s16.clamp (acc.pixel x y + src.pixel x y) = _
      simp only [Element.clamp, Element.lo, Element.hi]
      omega
    have hpixel : (acc.overwrite acc.samples.size (raisedAt src acc)).pixel x y =
        acc.format.element.wrap (raisedAt src acc (y * acc.width.toNat + x)) := by
      show (acc.overwrite acc.samples.size (raisedAt src acc)).samples.getD (y * acc.width.toNat + x) 0 = _
      rw [Array.getD_eq_getD_getElem?, ImageBuffer.getElem?_overwrite, if_pos hlt, Array.getElem?_eq_getElem hlt]
      rfl
    rw [hpixel, h.shorts, List.map_singleton, List.sum_singleton, ← hraised]
    exact Element.s16.holds_clamp _

end Accumulates

end Kernel

/-! ### One run -/

namespace Plan

/-- A plan runs a stage over whole objects that writes an object of the caller. -/
structure Runs (stage : Stage) (o : ObjectId) (r : Resolved) (p : Plan) : Prop where
  sound : p.Sound
  mem : stage ∈ p.stages
  whole : stage.pixelwise = false
  object : p.object? o = some r
  external : r.object.isExternal = true
  written : o ∈ stage.writes

/-- Such a stage is neither pruned nor joined. -/
theorem stable_runs (stage : Stage) (o : ObjectId) (r : Resolved) : Stable (Runs stage o r) where
  prune p h := by
    refine ⟨h.sound.prune, ?_, h.whole, (h.sound.object?_prune_of_external h.external).mpr h.object, h.external, h.written⟩
    obtain ⟨i, hi⟩ := List.mem_iff_getElem?.mp h.mem
    have hlive : i ∈ p.livePositions :=
      livePositions_closed.1 i stage o hi h.written (isExternal_iff.mpr ⟨r, h.object, h.external⟩)
    rw [stages_prune]
    refine List.mem_map.mpr ⟨(stage, i), List.mem_filter.mpr ⟨List.mem_zipIdx_iff_getElem?.mpr hi, ?_⟩, rfl⟩
    exact List.contains_iff_mem.mpr hlive
  fuseOnce p q e h hq := by
    obtain ⟨front, between, back, producer, consumer, t, hf, rfl⟩ := fuseOnce_eq_some h.sound.woven hq
    refine ⟨hf.sound h.sound, Fusable.mem_joined.mpr (.inl ?_), h.whole, h.object, h.external, h.written⟩
    -- both stages that are joined are pixel-wise
    have hmem := hf.perm.mem_iff.mp h.mem
    simp only [List.mem_cons] at hmem
    rcases hmem with rfl | rfl | hother
    · exact absurd (h.whole.symm.trans hf.pixelwise.1) Bool.false_ne_true
    · exact absurd (h.whole.symm.trans hf.pixelwise.2) Bool.false_ne_true
    · exact hother

end Plan

namespace Program

variable {P : Program} {b b' : Bindings} {input accum o : ObjectId}

/-- The image that an object holds when the stages of a run are done, before the delays age. -/
def delivered (P : Program) (b : Bindings) (o : ObjectId) : Option ImageBuffer :=
  match P.plan.run P.registry P.storage b with
  | .finished n =>
    match P.plan.held n o with
    | some (.image frame) => some frame
    | _ => none
  | _ => none

/-- A run raises the accumulator by the image that reaches its accumulation. -/
theorem accumulated_of_process {p : Plan} {stage : Stage} {step : Step} {r : Resolved} (hP : p.LoadedAs P)
    (hruns : p.Runs stage accum r) (hu : p.Uniform) (hsteps : stage.steps = [step])
    (hk : step.Valid p Kernel.accumulate) (hparams : step.params = [some input, some accum])
    (hslot : r.object.slot = none) (hb : b.Sound) (hrun : P.process b = (.ok (), b')) :
    ∃ frame acc out, P.delivered b input = some frame ∧ b.get? accum = some (.image acc) ∧
      b'.get? accum = some (.image out) ∧ out.Accumulated acc [frame] := by
  obtain ⟨hreg, hplan, hentry, hs, _⟩ := hP.fields
  have hp := hruns.sound
  have hnodup : (P.entries.map (·.1)).Nodup := hP.map_entries ▸ Plan.nodup_entries hp.ids
  obtain ⟨hcheck, n, hfinished, rfl⟩ := (process_eq_ok hentry).mp hrun
  have hreached : P.Reached b p.stages.length n := by
    obtain ⟨start, hstart, hfold⟩ := Plan.run_eq_finished.mp hfinished
    refine ⟨start, hstart, ?_⟩
    rwa [hplan, List.take_length, ← hplan]
  obtain ⟨mid, next, hturn⟩ := hP.exists_turn hp hu hb hcheck hreached hruns.mem
  obtain ⟨f, g, hready, hshows, heffect, hleft⟩ := hturn.conforms.exists_effect hp hs (hP.hasExtrema hp) hruns.mem
    hruns.whole hsteps hk hturn.run
  obtain ⟨src, acc, haccumulates⟩ := Kernel.exists_accumulates hready
  rw [haccumulates.effect_eq] at heffect
  cases heffect
  -- what the frame shows of both objects
  have hinput : p.held mid input = some (.image src) := hshows.held 0 input _ (by rw [hparams]; rfl) haccumulates.input
  have hbefore : p.held mid accum = some (.image acc) := hshows.held 1 accum _ (by rw [hparams]; rfl) haccumulates.accum
  have hafter := hleft 1 accum _ (by rw [hparams]; rfl) hruns.written (Frame.host_modify haccumulates.accum)
  have hconst : r.object.isConstant = false := hp.not_constant hruns.mem hruns.written hruns.object
  have hheld := Plan.held_of_entry hruns.object hconst hslot hruns.external
  have hstep : step ∈ stage.steps := hsteps ▸ List.mem_singleton_self step
  have hreferenced (o : ObjectId) (ho : some o ∈ step.params) : o ∈ stage.referenced :=
    Stage.mem_referenced_of_param hstep ho
  -- the input is not written, so it is still there at the end
  have hunwritten : input ∉ stage.writes := by
    intro hw
    obtain ⟨⟨other, hother, hw⟩, _⟩ := Stage.mem_writes.mp hw
    rw [hsteps, List.mem_singleton] at hother
    subst hother
    have hdirections : other.directions = [.input, .bidirectional] := hk.directions
    have hsame : input = accum := by
      simpa [Step.writes, Step.boundBy, hparams, hdirections, Direction.writes] using hw
    subst hsame
    rw [hinput] at hbefore
    cases hbefore
    exact absurd (haccumulates.bytes.symm.trans haccumulates.shorts) (by decide)
  have hlast : p.held n input = some (.image src) := by
    have hin := hreferenced input (by simp [hparams])
    rw [hturn.after input hin, hturn.kept input hin hunwritten, hinput]
  refine ⟨src, acc, _, ?_, ?_, ?_, haccumulates.accumulated⟩
  · unfold delivered
    rw [hfinished, hplan]
    simp only [hlast]
  · rw [hturn.before accum hruns.written, hheld] at hbefore
    exact hbefore
  · apply get?_ageDelays_image hnodup
    rw [← hheld, hturn.after accum (Stage.referenced_of_writes hruns.written), hafter]

/-! ### Many runs -/

/-- Successful runs of a program on the same objects, with the images that reached one of them, the latest first. Between
the runs everything may change but the accumulator. -/
inductive Session (P : Program) (input accum : ObjectId) (first : Bindings) : Bindings → List (Option ImageBuffer) → Prop
  | start : Session P input accum first first []
  | change {b b' : Bindings} {seen : List (Option ImageBuffer)} (h : Session P input accum first b seen)
    (hsound : b'.Sound) (hsame : b'.get? accum = b.get? accum) : Session P input accum first b' seen
  | run {b b' : Bindings} {seen : List (Option ImageBuffer)} (h : Session P input accum first b seen)
    (hrun : P.process b = (.ok (), b')) : Session P input accum first b' (P.delivered b input :: seen)

theorem process_of_isOk (h : (P.process b).1.isOk = true) : P.process b = (.ok (), (P.process b).2) := by
  cases hrun : P.process b with
  | mk outcome next =>
    cases outcome with
    | ok => rfl
    | error e => simp [hrun, Except.isOk, Except.toBool] at h

end Program

namespace Graph

/-- The negatives of the frames are accumulated, through an image of the graph's own. -/
def exposing : Graph := Graph.empty.edit [.image 2 1 .u8, .virtualImage ⟨none, none, none⟩, .image 2 1 .s16,
  .node "vx.accumulate" [some ⟨1⟩, some ⟨2⟩], .node "vx.not" [some ⟨0⟩, some ⟨1⟩]]

/-- One pixel that is about to saturate, and one below zero. -/
def exposed : ImageBuffer := .generate 2 1 .s16 fun i => if i = 0 then 32700 else -300

end Graph

end VisionGraph
