import VisionGraph.Proofs.DelayHistory
import VisionGraph.Proofs.StageTurn
import VisionGraph.Proofs.Visibility

/-! The outcome of a run. Without the kernels that can fail every run comes to its end. Seen from there, each kernel was
given what its inputs still hold and has left what its outputs hold; so what a graph computes is found node by node, and
no choice of the optimiser changes it. -/
namespace VisionGraph

theorem ImageBuffer.generate_wrap (width height : UInt32) (format : Format) (f : Nat → Int) :
    generate width height format (fun i => format.element.wrap (f i)) = generate width height format f := by
  have hwrap (v : Int) : format.element.wrap (format.element.wrap v) = format.element.wrap v :=
    format.element.holds_wrap v
  simp only [generate, hwrap]

namespace Plan

variable {p : Plan} {P : Program} {s : Storage} {b : Bindings} {m last : Memory} {stage : Stage} {step : Step}
  {k : Kernel} {o : ObjectId}

/-- What a memory that conforms holds for an image. -/
theorem Conforms.held_image {a : ImageMeta} (hm : p.Conforms s m) (hp : p.Sound) (hs : Storage.ofPlan p = .ok s)
    (hstage : stage ∈ p.stages) (ho : o ∈ stage.referenced) (hi : o ∉ stage.internal)
    (hinfo : p.info? o = some (.image a)) : ∃ b, p.held m o = some (.image b) ∧ b.info = a := by
  obtain ⟨r, hr, hsound, _⟩ := hp.exists_object hstage ho
  have hconst : r.object.constant = none := by
    rw [hp.constant_eq hr, info_eq hr hinfo]
    rfl
  obtain ⟨place, hhome⟩ := exists_home hr hconst
  obtain ⟨x, info, hx, hinfo', hfits⟩ := hm stage hstage o ho place ((hp.place?_eq_home hs hstage ho hi).trans hhome)
  rw [Option.some.inj (hinfo'.symm.trans hinfo)] at hfits
  obtain ⟨b, rfl, hb⟩ := hfits.image
  refine ⟨b, ?_, hb⟩
  rw [held, hhome, Option.bind_some, hx]

/-- What is held is no constant of the graph. -/
theorem constant_of_held {x : Host} (h : p.held m o = some x) : (p.object? o).bind (·.object.constant) = none := by
  obtain ⟨place, hhome, _⟩ := Option.bind_eq_some_iff.mp h
  by_contra hsome
  obtain ⟨v, hv⟩ := Option.ne_none_iff_exists'.mp hsome
  rw [home_eq_none hv] at hhome
  contradiction

/-- The number of an object that holds an image. -/
theorem cell_of_image {b : ImageBuffer} (h : p.held m o = some (.image b)) (i : Nat) :
    p.cell m i o = b.samples.getD i 0 := by
  rw [cell, constant_of_held h, h]
  rfl

/-- The number of a constant. -/
theorem Sound.cell_of_constant (hp : p.Sound) {v : Scalar}
    (hinfo : p.info? o = some (.scalar (.constant v))) (i : Nat) : p.cell m i o = v.toElement := by
  obtain ⟨r, hr, hmeta⟩ : ∃ r, p.object? o = some r ∧ r.info = _ := Option.map_eq_some_iff.mp hinfo
  have hconst : (p.object? o).bind (·.object.constant) = some v := by
    rw [hr, Option.bind_some, hp.constant_eq hr, hmeta]
    rfl
  rw [cell, hconst]

/-! ### Runs that cannot fail -/

/-- No step is of a kernel that can fail or that looks for extrema. -/
def Steady (p : Plan) : Prop := ∀ stage ∈ p.stages, ∀ step ∈ stage.steps,
  step.kernel ∉ ["vx.convert_depth", "vx.table_lookup", "vx.minmaxloc"]

theorem Steady.hasExtrema (h : p.Steady) : p.HasExtrema := by
  intro stage hstage step hstep
  have hname : (step.kernel == Kernel.minMaxLoc.name) = false := by
    refine beq_eq_false_iff_ne.mpr fun heq => h stage hstage step hstep ?_
    rw [heq]
    exact .tail _ (.tail _ (.head _))
  rw [emptyExtrema, hname, Bool.false_and]

/-- No stage stops a run. -/
theorem Steady.exists_finished (h : p.Steady) (hp : p.Sound) (hu : p.Uniform) (hP : p.LoadedAs P) (hb : b.Sound)
    (hcheck : P.check b = .ok ()) :
    ∃ last, p.run .standard P.storage b = .finished last ∧ P.Reached b p.stages.length last := by
  obtain ⟨_, _, _, hs, _⟩ := hP.fields
  rcases hP.run_cases hp hu hb hcheck with hfinished | ⟨i, stage, mid, n, hi, hmid, hfail, _⟩
  · exact hfinished
  · have hstage := List.mem_of_getElem? hi
    have hconforms := (hP.reached hp hu hb hcheck hmid).1
    rw [hconforms.run_eq_failed hp hs hu (hP.hasExtrema hp) hstage] at hfail
    cases hfail with
    | shift step hstep hshift => exact absurd (by simp [hshift.1]) (h stage hstage step hstep)
    | lookup step hstep hkernel => exact absurd (by simp [hkernel]) (h stage hstage step hstep)

/-- A run on some bindings that has come to its end. -/
structure Ended (p : Plan) (s : Storage) (b : Bindings) (last : Memory) : Prop where
  sound : p.Sound
  storage : Storage.ofPlan p = .ok s
  extrema : p.HasExtrema
  turn : ∀ stage ∈ p.stages, ∃ mid next, p.Turn s stage ⟨b, p.freshScratch s⟩ mid next last
  kept : ∀ o r, p.object? o = some r → r.object.kind ≠ .delay → (∀ stage ∈ p.stages, o ∉ stage.writes) →
    p.held last o = p.held ⟨b, p.freshScratch s⟩ o

theorem Steady.exists_ended (h : p.Steady) (hp : p.Sound) (hu : p.Uniform) (hP : p.LoadedAs P) (hb : b.Sound)
    (hcheck : P.check b = .ok ()) :
    ∃ last, p.Ended P.storage b last ∧ P.process b = (.ok (), P.ageDelays last.host) := by
  obtain ⟨hreg, hplan, hentry, hs, _⟩ := hP.fields
  obtain ⟨last, hfinished, hreached⟩ := h.exists_finished hp hu hP hb hcheck
  have hrun := (hP.reached_iff hp hb hcheck).mp hreached
  rw [List.take_length] at hrun
  rw [← hplan, ← hreg] at hfinished
  refine ⟨last, ⟨hp, hs, hP.hasExtrema hp, fun stage hstage => ?_, fun o r hr hkind hno => ?_⟩, ?_⟩
  · exact hP.exists_turn hp hu hb hcheck hreached hstage
  · exact hp.held_of_unwritten hs (fun _ hstage => hstage) hr hkind hno hrun
  · exact (Program.process_eq_ok hentry).mpr ⟨hcheck, last, hfinished, rfl⟩

/-! ### One step in a run -/

/-- A step of a kernel on its own. -/
structure Has (p : Plan) (k : Kernel) (step : Step) : Prop where
  mem : Stage.single step k.isPixelwise ∈ p.stages
  valid : step.Valid p k

/-- The objects of a step, by the directions of its kernel. -/
theorem Has.boundBy (h : p.Has k step) {params : List (Option ObjectId)} (hparams : step.params = params)
    (keep : Direction → Bool) : step.boundBy keep =
      (params.zip k.signature.directions).filterMap fun x => if keep x.2 then x.1 else none := by
  rw [Step.boundBy, h.valid.directions, hparams]

/-- A frame that a kernel was given and the one that it has left, as the end of the run shows them. -/
structure Performed (p : Plan) (last : Memory) (k : Kernel) (step : Step) (f g : Frame) : Prop where
  ready : f.Ready k (p.known step)
  effect : k.effect step.border f = .ok g
  given : ∀ (slot : Nat) (o : ObjectId) (x : Host), step.params[slot]? = some (some o) → o ∉ step.writes →
    p.held last o = some x → f.host slot = .ok x
  left : ∀ (slot : Nat) (o : ObjectId) (x : Host), step.params[slot]? = some (some o) → o ∈ step.writes →
    g.host slot = .ok x → p.held last o = some x
  apart : ∀ (i j : Nat) (o q : ObjectId), step.params[i]? = some (some o) → step.params[j]? = some (some q) → o ≠ q →
    f.Apart i j

/-- Before it is written an image is there, with the metadata of the plan. -/
theorem Performed.image {f g : Frame} (h : p.Performed last k step f g) {slot : Nat}
    (hparam : step.params[slot]? = some (some o)) {width height : UInt32} {format : Format}
    (hinfo : p.info? o = some (.image (.known width height format))) :
    ∃ dst, f.host slot = .ok (.image dst) ∧ dst.info = .known width height format :=
  h.ready.suits.image (s := ⟨width, height, format⟩) (slotMeta_known.mpr ⟨o, hparam, hinfo⟩)

/-- What the kernel leaves behind a parameter is held at the end of the run. -/
theorem Performed.held {f g : Frame} (h : p.Performed last k step f g) {slot : Nat}
    (hparam : step.params[slot]? = some (some o)) (hw : o ∈ step.writes) {x : Host}
    (hrun : ∃ g', k.effect step.border f = .ok g' ∧ g'.host slot = .ok x) : p.held last o = some x := by
  obtain ⟨g', hg', hx⟩ := hrun
  rw [h.effect] at hg'
  cases hg'
  exact h.left slot o x hparam hw hx

theorem Ended.exists_performed (h : p.Ended s b last) (hstep : p.Has k step) (hblock : k.isPixelwise = false) :
    ∃ f g, p.Performed last k step f g := by
  have hmem := hstep.mem
  rw [hblock] at hmem
  obtain ⟨mid, next, hturn⟩ := h.turn _ hmem
  obtain ⟨f, g, hready, hshows, heffect, hleft⟩ :=
    hturn.conforms.exists_effect h.sound h.storage h.extrema hmem rfl rfl hstep.valid hturn.run
  have href {slot : Nat} {o : ObjectId} (hparam : step.params[slot]? = some (some o)) :
      o ∈ (Stage.single step false).referenced :=
    Stage.mem_referenced_of_param (List.mem_singleton_self step) (List.mem_of_getElem? hparam)
  refine ⟨f, g, hready, heffect, fun slot o x hparam hno hx => ?_, fun slot o x hparam hw hx => ?_, hshows.apart⟩
  · obtain ⟨r, hr, _⟩ := h.sound.exists_object hmem (href hparam)
    have hvalue : r.info.value? = none := by
      have hconst := constant_of_held hx
      rwa [hr, Option.bind_some, h.sound.constant_eq hr] at hconst
    obtain ⟨y, hy, _⟩ := hready.suits.object slot r.info (slotMeta_known.mpr ⟨o, hparam, info?_of_object? hr⟩) hvalue
    have hunwritten : o ∉ (Stage.single step false).writes := by rwa [Stage.mem_writes_single]
    have hsame := hshows.held slot o y hparam hy
    rw [← hturn.kept o (href hparam) hunwritten, ← hturn.after o (href hparam), hx, Option.some.injEq] at hsame
    rwa [hsame]
  · rw [hturn.after o (href hparam)]
    exact hleft slot o x hparam (by rwa [Stage.mem_writes_single]) hx

/-- A pixel-wise step has left what its kernel computes of the numbers at each sample. -/
theorem Ended.held_pixelwise (h : p.Ended s b last) (hstep : p.Has k step) (hpixel : k.isPixelwise = true)
    (hno : ∀ q ∈ step.reads, q ∉ step.writes) (ho : o ∈ step.writes) {width height : UInt32} {format : Format}
    (hinfo : p.info? o = some (.image (.known width height format))) :
    p.held last o = some (.image (.generate width height format fun i => step.value p (p.cell last i))) := by
  have hmem := hstep.mem
  rw [hpixel] at hmem
  have hpointwise : step.Pointwise p := ⟨k, hstep.valid, hpixel⟩
  obtain ⟨mid, next, hturn⟩ := h.turn _ hmem
  have hw : o ∈ (Stage.single step true).writes := by rwa [Stage.mem_writes_single]
  have href := Stage.referenced_of_writes hw
  obtain ⟨dst, hdst, hshape⟩ := hturn.conforms.held_image h.sound h.storage hmem href List.not_mem_nil hinfo
  obtain ⟨rfl, rfl, rfl⟩ := ImageBuffer.extent_of_info hshape
  have hown (q : ObjectId) : q ∉ (Stage.single step true).internal := List.not_mem_nil
  -- what the step reads is held at the end as it was before the step
  have hcell (i : Nat) : step.value p ((Stage.single step true).start p mid i) = step.value p (p.cell last i) := by
    refine hpointwise.value_congr fun q hq => ?_
    have hqref : q ∈ (Stage.single step true).referenced :=
      Stage.mem_referenced.mpr ⟨step, List.mem_singleton_self step, hstep.valid.mem_bound_iff.mpr (.inl hq)⟩
    have hqw : q ∉ (Stage.single step true).writes := by
      rw [Stage.mem_writes_single]
      exact hno q hq
    rw [Stage.start, if_neg (hown q), cell, cell, hturn.after q hqref, hturn.kept q hqref hqw]
  have hfinish (i : Nat) : (Stage.single step true).finish p mid i o =
      dst.format.element.wrap (step.value p (p.cell last i)) := by
    show Step.act p _ _ step o = _
    rw [Step.act, if_pos (hpointwise.mem_writes.mp ho), hcell, Stage.sink, if_neg (hown o), hdst]
    rfl
  rw [hturn.after o href, h.sound.held_pixelwise h.storage hmem rfl hturn.run hw hdst]
  simp only [hfinish]
  exact congrArg (some ∘ Host.image) (ImageBuffer.generate_wrap ..)

end Plan

/-! ### Graphs -/

namespace Graph

variable {g : Graph} {p : Plan} {k : Kernel} {o : ObjectId}

/-- An object of the caller is in the plan as it was declared. -/
theorem object?_of_real (hg : g.Built) (hp : g.verify .standard = .ok p) {object : DataObject}
    (hobject : g.object? o = some object) (hreal : object.isVirtual = false) : p.object? o = some ⟨object, object.info⟩ := by
  have hsound := sound_of_verify hg hp
  obtain ⟨l, known, hl, rfl⟩ := exists_resolves hp
  obtain ⟨info, hinfo⟩ := hl.exists_info hobject
  have hvirtual : object.isVirtual = true → info.isResolved = false → o ∈ g.nodes.flatMap Node.bound := by
    intro hyes
    rw [hreal] at hyes
    contradiction
  have hr := (object?_planOf (r := ⟨object, info⟩) hg.wellFormed (l := l)).mpr ⟨hobject, hinfo, hvirtual⟩
  have hsame : info = object.info := ((hsound.objects o _ hr).real hreal).1
  rw [hr, hsame]

/-- However its plan is optimised, a graph computes an image from others: it is accepted and can be loaded, and every run
on these images with an output of the right shape succeeds, keeps them and leaves the image in the output. -/
def Yields (g : Graph) (inputs : List (ObjectId × ImageBuffer)) (output : ObjectId) (out : ImageBuffer) : Prop :=
  ∃ p, g.verify .standard = .ok p ∧ ∀ c : OptimizerConfig, (∃ P, (p.optimize c).1.LoadedAs P) ∧
    ∀ P, (p.optimize c).1.LoadedAs P → ∀ (b : Bindings) (dst : ImageBuffer), b.Sound →
      (∀ x ∈ inputs, b.get? x.1 = some (.image x.2)) → b.get? output = some (.image dst) → dst.info = out.info →
      ∃ b', P.process b = (.ok (), b') ∧ (∀ x ∈ inputs, b'.get? x.1 = some (.image x.2)) ∧
        b'.get? output = some (.image out)

/-- An image of the caller. -/
def Takes (g : Graph) (o : ObjectId) (image : ImageBuffer) : Prop :=
  g.object? o = some ⟨o, .image image.info, false, false, none⟩

/-- A graph yields what its nodes leave in the output when a run has come to its end. -/
theorem yields_of_ended {inputs : List (ObjectId × ImageBuffer)} {output : ObjectId} {out : ImageBuffer} (hg : g.Built)
    (hp : g.verify .standard = .ok p) (hsteady : p.Steady)
    (hseen : ∀ object ∈ g.objects, sees object = true → object.id ∈ output :: inputs.map (·.1))
    (hinputs : ∀ x ∈ inputs, g.Takes x.1 x.2 ∧ ∀ stage ∈ p.stages, x.1 ∉ stage.writes) (houtput : g.Takes output out)
    (hend : ∀ {s b last}, p.Ended s b last → (∀ x ∈ inputs, p.held last x.1 = some (.image x.2)) →
      p.held last output = some (.image out)) : g.Yields inputs output out := by
  obtain ⟨hsound, huniform⟩ := uniform_of_verify hg hp
  have hobject {o : ObjectId} {image : ImageBuffer} (ho : g.Takes o image) :
      p.object? o = some ⟨⟨o, .image image.info, false, false, none⟩, .image image.info⟩ := object?_of_real hg hp ho rfl
  have hheld {o : ObjectId} {image : ImageBuffer} (ho : g.Takes o image) (m : Memory) : p.held m o = m.host.get? o :=
    Plan.held_of_entry (hobject ho) rfl rfl rfl m
  obtain ⟨P₀, hP₀⟩ := hsound.exists_loadedAs_iff.mpr hsteady.hasExtrema
  refine ⟨p, hp, fun c => ?_⟩
  -- what a run of the plan as it is does, a run of the optimised plan does too
  have hrefines := (Plan.Refines.stable p).optimize c (.refl hsound)
  refine ⟨hrefines.exists_loadedAs hsound hP₀, fun P hP b dst hb hbound hdst hshape => ?_⟩
  have hcheck : P₀.check b = .ok () := by
    refine Program.check_eq_ok.mpr fun entry hentry => ?_
    obtain ⟨o, info⟩ := entry
    have hknown := hP₀.info_of_entry hentry
    have hmem : o ∈ p.entries := hP₀.map_entries ▸ List.mem_map_of_mem hentry
    obtain ⟨r, hr, hisEntry⟩ := (Plan.mem_entries hsound.ids).mp hmem
    have hid := (hsound.objects o r hr).id
    have hplace := hseen r.object (Array.mem_of_getElem? (object?_of_plan hg hp hr)) hisEntry
    rw [hid] at hplace
    rcases List.mem_cons.mp hplace with rfl | hplace
    · rw [Plan.info?_of_object? (hobject houtput), Option.some.injEq] at hknown
      exact ⟨.image dst, hdst, hknown ▸ if_pos hshape⟩
    · obtain ⟨x, hx, rfl⟩ := List.mem_map.mp hplace
      rw [Plan.info?_of_object? (hobject (hinputs x hx).1), Option.some.injEq] at hknown
      exact ⟨.image x.2, hbound x hx, hknown ▸ if_pos rfl⟩
  obtain ⟨last, hended, hrun⟩ := hsteady.exists_ended hsound huniform hP₀ hb hcheck
  have hkept (x : ObjectId × ImageBuffer) (hx : x ∈ inputs) : p.held last x.1 = some (.image x.2) := by
    obtain ⟨htakes, hunwritten⟩ := hinputs x hx
    rw [hended.kept x.1 _ (hobject htakes) (fun hkind => Kind.noConfusion hkind) hunwritten, hheld htakes]
    exact hbound x hx
  have hout := hend hended hkept
  have hnodup : (P₀.entries.map (·.1)).Nodup := hP₀.map_entries ▸ Plan.nodup_entries hsound.ids
  refine ⟨_, hrefines.replaces.process hP₀ hP hrun, fun x hx => ?_, ?_⟩
  · apply Program.get?_ageDelays_image hnodup
    rw [← hheld (hinputs x hx).1]
    exact hkept x hx
  · apply Program.get?_ageDelays_image hnodup
    rw [← hheld houtput]
    exact hout

/-- A graph that yields an image has a run that does. -/
theorem Yields.exists_run {inputs : List (ObjectId × ImageBuffer)} {output : ObjectId} {out : ImageBuffer}
    (h : g.Yields inputs output out) (hnodup : (output :: inputs.map (·.1)).Nodup) (c : OptimizerConfig) :
    ∃ p P b b', g.verify .standard = .ok p ∧ (p.optimize c).1.LoadedAs P ∧
      (∀ x ∈ inputs, b.get? x.1 = some (.image x.2)) ∧ P.process b = (.ok (), b') ∧
      b'.get? output = some (.image out) := by
  obtain ⟨p, hp, hruns⟩ := h
  obtain ⟨⟨P, hP⟩, hprocess⟩ := hruns c
  let blank : ImageBuffer := .zero out.width out.height out.format
  let bound : List (ObjectId × Host) := ((output, blank) :: inputs).map fun x => (x.1, .image x.2)
  let b : Bindings := IdMap.ofList bound
  have hget {o : ObjectId} {x : Host} : b.get? o = some x ↔ (o, x) ∈ bound := by
    apply IdMap.get?_ofList
    rw [List.map_map]
    exact hnodup
  have hsound : b.Sound := by
    intro o x hx
    obtain ⟨_, _, heq⟩ := List.mem_map.mp (hget.mp hx)
    cases heq
    trivial
  have hbound (x : ObjectId × ImageBuffer) (hx : x ∈ inputs) : b.get? x.1 = some (.image x.2) :=
    hget.mpr (List.mem_map_of_mem (List.mem_cons_of_mem _ hx))
  obtain ⟨b', hrun, _, hout⟩ := hprocess P hP b blank hsound hbound (hget.mpr List.mem_cons_self) rfl
  exact ⟨p, P, b, b', hp, hP, hbound, hrun, hout⟩

end Graph

end VisionGraph
