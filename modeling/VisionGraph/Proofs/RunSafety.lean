import VisionGraph.Proofs.Conformity
import VisionGraph.Proofs.Footprint
import VisionGraph.Proofs.OptimizedRun

/-! Safety of runs. On a memory that conforms to its plan no stage addresses anything outside of its objects: the loop of
a pixel-wise stage has as many rounds as every image has samples, and every other kernel gets the frame that its rule has
accepted. So a run on objects that pass the check ends with a status. -/
namespace VisionGraph

/-! ### Frames of steps -/

namespace Stage

/-- What the kernel of a step over whole objects gets. -/
def frame (s : Storage) (step : Step) (objects : Array Host) : Frame :=
  ⟨(step.params.map (s.handle (s.places step.params))).toArray, objects⟩

theorem handles_frame {s : Storage} {step : Step} {objects : Array Host} (slot : Nat) :
    (frame s step objects).handles[slot]? = (step.params[slot]?).map (s.handle (s.places step.params)) := by
  simp [frame]

end Stage

/-- A parameter that is no constant stands for the object at its place. -/
theorem Storage.exists_handle {s : Storage} {params : List (Option ObjectId)} {o : ObjectId} {a : Place}
    (hno : ∀ v, s.placement? o ≠ some (.constant v)) (ha : s.place? o = some a) (hparam : some o ∈ params) :
    ∃ i : Nat, (s.places params)[i]? = some a ∧ s.handle (s.places params) (some o) = .object i := by
  have hmem : a ∈ s.places params := List.mem_eraseDups.mpr (List.mem_filterMap.mpr ⟨some o, hparam, ha⟩)
  cases hidx : (s.places params).idxOf? a with
  | none => exact absurd hmem (List.idxOf?_eq_none_iff.mp hidx)
  | some i =>
    obtain ⟨hlt, hat, _⟩ := List.idxOf?_eq_some_iff.mp hidx
    refine ⟨i, List.getElem?_eq_some_iff.mpr ⟨hlt, hat⟩, ?_⟩
    simp only [handle, ha, Option.bind_some, hidx]

namespace Plan.Sound

variable {p : Plan} {s : Storage} {m : Memory} {stage : Stage} {step : Step} {k : Kernel} {objects : Array Host}
  (h : p.Sound) (hs : Storage.ofPlan p = .ok s) (hstage : stage ∈ p.stages)

include h hs hstage

/-- What a stage over whole objects names is a constant or has a place. -/
theorem placement_block (hblock : stage.pixelwise = false) {o : ObjectId} (ho : o ∈ stage.referenced) {r : Resolved}
    (hr : p.object? o = some r) :
    (∀ v, r.info.value? = some v → s.placement? o = some (.constant v)) ∧
      (r.info.value? = none → (∀ v, s.placement? o ≠ some (.constant v)) ∧ ∃ a, s.place? o = some a) := by
  have hi : o ∉ stage.internal := by simp [((h.stages stage hstage).whole hblock).2]
  obtain ⟨x, hx, _, hconst, _⟩ := h.place_eq_ok hr
  have hplacement : s.placement? o = some x := by
    rw [h.placement_eq hs hstage ho hi, hx]
    rfl
  rw [← h.constant_eq hr, hplacement]
  refine ⟨fun v hv => by rw [(hconst v).mpr hv], fun hnone => ⟨fun v hv => ?_, ?_⟩⟩
  · have hsome := (hconst v).mp (Option.some.inj hv)
    rw [hnone] at hsome
    contradiction
  · obtain ⟨a, ha⟩ := exists_home hr hnone
    exact ⟨a, (h.place?_eq_home hs hstage ho hi).trans ha⟩

/-- The frame of a step suits what the plan knows of its parameters. -/
theorem suits_frame (hblock : stage.pixelwise = false) (hstep : step ∈ stage.steps) (hk : step.Valid p k)
    (hm : p.Conforms s m) (hload : m.load (s.places step.params) = some objects) :
    (Stage.frame s step objects).Suits (p.known step) where
  object slot info hknown hvalue := by
    obtain ⟨o, hparam, hinfo⟩ := slotMeta_known.mp hknown
    have ho : o ∈ stage.referenced := Stage.mem_referenced_of_param hstep (List.mem_of_getElem? hparam)
    obtain ⟨r, hr, _⟩ := h.exists_object hstage ho
    have hsame := info_eq hr hinfo
    obtain ⟨hno, a, ha⟩ := (h.placement_block hs hstage hblock ho hr).2 (hsame ▸ hvalue)
    obtain ⟨x, info', hx, hinfo', hfits⟩ := hm stage hstage o ho a ha
    obtain ⟨i, hat, hhandle⟩ := Storage.exists_handle hno ha (List.mem_of_getElem? hparam)
    obtain ⟨y, hy, hget⟩ := Memory.getElem?_of_load hload hat
    have hyx : y = x := Option.some.inj (hget.symm.trans hx)
    refine ⟨x, Frame.host_eq_ok.mpr ⟨i, ?_, hyx ▸ hy⟩, ?_⟩
    · rw [Stage.handles_frame, hparam, Option.map_some, hhandle]
    · rwa [Option.some.inj (hinfo'.symm.trans hinfo)] at hfits
  constant slot info v hknown hvalue := by
    obtain ⟨o, hparam, hinfo⟩ := slotMeta_known.mp hknown
    have ho : o ∈ stage.referenced := Stage.mem_referenced_of_param hstep (List.mem_of_getElem? hparam)
    obtain ⟨r, hr, _⟩ := h.exists_object hstage ho
    have hsame := info_eq hr hinfo
    have hplacement := (h.placement_block hs hstage hblock ho hr).1 v (hsame ▸ hvalue)
    simp [Stage.handles_frame, hparam, Storage.handle, hplacement]
  unbound slot hknown := by
    have hparam : ∀ o, step.params[slot]? ≠ some (some o) := by
      intro o ho
      obtain ⟨r, hr, _⟩ := hk.exists_object (Step.mem_bound.mpr ⟨slot, ho⟩)
      have hsome := slotMeta_known.mpr ⟨o, ho, info?_of_object? hr⟩
      rw [hknown] at hsome
      contradiction
    unfold Frame.isBound
    rw [Stage.handles_frame]
    cases hslot : step.params[slot]? with
    | none => rfl
    | some param =>
      cases param with
      | none => rfl
      | some o => exact absurd hslot (hparam o)

theorem ready_frame (hblock : stage.pixelwise = false) (hstep : step ∈ stage.steps) (hk : step.Valid p k)
    (hm : p.Conforms s m) (hload : m.load (s.places step.params) = some objects) :
    (Stage.frame s step objects).Ready k (p.known step) where
  suits := h.suits_frame hs hstage hblock hstep hk hm hload
  written slot spec info hspec hwrites hknown := by
    obtain ⟨o, hparam, hinfo⟩ := slotMeta_known.mp hknown
    obtain ⟨spec', hspec', _, r, hr, _, _, hconst, _⟩ := hk.exists_spec hparam
    have hsame : spec' = spec := Option.some.inj (hspec'.symm.trans hspec)
    have hinfo' := info_eq hr hinfo
    have hnone : r.object.constant = none := by simpa [DataObject.isConstant] using hconst (hsame ▸ hwrites)
    rw [← hinfo', ← h.constant_eq hr, hnone]
  accepted := hk.accepted

end Plan.Sound

/-! ### Kernels over whole objects -/

/-- Every kernel over whole objects except the lookup comes to its end. -/
theorem Registry.reaches_of_mem_standard {k : Kernel} (hk : k ∈ Registry.standard.kernels)
    (hblock : k.isPixelwise = false) (hne : k ≠ Kernel.tableLookup) {f : Frame} {known : Known} (h : f.Ready k known)
    (hpixels : k = Kernel.minMaxLoc → ∀ s, Rule.slotMeta known 0 = some (.image (Rule.shapeMeta s)) → s.pixels ≠ 0)
    (border : Border) : f.Reaches (k.effect border f) := by
  have hmem : k ∈ Registry.standard.kernels.filter (!·.isPixelwise) :=
    List.mem_filter.mpr ⟨hk, by rw [hblock]; rfl⟩
  have hlist : Registry.standard.kernels.filter (!·.isPixelwise) =
      [Kernel.colorConvert, Kernel.channelExtract, Kernel.channelCombine, Kernel.gaussian3x3, Kernel.box3x3,
        Kernel.median3x3, Kernel.dilate3x3, Kernel.erode3x3, Kernel.sobel3x3, Kernel.tableLookup, Kernel.histogram,
        Kernel.minMaxLoc, Kernel.accumulate, Kernel.gaussianPyramid] := rfl
  simp only [hlist, List.mem_cons, List.not_mem_nil, or_false] at hmem
  repeat' rcases hmem with rfl | hmem
  · exact Kernel.completes_colorConvert border f known h
  · exact Kernel.completes_channelExtract border f known h
  · exact Kernel.completes_channelCombine border f known h
  · exact Kernel.completes_filter _ _ _ _ _ border f known h
  · exact Kernel.completes_filter _ _ _ _ _ border f known h
  · exact Kernel.completes_filter _ _ _ _ _ border f known h
  · exact Kernel.completes_filter _ _ _ _ _ border f known h
  · exact Kernel.completes_filter _ _ _ _ _ border f known h
  · exact Kernel.completes_sobel3x3 border f known h
  · exact absurd rfl hne
  · exact Kernel.completes_histogram border f known h
  · exact Kernel.reaches_minMaxLoc h (hpixels rfl)
  · exact Kernel.completes_accumulate border f known h
  · exact Kernel.completes_gaussianPyramid border f known h

/-- A frame with the same outlines at the end, in success or in failure. -/
def Frame.Ends (f : Frame) (x : Except Halt Frame) : Prop := ∃ g, f.Keeps g ∧ (x = .ok g ∨ x = .error (.failed g))

theorem Kernel.ends_tableLookup {f : Frame} {known : Known} (h : f.Ready tableLookup known) (border : Border) :
    f.Ends (tableLookup.effect border f) := by
  obtain ⟨src, table, dst, _, _, hdst, heffect⟩ := effect_tableLookup border h
  have hkeeps (i : Nat) : f.Keeps (partway f src dst table i) := by
    refine Frame.keeps_modify fun x hx => ?_
    rw [hdst] at hx
    cases hx
    rfl
  rw [heffect]
  split
  · exact ⟨_, hkeeps _, .inl rfl⟩
  · exact ⟨_, hkeeps _, .inr rfl⟩

/-! ### Stages -/

namespace Plan

variable {p : Plan} {s : Storage} {m n : Memory} {stage : Stage}

/-- No step looks for the extrema of an image without pixels. -/
def HasExtrema (p : Plan) : Prop := ∀ stage ∈ p.stages, ∀ step ∈ stage.steps, p.emptyExtrema step = false

/-- A unit is generated only for plans without such steps. -/
theorem Sound.hasExtrema (h : p.Sound) {u : CUnit} (hu : p.generate .standard = .ok u) : p.HasExtrema :=
  h.exists_generate_iff.mp ⟨u, hu⟩

/-- The extrema that a plan asks for are those of an image with pixels. -/
theorem HasExtrema.pixels (h : p.HasExtrema) (hstage : stage ∈ p.stages) {step : Step} (hstep : step ∈ stage.steps)
    (hk : step.Valid p Kernel.minMaxLoc) {shape : ImageShape}
    (hs : Rule.slotMeta (p.known step) 0 = some (.image (Rule.shapeMeta shape))) : shape.pixels ≠ 0 := by
  obtain ⟨o, hparam, hinfo⟩ := slotMeta_known.mp hs
  intro hzero
  have hcount : p.pixelCount o = some 0 := by
    rw [pixelCount, hinfo, ← hzero]
    rfl
  have hempty : p.emptyExtrema step = true := by simp [emptyExtrema, hk.name_eq, hparam, hcount]
  rw [h stage hstage step hstep] at hempty
  contradiction

/-- What a stage over whole objects does is what its kernel does. -/
theorem Sound.run_block (h : p.Sound) (hs : Storage.ofPlan p = .ok s) (hstage : stage ∈ p.stages)
    (hblock : stage.pixelwise = false) {objects : Array Host} (hload : m.load (stage.touched s) = some objects) :
    ∃ step k, stage.steps = [step] ∧ step.Valid p k ∧ k.isPixelwise = false ∧
      m.load (s.places step.params) = some objects ∧ stage.run .standard p s m =
        match k.effect step.border (Stage.frame s step objects) with
        | .ok f => .ok (m.setAll (stage.updates s f.objects))
        | .error (.failed f) => .error (.failed (m.setAll (stage.updates s f.objects)))
        | .error .astray => .error .astray := by
  have hvalid := h.stages stage hstage
  obtain ⟨step, hsteps⟩ := List.length_eq_one_iff.mp (hvalid.whole hblock).1
  obtain ⟨k, hk, hpixel⟩ := hvalid.steps step (hsteps ▸ List.mem_singleton_self step)
  have htouched : stage.touched s = s.places step.params := by simp [Stage.touched, hsteps]
  refine ⟨step, k, hsteps, hk, hpixel.trans hblock, htouched ▸ hload, ?_⟩
  have hstore := fun out => h.store_eq_updates hs hstage (m := m) out
  rw [htouched] at hload hstore
  simp only [Stage.run, hblock, Bool.false_eq_true, if_false, Stage.runBlock, hsteps, hk.kernel, hload, hstore]
  rfl

/-- A pixel-wise stage computes all its samples, unless a guard stops it before the first. -/
theorem Sound.run_pixelwise (h : p.Sound) (hs : Storage.ofPlan p = .ok s) (hstage : stage ∈ p.stages)
    (hpixel : stage.pixelwise = true) {objects : Array Host} (hload : m.load (stage.touched s) = some objects)
    {count : Nat} (hcount : p.extent? stage = some count) (hsize : stage.Sized p m count) :
    stage.run .standard p s m =
      if ∀ step ∈ stage.steps, step.admits p (stage.start p m 0) = true then .ok (m.setAll (stage.results p m))
      else .error (.failed m) := by
  have L : Stage.Loaded p s m stage objects := ⟨h, hs, hstage, hload⟩
  split
  · rename_i hadmits
    have hcontents := (h.exists_load_iff hs hstage).mp ⟨objects, hload⟩
    refine (h.run_eq_ok hs hstage).mpr ⟨_, (h.update?_pixelwise hs hstage hpixel).mpr ⟨count, ?_, rfl⟩, rfl⟩
    exact ⟨hcount, hcontents, hsize, hadmits⟩
  · rename_i hstops
    have hspans := (L.all_spans count).mpr hsize
    have hpasses : ((stage.pixelSteps p s objects).all fun ps => ps.passes (stage.state objects)) = false :=
      Bool.eq_false_iff.mpr fun hall => hstops (L.all_passes.mp hall)
    have hplaces : s.places (stage.steps.flatMap (·.params)) = stage.touched s := rfl
    have hstate : PixelState.mk objects (Array.replicate stage.internal.length 0) = stage.state objects := rfl
    simp only [Stage.run, hpixel, if_true, Stage.runPixels, hplaces, hload, hcount, L.mapM_prepare, hspans, hstate,
      hpasses, Bool.not_true, Bool.false_eq_true, if_false, Bool.not_false]

section

variable (hp : p.Sound) (hm : p.Conforms s m)

include hp hm

/-- The images of a pixel-wise stage have as many samples as its loop has rounds. -/
theorem Conforms.sized (hs : Storage.ofPlan p = .ok s) (hu : p.Uniform) (hstage : stage ∈ p.stages)
    (hpixel : stage.pixelwise = true) {count : Nat} (hcount : p.extent? stage = some count) :
    stage.Sized p m count := by
  intro o ho hi n hn
  obtain ⟨x, hx, hxn⟩ := Option.bind_eq_some_iff.mp hn
  obtain ⟨a, hhome, hget⟩ := Option.bind_eq_some_iff.mp hx
  obtain ⟨y, info, hy, hinfo, hfits⟩ := hm stage hstage o ho a ((hp.place?_eq_home hs hstage ho hi).trans hhome)
  have hyx : y = x := Option.some.inj (hy.symm.trans hget)
  subst hyx
  cases y with
  | image b =>
    cases hxn
    have himage : info = .image b.info := by
      have hfit := hfits.1
      cases info <;> simp [Host.mismatch] at hfit
      rw [hfit]
    exact hu.samples hstage hpixel hcount ho (himage ▸ hinfo)
  | _ => contradiction

theorem Conforms.kind_of_touched (hstage : stage ∈ p.stages) {a : Place} (ha : a ∈ stage.touched s) {x : Host}
    (hx : m.get? a = some x) : x.kind ≠ .delay := by
  obtain ⟨o, ho, hplace⟩ := Stage.mem_touched.mp ha
  exact hm.kind_ne hp hstage ho hplace hx

/-- The results of a pixel-wise stage are the old objects with other samples. -/
theorem Conforms.keeps_results (hs : Storage.ofPlan p = .ok s) (hstage : stage ∈ p.stages) :
    m.Keeps (m.setAll (stage.results p m)) := by
  apply Memory.keeps_setAll
  intro u hmem
  obtain ⟨o, ho, hout⟩ := List.mem_filterMap.mp hmem
  obtain ⟨a, ha, hout⟩ := Option.bind_eq_some_iff.mp hout
  obtain ⟨x, hheld, rfl⟩ := Option.map_eq_some_iff.mp hout
  have hget : m.get? a = some x := by rwa [held, ha] at hheld
  have hplace := (hp.place?_eq_home hs hstage (Stage.referenced_of_writes ho) (Stage.mem_writes.mp ho).2).trans ha
  have htouched := Stage.mem_touched.mpr ⟨o, Stage.referenced_of_writes ho, hplace⟩
  exact ⟨x, hget, hm.kind_of_touched hp hstage htouched hget, Host.outline_refill _ x⟩

/-- A kernel that keeps the outlines of its objects leaves those of the memory, whatever of it is written back. -/
theorem Conforms.keeps_updates (hstage : stage ∈ p.stages) {step : Step} {objects : Array Host}
    (hload : m.load (stage.touched s) = some objects) {g : Frame} (hkeeps : (Stage.frame s step objects).Keeps g) :
    m.Keeps (m.setAll (stage.updates s g.objects)) := by
  apply Memory.keeps_setAll
  intro u hmem
  obtain ⟨_, i, hi, hnew⟩ := Stage.mem_updates.mp hmem
  obtain ⟨x, hx, hget⟩ := Memory.getElem?_of_load hload hi
  have hmap := hkeeps.outlines i
  have hold : (Stage.frame s step objects).objects[i]? = some x := hx
  rw [hnew, hold, Option.map_some, Option.map_some] at hmap
  exact ⟨x, hget, hm.kind_of_touched hp hstage (List.mem_of_getElem? hi) hget, Option.some.inj hmap⟩

/-- The kernel of a stage over whole objects ends, in success or in failure, with a frame of the same outlines. -/
theorem Conforms.frame_ends (hs : Storage.ofPlan p = .ok s) (hx : p.HasExtrema) (hstage : stage ∈ p.stages)
    (hpixel : stage.pixelwise = false) {step : Step} (hstep : step ∈ stage.steps) {k : Kernel} (hk : step.Valid p k)
    (hblock : k.isPixelwise = false) {objects : Array Host} (hload : m.load (s.places step.params) = some objects) :
    (Stage.frame s step objects).Ends (k.effect step.border (Stage.frame s step objects)) := by
  have hready := hp.ready_frame hs hstage hpixel hstep hk hm hload
  by_cases hlookup : k = Kernel.tableLookup
  · subst hlookup
    exact Kernel.ends_tableLookup hready step.border
  · obtain ⟨g, hg, hkeeps⟩ := Registry.reaches_of_mem_standard hk.mem_standard hblock hlookup hready
      (fun he shape hshape => hx.pixels hstage hstep (he ▸ hk) hshape) step.border
    exact ⟨g, hkeeps, .inl hg⟩

/-- A stage ends, in success or in failure, and leaves all outlines as they were. -/
theorem Conforms.stage_ends (hs : Storage.ofPlan p = .ok s) (hu : p.Uniform) (hx : p.HasExtrema)
    (hstage : stage ∈ p.stages) :
    ∃ n, m.Keeps n ∧ (stage.run .standard p s m = .ok n ∨ stage.run .standard p s m = .error (.failed n)) := by
  obtain ⟨objects, hload⟩ := hm.exists_load hstage
  cases hpixel : stage.pixelwise with
  | true =>
    obtain ⟨count, hcount⟩ := hp.exists_extent hstage hpixel
    have hsize := hm.sized hp hs hu hstage hpixel hcount
    rw [hp.run_pixelwise hs hstage hpixel hload hcount hsize]
    split
    · exact ⟨_, hm.keeps_results hp hs hstage, .inl rfl⟩
    · exact ⟨m, .refl m, .inr rfl⟩
  | false =>
    obtain ⟨step, k, hsteps, hk, hblock, hload', hrun⟩ := hp.run_block hs hstage hpixel hload
    have hstep : step ∈ stage.steps := hsteps ▸ List.mem_singleton_self step
    obtain ⟨g, hkeeps, hg⟩ := hm.frame_ends hp hs hx hstage hpixel hstep hk hblock hload'
    refine ⟨_, hm.keeps_updates hp hstage hload hkeeps, ?_⟩
    rcases hg with hg | hg
    · left
      rw [hrun, hg]
    · right
      rw [hrun, hg]

end

/-! ### Runs -/

/-- Stages that succeed leave all outlines as they were. -/
theorem Conforms.foldlM_keeps (hp : p.Sound) (hs : Storage.ofPlan p = .ok s) (hu : p.Uniform) (hx : p.HasExtrema)
    {stages : List Stage} (hstages : ∀ stage ∈ stages, stage ∈ p.stages) (hm : p.Conforms s m)
    (hrun : stages.foldlM (fun m stage => stage.run .standard p s m) m = .ok n) : m.Keeps n := by
  induction stages generalizing m with
  | nil =>
    cases hrun
    exact .refl _
  | cons stage stages ih =>
    obtain ⟨next, hstep, hrest⟩ := foldlM_cons_eq_ok.mp hrun
    obtain ⟨next', hkeeps, hok | hfailed⟩ := hm.stage_ends hp hs hu hx (hstages stage List.mem_cons_self)
    · have hsame : next' = next := Except.ok.inj (hok.symm.trans hstep)
      subst hsame
      exact hkeeps.trans (ih (fun t ht => hstages t (List.mem_cons_of_mem stage ht)) (hm.keeps hkeeps) hrest)
    · rw [hstep] at hfailed
      contradiction

end Plan

namespace Program

variable {P : Program} {b : Bindings}

/-- The same outlines of all bound objects. -/
def SameOutlines (b b' : Bindings) : Prop := ∀ o : ObjectId, (b'.get? o).map Host.outline = (b.get? o).map Host.outline

theorem SameOutlines.exists_get? {b' : Bindings} (h : SameOutlines b b') {o : ObjectId} {x : Host}
    (hx : b.get? o = some x) : ∃ y, b'.get? o = some y ∧ y.outline = x.outline := by
  have hmap := h o
  rw [hx, Option.map_some] at hmap
  exact Option.map_eq_some_iff.mp hmap

theorem SameOutlines.trans {b' b'' : Bindings} (h : SameOutlines b b') (h' : SameOutlines b' b'') : SameOutlines b b'' :=
  fun o => (h' o).trans (h o)

theorem SameOutlines.sound {b' : Bindings} (h : SameOutlines b b') (hb : b.Sound) : b'.Sound := by
  intro o y hy
  have hmap := h o
  rw [hy, Option.map_some] at hmap
  obtain ⟨x, hx, hout⟩ := Option.map_eq_some_iff.mp hmap.symm
  exact (hb o x hx).of_outline hout.symm

theorem SameOutlines.check {b' : Bindings} (h : SameOutlines b b') (hcheck : P.check b = .ok ()) :
    P.check b' = .ok () := by
  refine check_eq_ok.mpr fun entry hentry => ?_
  obtain ⟨x, hx, hfit⟩ := check_eq_ok.mp hcheck entry hentry
  obtain ⟨y, hy, hout⟩ := h.exists_get? hx
  exact ⟨y, hy, Host.mismatch_of_outline hout hfit⟩

/-- Delays change the ages of their images only. -/
theorem sameOutlines_ageDelays (P : Program) (b : Bindings) : SameOutlines b (P.ageDelays b) := by
  unfold ageDelays
  generalize P.entries = entries
  induction entries generalizing b with
  | nil => exact fun _ => rfl
  | cons entry entries ih =>
    refine SameOutlines.trans (fun o => ?_) (ih (ageDelay b entry))
    unfold ageDelay
    split
    · rename_i d hd
      rw [IdMap.get?_insert]
      split
      · rename_i ho
        rw [ho, hd]
        rfl
      · rfl
    · rfl

/-- Allocation adds an object for every entry to those that are there, and no others. -/
theorem get?_allocateAll {entries : List (ObjectId × Meta)} {before after : Bindings}
    (h : entries.foldlM (fun b (o, info) =>
      match Host.ofMeta info with
      | .ok x => .ok (b.insert o x)
      | .error fault => .error (.buffer fault)) before = (.ok after : Except Error Bindings)) :
    (∀ o x, after.get? o = some x → before.get? o = some x ∨ ∃ info, (o, info) ∈ entries ∧ Host.ofMeta info = .ok x) ∧
      ∀ o, (∃ x, before.get? o = some x) ∨ (∃ info, (o, info) ∈ entries) → ∃ x, after.get? o = some x := by
  induction entries generalizing before with
  | nil =>
    cases h
    refine ⟨fun o x hx => .inl hx, fun o ho => ?_⟩
    rcases ho with ho | ⟨_, hmem⟩
    · exact ho
    · contradiction
  | cons entry entries ih =>
    obtain ⟨o, info⟩ := entry
    obtain ⟨next, hnext, hrest⟩ := foldlM_cons_eq_ok.mp h
    dsimp only at hnext
    split at hnext
    · rename_i x hx
      cases hnext
      obtain ⟨hfrom, hall⟩ := ih hrest
      refine ⟨fun q y hy => ?_, fun q hq => hall q ?_⟩
      · rcases hfrom q y hy with hy | ⟨info', hmem, hof⟩
        · rw [IdMap.get?_insert] at hy
          split at hy
          · rename_i hqo
            cases hy
            exact .inr ⟨info, by simp [hqo], hx⟩
          · exact .inl hy
        · exact .inr ⟨info', List.mem_cons_of_mem _ hmem, hof⟩
      · rw [IdMap.get?_insert]
        by_cases hqo : q = o
        · exact .inl ⟨x, by simp [hqo]⟩
        · simpa [hqo] using hq
    · contradiction

/-- Fresh storage has an object for every entry, and no others. -/
theorem get?_allocate (h : P.allocate = .ok b) :
    (∀ o x, b.get? o = some x → ∃ info, (o, info) ∈ P.entries ∧ Host.ofMeta info = .ok x) ∧
      ∀ entry ∈ P.entries, ∃ x, b.get? entry.1 = some x := by
  obtain ⟨hfrom, hall⟩ := get?_allocateAll h
  refine ⟨fun o x hx => ?_, fun entry hmem => hall entry.1 (.inr ⟨entry.2, hmem⟩)⟩
  rcases hfrom o x hx with hempty | hentry
  · contradiction
  · exact hentry

end Program

namespace Plan.LoadedAs

variable {p : Plan} {P : Program} {b : Bindings} {m : Memory} (h : p.LoadedAs P) (hp : p.Sound)

include h hp

theorem hasExtrema : p.HasExtrema := by
  obtain ⟨u, _, hu, _⟩ := h
  exact hp.hasExtrema hu

/-- What a run reaches comes from what the caller has bound and from fresh images. -/
theorem reached_iff (hb : b.Sound) (hcheck : P.check b = .ok ()) {done : Nat} :
    P.Reached b done m ↔ (p.stages.take done).foldlM (fun m stage => stage.run .standard p P.storage m)
      ⟨b, p.freshScratch P.storage⟩ = .ok m := by
  obtain ⟨hreg, hplan, _, hs, _⟩ := h.fields
  rw [Program.Reached, hreg, hplan, ((h.hosts hb hcheck).start hp hs).1]
  constructor
  · intro hm
    obtain ⟨start, hstart, hrun⟩ := hm
    cases hstart
    exact hrun
  · intro hrun
    exact ⟨_, rfl, hrun⟩

/-- Everything that a run reaches is laid out like what it started with. -/
theorem reached (hu : p.Uniform) (hb : b.Sound) (hcheck : P.check b = .ok ()) {done : Nat} (hm : P.Reached b done m) :
    p.Conforms P.storage m ∧ Program.SameOutlines b m.host := by
  obtain ⟨_, _, _, hs, _⟩ := h.fields
  have hconforms := ((h.hosts hb hcheck).start hp hs).2
  have hrun := (h.reached_iff hp hb hcheck).mp hm
  have hkeeps := hconforms.foldlM_keeps hp hs hu (h.hasExtrema hp) (fun stage hstage => List.mem_of_mem_take hstage) hrun
  exact ⟨hconforms.keeps hkeeps, hkeeps.host⟩

/-- A run finishes, or the stage at some position fails on what the stages before it have reached. -/
theorem run_cases (hu : p.Uniform) (hb : b.Sound) (hcheck : P.check b = .ok ()) :
    (∃ n, p.run .standard P.storage b = .finished n ∧ P.Reached b p.stages.length n) ∨
      ∃ i stage mid n, p.stages[i]? = some stage ∧ P.Reached b i mid ∧
        stage.run .standard p P.storage mid = .error (.failed n) ∧ mid.Keeps n ∧
        p.run .standard P.storage b = .failed i n := by
  obtain ⟨_, _, _, hs, _⟩ := h.fields
  have hstart := ((h.hosts hb hcheck).start hp hs).1
  have hfrom : p.run .standard P.storage b =
      p.runFrom .standard P.storage 0 p.stages ⟨b, p.freshScratch P.storage⟩ := by rw [Plan.run, hstart]
  rw [hfrom]
  rcases runFrom_cases (r := .standard) 0 p.stages ⟨b, p.freshScratch P.storage⟩ with
    ⟨n, hn, hfold⟩ | ⟨i, stage, mid, hi, hmid, hend⟩
  · exact .inl ⟨n, hn, (h.reached_iff hp hb hcheck).mpr (List.take_length.symm ▸ hfold)⟩
  · right
    have hreached := (h.reached_iff hp hb hcheck).mpr hmid
    have hconforms := (h.reached hp hu hb hcheck hreached).1
    obtain ⟨n', hkeeps, hends⟩ := hconforms.stage_ends hp hs hu (h.hasExtrema hp) (List.mem_of_getElem? hi)
    rcases hend with ⟨n, hfail, hrun⟩ | ⟨hstray, _⟩
    · refine ⟨i, stage, mid, n, hi, hreached, hfail, ?_, by rw [hrun, Nat.zero_add]⟩
      rcases hends with hends | hends
      · rw [hfail] at hends
        contradiction
      · have hsame : n = n' := Stop.failed.inj (Except.error.inj (hfail.symm.trans hends))
        exact hsame ▸ hkeeps
    · simp [hstray] at hends

/-- What a run leaves behind is laid out like what it started with. -/
theorem sameOutlines_process (hu : p.Uniform) (hb : b.Sound) (hcheck : P.check b = .ok ()) :
    Program.SameOutlines b (P.process b).2 := by
  obtain ⟨hreg, hplan, hentry, _, _⟩ := h.fields
  unfold Program.process Program.call
  rw [hcheck, hentry, hreg, hplan]
  rcases h.run_cases hp hu hb hcheck with ⟨n, hrun, hn⟩ | ⟨i, stage, mid, n, _, hmid, _, hkeeps, hrun⟩
  · have hsame := (h.reached hp hu hb hcheck hn).2
    rw [hrun]
    exact hsame.trans (P.sameOutlines_ageDelays n.host)
  · have hsame : Program.SameOutlines b n.host := (h.reached hp hu hb hcheck hmid).2.trans hkeeps.host
    rw [hrun]
    dsimp only
    split
    · exact hsame
    · exact hsame.trans (P.sameOutlines_ageDelays n.host)

/-- Fresh storage is laid out as the plan says and passes the check. -/
theorem allocate_fits (hb : P.allocate = .ok b) : b.Sound ∧ P.check b = .ok () := by
  obtain ⟨_, _, _, _, hentries⟩ := h.fields
  obtain ⟨hfrom, hall⟩ := Program.get?_allocate hb
  have hentry : ∀ entry ∈ P.entries, p.info? entry.1 = some entry.2 ∧ entry.2.value? = none := by
    intro entry hmem
    obtain ⟨o, ho, hof⟩ := exists_of_mem_mapM hentries hmem
    obtain ⟨r, hr, hisEntry⟩ := (mem_entries hp.ids).mp ho
    have hinfo := info?_of_object? hr
    rw [Program.entryOf, hinfo] at hof
    cases hof
    refine ⟨hinfo, ?_⟩
    -- a constant is virtual and never an output, so the caller does not bind it
    rw [← hp.constant_eq hr]
    by_contra hconst
    have hisConstant : r.object.isConstant = true := Option.isSome_iff_ne_none.mpr hconst
    have hunmarked := (hp.objects o r hr).unmarked hisConstant
    have hvirtual : r.object.isVirtual = true := by
      by_contra hreal
      exact hconst (by simp [DataObject.constant, hreal])
    simp [DataObject.isEntry, DataObject.isExternal, hunmarked, hvirtual] at hisEntry
  have hfits : ∀ o x, b.get? o = some x → ∃ info, p.info? o = some info ∧ x.Fits info := by
    intro o x hx
    obtain ⟨info, hmem, hof⟩ := hfrom o x hx
    obtain ⟨hinfo, hvalue⟩ := hentry _ hmem
    exact ⟨info, hinfo, Host.fits_of_ofMeta hvalue hof⟩
  refine ⟨fun o x hx => ?_, Program.check_eq_ok.mpr fun entry hmem => ?_⟩
  · obtain ⟨_, _, hfit⟩ := hfits o x hx
    exact hfit.2
  · obtain ⟨x, hx⟩ := hall entry hmem
    obtain ⟨info, hinfo, hfit⟩ := hfits entry.1 x hx
    have hsame : info = entry.2 := Option.some.inj (hinfo.symm.trans (hentry entry hmem).1)
    exact ⟨x, hx, hsame ▸ hfit.1⟩

end Plan.LoadedAs

/-- A plan can be loaded unless it searches an image without pixels for extrema. -/
theorem Plan.Sound.exists_loadedAs_iff {p : Plan} (hp : p.Sound) : (∃ P, p.LoadedAs P) ↔ p.HasExtrema := by
  constructor
  · intro hex
    obtain ⟨P, hP⟩ := hex
    exact hP.hasExtrema hp
  · intro hx
    obtain ⟨u, hu⟩ := hp.exists_generate_iff.mpr hx
    exact hp.exists_loadedAs hu

namespace Graph

/-- The program of a graph over the standard kernels, optimised, from a library that runs the stages. -/
def optimized? (g : Graph) (c : OptimizerConfig) : Option Program := do
  let p ← (g.verify .standard).toOption
  let u ← ((p.optimize c).1.generate .standard).toOption
  (Program.make .standard (p.optimize c).1 u ⟨0, (p.optimize c).1.entries.length, .schedule⟩).toOption

theorem loadedAs_of_optimized? {g : Graph} {c : OptimizerConfig} {P : Program} (h : g.optimized? c = some P) :
    ∃ p, g.verify .standard = .ok p ∧ (p.optimize c).1.LoadedAs P := by
  unfold optimized? at h
  obtain ⟨p, hp, h⟩ := Option.bind_eq_some_iff.mp h
  obtain ⟨u, hu, hmake⟩ := Option.bind_eq_some_iff.mp h
  exact ⟨p, toOption_eq_some.mp hp, u, _, toOption_eq_some.mp hu, rfl, toOption_eq_some.mp hmake⟩

/-- Two nodes that become one loop, filters, a lookup, a histogram, a pyramid and extrema with their places. -/
def assorted : Graph := Graph.empty.edit [.image 3 2 .u8, .virtualImage ⟨none, none, none⟩, .image 3 2 .u8,
  .array .u8 256, .image 3 2 .u8, .array .u32 256, .pyramid 2 3 2 .u8, .scalar .u8, .scalar .u8,
  .array .coordinates2d 4, .image 3 2 .u8, .node "vx.not" [some ⟨0⟩, some ⟨1⟩],
  .node "vx.or" [some ⟨0⟩, some ⟨1⟩, some ⟨2⟩], .node "vx.table_lookup" [some ⟨0⟩, some ⟨3⟩, some ⟨4⟩],
  .node "vx.histogram" [some ⟨2⟩, some ⟨5⟩], .node "vx.gaussian_pyramid" [some ⟨2⟩, some ⟨6⟩],
  .node "vx.minmaxloc" [some ⟨2⟩, some ⟨7⟩, some ⟨8⟩, some ⟨9⟩, none, none, none],
  .node "vx.gaussian_3x3" [some ⟨2⟩, some ⟨10⟩]]

/-- One level of a pyramid. -/
def levelled : Graph :=
  Graph.empty.edit [.image 2 1 .u8, .pyramid 1 2 1 .u8, .node "vx.gaussian_pyramid" [some ⟨0⟩, some ⟨1⟩]]

-- The check compares what a pyramid declares. One that declares a level and has none passes, and leads the run astray.
example : levelled.program?.map (fun P =>
    let b : Bindings := .ofList [(⟨0⟩, .image (.zero 2 1 .u8)), (⟨1⟩, .pyramid ⟨.known 1 2 1 .u8, #[]⟩)]
    (Except.isOk (P.check b), (P.call b).1)) = some (true, .astray) := by decide +kernel

end Graph

end VisionGraph
