import VisionGraph.Proofs.Agreement
import VisionGraph.Proofs.Failure
import VisionGraph.Proofs.Stencil

/-! The turn of one stage in a finished run. No stage before it writes what it writes, and no stage after it writes
anything that it names; so the contents at the start and at the end of the run tell what the stage was given and what it
left. -/
namespace VisionGraph

namespace Memory

variable {m : Memory} {a : Place} {x y : Host}

/-- What a place is set to is found there again. -/
theorem get?_set_self (hx : m.get? a = some x) (hkind : y.kind = x.kind) : (m.set a y).get? a = some y := by
  cases a with
  | host o =>
    show (m.set (.host o) y).host.get? o = some y
    rw [host_set_host, if_pos rfl]
  | scratch o =>
    show (m.set (.scratch o) y).scratch.get? o = some y
    rw [scratch_set_scratch, if_pos rfl]
  | slot d age =>
    rw [get?_slot] at hx ⊢
    obtain ⟨held, hheld, hx⟩ := Option.bind_eq_some_iff.mp hx
    cases held with
    | delay buffer =>
      obtain ⟨b, hb, rfl⟩ := Option.map_eq_some_iff.mp hx
      cases y with
      | image c =>
        rw [host_set_slot, if_pos rfl, hheld]
        simp only [replaceSlot, Option.bind_some, DelayBuffer.slot?_setSlot_self, hb, Option.map_some]
      | _ => simp [Host.kind] at hkind
    | _ => contradiction

/-- Among updates that leave a place alone or set it to the same, the place ends with that. -/
theorem get?_setAll_of_mem {us : List (Place × Host)} (hx : m.get? a = some x) (hkind : y.kind = x.kind)
    (hus : ∀ u ∈ us, u.1.Apart a ∨ u = (a, y)) (hmem : (a, y) ∈ us ∨ x = y) : (m.setAll us).get? a = some y := by
  induction us generalizing m x with
  | nil =>
    rcases hmem with hmem | rfl
    · contradiction
    · exact hx
  | cons u us ih =>
    rw [setAll_cons]
    have hrest : ∀ v ∈ us, v.1.Apart a ∨ v = (a, y) := fun v hv => hus v (List.mem_cons_of_mem u hv)
    rcases hus u List.mem_cons_self with hapart | rfl
    · refine ih ((get?_set_of_apart hapart m u.2).trans hx) hkind hrest ?_
      rcases hmem with hmem | hsame
      · rcases List.mem_cons.mp hmem with rfl | hmem
        · exact absurd rfl hapart.ne
        · exact .inl hmem
      · exact .inr hsame
    · exact ih (get?_set_self hx hkind) rfl hrest (.inr rfl)

end Memory

/-- A frame shows to a kernel what a memory holds for the objects of a step, and keeps different objects apart. -/
structure Step.Shows (p : Plan) (step : Step) (m : Memory) (f : Frame) : Prop where
  held : ∀ (slot : Nat) (o : ObjectId) (x : Host), step.params[slot]? = some (some o) → f.host slot = .ok x →
    p.held m o = some x
  apart : ∀ (i j : Nat) (o q : ObjectId), step.params[i]? = some (some o) → step.params[j]? = some (some q) → o ≠ q →
    f.Apart i j

namespace Plan

variable {p : Plan} {s : Storage} {m n : Memory} {stage : Stage} {step : Step} {k : Kernel} {o : ObjectId}

/-- What no stage writes is held as before. -/
theorem Sound.held_of_unwritten (h : p.Sound) (hs : Storage.ofPlan p = .ok s) {stages : List Stage}
    (hstages : ∀ stage ∈ stages, stage ∈ p.stages) {r : Resolved} (hr : p.object? o = some r)
    (hkind : r.object.kind ≠ .delay) (hno : ∀ stage ∈ stages, o ∉ stage.writes)
    (hrun : stages.foldlM (fun m stage => stage.run .standard p s m) m = .ok n) : p.held n o = p.held m o := by
  refine foldlM_induction (fun n => p.held n o = p.held m o) (fun stage hstage mid next hmid hnext => ?_) rfl hrun
  obtain ⟨us, hus, rfl⟩ := (h.run_eq_ok hs (hstages stage hstage)).mp hnext
  refine Eq.trans (held_congr rfl fun a ha => ?_) hmid
  apply Memory.get?_setAll
  intro u hu
  have hwritten := Stage.mem_writtenPlaces_of_update hus hu
  rcases h.apart_or_eq hs (hstages stage hstage) hwritten hr hkind ha with hapart | ⟨_, hw⟩
  · exact hapart
  · exact absurd hw (hno stage hstage)

/-! ### Stages over whole objects -/

/-- The frame of a step shows the memory that it was loaded from. -/
theorem Sound.shows_frame (h : p.Sound) (hs : Storage.ofPlan p = .ok s) (hstage : stage ∈ p.stages)
    (hblock : stage.pixelwise = false) (hstep : step ∈ stage.steps) {objects : Array Host}
    (hload : m.load (s.places step.params) = some objects) : step.Shows p m (Stage.frame s step objects) where
  held slot o x hparam hhost := by
    obtain ⟨a, _, hhome, _, _, hget⟩ := h.home_of_host hs hstage hblock hstep hload hparam hhost
    rw [held, hhome, Option.bind_some, hget]
  apart i j o q hi hj hne := by
    intro index hhandle hhandle'
    have hplace (slot : Nat) (o : ObjectId) (hparam : step.params[slot]? = some (some o))
        (hhandle : (Stage.frame s step objects).handles[slot]? = some (.object index)) :
        o ∈ stage.referenced ∧ ∃ a, p.home o = some a ∧ (s.places step.params)[index]? = some a := by
      rw [Stage.handles_frame, hparam, Option.map_some, Option.some.injEq] at hhandle
      obtain ⟨a, ha, hat⟩ := Storage.place_of_handle hhandle
      have href : o ∈ stage.referenced := Stage.mem_referenced_of_param hstep (List.mem_of_getElem? hparam)
      have hinternal : o ∉ stage.internal := by simp [((h.stages stage hstage).whole hblock).2]
      exact ⟨href, a, (h.place?_eq_home hs hstage href hinternal).symm.trans ha, hat⟩
    -- one position is one place, and different objects have places that are apart
    obtain ⟨ho, a, ha, hat⟩ := hplace i o hi hhandle
    obtain ⟨hq, b, hb, hbt⟩ := hplace j q hj hhandle'
    have hapart := h.apart_of_ne hstage hstage ho hq hne ha hb
    exact hapart.ne (Option.some.inj (hat.symm.trans hbt))

/-- A stage over whole objects gives its kernel what the memory holds, and keeps what the kernel leaves. -/
theorem Conforms.exists_effect (hp : p.Sound) (hs : Storage.ofPlan p = .ok s) (hx : p.HasExtrema)
    (hm : p.Conforms s m) (hstage : stage ∈ p.stages) (hblock : stage.pixelwise = false) (hsteps : stage.steps = [step])
    (hk : step.Valid p k) (hrun : stage.run .standard p s m = .ok n) :
    ∃ f g, f.Ready k (p.known step) ∧ step.Shows p m f ∧ k.effect step.border f = .ok g ∧
      ∀ (slot : Nat) (o : ObjectId) (y : Host), step.params[slot]? = some (some o) → o ∈ stage.writes →
        g.host slot = .ok y → p.held n o = some y := by
  obtain ⟨us, hus, rfl⟩ := (hp.run_eq_ok hs hstage).mp hrun
  obtain ⟨objects, g, hload, heffect, hupdates⟩ := Stage.exists_effect_of_update hblock hsteps hk.kernel hus
  rw [Stage.touched_of_single hsteps] at hload
  have hstep : step ∈ stage.steps := hsteps ▸ List.mem_singleton_self step
  have hkernel : k.isPixelwise = false := by
    obtain ⟨k', hk', hpixel⟩ := (hp.stages stage hstage).steps step hstep
    rw [Option.some.inj (hk.kernel.symm.trans hk'.kernel), hpixel, hblock]
  have hkeeps : (Stage.frame s step objects).Keeps g := by
    obtain ⟨g', hkeeps, hg | hg⟩ := hm.frame_ends hp hs hx hstage hblock hstep hk hkernel hload
    · rwa [Except.ok.inj (heffect.symm.trans hg)]
    · rw [heffect] at hg
      contradiction
  refine ⟨_, g, hp.ready_frame hs hstage hblock hstep hk hm hload, hp.shows_frame hs hstage hblock hstep hload, heffect,
    fun slot o y hparam hw hhost => ?_⟩
  -- what stood behind the parameter before tells the place that is written
  obtain ⟨i, hhandle, hy⟩ := Frame.host_eq_ok.mp hhost
  have hsame := hkeeps.outlines i
  rw [hy, Option.map_some] at hsame
  obtain ⟨x, hx, hout⟩ := Option.map_eq_some_iff.mp hsame.symm
  rw [hkeeps.handles] at hhandle
  obtain ⟨a, j, hhome, hat, hhandle', hget⟩ :=
    hp.home_of_host hs hstage hblock hstep hload hparam (Frame.host_eq_ok.mpr ⟨i, hhandle, hx⟩)
  have hij : i = j := Handle.object.inj (Option.some.inj (hhandle.symm.trans hhandle'))
  subst hij
  rw [← Stage.touched_of_single (s := s) hsteps] at hat
  obtain ⟨r, hr, _, _, hkind⟩ := hp.exists_object hstage (Stage.referenced_of_writes hw)
  have hplace := (hp.place?_eq_home hs hstage (Stage.referenced_of_writes hw) (Stage.mem_writes.mp hw).2).trans hhome
  rw [held, hhome, Option.bind_some]
  refine Memory.get?_setAll_of_mem hget (Host.kind_of_outline hout.symm) (fun u hu => ?_) (.inl ?_)
  · rcases hp.apart_or_eq hs hstage (Stage.mem_writtenPlaces_of_update hus hu) hr hkind hhome with hapart | ⟨hua, _⟩
    · exact .inl hapart
    · rw [hupdates] at hu
      obtain ⟨_, l, hl, hvalue⟩ := Stage.mem_updates.mp hu
      rw [hua, ← Stage.idxOf?_touched, Stage.idxOf?_touched.mpr hat, Option.some.injEq] at hl
      rw [← hl, hy] at hvalue
      exact .inr (Prod.ext hua (Option.some.inj hvalue).symm)
  · rw [hupdates]
    exact Stage.mem_updates.mpr ⟨Stage.mem_writtenPlaces.mpr ⟨o, hw, hplace⟩, i, hat, hy⟩

/-! ### Pixel-wise stages -/

/-- What a pixel-wise stage writes has the numbers that its steps end with. -/
theorem Sound.held_pixelwise (h : p.Sound) (hs : Storage.ofPlan p = .ok s) (hstage : stage ∈ p.stages)
    (hpixel : stage.pixelwise = true) (hrun : stage.run .standard p s m = .ok n) (ho : o ∈ stage.writes) {x : Host}
    (hx : p.held m o = some x) : p.held n o = some (x.refill fun i => stage.finish p m i o) := by
  obtain ⟨us, hus, rfl⟩ := (h.run_eq_ok hs hstage).mp hrun
  obtain ⟨_, _, rfl⟩ := (h.update?_pixelwise hs hstage hpixel).mp hus
  obtain ⟨a, hhome, hget⟩ := Option.bind_eq_some_iff.mp hx
  obtain ⟨r, hr, _, _, hkind⟩ := h.exists_object hstage (Stage.referenced_of_writes ho)
  rw [held, hhome, Option.bind_some]
  refine Memory.get?_setAll_of_mem hget (Host.kind_of_outline (Host.outline_refill _ x)) (fun u hu => ?_) (.inl ?_)
  · obtain ⟨q, hq, hu⟩ := List.mem_filterMap.mp hu
    obtain ⟨b, hb, hu⟩ := Option.bind_eq_some_iff.mp hu
    obtain ⟨y, hy, rfl⟩ := Option.map_eq_some_iff.mp hu
    by_cases hqo : q = o
    · subst hqo
      rw [hhome] at hb
      rw [hx] at hy
      cases hb
      cases hy
      exact .inr rfl
    · exact .inl (h.apart_of_ne hstage hstage (Stage.referenced_of_writes hq) (Stage.referenced_of_writes ho) hqo hb hhome)
  · refine List.mem_filterMap.mpr ⟨o, ho, ?_⟩
    rw [hhome, Option.bind_some, hx, Option.map_some]

/-! ### Turns -/

/-- The turn of a stage in a run: what it starts with and what it leaves, seen from both ends of the run. -/
structure Turn (p : Plan) (s : Storage) (stage : Stage) (first mid next last : Memory) : Prop where
  conforms : p.Conforms s mid
  run : stage.run .standard p s mid = .ok next
  before : ∀ o ∈ stage.writes, p.held mid o = p.held first o
  kept : ∀ o ∈ stage.referenced, o ∉ stage.writes → p.held next o = p.held mid o
  after : ∀ o ∈ stage.referenced, p.held last o = p.held next o

/-- Every stage has its turn in a run that finishes. -/
theorem LoadedAs.exists_turn {P : Program} {b : Bindings} (hP : p.LoadedAs P) (hp : p.Sound) (hu : p.Uniform)
    (hb : b.Sound) (hcheck : P.check b = .ok ()) (hn : P.Reached b p.stages.length n) (hstage : stage ∈ p.stages) :
    ∃ mid next, p.Turn P.storage stage ⟨b, p.freshScratch P.storage⟩ mid next n := by
  obtain ⟨_, _, _, hs, _⟩ := hP.fields
  obtain ⟨front, back, hstages⟩ := List.append_of_mem hstage
  have horder := hp.stage_after
  have hrun := (hP.reached_iff hp hb hcheck).mp hn
  rw [List.take_length, hstages] at hrun
  rw [hstages] at horder
  obtain ⟨_, hlater, hacross⟩ := List.pairwise_append.mp horder
  obtain ⟨hback, _⟩ := List.pairwise_cons.mp hlater
  obtain ⟨mid, hmid, hrest⟩ := foldlM_append_eq_ok.mp hrun
  obtain ⟨next, hnext, hlast⟩ := foldlM_cons_eq_ok.mp hrest
  have hreached : P.Reached b front.length mid := by
    rwa [hP.reached_iff hp hb hcheck, hstages, List.take_left]
  have hmem (other : Stage) (hother : other ∈ front ∨ other ∈ back) : other ∈ p.stages := by
    rw [hstages, List.mem_append, List.mem_cons]
    exact hother.imp_right .inr
  refine ⟨mid, next, (hP.reached hp hu hb hcheck hreached).1, hnext, fun o ho => ?_, fun o ho hno => ?_, fun o ho => ?_⟩
  · obtain ⟨r, hr, _, _, hkind⟩ := hp.exists_object hstage (Stage.referenced_of_writes ho)
    refine hp.held_of_unwritten hs (fun other hother => hmem other (.inl hother)) hr hkind (fun other hother hw => ?_) hmid
    exact hacross other hother stage List.mem_cons_self o ho (Stage.referenced_of_writes hw)
  · obtain ⟨r, hr, _, _, hkind⟩ := hp.exists_object hstage ho
    refine hp.held_of_unwritten hs (fun _ hone => List.mem_singleton.mp hone ▸ hstage) hr hkind
      (fun _ hone => List.mem_singleton.mp hone ▸ hno) (foldlM_cons_eq_ok.mpr ⟨next, hnext, rfl⟩)
  · obtain ⟨r, hr, _, _, hkind⟩ := hp.exists_object hstage ho
    refine hp.held_of_unwritten hs (fun other hother => hmem other (.inr hother)) hr hkind (fun other hother hw => ?_) hlast
    exact hback other hother o hw ho

end Plan

/-- Every node of a graph has its stage in the plan. -/
theorem Graph.exists_stage {g : Graph} (hg : g.Built) {p : Plan} (hp : g.verify .standard = .ok p) {node : Node}
    (hnode : node ∈ g.nodes) : ∃ step k, Stage.single step k.isPixelwise ∈ p.stages ∧ step.Valid p k ∧
      step.kernel = node.kernel ∧ step.params = node.params ∧ step.border = node.border := by
  obtain ⟨l, known, hl, rfl⟩ := exists_resolves hp
  obtain ⟨c, hc, rfl⟩ := List.mem_map.mp (hl.nodes.mem_iff.mpr hnode)
  exact ⟨step c, c.kernel, List.mem_map_of_mem hc, hl.valid hg.wellFormed hc, rfl, rfl, rfl⟩

end VisionGraph
