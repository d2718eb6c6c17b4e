import VisionGraph.Proofs.Sample

/-! What a pixel-wise stage does to a memory, in terms of its objects: at every sample it does what its steps do in
turn to the numbers of the objects there. Which places hold them and which lanes lead to them plays no part. -/
namespace VisionGraph

namespace Plan

/-- The contents of an object at its home. -/
def held (p : Plan) (m : Memory) (o : ObjectId) : Option Host := (p.home o).bind m.get?

theorem held_congr {p q : Plan} {m n : Memory} {o : ObjectId} (hhome : q.home o = p.home o)
    (h : ∀ a, p.home o = some a → n.get? a = m.get? a) : q.held n o = p.held m o := by
  unfold held
  rw [hhome]
  cases ha : p.home o with
  | none => rfl
  | some a => exact h a ha

/-- The number of an object at a sample. -/
def cell (p : Plan) (m : Memory) (i : Nat) (o : ObjectId) : Int :=
  match (p.object? o).bind (·.object.constant) with
  | some v => v.toElement
  | none => ((p.held m o).map (Host.sample i)).getD 0

end Plan

/-- The same object with other samples. -/
def Host.refill (f : Nat → Int) : Host → Host
  | .image b => .image (.generate b.width b.height b.format f)
  | h => h

/-- An image is known by its header and its samples. -/
theorem Host.eq_refill {x y : Host} {f : Nat → Int} (hblank : y.blank = x.blank)
    (hf : ∀ b, x = .image b → ∀ i < b.samples.size, y.sample i = f i) : y = x.refill f := by
  cases x with
  | image b =>
    cases y with
    | image c =>
      -- equal blanks are equal shapes
      have hzero : ImageBuffer.zero c.width c.height c.format = .zero b.width b.height b.format := by
        simpa [blank] using hblank
      have hwidth : c.width = b.width := (congrArg ImageBuffer.width hzero :)
      have hheight : c.height = b.height := (congrArg ImageBuffer.height hzero :)
      have hformat : c.format = b.format := (congrArg ImageBuffer.format hzero :)
      have hcount : c.samples.size = b.samples.size := by rw [c.size_eq, b.size_eq, hwidth, hheight, hformat]
      have hsamples : c.samples = (ImageBuffer.generate b.width b.height b.format f).samples := by
        refine Array.ext (by rw [hcount, b.size_eq, ImageBuffer.size_eq]; rfl) fun i hi _ => ?_
        have hvalue : c.samples[i] = f i := by simpa [sample, hi] using hf b rfl i (hcount ▸ hi)
        have hholds : c.format.element.wrap c.samples[i] = c.samples[i] := c.fits _ (Array.getElem_mem hi)
        simp [ImageBuffer.generate, ← hvalue, ← hformat, hholds]
      obtain ⟨w, h, fmt, samples, hsize, hfits⟩ := c
      cases hwidth
      cases hheight
      cases hformat
      cases hsamples
      rfl
    | _ => simp [blank] at hblank
  | _ =>
    cases y with
    | image c => simp [blank] at hblank
    | _ => exact hblank

/-- How a step finds contents that are loaded at a position. -/
def Host.lane (k : Nat) : Host → Lane
  | .scalar v => .fixed v.toElement
  | .image _ => .plane k
  | _ => .absent

/-- Whether the image of a lane has the given number of samples. -/
def Lane.spans (objects : Array Host) (count : Nat) : Lane → Bool
  | .plane k =>
    match objects[k]? with
    | some (.image b) => b.samples.size == count
    | _ => false
  | _ => true

namespace Stage

/-- As what the numbers of an object are stored by a stage. -/
def sink (p : Plan) (m : Memory) (stage : Stage) (o : ObjectId) : Option Element :=
  if o ∈ stage.internal then some (laneType p (some o)).element else (p.held m o).bind Host.element?

/-- The numbers at a sample when a stage starts. -/
def start (p : Plan) (m : Memory) (stage : Stage) (i : Nat) (o : ObjectId) : Int :=
  if o ∈ stage.internal then 0 else p.cell m i o

/-- The numbers at a sample when a stage is done. -/
def finish (p : Plan) (m : Memory) (stage : Stage) (i : Nat) : ObjectId → Int :=
  Step.actAll p (stage.sink p m) stage.steps (stage.start p m i)

/-- The updates of a pixel-wise stage. -/
def results (p : Plan) (m : Memory) (stage : Stage) : List (Place × Host) :=
  stage.writes.filterMap fun o => (p.home o).bind fun a => (p.held m o).map fun x =>
    (a, x.refill fun i => stage.finish p m i o)

/-- All images of a stage have as many samples as the stage computes. -/
def Sized (p : Plan) (m : Memory) (stage : Stage) (count : Nat) : Prop :=
  ∀ o ∈ stage.referenced, o ∉ stage.internal → ∀ n, (p.held m o).bind Host.sampleCount? = some n → n = count

/-- When a pixel-wise stage can run: all contents are there in the right size, and all guards hold. -/
structure Fits (p : Plan) (m : Memory) (stage : Stage) (count : Nat) : Prop where
  extent : p.extent? stage = some count
  contents : ∀ o ∈ stage.referenced, o ∉ stage.internal → ∀ a, p.home o = some a → ∃ x, p.held m o = some x
  sizes : stage.Sized p m count
  admits : ∀ step ∈ stage.steps, step.admits p (stage.start p m 0) = true

/-- A stage of a sound plan with the contents of its places. -/
structure Loaded (p : Plan) (s : Storage) (m : Memory) (stage : Stage) (objects : Array Host) : Prop where
  sound : p.Sound
  storage : Storage.ofPlan p = .ok s
  mem : stage ∈ p.stages
  load : m.load (stage.touched s) = some objects

/-- The lane of an object. -/
def laneOf (s : Storage) (stage : Stage) (objects : Array Host) (o : ObjectId) : Lane :=
  stage.lane s (stage.touched s) objects (some o)

/-- Where an object can be found: inside of the stage, as a constant, or at home. -/
inductive Found (p : Plan) (s : Storage) (m : Memory) (stage : Stage) (objects : Array Host) (o : ObjectId) :
    Lane → Prop
  | inside (k : Nat) (hin : o ∈ stage.internal) (hk : stage.internal.idxOf? o = some k) :
    Found p s m stage objects o (.temp k)
  | constant (v : Scalar) (hout : o ∉ stage.internal) (hv : (p.object? o).bind (·.object.constant) = some v) :
    Found p s m stage objects o (.fixed v.toElement)
  | home (a : Place) (k : Nat) (x : Host) (hout : o ∉ stage.internal)
    (hv : (p.object? o).bind (·.object.constant) = none) (ha : p.home o = some a)
    (hk : (stage.touched s)[k]? = some a) (hobject : objects[k]? = some x) (hget : m.get? a = some x) :
    Found p s m stage objects o (x.lane k)

end Stage

theorem Plan.home_eq_none {p : Plan} {o : ObjectId} {v : Scalar} (h : (p.object? o).bind (·.object.constant) = some v) :
    p.home o = none := by
  obtain ⟨r, hr, hv⟩ := Option.bind_eq_some_iff.mp h
  simp [home, hr, DataObject.isConstant, hv]

theorem Plan.exists_home {p : Plan} {o : ObjectId} {r : Resolved} (hr : p.object? o = some r)
    (hv : r.object.constant = none) : ∃ a, p.home o = some a := by
  simp only [home, hr, Option.bind_some, DataObject.isConstant, hv, Option.isSome_none, Bool.false_eq_true, if_false]
  cases r.object.slot with
  | none => exact ⟨_, rfl⟩
  | some _ => exact ⟨_, rfl⟩

namespace Stage.Loaded

variable {p : Plan} {s : Storage} {m : Memory} {stage : Stage} {objects : Array Host} {o q : ObjectId}

theorem found (L : Loaded p s m stage objects) (ho : o ∈ stage.referenced) :
    Found p s m stage objects o (stage.laneOf s objects o) := by
  by_cases hi : o ∈ stage.internal
  · obtain ⟨k, hk, _⟩ := Plan.exists_idxOf hi
    have hlane : stage.laneOf s objects o = .temp k := by
      simp [laneOf, lane, Plan.placement_internal L.storage L.mem hi, hk]
    rw [hlane]
    exact .inside k hi hk
  · obtain ⟨r, hr, _⟩ := L.sound.exists_object L.mem ho
    obtain ⟨x, hx, hinternal, hconst, _⟩ := L.sound.place_eq_ok hr
    have hplacement : s.placement? o = some x := by
      rw [L.sound.placement_eq L.storage L.mem ho hi, hx]
      rfl
    -- a constant is placed as such; everything else that is not inside has its place among the touched ones
    cases hv : r.object.constant with
    | some v =>
      have hlane : stage.laneOf s objects o = .fixed v.toElement := by
        simp [laneOf, lane, hplacement, (hconst v).mpr hv]
      rw [hlane]
      exact .constant v hi (by simp [hr, hv])
    | none =>
      have hno : ∀ v, x ≠ .constant v := fun v he => by simp [hv] at hconst; exact hconst v he
      obtain ⟨a, ha⟩ := Plan.exists_home hr hv
      have hplace := (L.sound.place?_eq_home L.storage L.mem ho hi).trans ha
      obtain ⟨k, hk⟩ := List.mem_iff_getElem?.mp (mem_touched.mpr ⟨o, ho, hplace⟩)
      obtain ⟨y, hy, hget⟩ := Memory.getElem?_of_load L.load hk
      have hlane : stage.laneOf s objects o = y.lane k := by
        have hidx : (stage.touched s).idxOf? a = some k := idxOf?_touched.mpr hk
        simp only [laneOf, lane, hplacement, hplace, Option.bind_some, hidx, hy]
        cases x with
        | constant v => exact absurd rfl (hno v)
        | internal => exact absurd rfl hinternal
        | _ => cases y <;> rfl
      rw [hlane]
      exact .home a k y hi (by simp [hr, hv]) ha hk hy hget

end Stage.Loaded

namespace Stage

variable {p : Plan} {s : Storage} {m : Memory} {stage : Stage} {objects : Array Host} {o q : ObjectId} {l : Lane}

/-- The state of the loop at the start. -/
def state (stage : Stage) (objects : Array Host) : PixelState := ⟨objects, Array.replicate stage.internal.length 0⟩

namespace Found

variable (hf : Found p s m stage objects o l)

include hf

theorem not_temp (hi : o ∉ stage.internal) : l.isTemp = false := by
  cases hf with
  | inside k hin hk => exact absurd hin hi
  | constant v hout hv => rfl
  | home a k x hout hv ha hk hobject hget => cases x <;> rfl

/-- The lane of an object holds its number. -/
theorem read_state (i : Nat) : (stage.state objects).read i l = stage.start p m i o := by
  unfold start
  cases hf with
  | inside k hin hk =>
    have hlt : k < stage.internal.length := (List.idxOf?_eq_some_iff.mp hk).1
    simp [hin, PixelState.read, state, hlt]
  | constant v hout hv => simp [hout, Plan.cell, hv, PixelState.read]
  | home a k x hout hv ha hk hobject hget =>
    have hheld : p.held m o = some x := by simp [Plan.held, ha, hget]
    rw [if_neg hout, Plan.cell, hv]
    cases x <;> simp [PixelState.read, Host.lane, state, hobject, hheld, Host.sample]

/-- What goes through the lane of an object is stored as the object is. -/
theorem sink_state : (stage.state objects).sink (laneType p (some o)).element l = stage.sink p m o := by
  unfold sink
  cases hf with
  | inside k hin hk =>
    have hlt : k < stage.internal.length := (List.idxOf?_eq_some_iff.mp hk).1
    simp [hin, PixelState.sink, state, hlt]
  | constant v hout hv => simp [hout, Plan.held, Plan.home_eq_none hv, PixelState.sink]
  | home a k x hout hv ha hk hobject hget =>
    have hheld : p.held m o = some x := by simp [Plan.held, ha, hget]
    rw [if_neg hout]
    cases x <;> simp [PixelState.sink, Host.lane, state, hobject, hheld, Host.element?]

theorem inRange {count i : Nat} (hi : i < count)
    (hsize : o ∉ stage.internal → ∀ n, (p.held m o).bind Host.sampleCount? = some n → n = count) :
    (stage.state objects).InRange i l := by
  cases hf with
  | inside k hin hk => trivial
  | constant v hout hv => trivial
  | home a k x hout hv ha hk hobject hget =>
    cases x with
    | image b =>
      intro n hn
      have hheld : p.held m o = some (.image b) := by simp [Plan.held, ha, hget]
      have hcount : n = count := hsize hout n (by rw [hheld]; simpa [state, hobject] using hn)
      exact hcount ▸ hi
    | _ => trivial

/-- The test of a lane is the test of the image behind it. -/
theorem spans_iff (count : Nat) :
    l.spans objects count = true ↔
      (o ∉ stage.internal → ∀ n, (p.held m o).bind Host.sampleCount? = some n → n = count) := by
  unfold Lane.spans
  cases hf with
  | inside k hin hk => simp [hin]
  | constant v hout hv => simp [Plan.held, Plan.home_eq_none hv]
  | home a k x hout hv ha hk hobject hget =>
    have hheld : p.held m o = some x := by simp [Plan.held, ha, hget]
    cases x <;> simp [Host.lane, hobject, hheld, hout, Host.sampleCount?]

end Found

/-- Different objects that can be stored have different lanes. -/
theorem Loaded.lane_injective (L : Loaded p s m stage objects) (ho : o ∈ stage.referenced) (hq : q ∈ stage.referenced)
    (hlane : stage.laneOf s objects o = stage.laneOf s objects q) {e : Element} (he : stage.sink p m o = some e) :
    o = q := by
  -- two variables of one number, or two places that would have to be apart
  have hfo := L.found ho
  have hfq := L.found hq
  generalize stage.laneOf s objects o = l at hlane hfo
  generalize stage.laneOf s objects q = l' at hlane hfq
  unfold sink at he
  cases hfo with
  | inside k hin hk =>
    cases hfq with
    | inside k' hin' hk' =>
      cases hlane
      obtain ⟨_, hko, _⟩ := List.idxOf?_eq_some_iff.mp hk
      obtain ⟨_, hkq, _⟩ := List.idxOf?_eq_some_iff.mp hk'
      exact hko.symm.trans hkq
    | constant v hout hv => cases hlane
    | home a k' x hout hv ha hk' hobject hget => cases x <;> cases hlane
  | constant v hout hv => simp [hout, Plan.held, Plan.home_eq_none hv] at he
  | home a k x hout hv ha hk hobject hget =>
    rw [if_neg hout, Plan.held, ha, Option.bind_some, hget, Option.bind_some] at he
    cases x with
    | image b =>
      cases hfq with
      | inside k' hin' hk' => cases hlane
      | constant v hout hv => cases hlane
      | home a' k' y hout' hv' ha' hk' hobject' hget' =>
        cases y with
        | image c =>
          cases hlane
          have haa : a = a' := by simpa [hk] using hk'
          by_contra hne
          exact (L.sound.apart_of_ne L.mem L.mem ho hq hne ha ha').ne haa
        | _ => cases hlane
    | _ => simp [Host.element?] at he

/-! ### Steps -/

/-- A state of the loop represents numbers of the objects at a sample. -/
def Represents (s : Storage) (stage : Stage) (objects : Array Host) (i : Nat) (st : PixelState)
    (env : ObjectId → Int) : Prop :=
  ∀ o ∈ stage.referenced, st.read i (stage.laneOf s objects o) = env o

variable {step : Step} {ps : PixelStep} {env : ObjectId → Int} {st : PixelState} {i count : Nat}

theorem prepare_eq_some :
    prepare .standard p s stage (stage.touched s) objects step = some ps ↔
      ∃ k, Registry.standard.find? step.kernel = some k ∧
        ps = k.pixel.step (step.types p) (step.params.map (stage.lane s (stage.touched s) objects)).toArray := by
  simp only [prepare, Option.map_eq_some_iff, Step.types]
  exact exists_congr fun k => and_congr_right fun _ => eq_comm

/-- The lanes of a step lead to the numbers of its parameters. -/
theorem Represents.args (hrep : Represents s stage objects i st env) (hstep : step ∈ stage.steps) (slot : Nat) :
    st.read i ((step.params.map (stage.lane s (stage.touched s) objects)).toArray.getD slot .absent) =
      step.args env slot := by
  unfold Step.args
  cases hslot : step.params[slot]? with
  | none => simp [hslot, PixelState.read]
  | some param =>
    cases param with
    | none => simp [hslot, lane, PixelState.read]
    | some o =>
      have ho := mem_referenced_of_param hstep (List.mem_of_getElem? hslot)
      simpa [hslot, laneOf] using hrep o ho

variable (L : Loaded p s m stage objects)

include L

/-- One step of the loop is one action on the numbers. -/
theorem Loaded.represents_run (hi : i < count) (hsize : stage.Sized p m count)
    (hshape : (stage.state objects).SameShape st) (hrep : Represents s stage objects i st env)
    (hstep : step ∈ stage.steps) (hps : prepare .standard p s stage (stage.touched s) objects step = some ps) :
    Represents s stage objects i (ps.run i st) (step.act p (stage.sink p m) env) := by
  obtain ⟨k, hk, rfl⟩ := prepare_eq_some.mp hps
  have hvalue : k.pixel.value (step.types p) (fun slot => st.read i
      ((step.params.map (stage.lane s (stage.touched s) objects)).toArray.getD slot .absent)) = step.value p env := by
    simp only [hrep.args hstep, Step.value, hk, Option.map_some, Option.getD_some]
  intro o ho
  simp only [PixelStep.run, PixelStep.lane, PixelRule.step, hvalue, Step.act, Step.target?, hk, Option.bind_some]
  cases htarget : (step.params[k.pixel.target]?).join with
  | none =>
    -- nothing is bound to the target, so nothing is stored
    have hlane : (step.params.map (stage.lane s (stage.touched s) objects)).toArray.getD k.pixel.target .absent =
        .absent := by
      cases hparam : step.params[k.pixel.target]? with
      | none => simp [hparam]
      | some param =>
        rw [hparam] at htarget
        simp [hparam, show param = none from htarget, lane]
    rw [hlane]
    exact hrep o ho
  | some q =>
    have hparam := Option.join_eq_some_iff.mp htarget
    have hq := mem_referenced_of_param hstep (List.mem_of_getElem? hparam)
    have hlane : (step.params.map (stage.lane s (stage.touched s) objects)).toArray.getD k.pixel.target .absent =
        stage.laneOf s objects q := by simp [hparam, laneOf]
    have helement : (step.types p).element k.pixel.target = (laneType p (some q)).element := by
      simp [LaneTypes.element, Step.types, hparam]
    have hsink : st.sink (laneType p (some q)).element (stage.laneOf s objects q) = stage.sink p m q :=
      (hshape.sink_eq _ _).trans (L.found hq).sink_state
    rw [hlane, helement, PixelState.read_write (hshape.inRange ((L.found hq).inRange hi (hsize q hq))), hsink, hrep q hq]
    simp only [Option.some.injEq]
    by_cases hqo : q = o
    · simp [hqo]
    · rw [if_neg hqo]
      split
      · rename_i hsame
        cases he : stage.sink p m q with
        | none => rw [Option.map_none, Option.getD_none, ← hrep q hq, ← hsame, hrep o ho]
        | some e => exact absurd (L.lane_injective hq ho hsame.symm he) hqo
      · exact hrep o ho

/-- The steps of a stage with their parameters found. -/
def pixelSteps (p : Plan) (s : Storage) (stage : Stage) (objects : Array Host) : List PixelStep :=
  stage.steps.filterMap (prepare .standard p s stage (stage.touched s) objects)

theorem Loaded.exists_prepare (hstep : step ∈ stage.steps) :
    ∃ ps, prepare .standard p s stage (stage.touched s) objects step = some ps := by
  obtain ⟨k, hk, _⟩ := (L.sound.stages stage L.mem).steps step hstep
  exact ⟨_, prepare_eq_some.mpr ⟨k, hk.kernel, rfl⟩⟩

theorem Loaded.represents_runAll (hi : i < count) (hsize : stage.Sized p m count) {steps : List Step}
    (hsteps : ∀ step ∈ steps, step ∈ stage.steps) (hshape : (stage.state objects).SameShape st)
    (hrep : Represents s stage objects i st env) :
    Represents s stage objects i
      (PixelStep.runAll (steps.filterMap (prepare .standard p s stage (stage.touched s) objects)) i st)
      (Step.actAll p (stage.sink p m) steps env) := by
  induction steps generalizing st env with
  | nil => exact hrep
  | cons step steps ih =>
    have hstep := hsteps step List.mem_cons_self
    obtain ⟨ps, hps⟩ := L.exists_prepare hstep
    rw [List.filterMap_cons, hps]
    refine ih (fun t ht => hsteps t (List.mem_cons_of_mem _ ht)) (hshape.trans (st.sameShape_write ..)) ?_
    exact L.represents_run hi hsize hshape hrep hstep hps

/-- At every sample the loop leaves the numbers that the steps lead to. -/
theorem Loaded.read_pixelLoop (hpixel : stage.pixelwise = true) (hi : i < count) (hsize : stage.Sized p m count)
    (ho : o ∈ stage.referenced) (hout : o ∉ stage.internal) :
    (pixelLoop (stage.pixelSteps p s objects) count 0 (stage.state objects)).read i (stage.laneOf s objects o) =
      stage.finish p m i o := by
  have hvalid := L.sound.stages stage L.mem
  obtain ⟨at_i, hshape, hstart, hloop⟩ := VisionGraph.read_pixelLoop (stage.pixelSteps p s objects) (Nat.zero_le i)
    (show i < 0 + count by omega) (stage.state objects)
  have hrep : Represents s stage objects i at_i fun q => at_i.read i (stage.laneOf s objects q) := fun _ _ => rfl
  rw [hloop _ ((L.found ho).not_temp hout), pixelSteps,
    L.represents_runAll hi hsize (fun _ hstep => hstep) hshape hrep o ho]
  -- variables may start with any number, since they are written before they are read
  refine Step.actAll_congr (fun step hstep => ?_) (fun step hstep q hq => ?_) hvalid.safe (fun _ _ _ _ => rfl)
    (fun q hq => ⟨_, if_pos hq⟩) (fun q hq hno => ?_) ho fun hin => absurd hin hout
  · obtain ⟨k, hk, hkp⟩ := hvalid.steps step hstep
    exact ⟨k, hk, hkp.trans hpixel⟩
  · exact mem_referenced.mpr ⟨step, hstep, Step.bound_of_reads hq⟩
  · rw [hstart _ ((L.found hq).not_temp hno), (L.found hq).read_state]

/-! ### Guards and sizes -/

theorem Loaded.spans_iff (hstep : step ∈ stage.steps)
    (hps : prepare .standard p s stage (stage.touched s) objects step = some ps) :
    spans objects count ps = true ↔
      ∀ o ∈ step.bound, o ∉ stage.internal → ∀ n, (p.held m o).bind Host.sampleCount? = some n → n = count := by
  obtain ⟨k, hk, rfl⟩ := prepare_eq_some.mp hps
  have hspans : ∀ ps : PixelStep, spans objects count ps = ps.lanes.all (Lane.spans objects count) := fun _ => rfl
  simp only [hspans, PixelRule.step, List.all_toArray, List.all_map, List.all_eq_true]
  constructor
  · intro hall o ho
    obtain ⟨slot, hslot⟩ := Step.mem_bound.mp ho
    have hmem := List.mem_of_getElem? hslot
    exact ((L.found (mem_referenced_of_param hstep hmem)).spans_iff count).mp (hall (some o) hmem)
  · intro hall param hmem
    cases param with
    | none => rfl
    | some o =>
      have ho : o ∈ step.bound := List.mem_filterMap.mpr ⟨some o, hmem, rfl⟩
      exact ((L.found (mem_referenced_of_param hstep hmem)).spans_iff count).mpr (hall o ho)

theorem Loaded.passes_iff (hstep : step ∈ stage.steps)
    (hps : prepare .standard p s stage (stage.touched s) objects step = some ps) :
    ps.passes (stage.state objects) = step.admits p (stage.start p m 0) := by
  obtain ⟨k, hk, rfl⟩ := prepare_eq_some.mp hps
  have hrep : Represents s stage objects 0 (stage.state objects) (stage.start p m 0) := fun o ho =>
    (L.found ho).read_state 0
  simp only [PixelStep.passes, PixelStep.lane, PixelRule.step, hrep.args hstep, Step.admits, hk, Option.map_some,
    Option.getD_some]

/-! ### Updates -/

/-- What a stage writes stands in the state of the loop where its home does, with the numbers that the steps lead to. -/
theorem Loaded.getElem?_pixelLoop (hpixel : stage.pixelwise = true) (hsize : stage.Sized p m count)
    (ho : o ∈ stage.writes) :
    ∃ (a : Place) (k : Nat) (x : Host), p.home o = some a ∧ (stage.touched s)[k]? = some a ∧ m.get? a = some x ∧
      (pixelLoop (stage.pixelSteps p s objects) count 0 (stage.state objects)).objects[k]? =
        some (x.refill fun i => stage.finish p m i o) := by
  have href := referenced_of_writes ho
  have hout := (mem_writes.mp ho).2
  have hread := fun (i : Nat) (hi : i < count) => L.read_pixelLoop hpixel hi hsize href hout
  have hf := L.found href
  generalize stage.laneOf s objects o = l at hread hf
  cases hf with
  | inside k hin hk => exact absurd hin hout
  | constant v _ hv =>
    obtain ⟨r, hr, hv⟩ := Option.bind_eq_some_iff.mp hv
    have hconst := L.sound.not_constant L.mem ho hr
    simp [DataObject.isConstant, hv] at hconst
  | home a k x _ hv ha hk hobject hget =>
    refine ⟨a, k, x, ha, hk, hget, ?_⟩
    -- the loop keeps the header of the image, and its samples are known from the reads
    have hshape := (sameShape_pixelLoop (stage.pixelSteps p s objects) count 0 (stage.state objects)).objects k
    have hstate : (stage.state objects).objects[k]? = some x := hobject
    rw [hstate, Option.map_some] at hshape
    obtain ⟨y, hy, hblank⟩ := Option.map_eq_some_iff.mp hshape
    rw [hy, Host.eq_refill hblank fun b hb i hi => ?_]
    subst hb
    have hcount : b.samples.size = count := hsize o href hout _ (by simp [Plan.held, ha, hget, Host.sampleCount?])
    rw [← hread i (hcount ▸ hi)]
    cases y with
    | image c => simp [Host.lane, PixelState.read, hy, Host.sample]
    | _ => simp [Host.blank] at hblank

theorem Loaded.updates_eq (hpixel : stage.pixelwise = true) (hsize : stage.Sized p m count) :
    stage.updates s (pixelLoop (stage.pixelSteps p s objects) count 0 (stage.state objects)).objects =
      stage.results p m := by
  rw [updates, writtenPlaces, List.filterMap_filterMap, results]
  refine List.filterMap_congr fun o ho => ?_
  obtain ⟨a, k, x, ha, hk, hget, hloop⟩ := L.getElem?_pixelLoop hpixel hsize ho
  have hplace : s.place? o = some a :=
    (L.sound.place?_eq_home L.storage L.mem (referenced_of_writes ho) (mem_writes.mp ho).2).trans ha
  simp only [hplace, Plan.held, ha, Option.bind_some, idxOf?_touched.mpr hk, hloop, hget, Option.map_some]

/-- The loop runs when the images have the right size and all guards hold. -/
theorem Loaded.mapM_prepare :
    stage.steps.mapM (prepare .standard p s stage (stage.touched s) objects) = some (stage.pixelSteps p s objects) :=
  mapM_eq_some_filterMap.mpr ⟨fun _ h => L.exists_prepare h, rfl⟩

omit L in
theorem all_pixelSteps {f : PixelStep → Bool} : (stage.pixelSteps p s objects).all f = true ↔ ∀ step ∈ stage.steps,
    ∀ ps, prepare .standard p s stage (stage.touched s) objects step = some ps → f ps = true := by
  simp only [pixelSteps, List.all_eq_true, List.mem_filterMap]
  exact ⟨fun hall step hstep ps hps => hall ps ⟨step, hstep, hps⟩,
    fun hall ps ⟨step, hstep, hps⟩ => hall step hstep ps hps⟩

/-- Tests of lanes are tests of the contents behind them. -/
theorem Loaded.all_spans (count : Nat) :
    (stage.pixelSteps p s objects).all (spans objects count) = true ↔ stage.Sized p m count := by
  rw [all_pixelSteps]
  constructor
  · intro hall o ho
    obtain ⟨step, hstep, hbound⟩ := mem_referenced.mp ho
    obtain ⟨ps, hps⟩ := L.exists_prepare hstep
    exact (L.spans_iff hstep hps).mp (hall step hstep ps hps) o hbound
  · intro hsize step hstep ps hps
    exact (L.spans_iff hstep hps).mpr fun o ho => hsize o (mem_referenced.mpr ⟨step, hstep, ho⟩)

theorem Loaded.all_passes :
    (stage.pixelSteps p s objects).all (·.passes (stage.state objects)) = true ↔
      ∀ step ∈ stage.steps, step.admits p (stage.start p m 0) = true := by
  rw [all_pixelSteps]
  refine forall₂_congr fun step hstep => ?_
  obtain ⟨ps, hps⟩ := L.exists_prepare hstep
  simp only [hps, Option.some.injEq, forall_eq', L.passes_iff hstep hps]

theorem Loaded.computePixels_eq_some {out : Array Host} :
    computePixels .standard p s stage objects = some out ↔ ∃ count, p.extent? stage = some count ∧
      stage.Sized p m count ∧ (∀ step ∈ stage.steps, step.admits p (stage.start p m 0) = true) ∧
      out = (pixelLoop (stage.pixelSteps p s objects) count 0 (stage.state objects)).objects := by
  unfold computePixels
  rw [L.mapM_prepare]
  cases p.extent? stage with
  | none => simp
  | some count =>
    change (if _ then some (pixelLoop _ count 0 (stage.state objects)).objects else none) = some out ↔ _
    simp only [Option.ite_none_right_eq_some, Bool.and_eq_true, L.all_spans, Option.some.injEq, exists_eq_left',
      and_assoc]
    change _ ∧ (stage.pixelSteps p s objects).all (·.passes (stage.state objects)) = true ∧ _ ↔ _
    rw [L.all_passes, eq_comm (a := out)]

end Stage

/-- A stage can load its objects when every object with a home holds something. -/
theorem Plan.Sound.exists_load_iff {p : Plan} {s : Storage} {m : Memory} {stage : Stage} (h : p.Sound)
    (hs : Storage.ofPlan p = .ok s) (hstage : stage ∈ p.stages) :
    (∃ objects, m.load (stage.touched s) = some objects) ↔ ∀ o ∈ stage.referenced,
      o ∉ stage.internal → ∀ a, p.home o = some a → ∃ x, p.held m o = some x := by
  constructor
  · rintro ⟨objects, hload⟩ o ho hi a ha
    rw [Plan.held, ha]
    refine (Memory.load_eq_some.mp hload).1 a (Stage.mem_touched.mpr ⟨o, ho, ?_⟩)
    exact (h.place?_eq_home hs hstage ho hi).trans ha
  · intro hall
    refine ⟨_, Memory.load_eq_some.mpr ⟨fun a ha => ?_, rfl⟩⟩
    obtain ⟨o, ho, hi, hhome⟩ := h.home_of_touched hs hstage ha
    obtain ⟨x, hx⟩ := hall o ho hi a hhome
    rw [Plan.held, hhome] at hx
    exact ⟨x, hx⟩

/-- A pixel-wise stage succeeds when it fits the memory, and does at every sample what its steps do. -/
theorem Plan.Sound.update?_pixelwise {p : Plan} {s : Storage} {m : Memory} {stage : Stage} (h : p.Sound)
    (hs : Storage.ofPlan p = .ok s) (hstage : stage ∈ p.stages) (hpixel : stage.pixelwise = true)
    {us : List (Place × Host)} : stage.update? .standard p s m = some us ↔
      ∃ count, stage.Fits p m count ∧ us = stage.results p m := by
  have hcontents := h.exists_load_iff hs hstage (m := m)
  simp only [Stage.update?, Option.bind_eq_some_iff, Option.map_eq_some_iff, Stage.compute, hpixel, if_true]
  constructor
  · rintro ⟨objects, hload, out, hout, rfl⟩
    have L : Stage.Loaded p s m stage objects := ⟨h, hs, hstage, hload⟩
    obtain ⟨count, hextent, hsize, hadmits, rfl⟩ := L.computePixels_eq_some.mp hout
    exact ⟨count, ⟨hextent, hcontents.mp ⟨objects, hload⟩, hsize, hadmits⟩, L.updates_eq hpixel hsize⟩
  · rintro ⟨count, hfits, rfl⟩
    obtain ⟨objects, hload⟩ := hcontents.mpr hfits.contents
    have L : Stage.Loaded p s m stage objects := ⟨h, hs, hstage, hload⟩
    refine ⟨objects, hload, _, L.computePixels_eq_some.mpr ⟨count, hfits.extent, hfits.sizes, hfits.admits, rfl⟩, ?_⟩
    exact L.updates_eq hpixel hfits.sizes

end VisionGraph
