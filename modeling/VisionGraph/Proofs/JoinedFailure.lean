import VisionGraph.Proofs.Failure

/-! Failing runs of joined stages. A joint takes the guards of the producer behind the stages between. So a run that
stops at the producer may go on for a while once the stages are joined, and it stops at a stage between or at the joint;
at all other stages both runs stop alike. What they leave differs in what the stages write that only one of them has
come to. -/
namespace VisionGraph

section Lists

variable {α β : Type}

/-- Two ways to take a member out of a list: one of them stands before the other one, or they are the same. -/
theorem append_cons_cases {before rest front back : List α} {a c : α} (h : before ++ a :: rest = front ++ c :: back) :
    (∃ far, front = before ++ a :: far ∧ rest = far ++ c :: back) ∨ (before = front ∧ a = c ∧ rest = back) ∨
      ∃ near, before = front ++ c :: near ∧ back = near ++ a :: rest := by
  rcases List.append_eq_append_iff.mp h with ⟨gap, hfront, hrest⟩ | ⟨gap, hbefore, hback⟩
  · cases gap with
    | nil =>
      obtain ⟨rfl, rfl⟩ := List.cons_eq_cons.mp hrest
      exact .inr (.inl ⟨by simpa using hfront.symm, rfl, rfl⟩)
    | cons x far =>
      obtain ⟨rfl, rfl⟩ := List.cons_eq_cons.mp hrest
      exact .inl ⟨far, hfront, rfl⟩
  · cases gap with
    | nil =>
      obtain ⟨rfl, rfl⟩ := List.cons_eq_cons.mp hback
      exact .inr (.inl ⟨by simpa using hbefore, rfl, rfl⟩)
    | cons x near =>
      obtain ⟨rfl, rfl⟩ := List.cons_eq_cons.mp hback
      exact .inr (.inr ⟨near, hbefore, rfl⟩)

/-- A list that goes into another one is cut where the other one is. -/
theorem exists_split_of_sublist {f : α → β} {near far l : List α} {a : α}
    (h : ((near ++ a :: far).map f).Sublist (l.map f)) : ∃ near' c far', l = near' ++ c :: far' ∧ f c = f a ∧
      (near.map f).Sublist (near'.map f) ∧ (far.map f).Sublist (far'.map f) := by
  rw [List.map_append, List.map_cons] at h
  obtain ⟨first, second, hl, hnear, hrest⟩ := List.append_sublist_iff.mp h
  obtain ⟨x, y, rfl, hmem, hfar⟩ := List.cons_sublist_iff.mp hrest
  obtain ⟨x₀, x₁, rfl⟩ := List.append_of_mem hmem
  have hsplit : l.map f = (first ++ x₀) ++ f a :: (x₁ ++ y) := by simpa using hl
  obtain ⟨near', rest, rfl, hnear', hrest'⟩ := List.map_eq_append_iff.mp hsplit
  obtain ⟨c, far', rfl, hc, hfar'⟩ := List.map_eq_cons_iff.mp hrest'
  refine ⟨near', c, far', rfl, hc, ?_, ?_⟩
  · rw [hnear']
    exact hnear.trans (List.sublist_append_left first x₀)
  · rw [hfar']
    exact hfar.trans (List.sublist_append_right x₁ y)

end Lists

/-- The guard of a depth conversion looks at its shift. -/
theorem Step.ShiftOutside.congr {p q : Plan} {m n : Memory} {step : Step} (h : step.ShiftOutside p m)
    (hheld : ∀ o, step.params[3]? = some (some o) → q.held n o = p.held m o) : step.ShiftOutside q n := by
  obtain ⟨hkernel, o, v, hparam, hv, hout⟩ := h
  exact ⟨hkernel, o, v, hparam, (hheld o hparam).trans hv, hout⟩

/-- What a stage keeps when another one is joined to it: its last step and what it writes. -/
def Stage.ending (stage : Stage) : Option Step × List ObjectId := (stage.steps.getLast?, stage.writes)

namespace Plan

variable {p q : Plan} {s u : Storage} {b : Bindings} {m n : Memory} {stage : Stage}

/-! ### Runs that stop -/

/-- What a run needs to start and to end with a status. -/
structure Ready (p : Plan) (b : Bindings) : Prop where
  sound : p.Sound
  uniform : p.Uniform
  extrema : p.HasExtrema
  hosts : p.Hosts b

/-- A run stops at a stage and leaves a memory. -/
structure Stops (p : Plan) (s : Storage) (b : Bindings) (before : List Stage) (failing : Stage) (rest : List Stage)
    (n : Memory) : Prop where
  stages : p.stages = before ++ failing :: rest
  run : ∃ mid, before.foldlM (fun m stage => stage.run .standard p s m) ⟨b, p.freshScratch s⟩ = .ok mid ∧
    failing.run .standard p s mid = .error (.failed n)

/-- Stages write nothing at a place. -/
def Leaves (p : Plan) (stages : List Stage) (a : Place) : Prop :=
  ∀ stage ∈ stages, ∀ o ∈ stage.writes, ∀ c, p.home o = some c → c.Apart a

theorem Sound.get?_of_run (h : p.Sound) (hs : Storage.ofPlan p = .ok s) (hstage : stage ∈ p.stages) {a : Place}
    (ha : p.Leaves [stage] a)
    (hrun : stage.run .standard p s m = .ok n ∨ stage.run .standard p s m = .error (.failed n)) : n.get? a = m.get? a := by
  obtain ⟨us, rfl, hus⟩ := h.footprint hs hstage hrun
  apply Memory.get?_setAll
  intro v hv
  obtain ⟨o, ho, hhome⟩ := h.home_of_written hs hstage (hus v hv)
  exact ha stage (List.mem_singleton_self stage) o ho _ hhome

theorem Sound.get?_of_foldlM (h : p.Sound) (hs : Storage.ofPlan p = .ok s) {l : List Stage}
    (hl : ∀ stage ∈ l, stage ∈ p.stages) {a : Place} (ha : p.Leaves l a)
    (hrun : l.foldlM (fun m stage => stage.run .standard p s m) m = .ok n) : n.get? a = m.get? a := by
  refine foldlM_induction (fun x => x.get? a = m.get? a) (fun stage hstage x y hx hy => ?_) rfl hrun
  rw [← hx]
  refine h.get?_of_run hs (hl stage hstage) (fun other hother => ?_) (.inl hy)
  exact ha other (List.mem_singleton.mp hother ▸ hstage)

namespace Ready

theorem start (R : p.Ready b) (hs : Storage.ofPlan p = .ok s) : Memory.start p s b = some ⟨b, p.freshScratch s⟩ :=
  (R.hosts.start R.sound hs).1

/-- Stages that succeed leave a memory that conforms to the plan. -/
theorem conforms (R : p.Ready b) (hs : Storage.ofPlan p = .ok s) {l : List Stage} (hl : ∀ stage ∈ l, stage ∈ p.stages)
    (hrun : l.foldlM (fun m stage => stage.run .standard p s m) ⟨b, p.freshScratch s⟩ = .ok m) : p.Conforms s m := by
  have hfirst := (R.hosts.start R.sound hs).2
  exact hfirst.keeps (hfirst.foldlM_keeps R.sound hs R.uniform R.extrema hl hrun)

/-- Stages succeed, or one of them is the first that fails. -/
theorem advance (R : p.Ready b) (hs : Storage.ofPlan p = .ok s) {l : List Stage} (hl : ∀ stage ∈ l, stage ∈ p.stages)
    (hm : p.Conforms s m) : (∃ n, l.foldlM (fun m stage => stage.run .standard p s m) m = .ok n) ∨
      ∃ near stage far mid n, l = near ++ stage :: far ∧
        near.foldlM (fun m stage => stage.run .standard p s m) m = .ok mid ∧
        stage.run .standard p s mid = .error (.failed n) := by
  rcases runFrom_cases (r := .standard) (p := p) (s := s) 0 l m with ⟨n, _, hn⟩ | ⟨i, stage, mid, hi, hmid, hend⟩
  · exact .inl ⟨n, hn⟩
  · obtain ⟨near, far, rfl, rfl⟩ := exists_append_of_getElem? hi
    rw [List.take_left] at hmid
    rcases hend with ⟨n, hfail, _⟩ | ⟨hstray, _⟩
    · exact .inr ⟨near, stage, far, mid, n, rfl, hmid, hfail⟩
    · -- a memory that conforms leads no stage astray
      have hnear : ∀ x ∈ near, x ∈ p.stages := fun x hx => hl x (List.mem_append_left _ hx)
      have hconforms := hm.keeps (hm.foldlM_keeps R.sound hs R.uniform R.extrema hnear hmid)
      obtain ⟨n, _, hends⟩ := hconforms.stage_ends R.sound hs R.uniform R.extrema (hl stage (by simp))
      simp [hstray] at hends

end Ready

/-- The shift of a depth conversion is a scalar that is not inside a stage. -/
theorem Sound.shift_scalar (h : p.Sound) (hstage : stage ∈ p.stages) {step : Step} (hstep : step ∈ stage.steps)
    (hkernel : step.kernel = "vx.convert_depth") {o : ObjectId} (ho : step.params[3]? = some (some o)) :
    o ∈ stage.referenced ∧ o ∉ stage.internal ∧ ∃ r a, p.object? o = some r ∧ r.info = .scalar a := by
  obtain ⟨k, hk, _⟩ := (h.stages stage hstage).steps step hstep
  have hdepth : k = Kernel.convertDepth := (hk.kernel_eq_iff Kernel.convertDepth rfl).mp hkernel
  obtain ⟨o', r, a, hparam, href, hout, hr, hinfo, _⟩ := h.exists_shift hstage hstep (hdepth ▸ hk)
  rw [ho, Option.some.injEq, Option.some.injEq] at hparam
  subst hparam
  exact ⟨href, hout, r, a, hr, info_eq hr hinfo⟩

/-- A stage of both plans that fails keeps the contents of what is used equal. -/
theorem Narrows.run_failed (N : Narrows p q s u) (hmem : stage ∈ p.stages) (hmem' : stage ∈ q.stages)
    (hagree : Memory.Agree q.Uses m n) {m' : Memory} (hrun : stage.run .standard p s m = .error (.failed m')) :
    ∃ n', stage.run .standard q u n = .error (.failed n') ∧ Memory.Agree q.Uses m' n' := by
  have htouched : ∀ a ∈ stage.touched s, n.get? a = m.get? a := by
    intro a ha
    refine (hagree.get?_eq fun o hscratch => ?_).symm
    obtain ⟨q', href, hi, hhome⟩ := N.wide.home_of_touched N.storage hmem ha
    exact ⟨stage, hmem', eq_of_home_scratch (hscratch ▸ hhome) ▸ ⟨href, hi⟩⟩
  obtain ⟨us, rfl, _, hfail⟩ := N.wide.run_failed N.storage hmem htouched hrun
  have hsame : stage.run .standard q u n = stage.run .standard p s n :=
    N.wide.run_eq N.narrow N.storage N.storage' N.entries hmem hmem' (N.object stage hmem')
  exact ⟨_, hsame.trans hfail, hagree.setAll us⟩

/-! ### Runs that stop later -/

/-- Memories that agree on what a plan uses, but for what some stages write. -/
def AgreeBeside (q : Plan) (passed : List Stage) (m n : Memory) : Prop :=
  ∀ a : Place, (∀ o, a = .scratch o → q.Uses o) → q.Leaves passed a → m.get? a = n.get? a

theorem AgreeBeside.of_agree (h : Memory.Agree q.Uses m n) (passed : List Stage) : q.AgreeBeside passed m n :=
  fun _ ha _ => h.get?_eq ha

/-- How a run that stops relates to the run of a plan with joined stages: that one stops at the same stage, or some
stages later, and all that is still to come was to come. -/
structure Defers (q : Plan) (failing : Stage) (passed later : List Stage) (n : Memory) (failing' : Stage)
    (rest' : List Stage) (n' : Memory) : Prop where
  ending : (failing :: passed).getLast?.map Stage.ending = some failing'.ending
  sublist : (rest'.map Stage.ending).Sublist (later.map Stage.ending)
  agree : q.AgreeBeside passed n n'
  /-- A stage over whole objects is never joined. -/
  block : failing.pixelwise = false → failing' = failing ∧ passed = []

/-- The run of a plan stops when another one does, or later. -/
def StopsLater (q : Plan) (u : Storage) (b : Bindings) (failing : Stage) (rest : List Stage) (n : Memory) : Prop :=
  ∃ passed later before' failing' rest' n', rest = passed ++ later ∧ q.Stops u b before' failing' rest' n' ∧
    q.Defers failing passed later n failing' rest' n'

namespace Fusable

variable {front between back : List Stage} {producer consumer : Stage} {t : ObjectId}
  (hf : p.Fusable front between back producer consumer t)

include hf

theorem ready (R : p.Ready b) : (p.joined front between back producer consumer t).Ready b where
  sound := hf.sound R.sound
  uniform := hf.uniform R.sound R.uniform
  extrema stage hstage step hstep := by
    rcases mem_joined.mp hstage with hother | rfl
    · exact R.extrema stage (hf.mem.2.2 stage hother) step hstep
    · rcases List.mem_append.mp hstep with hstep | hstep
      · exact R.extrema producer hf.mem.1 step hstep
      · exact R.extrema consumer hf.mem.2.1 step hstep
  hosts := R.hosts

/-- The joined stage ends like the consumer. -/
theorem ending_join (h : p.Sound) : (join producer consumer t).ending = consumer.ending := by
  have hlast : (producer.steps ++ consumer.steps).getLast? = consumer.steps.getLast? :=
    List.getLast?_append_of_ne_nil _ (h.stages consumer hf.mem.2.1).nonempty
  exact Prod.ext hlast (hf.writes_join h.woven)

/-- The shift of a conversion in either part is used by the joined stage. -/
theorem uses_shift (h : p.Sound) {part : Stage} (hpart : part = producer ∨ part = consumer) {step : Step}
    (hstep : step ∈ part.steps) (hkernel : step.kernel = "vx.convert_depth") {o : ObjectId}
    (ho : step.params[3]? = some (some o)) : (p.joined front between back producer consumer t).Uses o := by
  have hmem : part ∈ p.stages := by
    rcases hpart with rfl | rfl
    · exact hf.mem.1
    · exact hf.mem.2.1
  obtain ⟨href, hout, r, a, hr, hinfo⟩ := h.shift_scalar hmem hstep hkernel ho
  have hne : o ≠ t := by
    intro he
    obtain ⟨image, himage⟩ := info_eq_image_of_private (h.objects o r hr) hr (he ▸ hf.hidden)
    rw [hinfo] at himage
    contradiction
  refine ⟨_, mem_joined.mpr (.inr rfl), hf.outside_join h.woven hne ?_⟩
  rcases hpart with rfl | rfl
  · exact .inl ⟨href, hout⟩
  · exact .inr ⟨href, hout⟩

/-- Nothing after the producer writes the shift of one of its conversions. -/
theorem leaves_shift (h : p.Sound) {step : Step} (hstep : step ∈ producer.steps)
    (hkernel : step.kernel = "vx.convert_depth") {o : ObjectId} (ho : step.params[3]? = some (some o)) {a : Place}
    (ha : p.home o = some a) : p.Leaves between a := by
  intro stage hstage w hw c hc
  have href := (h.shift_scalar hf.mem.1 hstep hkernel ho).1
  have hmem : stage ∈ p.stages := hf.mem.2.2 stage (List.mem_append_left back (List.mem_append_right front hstage))
  have hne : w ≠ o := by
    intro he
    exact h.woven.not_written_after hf.stages (List.mem_append_left _ hstage) hw (he ▸ href)
  exact h.apart_of_ne hmem hf.mem.1 (Stage.referenced_of_writes hw) href hne hc ha

/-- A conversion that is out of range stops the joined stage. -/
theorem join_fails (R : p.Ready b) (hu : Storage.ofPlan (p.joined front between back producer consumer t) = .ok u)
    (hn : (p.joined front between back producer consumer t).Conforms u n) {step : Step}
    (hstep : step ∈ producer.steps ++ consumer.steps) (hshift : step.ShiftOutside p n) :
    (join producer consumer t).run .standard (p.joined front between back producer consumer t) u n =
      .error (.failed n) := by
  have hready := hf.ready R
  refine (hn.run_pixels_failed hready.sound hu hready.uniform (mem_joined.mpr (.inr rfl)) rfl).mpr ⟨rfl, step, hstep, ?_⟩
  exact hshift

variable {before rest : List Stage} {failing : Stage} {mid : Memory} (R : p.Ready b) (hs : Storage.ofPlan p = .ok s)
  (hu : Storage.ofPlan (p.joined front between back producer consumer t) = .ok u)

include R hs hu

/-- A stage that is joined to none fails in both plans. -/
theorem stops_other {l r : List Stage} {nid : Memory} (hother : failing ∈ front ++ between ++ back)
    (hfail : failing.run .standard p s mid = .error (.failed n))
    (hsplit : (p.joined front between back producer consumer t).stages = l ++ failing :: r)
    (hnid : l.foldlM (fun m stage => stage.run .standard (p.joined front between back producer consumer t) u m)
      ⟨b, (p.joined front between back producer consumer t).freshScratch u⟩ = .ok nid)
    (hagree : Memory.Agree (p.joined front between back producer consumer t).Uses mid nid)
    (hothers : (r.map Stage.ending).Sublist (rest.map Stage.ending)) :
    (p.joined front between back producer consumer t).StopsLater u b failing rest n := by
  obtain ⟨n', hfail', hagree'⟩ := (hf.narrows R.sound hs hu).run_failed (hf.mem.2.2 failing hother)
    (mem_joined.mpr (.inl hother)) hagree hfail
  exact ⟨[], rest, l, failing, r, n', rfl, ⟨hsplit, nid, hnid, hfail'⟩, rfl, hothers, .of_agree hagree' [],
    fun _ => ⟨rfl, rfl⟩⟩

/-- A stage before the producer fails in both plans. -/
theorem stops_before {far : List Stage} (hfront : front = before ++ failing :: far)
    (hmid : before.foldlM (fun m stage => stage.run .standard p s m) ⟨b, p.freshScratch s⟩ = .ok mid)
    (hfail : failing.run .standard p s mid = .error (.failed n)) :
    (p.joined front between back producer consumer t).StopsLater u b failing
      (far ++ producer :: (between ++ consumer :: back)) n := by
  have hothers : ∀ stage ∈ before ++ failing :: far, stage ∈ front ++ between ++ back := by
    intro stage hstage
    rw [hfront]
    exact List.mem_append_left back (List.mem_append_left between hstage)
  obtain ⟨nid, hnid, hagree, _⟩ := hf.follow R.sound hs hu (R.start hs) ((hf.ready R).start hu)
    (fun stage hstage => hothers stage (List.mem_append_left _ hstage)) hmid
  refine hf.stops_other R hs hu (r := far ++ between ++ join producer consumer t :: back)
    (hothers failing (by simp)) hfail ?_ hnid hagree ?_
  · simp [joined, hfront]
  · -- the joined stage ends like the consumer, and the producer is gone
    simp only [List.map_append, List.map_cons, hf.ending_join R.sound, List.append_assoc]
    exact (List.Sublist.refl _).append (List.sublist_cons_self _ _)

/-- A stage between fails in both plans: the producer may as well run after it. -/
theorem stops_between {near far : List Stage} (hbetween : between = near ++ failing :: far)
    (hmid : (front ++ producer :: near).foldlM (fun m stage => stage.run .standard p s m) ⟨b, p.freshScratch s⟩ = .ok
      mid) (hfail : failing.run .standard p s mid = .error (.failed n)) :
    (p.joined front between back producer consumer t).StopsLater u b failing (far ++ consumer :: back) n := by
  have hothers : ∀ stage ∈ front ++ (near ++ failing :: far), stage ∈ front ++ between ++ back := by
    intro stage hstage
    rw [hbetween]
    exact List.mem_append_left back hstage
  obtain ⟨x, us, hx, _, rfl, hscratch⟩ := hf.move_producer R.sound hs hbetween hmid
  obtain ⟨nid, hnid, hagree, _⟩ := hf.follow R.sound hs hu (R.start hs) ((hf.ready R).start hu)
    (fun stage hstage => hothers stage (by simp only [List.mem_append] at hstage ⊢; tauto)) hx
  have hagree := hagree.setAll_left fun v hv => ⟨t, hscratch v hv, hf.not_uses R.sound⟩
  refine hf.stops_other R hs hu (r := far ++ join producer consumer t :: back) (hothers failing (by simp)) hfail ?_
    hnid hagree ?_
  · simp [joined, hbetween]
  · simp only [List.map_append, List.map_cons, hf.ending_join R.sound]
    exact List.Sublist.refl _

/-- A stage after the consumer fails in both plans. -/
theorem stops_after {near : List Stage} (hback : back = near ++ failing :: rest)
    (hmid : (front ++ producer :: (between ++ consumer :: near)).foldlM (fun m stage => stage.run .standard p s m) ⟨b,
      p.freshScratch s⟩ = .ok mid) (hfail : failing.run .standard p s mid = .error (.failed n)) :
    (p.joined front between back producer consumer t).StopsLater u b failing rest n := by
  obtain ⟨nid, hnid, hagree⟩ := hf.run_joined R.sound hs hu (R.start hs) ((hf.ready R).start hu) hback hmid
  refine hf.stops_other R hs hu (by simp [hback]) hfail ?_ hnid hagree (.refl _)
  simp [joined, hback]

/-- Where the consumer fails, the joined stage does. -/
theorem stops_consumer
    (hmid : (front ++ producer :: between).foldlM (fun m stage => stage.run .standard p s m) ⟨b, p.freshScratch s⟩ =
      .ok mid) (hfail : consumer.run .standard p s mid = .error (.failed n)) :
    (p.joined front between back producer consumer t).StopsLater u b consumer back n := by
  have hbefore : ∀ stage ∈ front ++ producer :: between, stage ∈ p.stages := by
    intro stage hstage
    rw [hf.stages]
    simp only [List.mem_append, List.mem_cons] at hstage ⊢
    tauto
  have hothers : ∀ stage ∈ front ++ between, stage ∈ front ++ between ++ back := fun _ => List.mem_append_left back
  have hconforms := R.conforms hs hbefore hmid
  obtain ⟨rfl, step, hstep, hshift⟩ :=
    (hconforms.run_pixels_failed R.sound hs R.uniform hf.mem.2.1 hf.pixelwise.2).mp hfail
  obtain ⟨x, us, hx, _, rfl, hscratch⟩ := hf.move_producer R.sound hs (List.append_nil between).symm hmid
  obtain ⟨nid, hnid, hagree, _⟩ := hf.follow R.sound hs hu (R.start hs) ((hf.ready R).start hu) hothers hx
  have hagree := hagree.setAll_left fun v hv => ⟨t, hscratch v hv, hf.not_uses R.sound⟩
  have hshift' : step.ShiftOutside p nid := by
    refine hshift.congr fun o ho => ?_
    exact held_of_agree hagree (hf.uses_shift R.sound (.inr rfl) hstep hshift.1 ho)
  have hconforms' := (hf.ready R).conforms hu (fun x hx => mem_joined.mpr (.inl (hothers x hx))) hnid
  refine ⟨[], back, front ++ between, join producer consumer t, back, nid, rfl, ⟨rfl, nid, hnid, ?_⟩, ?_, .refl _,
    .of_agree hagree [], fun hblock => ?_⟩
  · exact hf.join_fails R hu hconforms' (List.mem_append_right _ hstep) hshift'
  · rw [hf.ending_join R.sound]
    rfl
  · rw [hf.pixelwise.2] at hblock
    contradiction

/-- Where the producer fails, the stages between run first in the joined plan. One of them may fail then; if none does, the
joined stage fails. -/
theorem stops_producer (hmid : front.foldlM (fun m stage => stage.run .standard p s m) ⟨b, p.freshScratch s⟩ = .ok mid)
    (hfail : producer.run .standard p s mid = .error (.failed n)) :
    (p.joined front between back producer consumer t).StopsLater u b producer (between ++ consumer :: back) n := by
  have hready := hf.ready R
  have hfront : ∀ stage ∈ front, stage ∈ front ++ between ++ back := fun stage hstage => by simp [hstage]
  have hbetween : ∀ stage ∈ between, stage ∈ front ++ between ++ back := fun stage hstage => by simp [hstage]
  have hmem : ∀ stage ∈ front ++ between ++ back, stage ∈ (p.joined front between back producer consumer t).stages :=
    fun stage hstage => mem_joined.mpr (.inl hstage)
  have hconforms := R.conforms hs (fun x hx => hf.mem.2.2 x (hfront x hx)) hmid
  obtain ⟨rfl, step, hstep, hshift⟩ :=
    (hconforms.run_pixels_failed R.sound hs R.uniform hf.mem.1 hf.pixelwise.1).mp hfail
  have hblock : producer.pixelwise = false → ∀ {P : Prop}, P := by
    intro hblock
    rw [hf.pixelwise.1] at hblock
    contradiction
  obtain ⟨nf, hnf, hagree, _⟩ := hf.follow R.sound hs hu (R.start hs) (hready.start hu) hfront hmid
  have hconforms' := hready.conforms hu (fun x hx => hmem x (hfront x hx)) hnf
  rcases hready.advance hu (fun x hx => hmem x (hbetween x hx)) hconforms' with
    ⟨nb, hnb⟩ | ⟨near, stage, far, nid, n', hsplit, hnid, hfail'⟩
  · -- the shift is still what it was when the joined stage looks at it
    have hrun := foldlM_append_eq_ok.mpr ⟨nf, hnf, hnb⟩
    have hheld : ∀ a, (p.joined front between back producer consumer t).Leaves between a → nb.get? a = nf.get? a :=
      fun a ha => hready.sound.get?_of_foldlM hu (fun x hx => hmem x (hbetween x hx)) ha hnb
    have hshift' : step.ShiftOutside p nb := by
      refine hshift.congr fun o ho => ?_
      rw [← held_of_agree (p := p) hagree (hf.uses_shift R.sound (.inl rfl) hstep hshift.1 ho)]
      exact held_congr rfl fun a ha => hheld a (hf.leaves_shift R.sound hstep hshift.1 ho ha)
    have hlast := hready.conforms hu (fun x hx => hmem x (List.mem_append_left back hx)) hrun
    refine ⟨between ++ [consumer], back, front ++ between, join producer consumer t, back, nb, by simp,
      ⟨rfl, nb, hrun, hf.join_fails R hu hlast (List.mem_append_left _ hstep) hshift'⟩, ?_, .refl _, ?_, fun h => hblock h⟩
    · rw [hf.ending_join R.sound]
      simp [List.getLast?_cons]
    · intro a ha hleaves
      rw [hagree.get?_eq ha, hheld a fun x hx => hleaves x (List.mem_append_left _ hx)]
  · have hstage : stage ∈ front ++ between ++ back := hbetween stage (by simp [hsplit])
    have hnear : ∀ x ∈ near, x ∈ front ++ between ++ back := fun x hx => hbetween x (by simp [hsplit, hx])
    refine ⟨near ++ [stage], far ++ consumer :: back, front ++ near, stage, far ++ join producer consumer t :: back, n',
      by simp [hsplit], ⟨by simp [joined, hsplit], nid, foldlM_append_eq_ok.mpr ⟨nf, hnf, hnid⟩, hfail'⟩, ?_, ?_, ?_,
      fun h => hblock h⟩
    · simp [List.getLast?_cons]
    · simp only [List.map_append, List.map_cons, hf.ending_join R.sound]
      exact List.Sublist.refl _
    · intro a ha hleaves
      rw [hagree.get?_eq ha,
        hready.sound.get?_of_run hu (hmem stage hstage) (fun x hx => hleaves x (List.mem_append_right _ hx)) (.inr hfail'),
        hready.sound.get?_of_foldlM hu (fun x hx => hmem x (hnear x hx)) (fun x hx => hleaves x (List.mem_append_left _ hx))
          hnid]

/-- A run of the joined plan stops where a run of the plan does, or later. -/
theorem stops_later (hstops : p.Stops s b before failing rest n) :
    (p.joined front between back producer consumer t).StopsLater u b failing rest n := by
  obtain ⟨hstages, mid, hmid, hfail⟩ := hstops
  rw [hf.stages] at hstages
  rcases append_cons_cases hstages.symm with ⟨far, hfront, rfl⟩ | ⟨rfl, rfl, rfl⟩ | ⟨near, rfl, hrest⟩
  · exact hf.stops_before R hs hu hfront hmid hfail
  · exact hf.stops_producer R hs hu hmid hfail
  · rcases append_cons_cases hrest.symm with ⟨far, hbetween, rfl⟩ | ⟨rfl, rfl, rfl⟩ | ⟨near, rfl, hback⟩
    · exact hf.stops_between R hs hu hbetween hmid hfail
    · exact hf.stops_consumer R hs hu hmid hfail
    · exact hf.stops_after R hs hu hback hmid hfail

end Fusable

/-! ### Chains of joints -/

/-- Stages that end alike write alike. -/
theorem Leaves.of_endings {passed passed' : List Stage} (h : (passed'.map Stage.ending).Sublist (passed.map Stage.ending))
    {a : Place} (ha : p.Leaves passed a) : p.Leaves passed' a := by
  intro stage hstage o ho
  obtain ⟨other, hother, hending⟩ := List.mem_map.mp (h.mem (List.mem_map.mpr ⟨stage, hstage, rfl⟩))
  have hwrites : other.writes = stage.writes := congrArg Prod.snd hending
  exact ha other hother o (hwrites ▸ ho)

theorem Leaves.of_objects (h : q.objects = p.objects) {passed : List Stage} {a : Place} (ha : q.Leaves passed a) :
    p.Leaves passed a := by
  have hhome : q.home = p.home := by
    unfold home object?
    rw [h]
  intro stage hstage o ho c hc
  exact ha stage hstage o ho c (hhome ▸ hc)

/-- Memories that agree beside some stages, and then beside others, agree beside all of them. -/
theorem AgreeBeside.trans {r : Plan} (hobjects : r.objects = q.objects) (huses : ∀ o, r.Uses o → q.Uses o)
    {passed passed' all : List Stage} {l : Memory} (h : q.AgreeBeside passed m n) (h' : r.AgreeBeside passed' n l)
    (hfirst : ∀ a, r.Leaves all a → r.Leaves passed a) (hsecond : ∀ a, r.Leaves all a → r.Leaves passed' a) :
    r.AgreeBeside all m l := by
  intro a ha hleaves
  calc m.get? a = n.get? a := h a (fun o ho => huses o (ha o ho)) ((hfirst a hleaves).of_objects hobjects)
    _ = l.get? a := h' a ha (hsecond a hleaves)

/-- A run that stops later than one that stops later. -/
theorem Defers.trans {r : Plan} (hobjects : r.objects = q.objects) (huses : ∀ o, r.Uses o → q.Uses o)
    {failing failing' failing'' : Stage} {passed later passed' later' rest'' : List Stage} {l : Memory}
    (h : q.Defers failing passed later m failing' (passed' ++ later') n)
    (h' : r.Defers failing' passed' later' n failing'' rest'' l) :
    ∃ all after, passed ++ later = all ++ after ∧ r.Defers failing all after m failing'' rest'' l := by
  rcases List.eq_nil_or_concat passed' with rfl | ⟨near, last, rfl⟩
  · -- the second run stops where the first one does
    refine ⟨passed, later, rfl, ?_, h'.sublist.trans h.sublist, ?_, fun hblock => ?_⟩
    · rw [h.ending]
      exact h'.ending
    · exact h.agree.trans hobjects huses h'.agree (fun _ ha => ha) fun _ _ => nofun
    · obtain ⟨rfl, rfl⟩ := h.block hblock
      exact ⟨(h'.block hblock).1, rfl⟩
  · -- the stages that the second run passes end like some that were still to come
    have hsublist : ((near ++ last :: later').map Stage.ending).Sublist (later.map Stage.ending) := by
      simpa using h.sublist
    obtain ⟨near', c, far, rfl, hc, hnear, hfar⟩ := exists_split_of_sublist hsublist
    refine ⟨passed ++ (near' ++ [c]), far, by simp, ?_, h'.sublist.trans hfar, ?_, fun hblock => ?_⟩
    · have hlast : some last.ending = some failing''.ending := by simpa [List.getLast?_cons] using h'.ending
      have hall : (failing :: (passed ++ (near' ++ [c]))).getLast? = some c := by
        rw [← List.append_assoc, ← List.cons_append, List.getLast?_concat]
      rw [hall, ← hlast, ← hc, Option.map_some]
    · refine h.agree.trans hobjects huses h'.agree (fun a ha => ?_) fun a ha => ?_
      · exact fun stage hstage => ha stage (List.mem_append_left _ hstage)
      · have hrest : r.Leaves (near' ++ [c]) a := fun stage hstage => ha stage (List.mem_append_right _ hstage)
        refine hrest.of_endings ?_
        simp only [List.concat_eq_append, List.map_append, List.map_cons, List.map_nil, hc]
        exact hnear.append (.refl _)
    · obtain ⟨rfl, _⟩ := h.block hblock
      have hnone := (h'.block hblock).2
      simp at hnone

theorem StopsLater.trans {r : Plan} {v : Storage} (hobjects : r.objects = q.objects) (huses : ∀ o, r.Uses o → q.Uses o)
    {failing : Stage} {rest : List Stage} (h : q.StopsLater u b failing rest n)
    (h' : ∀ before' failing' rest' n', q.Stops u b before' failing' rest' n' → r.StopsLater v b failing' rest' n') :
    r.StopsLater v b failing rest n := by
  obtain ⟨passed, later, before', failing', rest', n', rfl, hstops, hdefers⟩ := h
  obtain ⟨passed', later', before'', failing'', rest'', n'', rfl, hstops', hdefers'⟩ := h' before' failing' rest' n' hstops
  obtain ⟨all, after, hsplit, hall⟩ := hdefers.trans hobjects huses hdefers'
  exact ⟨all, after, before'', failing'', rest'', n'', hsplit, hstops', hall⟩

/-- A plan that came from another one by joining stages. -/
structure Merges (p q : Plan) : Prop where
  sound : q.Sound
  objects : q.objects = p.objects
  steps : (q.stages.flatMap (·.steps)).Perm (p.stages.flatMap (·.steps))
  ready : ∀ b, p.Ready b → q.Ready b
  stops : ∀ s u b before failing rest n, Storage.ofPlan p = .ok s → Storage.ofPlan q = .ok u → p.Ready b →
    p.Stops s b before failing rest n → q.StopsLater u b failing rest n

theorem Merges.refl (h : p.Sound) : p.Merges p where
  sound := h
  objects := rfl
  steps := .refl _
  ready _ R := R
  stops s u b before failing rest n hs hu _ hstops := by
    rw [hs] at hu
    cases hu
    exact ⟨[], rest, before, failing, rest, n, rfl, hstops, rfl, .refl _, fun _ _ _ => rfl, fun _ => ⟨rfl, rfl⟩⟩

theorem Merges.joined (h : p.Merges q) {front between back : List Stage} {producer consumer : Stage} {t : ObjectId}
    (hf : q.Fusable front between back producer consumer t) :
    p.Merges (q.joined front between back producer consumer t) where
  sound := hf.sound h.sound
  objects := h.objects
  steps := hf.steps_perm.trans h.steps
  ready b R := hf.ready (h.ready b R)
  stops s u b before failing rest n hs hu R hstops := by
    obtain ⟨v, hv⟩ := h.sound.exists_storage
    have hnarrows := hf.narrows h.sound hv hu
    have hobjects : (q.joined front between back producer consumer t).objects = q.objects := rfl
    refine (h.stops s v b before failing rest n hs hv R hstops).trans hobjects hnarrows.uses fun _ _ _ _ hstops' => ?_
    exact hf.stops_later (h.ready b R) hv hu hstops'

theorem Merges.optimize (h : p.Sound) (limit : Nat) : p.Merges (p.optimize ⟨false, true, limit⟩).1 := by
  refine optimize_induction _ (fun pass hpass q hq => ?_) (.refl h)
  have hfuse : pass = .fuse := by simpa [OptimizerConfig.passes] using hpass
  subst hfuse
  refine fuse_induction (fun q q' e hq hq' => ?_) hq
  obtain ⟨_, _, _, _, _, _, hf, rfl⟩ := fuseOnce_eq_some hq.sound.woven hq'
  exact hq.joined hf

/-! ### Conversions that were done -/

/-- Pixel-wise kernels write images. -/
theorem Sound.image_of_writes (h : p.Sound) (hstage : stage ∈ p.stages) (hpixel : stage.pixelwise = true) {o : ObjectId}
    (ho : o ∈ stage.writes) {r : Resolved} (hr : p.object? o = some r) : r.info.kind = .image := by
  have hall : Registry.standard.kernels.all fun k => !k.isPixelwise ||
      k.signature.params.all fun spec => !spec.direction.writes || spec.kind == .image := by decide
  obtain ⟨⟨step, hstep, hw⟩, _⟩ := Stage.mem_writes.mp ho
  obtain ⟨k, hk, hkp⟩ := (h.stages stage hstage).steps step hstep
  obtain ⟨slot, d, hslot, hd, hdw⟩ := Step.mem_boundBy.mp hw
  obtain ⟨spec, hspec, hdir, r', hr', hkind, _⟩ := hk.exists_spec hslot
  have hsame : r' = r := Option.some.inj (hr'.symm.trans hr)
  have hdirection : d = spec.direction := Option.some.inj (hd.symm.trans hdir)
  have himages := List.all_eq_true.mp hall k hk.mem_standard
  rw [hkp, hpixel, Bool.not_true, Bool.false_or] at himages
  have himage := List.all_eq_true.mp himages spec (List.mem_of_getElem? hspec)
  rw [← hdirection, hdw, Bool.not_true, Bool.false_or, beq_iff_eq] at himage
  rw [← hsame, hkind, himage]

/-- A conversion that a run has done still finds its shift in range when the run stops. -/
theorem Stops.shift_inside (R : p.Ready b) (hs : Storage.ofPlan p = .ok s) {before rest : List Stage} {failing : Stage}
    (h : p.Stops s b before failing rest n) (hstage : stage ∈ before) (hpixel : stage.pixelwise = true) {step : Step}
    (hstep : step ∈ stage.steps) : ¬step.ShiftOutside p n := by
  intro hshift
  obtain ⟨hstages, mid, hmid, hfail⟩ := h
  obtain ⟨near, far, rfl⟩ := List.append_of_mem hstage
  obtain ⟨x, hx, hrest⟩ := foldlM_append_eq_ok.mp hmid
  obtain ⟨y, hy, hfar⟩ := foldlM_cons_eq_ok.mp hrest
  have hmem : ∀ other ∈ near ++ stage :: far ++ [failing], other ∈ p.stages := by
    intro other hother
    rw [hstages]
    simp only [List.mem_append, List.mem_cons, List.not_mem_nil, or_false] at hother ⊢
    tauto
  have hmem_stage : stage ∈ p.stages := hmem stage (by simp)
  -- neither the stage nor what comes after it writes the shift
  have hleaves : ∀ o a, step.params[3]? = some (some o) → p.home o = some a → p.Leaves (stage :: (far ++ [failing])) a := by
    intro o a ho ha other hother w hw c hc
    obtain ⟨href, _, r, info, hr, hinfo⟩ := R.sound.shift_scalar hmem_stage hstep hshift.1 ho
    have hother_mem : other ∈ p.stages := hmem other (by simp only [List.mem_append, List.mem_cons] at hother ⊢; tauto)
    have hne : w ≠ o := by
      intro he
      subst he
      rcases List.mem_cons.mp hother with rfl | hlater
      · have himage := R.sound.image_of_writes hmem_stage hpixel hw hr
        rw [hinfo] at himage
        contradiction
      · have hafter : p.stages = near ++ stage :: (far ++ failing :: rest) := by
          rw [hstages, List.append_assoc, List.cons_append]
        refine R.sound.woven.not_written_after hafter ?_ hw href
        simp only [List.mem_append, List.mem_cons, List.not_mem_nil, or_false] at hlater ⊢
        tauto
    exact R.sound.apart_of_ne hother_mem hmem_stage (Stage.referenced_of_writes hw) href hne hc ha
  have hsame : ∀ a, p.Leaves (stage :: (far ++ [failing])) a → n.get? a = x.get? a := by
    intro a ha
    calc n.get? a = mid.get? a := R.sound.get?_of_run hs (hmem failing (by simp))
            (fun other hother => ha other (List.mem_cons_of_mem _ (List.mem_append_right _ hother))) (.inr hfail)
      _ = y.get? a := R.sound.get?_of_foldlM hs (fun other hother => hmem other (by simp [hother]))
            (fun other hother => ha other (List.mem_cons_of_mem _ (List.mem_append_left _ hother))) hfar
      _ = x.get? a := R.sound.get?_of_run hs hmem_stage
            (fun other hother => ha other (List.mem_singleton.mp hother ▸ List.mem_cons_self)) (.inl hy)
  have hshift' : step.ShiftOutside p x := by
    refine hshift.congr fun o ho => ?_
    exact held_congr rfl fun a ha => (hsame a (hleaves o a ho ha)).symm
  have hconforms := R.conforms hs (fun other hother => hmem other (by simp [hother])) hx
  have hfailed := (hconforms.run_pixels_failed R.sound hs R.uniform hmem_stage hpixel).mpr ⟨rfl, step, hstep, hshift'⟩
  rw [hy] at hfailed
  contradiction

/-- The conversion at which a run stops is not among the stages that a run of a plan with joined stages gets done. -/
theorem Merges.not_mem_before (h : p.Merges q) (R : p.Ready b) (hu : Storage.ofPlan q = .ok u)
    {before before' passed later rest' : List Stage} {failing failing' : Stage} {n' : Memory}
    (hstages : p.stages = before ++ failing :: (passed ++ later)) (hstops : q.Stops u b before' failing' rest' n')
    (hagree : q.AgreeBeside passed n n') {step : Step} (hstep : step ∈ failing.steps) (hshift : step.ShiftOutside p n) :
    ∀ stage ∈ before', step ∉ stage.steps := by
  intro stage hstage hmem
  have hready := h.ready b R
  have hstage' : stage ∈ q.stages := by
    rw [hstops.stages]
    exact List.mem_append_left _ hstage
  have hfailing : failing ∈ p.stages := by simp [hstages]
  have hhome : q.home = p.home := by
    unfold home object?
    rw [h.objects]
  have hpixel : stage.pixelwise = true := by
    obtain ⟨k, hk, hkp⟩ := (hready.sound.stages stage hstage').steps step hmem
    rw [← hkp, (hk.kernel_eq_iff Kernel.convertDepth rfl).mp hshift.1]
    rfl
  refine hstops.shift_inside hready hu hstage hpixel hmem (hshift.congr fun o ho => ?_)
  apply held_congr (congrFun hhome o)
  intro a ha
  refine (hagree a (fun o' hscratch => ?_) fun other hother w hw c hc => ?_).symm
  · have hsame : o' = o := eq_of_home_scratch (hscratch ▸ ha)
    obtain ⟨href, hout, _⟩ := hready.sound.shift_scalar hstage' hmem hshift.1 ho
    exact hsame ▸ ⟨stage, hstage', href, hout⟩
  · -- what comes after the conversion does not write its shift
    obtain ⟨href, _⟩ := R.sound.shift_scalar hfailing hstep hshift.1 ho
    have hne : w ≠ o := by
      intro he
      exact R.sound.woven.not_written_after hstages (List.mem_append_left later hother) hw (he ▸ href)
    rw [hhome] at hc
    exact R.sound.apart_of_ne (by simp [hstages, hother]) hfailing (Stage.referenced_of_writes hw) href hne hc ha

/-- The step at which a run stops is in the stage at which a run of a plan with joined stages does, or in a later one. -/
theorem Merges.mem_after (h : p.Merges q) (R : p.Ready b) (hs : Storage.ofPlan p = .ok s) (hu : Storage.ofPlan q = .ok u)
    {before before' passed later rest' : List Stage} {failing failing' : Stage} {n' : Memory}
    (hstops : p.Stops s b before failing (passed ++ later) n) (hstops' : q.Stops u b before' failing' rest' n')
    (hdefers : q.Defers failing passed later n failing' rest' n') {step : Step} (hstep : failing.steps = [step]) :
    ∃ other ∈ failing' :: rest', step ∈ other.steps := by
  have hmem : step ∈ failing.steps := hstep ▸ List.mem_singleton_self step
  have hfailing : failing ∈ p.stages := by simp [hstops.stages]
  cases hpixel : failing.pixelwise with
  | false =>
    obtain ⟨rfl, _⟩ := hdefers.block hpixel
    exact ⟨failing', List.mem_cons_self, hmem⟩
  | true =>
    obtain ⟨mid, hmid, hfail⟩ := hstops.run
    have hbefore : ∀ stage ∈ before, stage ∈ p.stages := fun stage hstage => by simp [hstops.stages, hstage]
    have hconforms := R.conforms hs hbefore hmid
    obtain ⟨rfl, step', hstep', hshift⟩ := (hconforms.run_pixels_failed R.sound hs R.uniform hfailing hpixel).mp hfail
    rw [hstep, List.mem_singleton] at hstep'
    subst hstep'
    have hall : step' ∈ q.stages.flatMap (·.steps) :=
      h.steps.mem_iff.mpr (List.mem_flatMap.mpr ⟨failing, hfailing, hmem⟩)
    obtain ⟨other, hother, hin⟩ := List.mem_flatMap.mp hall
    rw [hstops'.stages, List.mem_append] at hother
    rcases hother with hother | hother
    · exact absurd hin (h.not_mem_before R hu hstops.stages hstops' hdefers.agree hmem hshift other hother)
    · exact ⟨other, hother, hin⟩

end Plan

end VisionGraph
