import VisionGraph.Proofs.Process

/-! What a run may change. A stage changes the places that it writes and no others, also when it fails. So a delay keeps
its head through a run, and with it every image that no stage writes. -/
namespace VisionGraph

namespace DelayBuffer

/-- The same ring, but for the images of some ages. -/
structure Agrees (written : Nat → Prop) (d e : DelayBuffer) : Prop where
  head : e.head = d.head
  size : e.ring.size = d.ring.size
  slot : ∀ age, ¬written age → e.slot? age = d.slot? age

variable {written : Nat → Prop}

theorem Agrees.refl (d : DelayBuffer) : d.Agrees written d := ⟨rfl, rfl, fun _ _ => rfl⟩

theorem Agrees.trans {d e f : DelayBuffer} (hde : d.Agrees written e) (hef : e.Agrees written f) :
    d.Agrees written f where
  head := hef.head.trans hde.head
  size := hef.size.trans hde.size
  slot age hage := (hef.slot age hage).trans (hde.slot age hage)

theorem agrees_setSlot (d : DelayBuffer) {age : Nat} (hage : written age) (b : ImageBuffer) :
    d.Agrees written (d.setSlot age b) where
  head := d.head_setSlot age b
  size := d.size_ring_setSlot age b
  slot k hk := by
    apply d.slot?_setSlot_of_ne
    intro he
    exact hk (he ▸ hage)

end DelayBuffer

namespace Memory

variable {m n : Memory} {o : ObjectId} {written : Nat → Prop}

/-- A delay stays a delay, with the same ring but for the images of some ages. -/
def Delays (o : ObjectId) (written : Nat → Prop) (m n : Memory) : Prop :=
  ∀ d, m.host.get? o = some (.delay d) → ∃ e, n.host.get? o = some (.delay e) ∧ d.Agrees written e

theorem Delays.refl (m : Memory) : Delays o written m m := fun d hd => ⟨d, hd, .refl d⟩

theorem Delays.trans {l : Memory} (hmn : Delays o written m n) (hnl : Delays o written n l) : Delays o written m l := by
  intro d hd
  obtain ⟨e, he, hde⟩ := hmn d hd
  obtain ⟨f, hf, hef⟩ := hnl e he
  exact ⟨f, hf, hde.trans hef⟩

theorem delays_set {a : Place} (hhost : a ≠ .host o) (hslot : ∀ age, a = .slot o age → written age) (x : Host) :
    Delays o written m (m.set a x) := by
  intro d hd
  cases a with
  | host p =>
    have hne : o ≠ p := fun he => hhost (he ▸ rfl)
    exact ⟨d, by rw [host_set_host, if_neg hne, hd], .refl d⟩
  | scratch p => exact ⟨d, hd, .refl d⟩
  | slot p age =>
    rw [host_set_slot]
    by_cases ho : o = p
    · subst ho
      rw [if_pos rfl, hd]
      -- only an image is ever put into a delay
      cases x with
      | image b => exact ⟨_, rfl, d.agrees_setSlot (hslot age rfl) b⟩
      | _ => exact ⟨d, rfl, .refl d⟩
    · exact ⟨d, by rw [if_neg ho, hd], .refl d⟩

theorem delays_setAll {updates : List (Place × Host)}
    (h : ∀ u ∈ updates, u.1 ≠ .host o ∧ ∀ age, u.1 = .slot o age → written age) :
    Delays o written m (m.setAll updates) := by
  induction updates generalizing m with
  | nil => exact .refl m
  | cons u updates ih =>
    obtain ⟨hhost, hslot⟩ := h u List.mem_cons_self
    exact (delays_set hhost hslot u.2).trans (ih fun v hv => h v (List.mem_cons_of_mem u hv))

end Memory

/-! ### Stages -/

namespace Stage

variable {r : Registry} {p : Plan} {s : Storage} {stage : Stage} {m n : Memory}

/-- A pixel-wise stage that fails has written nothing, and fails wherever it finds the same contents. -/
theorem runPixels_failed (hload : n.load (stage.touched s) = m.load (stage.touched s)) {m' : Memory}
    (h : stage.runPixels r p s m = .error (.failed m')) : m' = m ∧ stage.runPixels r p s n = .error (.failed n) := by
  have hplaces : s.places (stage.steps.flatMap (·.params)) = stage.touched s := rfl
  unfold runPixels at h ⊢
  simp only [hplaces, hload] at h ⊢
  split at h
  · split at h
    · simp at h
    · split at h
      · simp at h
      · rename_i hspans
        split at h
        · rename_i hpasses
          exact ⟨by simpa using h.symm, by rw [if_neg hspans, if_pos hpasses]⟩
        · simp at h
  · simp at h

/-- A stage over whole objects that fails has written back what its kernel had done by then, and does the same wherever
it finds the same contents. -/
theorem runBlock_failed (hone : stage.steps.length = 1) (hload : n.load (stage.touched s) = m.load (stage.touched s))
    {m' : Memory} (h : stage.runBlock r s m = .error (.failed m')) :
    ∃ out, m' = m.store (stage.touched s) (stage.writtenPlaces s) out ∧
      stage.runBlock r s n = .error (.failed (n.store (stage.touched s) (stage.writtenPlaces s) out)) := by
  obtain ⟨step, hsteps⟩ := List.length_eq_one_iff.mp hone
  have htouched : stage.touched s = s.places step.params := by simp [touched, hsteps]
  rw [htouched] at hload ⊢
  simp only [runBlock, hsteps, hload] at h ⊢
  split at h
  · split at h
    · simp at h
    · rename_i f _
      exact ⟨f.objects, by simpa using h.symm, rfl⟩
    · simp at h
  · simp at h

end Stage

namespace Plan

variable {r : Registry} {p : Plan} {s : Storage} {stage : Stage} {m n : Memory} {o : ObjectId} {written : Nat → Prop}

/-- A stage that fails makes the same changes wherever it finds the same contents. -/
theorem Sound.run_failed (h : p.Sound) (hs : Storage.ofPlan p = .ok s) (hstage : stage ∈ p.stages)
    (hagree : ∀ a ∈ stage.touched s, n.get? a = m.get? a) {m' : Memory}
    (hfail : stage.run r p s m = .error (.failed m')) : ∃ us, m' = m.setAll us ∧
      (∀ u ∈ us, u.1 ∈ stage.writtenPlaces s) ∧ stage.run r p s n = .error (.failed (n.setAll us)) := by
  have hload := Memory.load_congr hagree
  unfold Stage.run at hfail ⊢
  split at hfail
  · rename_i hpixel
    obtain ⟨hm, hn⟩ := Stage.runPixels_failed hload hfail
    exact ⟨[], hm, nofun, by rw [if_pos hpixel]; exact hn⟩
  · rename_i hblock
    have hone := ((h.stages stage hstage).whole (by simpa using hblock)).1
    obtain ⟨out, hm, hn⟩ := Stage.runBlock_failed hone hload hfail
    rw [h.store_eq_updates hs hstage] at hm hn
    exact ⟨_, hm, fun u hu => (Stage.mem_updates.mp hu).1, by rw [if_neg hblock]; exact hn⟩

/-- A stage changes what it writes, whether it succeeds or fails. -/
theorem Sound.footprint (h : p.Sound) (hs : Storage.ofPlan p = .ok s) (hstage : stage ∈ p.stages)
    (hrun : stage.run r p s m = .ok n ∨ stage.run r p s m = .error (.failed n)) :
    ∃ us, n = m.setAll us ∧ ∀ u ∈ us, u.1 ∈ stage.writtenPlaces s := by
  rcases hrun with hok | hfailed
  · obtain ⟨us, hus, hn⟩ := (h.run_eq_ok hs hstage).mp hok
    exact ⟨us, hn, fun u hu => Stage.mem_writtenPlaces_of_update hus hu⟩
  · obtain ⟨us, hn, hwritten, _⟩ := h.run_failed hs hstage (fun _ _ => rfl) hfailed
    exact ⟨us, hn, hwritten⟩

/-- No stage writes a host object as a whole, and of the images in it only those of some ages. -/
def Spares (p : Plan) (o : ObjectId) (written : Nat → Prop) : Prop :=
  ∀ stage ∈ p.stages, ∀ q ∈ stage.writes, p.home q ≠ some (.host o) ∧ ∀ age, p.home q = some (.slot o age) → written age

theorem eq_of_home_host {q : ObjectId} (h : p.home o = some (.host q)) : q = o := by
  obtain ⟨r, _, h⟩ := Option.bind_eq_some_iff.mp h
  split at h
  · contradiction
  · split at h
    · simp at h
    · split at h
      · simpa using h.symm
      · simp at h

theorem Spares.stage_delays (hp : p.Sound) (hs : Storage.ofPlan p = .ok s) (hspares : p.Spares o written)
    (hstage : stage ∈ p.stages) (hrun : stage.run r p s m = .ok n ∨ stage.run r p s m = .error (.failed n)) :
    Memory.Delays o written m n := by
  obtain ⟨us, rfl, hus⟩ := hp.footprint hs hstage hrun
  apply Memory.delays_setAll
  intro u hu
  obtain ⟨q, hq, hhome⟩ := hp.home_of_written hs hstage (hus u hu)
  obtain ⟨hhost, hslot⟩ := hspares stage hstage q hq
  exact ⟨fun he => hhost (he ▸ hhome), fun age he => hslot age (he ▸ hhome)⟩

/-- How stages that follow each other end: all of them succeed, or one of them is the first that does not. -/
theorem runFrom_cases (position : Nat) (stages : List Stage) (m : Memory) :
    (∃ n, p.runFrom r s position stages m = .finished n ∧
        stages.foldlM (fun m stage => stage.run r p s m) m = .ok n) ∨
      ∃ i stage mid, stages[i]? = some stage ∧
        (stages.take i).foldlM (fun m stage => stage.run r p s m) m = .ok mid ∧
        ((∃ n, stage.run r p s mid = .error (.failed n) ∧ p.runFrom r s position stages m = .failed (position + i) n) ∨
          stage.run r p s mid = .error .astray ∧ p.runFrom r s position stages m = .astray) := by
  induction stages generalizing position m with
  | nil => exact .inl ⟨m, rfl, rfl⟩
  | cons first rest ih =>
    cases hrun : first.run r p s m with
    | ok next =>
      have hstep : p.runFrom r s position (first :: rest) m = p.runFrom r s (position + 1) rest next := by
        rw [runFrom, hrun]
      rw [hstep]
      rcases ih (position + 1) next with ⟨n, hn, hfold⟩ | ⟨i, stage, mid, hi, hmid, hend⟩
      · exact .inl ⟨n, hn, foldlM_cons_eq_ok.mpr ⟨next, hrun, hfold⟩⟩
      · refine .inr ⟨i + 1, stage, mid, hi, foldlM_cons_eq_ok.mpr ⟨next, hrun, hmid⟩, ?_⟩
        rwa [show position + (i + 1) = position + 1 + i by omega]
    | error stop =>
      refine .inr ⟨0, first, m, rfl, rfl, ?_⟩
      cases stop with
      | failed n => exact .inl ⟨n, hrun, by simp only [runFrom, hrun, Nat.add_zero]⟩
      | astray => exact .inr ⟨hrun, by simp only [runFrom, hrun]⟩

theorem Spares.foldlM_delays (hp : p.Sound) (hs : Storage.ofPlan p = .ok s) (hspares : p.Spares o written)
    {stages : List Stage} (hstages : ∀ stage ∈ stages, stage ∈ p.stages)
    (hrun : stages.foldlM (fun m stage => stage.run r p s m) m = .ok n) : Memory.Delays o written m n := by
  induction stages generalizing m with
  | nil =>
    cases hrun
    exact .refl _
  | cons stage stages ih =>
    obtain ⟨next, hstep, hrest⟩ := foldlM_cons_eq_ok.mp hrun
    have hfirst := hspares.stage_delays hp hs (hstages stage List.mem_cons_self) (.inl hstep)
    exact hfirst.trans (ih (fun t ht => hstages t (List.mem_cons_of_mem stage ht)) hrest)

end Plan

/-- An object after a successful run: a delay is one age older. -/
def Host.aged : Host → Host
  | .delay d => .delay d.advance
  | x => x

namespace Program

variable {P : Program} {b : Bindings} {m : Memory} {o : ObjectId} {written : Nat → Prop}

theorem get?_ageDelay (b : Bindings) (entry : ObjectId × Meta) (o : ObjectId) :
    (ageDelay b entry).get? o = if o = entry.1 then (b.get? o).map Host.aged else b.get? o := by
  unfold ageDelay
  split
  · rename_i d hd
    rw [IdMap.get?_insert]
    split
    · rename_i ho
      rw [ho, hd]
      rfl
    · rfl
  · rename_i hno
    split
    · rename_i ho
      subst ho
      cases hget : b.get? entry.1 with
      | none => rfl
      | some x =>
        cases x with
        | delay d => exact absurd hget (hno d)
        | _ => rfl
    · rfl

/-- Every delay that the caller binds ages once. -/
theorem get?_ageDelays (hnodup : (P.entries.map (·.1)).Nodup) (b : Bindings) (o : ObjectId) :
    (P.ageDelays b).get? o = if o ∈ P.entries.map (·.1) then (b.get? o).map Host.aged else b.get? o := by
  unfold ageDelays
  generalize P.entries = entries at hnodup
  induction entries generalizing b with
  | nil => rfl
  | cons entry entries ih =>
    obtain ⟨hnot, hrest⟩ := List.nodup_cons.mp hnodup
    rw [List.foldl_cons, ih _ hrest, get?_ageDelay]
    by_cases ho : o = entry.1
    · subst ho
      rw [if_neg hnot, if_pos rfl, List.map_cons, if_pos List.mem_cons_self]
    · rw [if_neg ho, List.map_cons]
      simp only [List.mem_cons, ho, false_or]

/-- An image of the caller does not age. -/
theorem get?_ageDelays_image (hnodup : (P.entries.map (·.1)).Nodup) {b : Bindings} {o : ObjectId} {frame : ImageBuffer}
    (h : b.get? o = some (.image frame)) : (P.ageDelays b).get? o = some (.image frame) := by
  rw [get?_ageDelays hnodup, h]
  split <;> rfl

/-- The memory of a run after its first stages. -/
def Reached (P : Program) (b : Bindings) (done : Nat) (m : Memory) : Prop :=
  ∃ start, Memory.start P.plan P.storage b = some start ∧
    (P.plan.stages.take done).foldlM (fun m stage => stage.run P.registry P.plan P.storage m) start = .ok m

/-- Through all of a run a delay keeps its head and the images that are not written. -/
theorem Reached.delay (hp : P.plan.Sound) (hs : Storage.ofPlan P.plan = .ok P.storage)
    (hspares : P.plan.Spares o written) {done : Nat} (hm : P.Reached b done m) {d : DelayBuffer}
    (hd : b.get? o = some (.delay d)) : ∃ e, m.host.get? o = some (.delay e) ∧ d.Agrees written e := by
  obtain ⟨start, hstart, hrun⟩ := hm
  obtain ⟨_, rfl⟩ := Memory.start_eq_some.mp hstart
  have hstages : ∀ stage ∈ P.plan.stages.take done, stage ∈ P.plan.stages := fun _ => List.mem_of_mem_take
  exact hspares.foldlM_delays hp hs hstages hrun d hd

end Program

end VisionGraph
