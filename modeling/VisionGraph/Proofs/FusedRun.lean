import VisionGraph.Proofs.PixelStage

/-! Runs of joined stages. The image between producer and consumer becomes one number for each sample; it has there
what the buffer would have, so the joined stage writes what the consumer would write. -/
namespace VisionGraph

/-- What a step writes is a stored number. -/
theorem Step.holds_actAll {p : Plan} {sink : ObjectId → Option Element} {steps : List Step}
    (hsteps : ∀ s ∈ steps, s.Pointwise p) {o : ObjectId} {e : Element} (he : sink o = some e) (env : ObjectId → Int)
    (h : e.Holds (env o) ∨ ∃ s ∈ steps, o ∈ s.writes) : e.Holds (actAll p sink steps env o) := by
  induction steps generalizing env with
  | nil => exact h.resolve_right (by simp)
  | cons s steps ih =>
    refine ih (fun t ht => hsteps t (List.mem_cons_of_mem s ht)) (act p sink env s) ?_
    by_cases htarget : s.target? = some o
    · left
      simp only [act, htarget, if_true, he, Option.map_some, Option.getD_some]
      exact e.holds_wrap _
    · have hstay : act p sink env s o = env o := if_neg htarget
      rw [hstay]
      refine h.imp id ?_
      rintro ⟨t, ht, hw⟩
      rcases List.mem_cons.mp ht with rfl | ht
      · exact absurd ((hsteps t List.mem_cons_self).mem_writes.mp hw) htarget
      · exact ⟨t, ht, hw⟩

theorem Host.refill_congr {x : Host} {f g : Nat → Int} (h : ∀ n, x.sampleCount? = some n → ∀ i < n, f i = g i) :
    x.refill f = x.refill g := by
  cases x with
  | image b =>
    have hwrap : ∀ i ∈ Array.range (b.width.toNat * b.height.toNat * b.format.channels),
        b.format.element.wrap (f i) = b.format.element.wrap (g i) := by
      intro i hi
      rw [h b.samples.size rfl i (by rw [b.size_eq]; simpa using hi)]
    simp only [refill, ImageBuffer.generate, Array.map_congr_left hwrap]
  | _ => rfl

namespace Plan

variable {p : Plan} {m n : Memory} {o t : ObjectId}

theorem cell_congr (h : p.held m o = p.held n o) (i : Nat) : p.cell m i o = p.cell n i o := by
  rw [cell, cell, h]

theorem apart_scratch {a : Place} (h : p.home o = some a) (hne : o ≠ t) : a.Apart (.scratch t) := by
  cases a with
  | scratch q => exact eq_of_home_scratch h ▸ hne
  | _ => trivial

/-- Memories that agree on an object hold the same of it. -/
theorem held_of_agree {keep : ObjectId → Prop} (h : Memory.Agree keep m n) (ho : keep o) : p.held n o = p.held m o := by
  apply held_congr rfl
  intro a ha
  refine (h.get?_eq fun q hq => ?_).symm
  have hqo : q = o := eq_of_home_scratch (hq ▸ ha)
  exact hqo ▸ ho

namespace Fusable

variable {front between back : List Stage} {producer consumer : Stage} {s u : Storage}

theorem pointwise_of_mem (h : p.Sound) {stage : Stage} (hstage : stage ∈ p.stages) (hpixel : stage.pixelwise = true) :
    ∀ x ∈ stage.steps, x.Pointwise p := by
  intro x hx
  obtain ⟨k, hk, hkp⟩ := (h.stages stage hstage).steps x hx
  exact ⟨k, hk, hkp.trans hpixel⟩

variable (h : p.Sound) (hf : p.Fusable front between back producer consumer t)

include h hf

/-- The image between lives in scratch. -/
theorem home_eq : p.home t = some (.scratch t) := by
  have hhidden := hf.hidden
  unfold isPrivateImage at hhidden
  split at hhidden
  · contradiction
  · rename_i r hr
    simp only [Bool.and_eq_true, Bool.not_eq_true', Option.isNone_iff_eq_none] at hhidden
    have hconst := h.not_constant hf.mem.1 hf.written.1 hr
    simp [home, hr, hconst, hhidden.2, DataObject.isEntry, hhidden.1.2]

theorem not_constant : (p.object? t).bind (·.object.constant) = none := by
  cases hv : (p.object? t).bind (·.object.constant) with
  | none => rfl
  | some v =>
    have hhome := hf.home_eq h
    simp [home_eq_none hv] at hhome

/-- The joined stage uses what its parts do, but for the image between. -/
theorem narrows (hs : Storage.ofPlan p = .ok s)
    (hu : Storage.ofPlan (p.joined front between back producer consumer t) = .ok u) :
    Narrows p (p.joined front between back producer consumer t) s u where
  wide := h
  narrow := hf.sound h
  storage := hs
  storage' := hu
  entries := rfl
  uses o := by
    rintro ⟨stage, hstage, href, hi⟩
    rcases mem_joined.mp hstage with hother | rfl
    · exact ⟨stage, hf.mem.2.2 stage hother, href, hi⟩
    · rw [mem_internal_join] at hi
      push Not at hi
      rcases referenced_join.mp href with href | href
      · exact ⟨producer, hf.mem.1, href, hi.1⟩
      · exact ⟨consumer, hf.mem.2.1, href, hi.2.1⟩
  object _ _ _ _ := rfl

/-- After the joint the image between is used no more. -/
theorem not_uses : ¬(p.joined front between back producer consumer t).Uses t := by
  rintro ⟨stage, hstage, href, hout⟩
  rcases mem_joined.mp hstage with hother | rfl
  · exact hf.unnamed h.woven stage hother href
  · exact hout (mem_internal_join.mpr (.inr (.inr rfl)))

variable {b : ImageBuffer}

theorem results_producer (hheld : p.held m t = some (.image b)) :
    producer.results p m = [(.scratch t, .image (.generate b.width b.height b.format (producer.finish p m · t)))] := by
  simp [Stage.results, hf.writes, hf.home_eq h, hheld, Host.refill]

/-- The producer changes the image between and nothing else. -/
theorem held_of_ne (hheld : p.held m t = some (.image b)) (hne : o ≠ t) :
    p.held (m.setAll (producer.results p m)) o = p.held m o := by
  apply held_congr rfl
  intro a ha
  rw [hf.results_producer h hheld]
  exact Memory.get?_set_of_apart (apart_scratch ha hne).symm m _

theorem held_between (hheld : p.held m t = some (.image b)) : p.held (m.setAll (producer.results p m)) t =
      some (.image (.generate b.width b.height b.format (producer.finish p m · t))) := by
  rw [held, hf.home_eq h, hf.results_producer h hheld]
  exact (Memory.scratch_set_scratch t t _).trans (if_pos rfl)

end Fusable

/-- The memories around a joint: before the producer in one plan, before the joined stage in the other one. -/
structure Joint (p : Plan) (front between back : List Stage) (producer consumer : Stage) (t : ObjectId)
    (m n : Memory) (count : Nat) (b : ImageBuffer) : Prop where
  sound : p.Sound
  fusable : p.Fusable front between back producer consumer t
  agree : Memory.Agree (p.joined front between back producer consumer t).Uses m n
  held : p.held m t = some (.image b)
  element : b.format.element = (Stage.laneType p (some t)).element
  first : producer.Fits p m count
  second : consumer.Fits p (m.setAll (producer.results p m)) count

namespace Joint

variable {front between back : List Stage} {producer consumer : Stage} {count i : Nat} {b : ImageBuffer}
  (J : Joint p front between back producer consumer t m n count b)

include J

theorem size_eq : b.samples.size = count :=
  J.first.sizes t (Stage.referenced_of_writes J.fusable.written.1) J.fusable.written.2.1 _ (by rw [J.held]; rfl)

/-- The buffer of the image between has what the producer left at a sample. -/
theorem cell_between (hi : i < count) : p.cell (m.setAll (producer.results p m)) i t = producer.finish p m i t := by
  have hwritten := (Stage.mem_writes.mp J.fusable.written.1).1
  have hsink : producer.sink p m t = some b.format.element := by
    simp [Stage.sink, J.fusable.written.2.1, J.held, Host.element?]
  have hholds : b.format.element.wrap (producer.finish p m i t) = producer.finish p m i t :=
    Step.holds_actAll (Fusable.pointwise_of_mem J.sound J.fusable.mem.1 J.fusable.pixelwise.1) hsink _ (.inr hwritten)
  have hlt : i < b.width.toNat * b.height.toNat * b.format.channels := by rwa [← b.size_eq, J.size_eq]
  rw [cell, J.fusable.not_constant J.sound, J.fusable.held_between J.sound J.held]
  simp [Host.sample, ImageBuffer.generate, hlt, hholds]

/-- The joined stage finds what its parts do. -/
theorem held_eq (hne : o ≠ t)
    (ho : o ∈ producer.referenced ∧ o ∉ producer.internal ∨ o ∈ consumer.referenced ∧ o ∉ consumer.internal) :
    p.held n o = p.held m o :=
  held_of_agree J.agree ⟨_, Fusable.mem_joined.mpr (.inr rfl), J.fusable.outside_join J.sound.woven hne ho⟩

theorem start_join (hne : o ≠ t)
    (ho : o ∈ producer.referenced ∧ o ∉ producer.internal ∨ o ∈ consumer.referenced ∧ o ∉ consumer.internal) (i : Nat) :
    (join producer consumer t).start p n i o = p.cell m i o := by
  rw [Stage.start, if_neg (J.fusable.outside_join J.sound.woven hne ho).2, cell_congr (J.held_eq hne ho)]

/-- What is internal to the joined stage is stored there as it is in memory. -/
theorem sink_join :
    (∀ x ∈ producer.steps, ∀ o ∈ x.writes, (join producer consumer t).sink p n o = producer.sink p m o) ∧
    ∀ x ∈ consumer.steps, ∀ o ∈ x.writes, (join producer consumer t).sink p n o =
      consumer.sink p (m.setAll (producer.results p m)) o := by
  have hinside : ∀ {o}, o ∈ producer.internal ∨ o ∈ consumer.internal ∨ o = t →
      (join producer consumer t).sink p n o = some (Stage.laneType p (some o)).element := fun ho =>
    if_pos (Fusable.mem_internal_join.mpr ho)
  refine ⟨fun x hx o hw => ?_, fun x hx o hw => ?_⟩
  · by_cases hin : o ∈ producer.internal
    · rw [hinside (.inl hin), Stage.sink, if_pos hin]
    · have hmem : o ∈ producer.writes := Stage.mem_writes.mpr ⟨⟨x, hx, hw⟩, hin⟩
      rw [J.fusable.writes, List.mem_singleton] at hmem
      subst hmem
      rw [hinside (.inr (.inr rfl)), Stage.sink, if_neg hin, J.held, Option.bind_some, Host.element?, J.element]
  · by_cases hin : o ∈ consumer.internal
    · rw [hinside (.inr (.inl hin)), Stage.sink, if_pos hin]
    · have hmem : o ∈ consumer.writes := Stage.mem_writes.mpr ⟨⟨x, hx, hw⟩, hin⟩
      have hne : o ≠ t := fun he => J.fusable.unwritten_by_consumer J.sound.woven (he ▸ hmem)
      have href : o ∈ consumer.referenced := Stage.referenced_of_writes hmem
      rw [Stage.sink, if_neg (J.fusable.outside_join J.sound.woven hne (.inr ⟨href, hin⟩)).2, Stage.sink, if_neg hin,
        J.held_eq hne (.inr ⟨href, hin⟩), J.fusable.held_of_ne J.sound J.held hne]

/-- The variable of the image between gets what the producer leaves. -/
theorem producer_number (i : Nat) :
    Step.actAll p ((join producer consumer t).sink p n) producer.steps ((join producer consumer t).start p n i) t =
      producer.finish p m i t := by
  have hvalid := J.sound.stages producer J.fusable.mem.1
  have hwritten := J.fusable.written
  -- the producer reads neither its internal images nor the image between before it writes them
  have hsafe : SafeFrom (fun o => o ∈ producer.internal ∨ o = t) producer.steps := by
    refine hvalid.safe.of_unread fun o ho => ho.imp id ?_
    rintro rfl
    exact J.fusable.unread_by_producer
  refine Step.actAll_congr (Fusable.pointwise_of_mem J.sound J.fusable.mem.1 J.fusable.pixelwise.1)
    (fun x hx o ho => Stage.mem_referenced.mpr ⟨x, hx, Step.bound_of_reads ho⟩) hsafe J.sink_join.1 (fun o ho => ?_)
    (fun o href hno => ?_) (Stage.referenced_of_writes hwritten.1) fun _ => (Stage.mem_writes.mp hwritten.1).1
  · exact ⟨_, if_pos (Fusable.mem_internal_join.mpr (by tauto))⟩
  · push Not at hno
    rw [J.start_join hno.2 (.inl ⟨href, hno.1⟩), Stage.start, if_neg hno.1]

/-- After the producer the joined stage has the numbers that the consumer starts with. -/
theorem consumer_start (hi : i < count) (href : o ∈ consumer.referenced) (hout : o ∉ consumer.internal) :
    Step.actAll p ((join producer consumer t).sink p n) producer.steps ((join producer consumer t).start p n i) o =
      consumer.start p (m.setAll (producer.results p m)) i o := by
  rw [Stage.start, if_neg hout]
  by_cases hne : o = t
  · subst hne
    rw [J.producer_number, J.cell_between hi]
  · rw [Step.actAll_of_unwritten (Fusable.pointwise_of_mem J.sound J.fusable.mem.1 J.fusable.pixelwise.1),
      J.start_join hne (.inr ⟨href, hout⟩), cell_congr (J.fusable.held_of_ne J.sound J.held hne)]
    intro x hx hw
    have hsep := (List.pairwise_cons.mp (J.fusable.separate J.sound.woven)).1 consumer List.mem_cons_self
    have hmem : o ∈ producer.writes := Stage.mem_writes.mpr ⟨⟨x, hx, hw⟩, fun hin => hsep.1 o hin href⟩
    rw [J.fusable.writes, List.mem_singleton] at hmem
    exact hne hmem

/-- The joined stage ends with the numbers that the consumer ends with. -/
theorem finish_join (hi : i < count) (ho : o ∈ consumer.writes) :
    (join producer consumer t).finish p n i o = consumer.finish p (m.setAll (producer.results p m)) i o := by
  have hvalid := J.sound.stages consumer J.fusable.mem.2.1
  have hsplit : (join producer consumer t).finish p n i = Step.actAll p ((join producer consumer t).sink p n)
      consumer.steps (Step.actAll p ((join producer consumer t).sink p n) producer.steps
        ((join producer consumer t).start p n i)) :=
    List.foldl_append
  rw [hsplit]
  refine Step.actAll_congr (Fusable.pointwise_of_mem J.sound J.fusable.mem.2.1 J.fusable.pixelwise.2)
    (fun x hx q hq => Stage.mem_referenced.mpr ⟨x, hx, Step.bound_of_reads hq⟩) hvalid.safe J.sink_join.2
    (fun q hq => ?_) (fun q href hout => J.consumer_start hi href hout) (Stage.referenced_of_writes ho) fun hin => ?_
  · exact ⟨_, if_pos (Fusable.mem_internal_join.mpr (by tauto))⟩
  · exact absurd hin (Stage.mem_writes.mp ho).2

/-- The parts start with the same scalars as the joined stage: these are neither inside nor between. -/
theorem start_of_scalar {stage : Stage} (hstage : stage = producer ∨ stage = consumer) {after : Memory}
    (hafter : ∀ o, o ≠ t → p.held after o = p.held m o) {x : Step} (hx : x ∈ stage.steps) (ho : o ∈ x.bound)
    {r : Resolved} (hr : p.object? o = some r) (hkind : r.info.kind = .scalar) :
    stage.start p after i o = (join producer consumer t).start p n i o := by
  have hmem : stage ∈ p.stages := by
    rcases hstage with rfl | rfl
    · exact J.fusable.mem.1
    · exact J.fusable.mem.2.1
  have hprivate : p.isPrivateImage o = false := by
    simp [isPrivateImage, hr, ← (J.sound.objects o r hr).kind_eq, hkind]
  have hout : o ∉ stage.internal := fun hin => by
    simpa [hprivate] using (J.sound.stages stage hmem).hidden o hin
  have hne : o ≠ t := by
    rintro rfl
    simpa [hprivate] using J.fusable.hidden
  have href : o ∈ stage.referenced := Stage.mem_referenced.mpr ⟨x, hx, ho⟩
  have hpart : o ∈ producer.referenced ∧ o ∉ producer.internal ∨ o ∈ consumer.referenced ∧ o ∉ consumer.internal := by
    rcases hstage with rfl | rfl
    · exact .inl ⟨href, hout⟩
    · exact .inr ⟨href, hout⟩
  rw [J.start_join hne hpart, Stage.start, if_neg hout, cell_congr (hafter o hne)]

/-- The joined stage makes the updates that the consumer makes. -/
theorem results_join :
    (join producer consumer t).results p n = consumer.results p (m.setAll (producer.results p m)) := by
  have hne : ∀ o ∈ consumer.writes, o ≠ t := fun o ho he => J.fusable.unwritten_by_consumer J.sound.woven (he ▸ ho)
  have hheld : ∀ o ∈ consumer.writes, p.held n o = p.held (m.setAll (producer.results p m)) o := fun o ho => by
    have hpart := And.intro (Stage.referenced_of_writes ho) (Stage.mem_writes.mp ho).2
    rw [J.held_eq (hne o ho) (.inr hpart), J.fusable.held_of_ne J.sound J.held (hne o ho)]
  have hfinish := fun (o : ObjectId) (ho : o ∈ consumer.writes) (i : Nat) (hi : i < count) => J.finish_join hi ho
  have hsizes := J.second.sizes
  generalize m.setAll (producer.results p m) = after at hheld hfinish hsizes ⊢
  rw [Stage.results, Stage.results, J.fusable.writes_join J.sound.woven]
  refine List.filterMap_congr fun o ho => ?_
  rw [hheld o ho]
  cases p.home o with
  | none => rw [Option.bind_none, Option.bind_none]
  | some a =>
    cases hx : p.held after o with
    | none => rw [Option.bind_some, Option.bind_some, Option.map_none, Option.map_none]
    | some x =>
      simp only [Option.bind_some, Option.map_some]
      rw [Host.refill_congr fun k hk i hi => hfinish o ho i ?_]
      have hcount : k = count :=
        hsizes o (Stage.referenced_of_writes ho) (Stage.mem_writes.mp ho).2 k (by rw [hx]; exact hk)
      exact hcount ▸ hi

theorem extent_join : p.extent? (join producer consumer t) = some count := by
  have hfirst := J.first.extent
  have hreferenced : ∃ rest, (join producer consumer t).referenced = producer.referenced ++ rest := by
    simp only [Stage.referenced, join, List.flatMap_append, List.eraseDups_append]
    exact ⟨_, rfl⟩
  obtain ⟨rest, hreferenced⟩ := hreferenced
  unfold extent? at hfirst ⊢
  rw [hreferenced, List.findSome?_append, hfirst]
  rfl

/-- The joined stage can run where its parts can. -/
theorem fits_join : (join producer consumer t).Fits p n count := by
  have hparts : ∀ {o}, o ∈ (join producer consumer t).referenced → o ∉ (join producer consumer t).internal →
      o ≠ t ∧ (o ∈ producer.referenced ∧ o ∉ producer.internal ∨ o ∈ consumer.referenced ∧ o ∉ consumer.internal) := by
    intro o href hout
    rw [Fusable.mem_internal_join] at hout
    push Not at hout
    exact ⟨hout.2.2, (Fusable.referenced_join.mp href).imp (⟨·, hout.1⟩) (⟨·, hout.2.1⟩)⟩
  -- contents and sizes come from the part that names the object, guards from the part that has the step
  refine ⟨J.extent_join, fun o href hout a ha => ?_, fun o href hout k hk => ?_, fun x hx => ?_⟩
  · obtain ⟨hne, hpart⟩ := hparts href hout
    rw [J.held_eq hne hpart]
    rcases hpart with ⟨href, hout⟩ | ⟨href, hout⟩
    · exact J.first.contents o href hout a ha
    · rw [← J.fusable.held_of_ne J.sound J.held hne]
      exact J.second.contents o href hout a ha
  · obtain ⟨hne, hpart⟩ := hparts href hout
    rw [J.held_eq hne hpart] at hk
    rcases hpart with ⟨href, hout⟩ | ⟨href, hout⟩
    · exact J.first.sizes o href hout k hk
    · rw [← J.fusable.held_of_ne J.sound J.held hne] at hk
      exact J.second.sizes o href hout k hk
  · rcases List.mem_append.mp hx with hx | hx
    · rw [← J.first.admits x hx]
      exact ((Fusable.pointwise_of_mem J.sound J.fusable.mem.1 J.fusable.pixelwise.1 x hx).admits_congr
        fun o ho r hr hkind => J.start_of_scalar (.inl rfl) (fun _ _ => rfl) hx ho hr hkind).symm
    · rw [← J.second.admits x hx]
      exact ((Fusable.pointwise_of_mem J.sound J.fusable.mem.2.1 J.fusable.pixelwise.2 x hx).admits_congr
        fun o ho r hr hkind => J.start_of_scalar (.inr rfl) (fun _ hne => J.fusable.held_of_ne J.sound J.held hne) hx ho hr hkind).symm

end Joint

/-- A fresh image has the element that its metadata says. -/
theorem Sound.fresh_image (h : p.Sound) (hprivate : p.isPrivateImage o = true)
    (hv : (p.object? o).bind (·.object.constant) = none) {x : Host} (hx : p.fresh o = some x) :
    ∃ b : ImageBuffer, x = .image b ∧ b.format.element = (Stage.laneType p (some o)).element := by
  unfold isPrivateImage at hprivate
  split at hprivate
  · contradiction
  · rename_i r hr
    have hkind : r.info.kind = .image := by
      simp only [Bool.and_eq_true, beq_iff_eq] at hprivate
      rw [(h.objects o r hr).kind_eq, hprivate.1.1.1]
    have hget : p.objects.get? o = some r := hr
    have hconst : r.object.constant = none := by simpa [hr] using hv
    simp only [fresh, info?, hget, Option.map_some, Option.bind_some] at hx
    cases hinfo : r.info with
    | image i =>
      obtain ⟨width, height, format⟩ := i
      rw [hinfo] at hx
      cases width <;> cases height <;> cases format <;>
        simp [Host.ofMeta, ImageBuffer.ofMeta, Except.map, Except.toOption] at hx
      exact ⟨_, hx.symm, by simp [Stage.laneType, hr, hconst, hinfo, ImageBuffer.zero]⟩
    | _ => simp [hinfo, Meta.kind] at hkind

namespace Fusable

variable {front between back : List Stage} {producer consumer : Stage} {s u : Storage} (h : p.Sound)
  (hf : p.Fusable front between back producer consumer t) (hs : Storage.ofPlan p = .ok s)

include h hf hs

/-- Where producer and consumer run in turn, the joined stage runs and makes the updates of the consumer; those of the
producer stay in the image between. -/
theorem update_join (hu : Storage.ofPlan (p.joined front between back producer consumer t) = .ok u)
    (hagree : Memory.Agree (p.joined front between back producer consumer t).Uses m n)
    (hfresh : m.get? (.scratch t) = p.fresh t) {us vs : List (Place × Host)}
    (hus : producer.update? .standard p s m = some us) (hvs : consumer.update? .standard p s (m.setAll us) = some vs) :
    (join producer consumer t).update? .standard (p.joined front between back producer consumer t) u n = some vs ∧
      ∀ x ∈ us, x.1 = .scratch t := by
  obtain ⟨count, hfirst, rfl⟩ := (h.update?_pixelwise hs hf.mem.1 hf.pixelwise.1).mp hus
  obtain ⟨count', hsecond, rfl⟩ := (h.update?_pixelwise hs hf.mem.2.1 hf.pixelwise.2).mp hvs
  have hhome := hf.home_eq h
  obtain ⟨hw, hout, href, hout'⟩ := hf.written
  obtain ⟨x, hx⟩ := hfirst.contents t (Stage.referenced_of_writes hw) hout _ hhome
  have hfreshx : p.fresh t = some x := by
    rw [← hfresh, ← hx, held, hhome]
    rfl
  obtain ⟨b, rfl, helement⟩ := h.fresh_image hf.hidden (hf.not_constant h) hfreshx
  -- both stages compute as many samples as the image between has
  have hcount : count' = count := by
    have hb := hfirst.sizes t (Stage.referenced_of_writes hw) hout _ (by rw [hx]; rfl)
    have hb' := hsecond.sizes t href hout' _ (by rw [hf.held_between h hx]; rfl)
    rw [← hb, ← hb', b.size_eq, ImageBuffer.size_eq]
    rfl
  subst hcount
  have J : Joint p front between back producer consumer t m n count' b :=
    ⟨h, hf, hagree, hx, helement, hfirst, hsecond⟩
  refine ⟨((hf.sound h).update?_pixelwise hu (mem_joined.mpr (.inr rfl)) rfl).mpr ⟨count', ?_, J.results_join.symm⟩, fun y hy => ?_⟩
  · exact ⟨J.fits_join.extent, J.fits_join.contents, J.fits_join.sizes, J.fits_join.admits⟩
  · rw [hf.results_producer h hx, List.mem_singleton] at hy
    rw [hy]

/-- At the start the image between is fresh. -/
theorem fresh_start {bindings : Bindings} (hm : Memory.start p s bindings = some m) :
    m.get? (.scratch t) = p.fresh t := by
  obtain ⟨_, rfl⟩ := Memory.start_eq_some.mp hm
  have hplace : s.place? t = some (.scratch t) :=
    (h.place?_eq_home hs hf.mem.1 (Stage.referenced_of_writes hf.written.1) hf.written.2.1).trans (hf.home_eq h)
  have hscratch : s.placement? t = some .scratch := by
    unfold Storage.place? at hplace
    split at hplace <;> simp_all
  exact (get?_freshScratch p s t).trans (if_pos hscratch)

/-- The stages around the producer leave the image between alone. -/
theorem scratch_eq {l : List Stage} (hl : ∀ stage ∈ l, stage ∈ front ++ between ++ back) {m' : Memory}
    (hrun : l.foldlM (fun m stage => stage.run .standard p s m) m = .ok m') :
    m'.get? (.scratch t) = m.get? (.scratch t) := by
  refine foldlM_induction (fun m' => m'.get? (.scratch t) = m.get? (.scratch t)) (fun stage hstage x y hx hy => ?_) rfl hrun
  have hmem := hf.mem.2.2 stage (hl stage hstage)
  obtain ⟨us, hus, rfl⟩ := (h.run_eq_ok hs hmem).mp hy
  rw [← hx]
  refine Memory.get?_setAll (fun v hv => ?_) x
  obtain ⟨o, ho, hhome⟩ := h.home_of_written hs hmem (Stage.mem_writtenPlaces_of_update hus hv)
  refine apart_scratch hhome fun he => hf.unnamed h.woven stage (hl stage hstage) ?_
  exact he ▸ Stage.referenced_of_writes ho

/-- The producer exchanges with the stages between. -/
theorem exchanges {stage : Stage} (hstage : stage ∈ between) :
    Exchanges (fun m stage => stage.run .standard p s m) producer stage := by
  have hother : stage ∈ front ++ between ++ back := by simp [hstage]
  refine h.exchanges hs hf.mem.1 (hf.mem.2.2 stage hother) (fun o ho => ?_) ?_
  · rw [hf.writes, List.mem_singleton] at ho
    exact ho ▸ hf.unnamed h.woven stage hother
  · intro o ho
    exact h.woven.not_written_after hf.stages (List.mem_append_left _ hstage) ho

/-- The producer may as well run after some of the stages between. All that it changes is the image between. -/
theorem move_producer {near far : List Stage} (hbetween : between = near ++ far) {m' : Memory}
    (hrun : (front ++ producer :: near).foldlM (fun m stage => stage.run .standard p s m) m = .ok m') :
    ∃ mid us, (front ++ near).foldlM (fun m stage => stage.run .standard p s m) m = .ok mid ∧
      producer.update? .standard p s mid = some us ∧ m' = mid.setAll us ∧ ∀ u ∈ us, u.1 = .scratch t := by
  obtain ⟨mf, hmf, hrest⟩ := foldlM_append_eq_ok.mp hrun
  rw [← List.append_nil near] at hrest
  have hmoved := foldlM_move_back
    (fun stage hstage => hf.exchanges h hs (hbetween ▸ List.mem_append_left far hstage)) hrest
  obtain ⟨mid, hmid, hproducer⟩ := foldlM_append_eq_ok.mp hmoved
  obtain ⟨last, hlast, hnil⟩ := foldlM_cons_eq_ok.mp hproducer
  cases hnil
  obtain ⟨us, hus, rfl⟩ := (h.run_eq_ok hs hf.mem.1).mp hlast
  refine ⟨mid, us, foldlM_append_eq_ok.mpr ⟨mf, hmf, hmid⟩, hus, rfl, fun u hu => ?_⟩
  obtain ⟨o, ho, hhome⟩ := h.home_of_written hs hf.mem.1 (Stage.mem_writtenPlaces_of_update hus hu)
  rw [hf.writes, List.mem_singleton] at ho
  rw [ho, hf.home_eq h, Option.some.injEq] at hhome
  exact hhome.symm

/-- Up to the joint both plans do the same, and the image between stays fresh. -/
theorem follow (hu : Storage.ofPlan (p.joined front between back producer consumer t) = .ok u) {bindings : Bindings}
    (hm : Memory.start p s bindings = some m)
    (hn : Memory.start (p.joined front between back producer consumer t) u bindings = some n) {l : List Stage}
    (hl : ∀ stage ∈ l, stage ∈ front ++ between ++ back) {m' : Memory}
    (hrun : l.foldlM (fun m stage => stage.run .standard p s m) m = .ok m') :
    ∃ n', l.foldlM (fun m stage => stage.run .standard (p.joined front between back producer consumer t) u m) n = .ok n' ∧
      Memory.Agree (p.joined front between back producer consumer t).Uses m' n' ∧ m'.get? (.scratch t) = p.fresh t := by
  have N := hf.narrows h hs hu
  obtain ⟨n₀, hn₀, hagree⟩ := N.start hm
  rw [hn] at hn₀
  cases hn₀
  obtain ⟨n', hn', hagree'⟩ := N.foldlM (fun x hx => hf.mem.2.2 x (hl x hx)) (fun x hx => mem_joined.mpr (.inl (hl x hx)))
    hagree hrun
  exact ⟨n', hn', hagree', by rw [hf.scratch_eq h hs hl hrun, hf.fresh_start h hs hm]⟩

/-- Where the stages up to some after the consumer succeed, so do the joined stage and the same stages after it. -/
theorem run_joined (hu : Storage.ofPlan (p.joined front between back producer consumer t) = .ok u) {bindings : Bindings}
    (hm : Memory.start p s bindings = some m)
    (hn : Memory.start (p.joined front between back producer consumer t) u bindings = some n) {near far : List Stage}
    (hback : back = near ++ far) {m' : Memory}
    (hrun : (front ++ producer :: (between ++ consumer :: near)).foldlM (fun m stage => stage.run .standard p s m) m =
      .ok m') :
    ∃ n', (front ++ between ++ join producer consumer t :: near).foldlM
        (fun m stage => stage.run .standard (p.joined front between back producer consumer t) u m) n = .ok n' ∧
      Memory.Agree (p.joined front between back producer consumer t).Uses m' n' := by
  have hsplit : front ++ producer :: (between ++ consumer :: near) = (front ++ producer :: between) ++ consumer :: near := by
    simp
  rw [hsplit] at hrun
  obtain ⟨mp, hmp, hrest⟩ := foldlM_append_eq_ok.mp hrun
  obtain ⟨mc, hmc, hnear⟩ := foldlM_cons_eq_ok.mp hrest
  -- the producer may as well run right before the consumer
  obtain ⟨mb, us, hmb, hus, rfl, hscratch⟩ := hf.move_producer h hs (List.append_nil between).symm hmp
  obtain ⟨nb, hnb, hagree, hfresh⟩ := hf.follow h hs hu hm hn (fun x hx => List.mem_append_left back hx) hmb
  obtain ⟨vs, hvs, rfl⟩ := (h.run_eq_ok hs hf.mem.2.1).mp hmc
  obtain ⟨hjoin, _⟩ := hf.update_join h hs hu hagree hfresh hus hvs
  have hagree := (hagree.setAll_left fun x hx => ⟨t, hscratch x hx, hf.not_uses h⟩).setAll vs
  have hlast : ∀ stage ∈ near, stage ∈ front ++ between ++ back := fun stage hstage => by simp [hback, hstage]
  obtain ⟨n', hn', hagree⟩ := (hf.narrows h hs hu).foldlM (fun x hx => hf.mem.2.2 x (hlast x hx))
    (fun x hx => mem_joined.mpr (.inl (hlast x hx))) hagree hnear
  refine ⟨n', foldlM_append_eq_ok.mpr ⟨nb, hnb, foldlM_cons_eq_ok.mpr ⟨_, ?_, hn'⟩⟩, hagree⟩
  exact ((hf.sound h).run_eq_ok hu (mem_joined.mpr (.inr rfl))).mpr ⟨vs, hjoin, rfl⟩

omit hs in
/-- Joining two stages keeps what can be seen of a plan. -/
theorem replaces : (p.joined front between back producer consumer t).Replaces p where
  entries := rfl
  info _ _ := rfl
  run s u bindings m' hs hu hrun := by
    obtain ⟨m, hm, hfold⟩ := run_eq_finished.mp hrun
    obtain ⟨n, hn, _⟩ := (hf.narrows h hs hu).start hm
    rw [hf.stages] at hfold
    obtain ⟨n', hn', hagree⟩ := hf.run_joined h hs hu hm hn (List.append_nil back).symm hfold
    exact ⟨n', run_eq_finished.mpr ⟨n, hn, hn'⟩, IdMap.ext fun o => (hagree.host o).symm⟩

end Fusable

end Plan

end VisionGraph
