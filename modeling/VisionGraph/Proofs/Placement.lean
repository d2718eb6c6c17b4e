import VisionGraph.Proofs.Invariant
import VisionGraph.Proofs.Memory

/-! Storage of a sound plan. Every object that a stage names has one placement; outside of the stages it is
internal to, an object has its home in memory, and the homes of different objects are apart. -/
namespace VisionGraph

theorem Plan.mem_entries {p : Plan} (hid : ∀ (o : ObjectId) (r : Resolved), p.object? o = some r → r.object.id = o)
    {o : ObjectId} : o ∈ p.entries ↔ ∃ r, p.object? o = some r ∧ r.object.isEntry = true := by
  simp only [entries, List.mem_map, List.mem_filter, IdMap.mem_values_iff]
  constructor
  · rintro ⟨r, ⟨⟨q, hq⟩, hentry⟩, rfl⟩
    rw [hid q r hq]
    exact ⟨r, hq, hentry⟩
  · rintro ⟨r, hr, hentry⟩
    exact ⟨r, ⟨⟨o, hr⟩, hentry⟩, hid o r hr⟩

/-- The caller binds objects in the order of their numbers. -/
theorem Plan.sorted_entries {p : Plan} (hid : ∀ (o : ObjectId) (r : Resolved), p.object? o = some r → r.object.id = o) :
    p.entries.Pairwise (·.index < ·.index) := by
  have hpairs : (p.objects.entries.filter fun x => x.2.object.isEntry).Pairwise fun x y =>
      x.2.object.id.index < y.2.object.id.index := by
    refine (p.objects.sorted.sublist List.filter_sublist).imp_of_mem fun {x y} hx hy hlt => ?_
    -- objects stand under their numbers, and the numbers increase
    rw [hid x.1 x.2 (IdMap.get?_eq_some_iff.mpr (List.mem_of_mem_filter hx)),
      hid y.1 y.2 (IdMap.get?_eq_some_iff.mpr (List.mem_of_mem_filter hy))]
    exact hlt
  have hentries : p.entries = (p.objects.entries.filter fun x => x.2.object.isEntry).map (·.2.object.id) := by
    simp only [entries, IdMap.values, List.filter_map, List.map_map]
    rfl
  rw [hentries]
  exact List.pairwise_map.mpr hpairs

/-- The caller binds every object once. -/
theorem Plan.nodup_entries {p : Plan} (hid : ∀ (o : ObjectId) (r : Resolved), p.object? o = some r → r.object.id = o) :
    p.entries.Nodup := by
  refine (sorted_entries hid).imp fun hlt he => ?_
  rw [he] at hlt
  exact Nat.lt_irrefl _ hlt

/-- Plans have the same entries when they have the same objects among those that the caller binds. -/
theorem Plan.entries_congr {p q : Plan} (h : ∀ (o : ObjectId) (r : Resolved), r.object.isEntry = true →
    (q.object? o = some r ↔ p.object? o = some r)) : q.entries = p.entries := by
  have hvalues (p : Plan) : p.entries =
      (p.objects.filter fun _ r => r.object.isEntry).values.map (·.object.id) := by
    simp only [entries, IdMap.values, IdMap.filter, List.filter_map]
    rfl
  rw [hvalues q, hvalues p]
  congr 2
  refine IdMap.ext fun o => Option.ext fun r => ?_
  simp only [IdMap.get?_filter, Option.filter_eq_some_iff]
  exact and_congr_left fun hr => h o r hr

namespace Storage

variable {p : Plan} {entries : List ObjectId} {placed next : IdMap Placement}

theorem get?_foldl_internal (objects : List ObjectId) (placed : IdMap Placement) (o : ObjectId) :
    (objects.foldl (fun m o => m.insert o .internal) placed).get? o =
      if o ∈ objects then some .internal else placed.get? o := by
  induction objects generalizing placed with
  | nil => simp
  | cons q objects ih =>
    rw [List.foldl_cons, ih, IdMap.get?_insert]
    by_cases hq : o = q
    · simp [hq]
    · simp [hq]

theorem get?_add {q : ObjectId} (h : add p entries placed q = .ok next) (o : ObjectId) :
    next.get? o = if placed.get? o = none ∧ o = q then (place p entries o).toOption else placed.get? o := by
  unfold add at h
  split at h
  · rename_i hq
    cases h
    obtain ⟨x, hx⟩ := IdMap.contains_iff.mp hq
    have hno : ¬(placed.get? o = none ∧ o = q) := by
      rintro ⟨hnone, rfl⟩
      rw [hnone] at hx
      contradiction
    rw [if_neg hno]
  · rename_i hq
    obtain ⟨x, hx, rfl⟩ := map_eq_ok.mp h
    rw [IdMap.get?_insert]
    by_cases hoq : o = q
    · subst hoq
      have hnone : placed.get? o = none := by simpa [IdMap.contains] using hq
      simp [hnone, hx, Except.toOption]
    · simp [hoq]

theorem get?_addAll {objects : List ObjectId} (h : objects.foldlM (add p entries) placed = .ok next) (o : ObjectId) :
    next.get? o = if placed.get? o = none ∧ o ∈ objects then (place p entries o).toOption else placed.get? o := by
  induction objects generalizing placed with
  | nil =>
    cases h
    simp
  | cons q objects ih =>
    obtain ⟨mid, hq, hrest⟩ := foldlM_cons_eq_ok.mp h
    rw [ih hrest, get?_add hq]
    by_cases hnone : placed.get? o = none
    · by_cases hoq : o = q
      · subst hoq
        simp only [hnone, true_and, ↓reduceIte, List.mem_cons, true_or]
        split
        · rfl
        · rfl
      · simp [hnone, hoq]
    · simp [hnone]

theorem mem_scratch {s : Storage} {o : ObjectId} : o ∈ s.scratch ↔ s.placement? o = some .scratch := by
  simp only [scratch, placement?, List.mem_map, List.mem_filter, beq_iff_eq]
  constructor
  · rintro ⟨⟨q, x⟩, ⟨hmem, rfl⟩, rfl⟩
    exact IdMap.get?_eq_some_iff.mpr hmem
  · intro h
    exact ⟨(o, .scratch), ⟨IdMap.get?_eq_some_iff.mp h, rfl⟩, rfl⟩

theorem sorted_scratch (s : Storage) : s.scratch.Pairwise (·.index < ·.index) :=
  List.pairwise_map.mpr (s.placements.sorted.sublist List.filter_sublist)

theorem nodup_scratch (s : Storage) : s.scratch.Nodup := by
  apply s.sorted_scratch.imp
  intro a b hlt he
  rw [he] at hlt
  exact Nat.lt_irrefl _ hlt

/-- The placement of an object after some stages. -/
def Placed (p : Plan) (entries : List ObjectId) (stages : List Stage) (placed : IdMap Placement) : Prop :=
  (∀ o, (∃ stage ∈ stages, o ∈ stage.internal) → placed.get? o = some .internal) ∧
    ∀ o, (∀ stage ∈ stages, o ∉ stage.internal) → ((∃ stage ∈ stages, o ∈ stage.referenced) →
      placed.get? o = (place p entries o).toOption) ∧ ((∀ stage ∈ stages, o ∉ stage.referenced) → placed.get? o = none)

theorem get?_addStage {stage : Stage} (h : addStage p entries placed stage = .ok next) (o : ObjectId) :
    next.get? o = if o ∈ stage.internal then some .internal
      else if placed.get? o = none ∧ o ∈ stage.referenced then (place p entries o).toOption else placed.get? o := by
  rw [get?_addAll h, get?_foldl_internal]
  by_cases ho : o ∈ stage.internal
  · simp [ho]
  · simp [ho]

theorem placed_addStage {done : List Stage} {stage : Stage} (hp : Placed p entries done placed)
    (h : addStage p entries placed stage = .ok next) : Placed p entries (done ++ [stage]) next := by
  obtain ⟨hin, hout⟩ := hp
  refine ⟨fun o ho => ?_, fun o ho => ?_⟩
  · -- the new stage marks its internal objects last, and no stage after that takes the mark away
    rw [get?_addStage h]
    by_cases hs : o ∈ stage.internal
    · rw [if_pos hs]
    · have hdone : ∃ st ∈ done, o ∈ st.internal := by simpa [hs, or_and_right, exists_or] using ho
      rw [if_neg hs, hin o hdone]
      simp
  · have hs : o ∉ stage.internal := ho stage (by simp)
    obtain ⟨hyes, hno⟩ := hout o fun st hst => ho st (by simp [hst])
    rw [get?_addStage h, if_neg hs]
    -- an object keeps the place that the first stage which names it gives to it
    by_cases hdone : ∃ st ∈ done, o ∈ st.referenced
    · rw [hyes hdone]
      refine ⟨fun _ => by split <;> rfl, fun hnone => ?_⟩
      obtain ⟨st, hst, href⟩ := hdone
      exact absurd href (hnone st (by simp [hst]))
    · push Not at hdone
      rw [hno hdone]
      refine ⟨fun href => ?_, fun hnone => ?_⟩
      · obtain ⟨st, hst, href⟩ := href
        have hstage : o ∈ stage.referenced := by
          rcases List.mem_append.mp hst with hst | hst
          · exact absurd href (hdone st hst)
          · exact List.mem_singleton.mp hst ▸ href
        simp [hstage]
      · simp [hnone stage (by simp)]

theorem ofPlan_eq_ok {s : Storage} : ofPlan p = .ok s ↔
    s.entries = p.entries ∧ p.stages.foldlM (addStage p p.entries) .empty = .ok s.placements := by
  obtain ⟨entries, placements⟩ := s
  simp only [ofPlan, bind_eq_ok, pure, Except.pure, Except.ok.injEq, Storage.mk.injEq]
  constructor
  · rintro ⟨m, hm, rfl, rfl⟩
    exact ⟨rfl, hm⟩
  · rintro ⟨rfl, hm⟩
    exact ⟨placements, hm, rfl, rfl⟩

/-- The storage of a plan places the objects of its stages and no others. -/
theorem placed_of_ofPlan {s : Storage} (h : ofPlan p = .ok s) : Placed p p.entries p.stages s.placements := by
  obtain ⟨_, hfold⟩ := ofPlan_eq_ok.mp h
  -- the stages that are done grow at the end, so the invariant speaks of them and not of those to come
  have hrun : ∀ (stages done : List Stage) (m n : IdMap Placement), Placed p p.entries done m →
      stages.foldlM (addStage p p.entries) m = .ok n → Placed p p.entries (done ++ stages) n := by
    intro stages
    induction stages with
    | nil =>
      intro done m n hm hn
      cases hn
      simpa using hm
    | cons stage stages ih =>
      intro done m n hm hn
      obtain ⟨mid, hmid, hrest⟩ := foldlM_cons_eq_ok.mp hn
      have hdone := ih (done ++ [stage]) mid n (placed_addStage hm hmid) hrest
      rwa [List.append_assoc] at hdone
  refine hrun p.stages [] .empty s.placements ⟨fun o ho => ?_, fun o _ => ⟨fun ho => ?_, fun _ => rfl⟩⟩ hfold
  · obtain ⟨_, hmem, _⟩ := ho
    cases hmem
  · obtain ⟨_, hmem, _⟩ := ho
    cases hmem

/-- What is placed in scratch is named by a stage. -/
theorem exists_stage_of_scratch {s : Storage} (h : ofPlan p = .ok s) {o : ObjectId}
    (ho : s.placement? o = some .scratch) : ∃ stage ∈ p.stages, o ∈ stage.referenced := by
  obtain ⟨hin, hout⟩ := placed_of_ofPlan h
  have hinternal : ∀ stage ∈ p.stages, o ∉ stage.internal := by
    intro stage hstage hi
    have hplaced := hin o ⟨stage, hstage, hi⟩
    rw [placement?, hplaced] at ho
    contradiction
  by_contra hno
  push Not at hno
  have hplaced := (hout o hinternal).2 hno
  rw [placement?, hplaced] at ho
  contradiction

/-- There is a storage when every named object has somewhere to go. -/
theorem exists_ofPlan (h : ∀ stage ∈ p.stages, ∀ o ∈ stage.referenced, ∃ x, place p p.entries o = .ok x) :
    ∃ s, ofPlan p = .ok s := by
  have hadd : ∀ stage ∈ p.stages, ∀ o ∈ stage.referenced, ∀ m, ∃ n, add p p.entries m o = .ok n := by
    intro stage hstage o ho m
    obtain ⟨x, hx⟩ := h stage hstage o ho
    unfold add
    split
    · exact ⟨m, rfl⟩
    · exact ⟨_, by rw [hx]; rfl⟩
  obtain ⟨n, hn⟩ := exists_foldlM_eq_ok (f := addStage p p.entries)
    (fun stage hstage _ => exists_foldlM_eq_ok (hadd stage hstage) _) .empty
  exact ⟨⟨p.entries, n⟩, ofPlan_eq_ok.mpr ⟨rfl, hn⟩⟩

end Storage

/-! ### Homes -/

namespace Plan

/-- Where the contents of an object are found in memory; a constant is in no memory. -/
def home (p : Plan) (o : ObjectId) : Option Place :=
  (p.object? o).bind fun r =>
    if r.object.isConstant then none
    else match r.object.slot with
      | some s => some (.slot s.delay s.age.toNat)
      | none => some (if r.object.isEntry then .host o else .scratch o)

variable {p : Plan} {s : Storage} {stage : Stage} {o : ObjectId}

theorem eq_of_home_scratch {q : ObjectId} (h : p.home o = some (.scratch q)) : q = o := by
  obtain ⟨r, _, h⟩ := Option.bind_eq_some_iff.mp h
  split at h
  · contradiction
  · split at h
    · simp at h
    · split at h
      · simp at h
      · simpa using h.symm

theorem Sound.ids (h : p.Sound) : ∀ (o : ObjectId) (r : Resolved), p.object? o = some r → r.object.id = o :=
  fun o r hr => (h.objects o r hr).id

/-- The delay of an image is bound by the caller. -/
theorem Sound.delay_mem_entries (h : p.Sound) {r : Resolved} (hr : p.object? o = some r) {slot : DelaySlot}
    (hs : r.object.slot = some slot) : slot.delay ∈ p.entries := by
  obtain ⟨_, _, d, hd, hreal, hnone, _⟩ := (h.objects o r hr).slot slot hs
  refine (mem_entries h.ids).mpr ⟨d, hd, ?_⟩
  simp [DataObject.isEntry, DataObject.isExternal, hreal, hnone]

theorem exists_idxOf {entries : List ObjectId} (h : o ∈ entries) :
    ∃ i, entries.idxOf? o = some i ∧ entries[i]? = some o := by
  cases hi : entries.idxOf? o with
  | none => exact absurd h (List.idxOf?_eq_none_iff.mp hi)
  | some i =>
    obtain ⟨hlt, he, _⟩ := List.idxOf?_eq_some_iff.mp hi
    exact ⟨i, rfl, by rw [List.getElem?_eq_getElem hlt, he]⟩

/-- The four ways to place an object of a plan. -/
theorem Sound.place_cases (h : p.Sound) {r : Resolved} (hr : p.object? o = some r) :
    (∃ v, r.object.constant = some v ∧ Storage.place p p.entries o = .ok (.constant v)) ∨
      r.object.constant = none ∧
        ((∃ slot i, r.object.slot = some slot ∧ p.entries[i]? = some slot.delay ∧
            Storage.place p p.entries o = .ok (.slot i slot.age)) ∨
          r.object.slot = none ∧
            ((∃ i, r.object.isEntry = true ∧ p.entries[i]? = some o ∧ Storage.place p p.entries o = .ok (.entry i)) ∨
              r.object.isEntry = false ∧ o ∉ p.entries ∧ Storage.place p p.entries o = .ok .scratch)) := by
  unfold Storage.place
  rw [hr]
  cases hc : r.object.constant with
  | some v => exact .inl ⟨v, rfl, by simp [hc]⟩
  | none =>
    refine .inr ⟨rfl, ?_⟩
    cases hs : r.object.slot with
    | some slot =>
      obtain ⟨i, hi, hget⟩ := exists_idxOf (h.delay_mem_entries hr hs)
      exact .inl ⟨slot, i, rfl, hget, by simp [hc, hs, hi]⟩
    | none =>
      refine .inr ⟨rfl, ?_⟩
      by_cases hmem : o ∈ p.entries
      · obtain ⟨r', hr', hentry⟩ := (mem_entries h.ids).mp hmem
        cases hr.symm.trans hr'
        obtain ⟨i, hi, hget⟩ := exists_idxOf hmem
        exact .inl ⟨i, hentry, hget, by simp [hc, hs, hi]⟩
      · have hentry : r.object.isEntry = false := by
          by_contra hyes
          exact hmem ((mem_entries h.ids).mpr ⟨r, hr, by simpa using hyes⟩)
        exact .inr ⟨hentry, hmem, by simp [hc, hs, List.idxOf?_eq_none_iff.mpr hmem]⟩

/-- Every object of a plan has somewhere to go, and goes home. -/
theorem Sound.place_eq_ok (h : p.Sound) {r : Resolved} (hr : p.object? o = some r) :
    ∃ x, Storage.place p p.entries o = .ok x ∧ x ≠ .internal ∧ (∀ v, x = .constant v ↔ r.object.constant = some v) ∧
      ∀ s : Storage, s.entries = p.entries → s.placement? o = some x → s.place? o = p.home o := by
  unfold Storage.place? home
  rw [hr]
  obtain ⟨v, hc, hplace⟩ | ⟨hc, ⟨slot, i, hs, hget, hplace⟩ | ⟨hs, ⟨i, hentry, hget, hplace⟩ | ⟨hentry, _, hplace⟩⟩⟩ :=
    h.place_cases hr
  · refine ⟨_, hplace, nofun, by simp [hc], fun s _ hx => ?_⟩
    simp [hx, DataObject.isConstant, hc]
  · refine ⟨_, hplace, nofun, by simp [hc], fun s he hx => ?_⟩
    simp [hx, he, hget, DataObject.isConstant, hc, hs]
  · refine ⟨_, hplace, nofun, by simp [hc], fun s he hx => ?_⟩
    simp [hx, he, hget, DataObject.isConstant, hc, hs, hentry]
  · refine ⟨_, hplace, nofun, by simp [hc], fun s he hx => ?_⟩
    simp [hx, DataObject.isConstant, hc, hs, hentry]

theorem Sound.exists_storage (h : p.Sound) : ∃ s, Storage.ofPlan p = .ok s := by
  refine Storage.exists_ofPlan fun stage hstage o ho => ?_
  obtain ⟨r, hr, _⟩ := h.exists_object hstage ho
  obtain ⟨x, hx, _⟩ := h.place_eq_ok hr
  exact ⟨x, hx⟩

/-- An internal image is named at one position only. -/
theorem Sound.position_of_internal (h : p.Sound) {i j : Nat} {other : Stage} (hi : p.stages[i]? = some stage)
    (ho : o ∈ stage.internal) (hj : p.stages[j]? = some other) (href : o ∈ other.referenced) : j = i := by
  obtain ⟨hilt, rfl⟩ := List.getElem?_eq_some_iff.mp hi
  obtain ⟨hjlt, rfl⟩ := List.getElem?_eq_some_iff.mp hj
  have hpair := List.pairwise_iff_getElem.mp h.separate
  rcases Nat.lt_trichotomy i j with hlt | heq | hlt
  · exact absurd href ((hpair i j hilt hjlt hlt).1 o ho)
  · exact heq.symm
  · exact absurd href ((hpair j i hjlt hilt hlt).2 o ho)

/-- An internal image belongs to the stage that names it. -/
theorem Sound.internal_of_referenced (h : p.Sound) (hstage : stage ∈ p.stages) (ho : o ∈ stage.referenced)
    {other : Stage} (hother : other ∈ p.stages) (hi : o ∈ other.internal) : o ∈ stage.internal := by
  obtain ⟨i, hstage⟩ := List.mem_iff_getElem?.mp hstage
  obtain ⟨j, hother⟩ := List.mem_iff_getElem?.mp hother
  have hsame := h.position_of_internal hother hi hstage ho
  subst hsame
  cases hstage.symm.trans hother
  exact hi

/-- The placement of what a stage names but does not keep inside. -/
theorem Sound.placement_eq (h : p.Sound) (hs : Storage.ofPlan p = .ok s) (hstage : stage ∈ p.stages)
    (ho : o ∈ stage.referenced) (hi : o ∉ stage.internal) :
    s.placement? o = (Storage.place p p.entries o).toOption := by
  refine ((Storage.placed_of_ofPlan hs).2 o fun other hother hin => ?_).1 ⟨stage, hstage, ho⟩
  exact hi (h.internal_of_referenced hstage ho hother hin)

theorem placement_internal (hs : Storage.ofPlan p = .ok s) (hstage : stage ∈ p.stages) (ho : o ∈ stage.internal) :
    s.placement? o = some .internal :=
  (Storage.placed_of_ofPlan hs).1 o ⟨stage, hstage, ho⟩

/-- What a stage names but does not keep inside is found at home. -/
theorem Sound.place?_eq_home (h : p.Sound) (hs : Storage.ofPlan p = .ok s) (hstage : stage ∈ p.stages)
    (ho : o ∈ stage.referenced) (hi : o ∉ stage.internal) : s.place? o = p.home o := by
  obtain ⟨r, hr, _⟩ := h.exists_object hstage ho
  obtain ⟨x, hx, _, _, hhome⟩ := h.place_eq_ok hr
  refine hhome s (Storage.ofPlan_eq_ok.mp hs).1 ?_
  rw [h.placement_eq hs hstage ho hi, hx]
  rfl

theorem place?_internal (hs : Storage.ofPlan p = .ok s) (hstage : stage ∈ p.stages) (ho : o ∈ stage.internal) :
    s.place? o = none := by
  simp [Storage.place?, placement_internal hs hstage ho]

/-- Objects that no delay is behind have homes apart from each other. -/
theorem Sound.apart_home (h : p.Sound) {q : ObjectId} {r t : Resolved} (hr : p.object? o = some r)
    (ht : p.object? q = some t) (hrk : r.object.kind ≠ .delay) (htk : t.object.kind ≠ .delay) (hne : o ≠ q)
    {a b : Place} (ha : p.home o = some a) (hb : p.home q = some b) : a.Apart b := by
  have hro := h.objects o r hr
  have htq := h.objects q t ht
  have hdelay : ∀ {x y : ObjectId} {u v : Resolved}, p.object? x = some u → p.object? y = some v →
      v.object.kind ≠ .delay → ∀ slot, u.object.slot = some slot → y ≠ slot.delay := by
    intro x y u v hu hv hk slot hslot hy
    obtain ⟨_, _, d, hd, _, _, hdk⟩ := (h.objects x u hu).slot slot hslot
    have hdv : d = v := by simpa [← hy, hv] using hd.symm
    exact hk (hdv ▸ hdk)
  simp only [home, hr, ht, Option.bind_some] at ha hb
  split at ha
  · contradiction
  split at hb
  · contradiction
  -- two images of one delay differ in age, since their numbers follow from the delay and the age
  cases hx : r.object.slot with
  | some x =>
    cases hy : t.object.slot with
    | some y =>
      simp only [hx, hy, Option.some.injEq] at ha hb
      subst ha hb
      by_contra hsame
      simp only [Place.Apart, not_or, not_not] at hsame
      have hi := (hro.slot x hx).2.1
      have hj := (htq.slot y hy).2.1
      rw [hsame.1, hsame.2, ← hj] at hi
      exact hne (IdMap.object_ext hi)
    | none =>
      simp only [hx, hy, Option.some.injEq] at ha hb
      subst ha hb
      split
      · exact hdelay hr ht htk x hx
      · trivial
  | none =>
    cases hy : t.object.slot with
    | some y =>
      simp only [hx, hy, Option.some.injEq] at ha hb
      subst ha hb
      split
      · exact hdelay ht hr hrk y hy
      · trivial
    | none =>
      simp only [hx, hy, Option.some.injEq] at ha hb
      subst ha hb
      split <;> split
      · exact hne
      · trivial
      · trivial
      · exact hne

end Plan

end VisionGraph
