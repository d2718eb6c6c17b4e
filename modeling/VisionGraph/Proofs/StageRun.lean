import VisionGraph.Run.Stage
import VisionGraph.Proofs.Placement
import VisionGraph.Proofs.Weave

/-! Execution of a stage as a read, a computation and a list of updates. What a stage does depends only on the
contents of the places that it touches, so stages that share nothing they write run in either order. -/
namespace VisionGraph

namespace Stage

variable {r : Registry} {p : Plan} {s : Storage} {stage : Stage} {m n : Memory}

/-- The places of all parameters of a stage, each once. -/
def touched (s : Storage) (stage : Stage) : List Place := s.places (stage.steps.flatMap (·.params))

/-- What a pixel-wise stage makes of the contents of its places. -/
def computePixels (r : Registry) (p : Plan) (s : Storage) (stage : Stage) (objects : Array Host) :
    Option (Array Host) :=
  match p.extent? stage, stage.steps.mapM (prepare r p s stage (stage.touched s) objects) with
  | some count, some steps =>
    let start : PixelState := ⟨objects, Array.replicate stage.internal.length 0⟩
    if steps.all (spans objects count) && steps.all (·.passes start) then
      some (pixelLoop steps count 0 start).objects
    else none
  | _, _ => none

/-- What a stage over whole objects makes of the contents of its places. -/
def computeBlock (r : Registry) (s : Storage) (stage : Stage) (objects : Array Host) : Option (Array Host) :=
  match stage.steps with
  | [] => none
  | step :: _ =>
    match r.find? step.kernel with
    | none => none
    | some kernel =>
      match kernel.effect step.border ⟨(step.params.map (s.handle (s.places step.params))).toArray, objects⟩ with
      | .ok f => some f.objects
      | .error _ => none

def compute (r : Registry) (p : Plan) (s : Storage) (stage : Stage) (objects : Array Host) : Option (Array Host) :=
  if stage.pixelwise then computePixels r p s stage objects else computeBlock r s stage objects

theorem runPixels_eq_ok : stage.runPixels r p s m = .ok n ↔
    ∃ objects out, m.load (stage.touched s) = some objects ∧ computePixels r p s stage objects = some out ∧
      n = m.store (stage.touched s) (stage.writtenPlaces s) out := by
  unfold runPixels computePixels touched
  dsimp only
  cases m.load (s.places (stage.steps.flatMap (·.params))) with
  | none => simp
  | some objects =>
    cases p.extent? stage with
    | none => simp
    | some count =>
      simp only [Option.some.injEq, exists_and_left, exists_eq_left']
      cases stage.steps.mapM (prepare r p s stage (s.places (stage.steps.flatMap (·.params))) objects) with
      | none => simp
      | some steps =>
        simp only
        cases steps.all (spans objects count) with
        | false => simp
        | true =>
          cases steps.all (·.passes ⟨objects, Array.replicate stage.internal.length 0⟩) with
          | false => simp
          | true =>
            simp only [Bool.not_true, Bool.false_eq_true, ↓reduceIte, Except.ok.injEq, Bool.and_self,
              Option.some.injEq, exists_eq_left']
            exact eq_comm

theorem runBlock_eq_ok (hone : stage.steps.length = 1) : stage.runBlock r s m = .ok n ↔
    ∃ objects out, m.load (stage.touched s) = some objects ∧ computeBlock r s stage objects = some out ∧
      n = m.store (stage.touched s) (stage.writtenPlaces s) out := by
  obtain ⟨step, hstep⟩ := List.length_eq_one_iff.mp hone
  have htouched : stage.touched s = s.places step.params := by simp [touched, hstep]
  unfold runBlock computeBlock
  rw [htouched]
  simp only [hstep]
  cases r.find? step.kernel with
  | none => simp
  | some kernel =>
    cases m.load (s.places step.params) with
    | none => simp
    | some objects =>
      simp only [Option.some.injEq, exists_and_left, exists_eq_left']
      cases kernel.effect step.border ⟨(step.params.map (s.handle (s.places step.params))).toArray, objects⟩ with
      | ok f => simp [eq_comm]
      | error halt => cases halt <;> simp

theorem Valid.run_eq_ok (h : stage.Valid p) : stage.run r p s m = .ok n ↔
    ∃ objects out, m.load (stage.touched s) = some objects ∧ stage.compute r p s objects = some out ∧
      n = m.store (stage.touched s) (stage.writtenPlaces s) out := by
  unfold run compute
  cases hp : stage.pixelwise with
  | true => simpa using runPixels_eq_ok
  | false => simpa using runBlock_eq_ok (h.whole hp).1

/-! ### Updates -/

theorem mem_touched {a : Place} : a ∈ stage.touched s ↔ ∃ o ∈ stage.referenced, s.place? o = some a := by
  simp only [touched, Storage.places, List.mem_eraseDups, List.mem_filterMap, mem_referenced, Step.bound,
    List.mem_flatMap]
  constructor
  · rintro ⟨param, ⟨step, hs, hp⟩, ha⟩
    cases param with
    | none => contradiction
    | some o => exact ⟨o, ⟨step, hs, some o, hp, rfl⟩, ha⟩
  · rintro ⟨o, ⟨step, hs, param, hp, rfl⟩, ha⟩
    exact ⟨some o, ⟨step, hs, hp⟩, ha⟩

theorem mem_writtenPlaces {a : Place} : a ∈ stage.writtenPlaces s ↔ ∃ o ∈ stage.writes, s.place? o = some a := by
  simp only [writtenPlaces, List.mem_filterMap]

theorem nodup_touched (s : Storage) (stage : Stage) : (stage.touched s).Nodup := nodup_eraseDups _

/-- The contents that a stage writes back, in the order in which it names what it writes. -/
def updates (s : Storage) (stage : Stage) (out : Array Host) : List (Place × Host) :=
  (stage.writtenPlaces s).filterMap fun a => ((stage.touched s).idxOf? a).bind fun k => (out[k]?).map (a, ·)

theorem idxOf?_touched {a : Place} {k : Nat} :
    (stage.touched s).idxOf? a = some k ↔ (stage.touched s)[k]? = some a := by
  rw [List.idxOf?_eq_some_iff, List.getElem?_eq_some_iff]
  constructor
  · rintro ⟨hk, ha, _⟩
    exact ⟨hk, ha⟩
  · rintro ⟨hk, ha⟩
    refine ⟨hk, ha, fun j hj hja => ?_⟩
    have hne := List.pairwise_iff_getElem.mp (nodup_touched s stage) j k (by omega) hk hj
    exact hne (hja.trans ha.symm)

theorem mem_updates {out : Array Host} {u : Place × Host} : u ∈ stage.updates s out ↔
    u.1 ∈ stage.writtenPlaces s ∧ ∃ k : Nat, (stage.touched s)[k]? = some u.1 ∧ out[k]? = some u.2 := by
  obtain ⟨a, h⟩ := u
  simp only [updates, List.mem_filterMap, Option.bind_eq_some_iff, idxOf?_touched, Option.map_eq_some_iff,
    Prod.mk.injEq]
  constructor
  · rintro ⟨b, hb, k, hk, x, hx, rfl, rfl⟩
    exact ⟨hb, k, hk, hx⟩
  · rintro ⟨ha, k, hk, hx⟩
    exact ⟨a, ha, k, hk, h, hx, rfl, rfl⟩

/-- Writing back is the same as the updates when the places of the stage are apart from each other. -/
theorem store_eq_updates (hw : (stage.writtenPlaces s).Nodup)
    (hapart : ∀ a ∈ stage.touched s, ∀ b ∈ stage.touched s, a ≠ b → a.Apart b) (m : Memory) (out : Array Host) :
    m.store (stage.touched s) (stage.writtenPlaces s) out = m.setAll (stage.updates s out) := by
  rw [Memory.store_eq_setAll]
  have hzip : ((stage.touched s).zip out.toList).Pairwise fun u v => u.1 ≠ v.1 := by
    refine List.pairwise_iff_getElem.mpr fun i j hi hj hlt => ?_
    simp only [List.length_zip, Nat.lt_min] at hi hj
    simp only [List.getElem_zip]
    exact List.pairwise_iff_getElem.mp (nodup_touched s stage) i j hi.1 hj.1 hlt
  have hfilter := hzip.sublist (List.filter_sublist (p := fun u => decide (u.1 ∈ stage.writtenPlaces s)))
  have hmem : ∀ u, u ∈ ((stage.touched s).zip out.toList).filter (fun u => decide (u.1 ∈ stage.writtenPlaces s)) ↔
      u ∈ stage.updates s out := by
    intro u
    rw [List.mem_filter, mem_updates, List.mem_iff_getElem?, decide_eq_true_eq, and_comm]
    simp only [List.getElem?_zip_eq_some, Array.getElem?_toList]
  -- the same updates in another order, which does not matter for places that are apart
  have hperm : (((stage.touched s).zip out.toList).filter fun u => decide (u.1 ∈ stage.writtenPlaces s)).Perm
      (stage.updates s out) := by
    refine (List.perm_ext_iff_of_nodup (hfilter.imp fun hne he => hne (congrArg Prod.fst he)) ?_).mpr hmem
    refine List.Pairwise.filterMap _ (fun a b hne u hu v hv he => hne ?_) hw
    simp only [Option.bind_eq_some_iff, Option.map_eq_some_iff] at hu hv
    obtain ⟨_, _, _, _, rfl⟩ := hu
    obtain ⟨_, _, _, _, rfl⟩ := hv
    exact congrArg Prod.fst he
  refine Memory.setAll_perm hperm (hfilter.imp_of_mem fun {u v} hu hv hne => ?_) m
  have htouched : ∀ u ∈ stage.updates s out, u.1 ∈ stage.touched s := by
    intro u hu
    obtain ⟨_, k, hk, _⟩ := mem_updates.mp hu
    exact List.mem_of_getElem? hk
  exact hapart _ (htouched u ((hmem u).mp hu)) _ (htouched v ((hmem v).mp hv)) hne

/-- The updates that a stage makes to a memory, if it succeeds. -/
def update? (r : Registry) (p : Plan) (s : Storage) (stage : Stage) (m : Memory) : Option (List (Place × Host)) :=
  (m.load (stage.touched s)).bind fun objects => (stage.compute r p s objects).map (stage.updates s)

theorem update?_congr (h : ∀ a ∈ stage.touched s, m.get? a = n.get? a) :
    stage.update? r p s m = stage.update? r p s n := by
  rw [update?, update?, Memory.load_congr h]

theorem mem_writtenPlaces_of_update {us : List (Place × Host)} (h : stage.update? r p s m = some us)
    {u : Place × Host} (hu : u ∈ us) : u.1 ∈ stage.writtenPlaces s := by
  obtain ⟨objects, _, h⟩ := Option.bind_eq_some_iff.mp h
  obtain ⟨out, _, rfl⟩ := Option.map_eq_some_iff.mp h
  exact (mem_updates.mp hu).1

end Stage

namespace Plan.Sound

variable {r : Registry} {p : Plan} {s : Storage} {stage : Stage} {m n : Memory}

/-- A stage that comes after another writes nothing that the other one names. -/
theorem stage_after (h : p.Sound) : p.stages.Pairwise fun a b => ∀ o ∈ b.writes, o ∉ a.referenced :=
  h.woven.stage_after

/-- The homes of different objects that stages name are apart. -/
theorem apart_of_ne (h : p.Sound) {stage' : Stage} (hstage : stage ∈ p.stages) (hstage' : stage' ∈ p.stages)
    {o q : ObjectId} (ho : o ∈ stage.referenced) (hq : q ∈ stage'.referenced) (hne : o ≠ q) {a b : Place}
    (ha : p.home o = some a) (hb : p.home q = some b) : a.Apart b := by
  obtain ⟨x, hx, _, _, hxk⟩ := h.exists_object hstage ho
  obtain ⟨y, hy, _, _, hyk⟩ := h.exists_object hstage' hq
  exact h.apart_home hx hy hxk hyk hne ha hb

section

variable (h : p.Sound) (hs : Storage.ofPlan p = .ok s) (hstage : stage ∈ p.stages)

include h hs hstage

/-- The places of all stages are homes. -/
theorem home_of_touched {a : Place} (ha : a ∈ stage.touched s) :
    ∃ o ∈ stage.referenced, o ∉ stage.internal ∧ p.home o = some a := by
  obtain ⟨o, ho, hplace⟩ := Stage.mem_touched.mp ha
  by_cases hi : o ∈ stage.internal
  · rw [place?_internal hs hstage hi] at hplace
    contradiction
  · exact ⟨o, ho, hi, (h.place?_eq_home hs hstage ho hi).symm.trans hplace⟩

/-- The places that a stage writes are the homes of what it writes. -/
theorem home_of_written {a : Place} (ha : a ∈ stage.writtenPlaces s) : ∃ o ∈ stage.writes, p.home o = some a := by
  obtain ⟨o, ho, hplace⟩ := Stage.mem_writtenPlaces.mp ha
  have hi := (Stage.mem_writes.mp ho).2
  exact ⟨o, ho, (h.place?_eq_home hs hstage (Stage.referenced_of_writes ho) hi).symm.trans hplace⟩

theorem nodup_writtenPlaces : (stage.writtenPlaces s).Nodup := by
  have hwrites : stage.writes.Nodup := nodup_eraseDups _
  have hpair : stage.writes.Pairwise fun o q => ∀ a b, s.place? o = some a → s.place? q = some b → a ≠ b := by
    refine hwrites.imp_of_mem fun {o q} ho hq hne a b ha hb => ?_
    rw [h.place?_eq_home hs hstage (Stage.referenced_of_writes ho) (Stage.mem_writes.mp ho).2] at ha
    rw [h.place?_eq_home hs hstage (Stage.referenced_of_writes hq) (Stage.mem_writes.mp hq).2] at hb
    exact (h.apart_of_ne hstage hstage (Stage.referenced_of_writes ho) (Stage.referenced_of_writes hq) hne ha hb).ne
  exact hpair.filterMap _ fun o q hne a ha b hb => hne a b ha hb

/-- What a stage writes back are its updates. -/
theorem store_eq_updates (out : Array Host) :
    m.store (stage.touched s) (stage.writtenPlaces s) out = m.setAll (stage.updates s out) := by
  refine Stage.store_eq_updates (h.nodup_writtenPlaces hs hstage) (fun a ha b hb hne => ?_) m out
  obtain ⟨o, ho, _, hoa⟩ := h.home_of_touched hs hstage ha
  obtain ⟨q, hq, _, hqb⟩ := h.home_of_touched hs hstage hb
  refine h.apart_of_ne hstage hstage ho hq (fun he => hne ?_) hoa hqb
  rw [he, hqb] at hoa
  exact (Option.some.inj hoa).symm

/-- A stage succeeds exactly with its updates. -/
theorem run_eq_ok : stage.run r p s m = .ok n ↔ ∃ us, stage.update? r p s m = some us ∧ n = m.setAll us := by
  simp only [(h.stages stage hstage).run_eq_ok, h.store_eq_updates hs hstage, Stage.update?, Option.bind_eq_some_iff,
    Option.map_eq_some_iff]
  constructor
  · rintro ⟨objects, out, hload, hout, rfl⟩
    exact ⟨_, ⟨objects, hload, out, hout, rfl⟩, rfl⟩
  · rintro ⟨_, ⟨objects, hload, out, hout, rfl⟩, rfl⟩
    exact ⟨objects, out, hload, hout, rfl⟩

end

/-- What one stage writes is apart from all places of a stage that does not name it. -/
theorem apart_of_update (h : p.Sound) (hs : Storage.ofPlan p = .ok s) {a b : Stage} (ha : a ∈ p.stages)
    (hb : b ∈ p.stages) (hab : ∀ o ∈ a.writes, o ∉ b.referenced) {us : List (Place × Host)}
    (hus : a.update? r p s m = some us) : ∀ u ∈ us, ∀ x ∈ b.touched s, u.1.Apart x := by
  intro u hu x hx
  obtain ⟨o, ho, hou⟩ := h.home_of_written hs ha (Stage.mem_writtenPlaces_of_update hus hu)
  obtain ⟨q, hq, _, hqx⟩ := h.home_of_touched hs hb hx
  refine h.apart_of_ne ha hb (Stage.referenced_of_writes ho) hq (fun he => ?_) hou hqx
  exact hab o ho (he ▸ hq)

/-- Stages that write nothing the other one names run in either order. -/
theorem exchanges (h : p.Sound) (hs : Storage.ofPlan p = .ok s) {a b : Stage} (ha : a ∈ p.stages) (hb : b ∈ p.stages)
    (hab : ∀ o ∈ a.writes, o ∉ b.referenced) (hba : ∀ o ∈ b.writes, o ∉ a.referenced) :
    Exchanges (fun m stage => stage.run r p s m) a b := by
  intro m t u hrunA hrunB
  obtain ⟨us, hus, rfl⟩ := (h.run_eq_ok hs ha).mp hrunA
  obtain ⟨vs, hvs, rfl⟩ := (h.run_eq_ok hs hb).mp hrunB
  have hvs' : b.update? r p s m = some vs := by
    rw [← hvs]
    refine Stage.update?_congr fun x hx => (Memory.get?_setAll (fun u hu => ?_) m).symm
    exact h.apart_of_update hs ha hb hab hus u hu x hx
  have hus' : a.update? r p s (m.setAll vs) = some us := by
    rw [← hus]
    refine Stage.update?_congr fun x hx => Memory.get?_setAll (fun v hv => ?_) m
    exact h.apart_of_update hs hb ha hba hvs' v hv x hx
  refine ⟨_, (h.run_eq_ok hs hb).mpr ⟨vs, hvs', rfl⟩, (h.run_eq_ok hs ha).mpr ⟨us, hus', ?_⟩⟩
  refine Memory.setAll_comm (fun u hu v hv => ?_) m
  obtain ⟨o, ho, hov⟩ := Stage.mem_writtenPlaces.mp (Stage.mem_writtenPlaces_of_update hvs hv)
  exact h.apart_of_update hs ha hb hab hus u hu v.1
    (Stage.mem_touched.mpr ⟨o, Stage.referenced_of_writes ho, hov⟩)

end Plan.Sound

/-! ### Stages of several plans -/

namespace Storage

variable {s t : Storage}

theorem place?_congr {o : ObjectId} (he : t.entries = s.entries) (h : t.placement? o = s.placement? o) :
    t.place? o = s.place? o := by
  unfold place?
  rw [he, h]

theorem places_congr {params : List (Option ObjectId)} (h : ∀ o, some o ∈ params → t.place? o = s.place? o) :
    t.places params = s.places params := by
  unfold places
  congr 1
  refine List.filterMap_congr fun param hp => ?_
  cases param with
  | none => rfl
  | some o => exact h o hp

end Storage

namespace Stage

variable {r : Registry} {p q : Plan} {s t : Storage} {stage : Stage} {m : Memory}

theorem mem_referenced_of_param {step : Step} (hstep : step ∈ stage.steps) {o : ObjectId}
    (ho : some o ∈ step.params) : o ∈ stage.referenced :=
  mem_referenced.mpr ⟨step, hstep, List.mem_filterMap.mpr ⟨some o, ho, rfl⟩⟩

theorem extent?_congr (h : ∀ o ∈ stage.referenced, q.object? o = p.object? o) : q.extent? stage = p.extent? stage := by
  unfold Plan.extent? Plan.info?
  refine findSome?_congr fun o ho => ?_
  have hget : q.objects.get? o = p.objects.get? o := h o ho
  rw [hget]

theorem laneType_congr {param : Option ObjectId} (h : ∀ o, param = some o → q.object? o = p.object? o) :
    laneType q param = laneType p param := by
  cases param with
  | none => rfl
  | some o =>
    simp only [laneType, h o rfl]

/-- A stage does the same in plans that have the same objects for it and put them to the same places. -/
theorem run_congr (he : t.entries = s.entries) (hobject : ∀ o ∈ stage.referenced, q.object? o = p.object? o)
    (hplacement : ∀ o ∈ stage.referenced, t.placement? o = s.placement? o) :
    stage.run r q t m = stage.run r p s m := by
  have hplace : ∀ o ∈ stage.referenced, t.place? o = s.place? o := fun o ho =>
    Storage.place?_congr he (hplacement o ho)
  have htouched : t.places (stage.steps.flatMap (·.params)) = s.places (stage.steps.flatMap (·.params)) := by
    refine Storage.places_congr fun o ho => ?_
    obtain ⟨step, hstep, ho⟩ := List.mem_flatMap.mp ho
    exact hplace o (mem_referenced_of_param hstep ho)
  have hwritten : stage.writtenPlaces t = stage.writtenPlaces s :=
    List.filterMap_congr fun o ho => hplace o (referenced_of_writes ho)
  -- a pixel-wise stage sees a plan through the types and the lanes of its parameters
  have hprepare : ∀ places objects, stage.steps.mapM (prepare r q t stage places objects) =
      stage.steps.mapM (prepare r p s stage places objects) := by
    intro places objects
    refine mapM_congr fun step hstep => ?_
    have htypes : step.params.map (laneType q) = step.params.map (laneType p) := by
      refine List.map_congr_left fun param hp => laneType_congr fun o ho => ?_
      exact hobject o (mem_referenced_of_param hstep (ho ▸ hp))
    have hlanes : step.params.map (lane t stage places objects) = step.params.map (lane s stage places objects) := by
      refine List.map_congr_left fun param hp => ?_
      cases param with
      | none => rfl
      | some o =>
        have ho := mem_referenced_of_param hstep hp
        simp only [lane, hplacement o ho, hplace o ho]
    rw [prepare, prepare, htypes, hlanes]
  -- and any other one through its handles
  have hhandles : ∀ places, ∀ step ∈ stage.steps,
      step.params.map (t.handle places) = step.params.map (s.handle places) := by
    intro places step hstep
    refine List.map_congr_left fun param hp => ?_
    cases param with
    | none => rfl
    | some o =>
      have ho := mem_referenced_of_param hstep hp
      simp only [Storage.handle, hplacement o ho, hplace o ho]
  unfold run
  split
  · unfold runPixels
    simp only [htouched, hwritten, hprepare, extent?_congr hobject]
  · unfold runBlock
    cases hsteps : stage.steps with
    | nil => rfl
    | cons step rest =>
      have hstep : step ∈ stage.steps := by simp [hsteps]
      have hplaces : t.places step.params = s.places step.params :=
        Storage.places_congr fun o ho => hplace o (mem_referenced_of_param hstep ho)
      simp only [hplaces, hwritten, hhandles _ step hstep]

end Stage

namespace Plan

variable {r : Registry} {p q : Plan} {s t : Storage} {stage : Stage} {m n : Memory}

/-- A stage of two sound plans with the same entries has its objects at the same places in both. -/
theorem Sound.placement_congr (hp : p.Sound) (hq : q.Sound) (hs : Storage.ofPlan p = .ok s)
    (ht : Storage.ofPlan q = .ok t) (he : q.entries = p.entries) (hmem : stage ∈ p.stages) (hmem' : stage ∈ q.stages)
    (hobject : ∀ o ∈ stage.referenced, q.object? o = p.object? o) {o : ObjectId} (ho : o ∈ stage.referenced) :
    t.placement? o = s.placement? o := by
  by_cases hi : o ∈ stage.internal
  · rw [placement_internal hs hmem hi, placement_internal ht hmem' hi]
  · rw [hp.placement_eq hs hmem ho hi, hq.placement_eq ht hmem' ho hi, Storage.place, Storage.place, hobject o ho, he]

/-- A stage of two sound plans with the same entries does the same in both. -/
theorem Sound.run_eq (hp : p.Sound) (hq : q.Sound) (hs : Storage.ofPlan p = .ok s) (ht : Storage.ofPlan q = .ok t)
    (he : q.entries = p.entries) (hmem : stage ∈ p.stages) (hmem' : stage ∈ q.stages)
    (hobject : ∀ o ∈ stage.referenced, q.object? o = p.object? o) : stage.run r q t m = stage.run r p s m := by
  have hentries : t.entries = s.entries := by
    rw [(Storage.ofPlan_eq_ok.mp ht).1, (Storage.ofPlan_eq_ok.mp hs).1, he]
  exact Stage.run_congr hentries hobject fun o ho => hp.placement_congr hq hs ht he hmem hmem' hobject ho

/-- The stages of a run are actions on the memory that follow each other. -/
theorem runFrom_eq_finished {position : Nat} {stages : List Stage} : p.runFrom r s position stages m = .finished n ↔
    stages.foldlM (fun m stage => stage.run r p s m) m = .ok n := by
  induction stages generalizing position m with
  | nil => simp [runFrom, pure, Except.pure]
  | cons stage stages ih =>
    rw [foldlM_cons_eq_ok, runFrom]
    cases stage.run r p s m with
    | ok m' => simpa using ih
    | error stop => cases stop <;> simp

theorem run_eq_finished {host : Bindings} : p.run r s host = .finished n ↔
    ∃ m, Memory.start p s host = some m ∧ p.stages.foldlM (fun m stage => stage.run r p s m) m = .ok n := by
  unfold run
  cases Memory.start p s host with
  | none => simp
  | some m => simpa using runFrom_eq_finished

end Plan

/-! ### The start of a run -/

/-- The fresh contents of an object. -/
def Plan.fresh (p : Plan) (o : ObjectId) : Option Host := (p.info? o).bind fun info => (Host.ofMeta info).toOption

/-- The scratch objects at the start of a run. -/
def Plan.freshScratch (p : Plan) (s : Storage) : IdMap Host :=
  .ofList (s.scratch.filterMap fun o => (p.fresh o).map (o, ·))

theorem Plan.get?_freshScratch (p : Plan) (s : Storage) (o : ObjectId) :
    (p.freshScratch s).get? o = if s.placement? o = some .scratch then p.fresh o else none := by
  have hkeys : ((s.scratch.filterMap fun o => (p.fresh o).map (o, ·)).map (·.1)).Nodup := by
    refine List.pairwise_map.mpr (List.Pairwise.filterMap _ (fun o q hne u hu v hv => ?_) s.nodup_scratch)
    obtain ⟨x, _, rfl⟩ := Option.map_eq_some_iff.mp hu
    obtain ⟨y, _, rfl⟩ := Option.map_eq_some_iff.mp hv
    exact hne
  refine Option.ext fun x => ?_
  rw [freshScratch, IdMap.get?_ofList hkeys]
  simp only [List.mem_filterMap, Storage.mem_scratch, Option.map_eq_some_iff, Prod.mk.injEq]
  split
  · rename_i hs
    exact ⟨fun ⟨q, _, y, hy, hq, hxy⟩ => hq ▸ hxy ▸ hy, fun hx => ⟨o, hs, x, hx, rfl, rfl⟩⟩
  · rename_i hs
    exact ⟨fun ⟨q, hq, y, _, hqo, _⟩ => absurd (hqo ▸ hq) hs, nofun⟩

/-- A run starts when there are fresh contents of all objects that are placed in scratch. -/
theorem Memory.start_eq_some {p : Plan} {s : Storage} {host : Bindings} {m : Memory} :
    Memory.start p s host = some m ↔
      (∀ o, s.placement? o = some .scratch → ∃ x, p.fresh o = some x) ∧ m = ⟨host, p.freshScratch s⟩ := by
  have hpairs : (s.scratch.mapM fun o => do
      let h ← (Host.ofMeta (← p.info? o)).toOption
      return (o, h)) = s.scratch.mapM fun o => (p.fresh o).map (o, ·) := by
    refine mapM_congr fun o _ => ?_
    unfold Plan.fresh
    cases p.info? o with
    | none => rfl
    | some info => cases hx : Host.ofMeta info <;> simp [hx, Except.toOption]
  unfold start
  rw [hpairs]
  simp only [Option.bind_eq_bind, Option.bind_eq_some_iff, mapM_eq_some_filterMap, Option.map_eq_some_iff,
    Storage.mem_scratch, Option.pure_def, Option.some.injEq]
  constructor
  · rintro ⟨_, ⟨hall, rfl⟩, rfl⟩
    refine ⟨fun o ho => ?_, rfl⟩
    obtain ⟨_, x, hx, _⟩ := hall o ho
    exact ⟨x, hx⟩
  · rintro ⟨hall, rfl⟩
    refine ⟨_, ⟨fun o ho => ?_, rfl⟩, rfl⟩
    obtain ⟨x, hx⟩ := hall o ho
    exact ⟨_, x, hx, rfl⟩

end VisionGraph
