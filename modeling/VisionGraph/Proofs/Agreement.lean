import VisionGraph.Proofs.Dependence
import VisionGraph.Proofs.Footprint
import VisionGraph.Proofs.Pruning
import VisionGraph.Proofs.RunSafety

/-! Runs in memories that agree on some objects. When these objects have with each one that a stage writes also all that
the stage reads, the stages keep the agreement. -/
namespace VisionGraph

theorem forall₂_filterMap {α β : Type} {R : β → β → Prop} {f g : α → Option β} {l : List α}
    (h : ∀ a ∈ l, (f a = none ∧ g a = none) ∨ ∃ x y, f a = some x ∧ g a = some y ∧ R x y) :
    List.Forall₂ R (l.filterMap f) (l.filterMap g) := by
  induction l with
  | nil => exact .nil
  | cons a l ih =>
    have hrest := ih fun b hb => h b (List.mem_cons_of_mem a hb)
    rcases h a List.mem_cons_self with ⟨hf, hg⟩ | ⟨x, y, hf, hg, hxy⟩
    · rw [List.filterMap_cons, List.filterMap_cons, hf, hg]
      exact hrest
    · rw [List.filterMap_cons, List.filterMap_cons, hf, hg]
      exact .cons hxy hrest

/-- A kernel with one result writes one object. -/
theorem Step.Valid.eq_of_writes {p : Plan} {s : Step} {k : Kernel} (h : s.Valid p k) (hone : k.results.length ≤ 1)
    {v w : ObjectId} (hv : v ∈ s.writes) (hw : w ∈ s.writes) : v = w := by
  have hslot : ∀ {o : ObjectId}, o ∈ s.writes → ∃ slot ∈ k.results, s.params[slot]? = some (some o) := by
    intro o ho
    obtain ⟨slot, d, hparam, hd, hwrites⟩ := Step.mem_boundBy.mp ho
    exact ⟨slot, Kernel.mem_results.mpr ⟨d, h.directions ▸ hd, hwrites⟩, hparam⟩
  obtain ⟨i, hi, hparam⟩ := hslot hv
  obtain ⟨j, hj, hparam'⟩ := hslot hw
  have hij : i = j := by
    match hresults : k.results, hone with
    | [], _ =>
      rw [hresults] at hi
      cases hi
    | [slot], _ =>
      rw [hresults, List.mem_singleton] at hi hj
      rw [hi, hj]
  rw [hij, hparam'] at hparam
  exact (Option.some.inj (Option.some.inj hparam)).symm

/-! ### Memories that agree on the homes of objects -/

theorem DelayBuffer.slot?_setSlot_self (d : DelayBuffer) (age : Nat) (x : ImageBuffer) :
    (d.setSlot age x).slot? age = (d.slot? age).map fun _ => x := by
  rw [slot?, slot?, size_ring_setSlot, index_setSlot, ring_setSlot]
  by_cases hage : age < d.ring.size
  · have hindex : d.index age < d.ring.size := Nat.mod_lt _ (Nat.zero_lt_of_lt hage)
    rw [if_pos hage, if_pos hage, if_pos hage, Array.getElem?_setIfInBounds_self_of_lt hindex,
      Array.getElem?_eq_getElem hindex, Option.map_some]
  · rw [if_neg hage, if_neg hage, Option.map_none]

namespace Memory

variable {m n : Memory} {a : Place}

/-- A place that holds the same in two memories does so after it is set to the same. -/
theorem get?_set_congr (h : m.get? a = n.get? a) (x : Host) : (m.set a x).get? a = (n.set a x).get? a := by
  cases a with
  | host o =>
    show (m.set (.host o) x).host.get? o = (n.set (.host o) x).host.get? o
    rw [host_set_host, host_set_host, if_pos rfl, if_pos rfl]
  | scratch o =>
    show (m.set (.scratch o) x).scratch.get? o = (n.set (.scratch o) x).scratch.get? o
    rw [scratch_set_scratch, scratch_set_scratch, if_pos rfl, if_pos rfl]
  | slot d age =>
    -- what an image is set to is found again where there was an image
    have hset : ∃ put : Host → Host, ∀ m : Memory, (m.set (.slot d age) x).get? (.slot d age) =
        (m.get? (.slot d age)).map put := by
      cases x with
      | image b =>
        refine ⟨fun _ => .image b, ?_⟩
        intro m
        rw [get?_slot, get?_slot, host_set_slot, if_pos rfl]
        cases m.host.get? d with
        | none => rfl
        | some held =>
          cases held with
          | delay buffer =>
            simp only [replaceSlot, Option.bind_some, DelayBuffer.slot?_setSlot_self, Option.map_map]
            rfl
          | _ => rfl
      | _ =>
        refine ⟨id, ?_⟩
        intro m
        rw [get?_slot, get?_slot, host_set_slot, if_pos rfl, Option.map_id_apply]
        cases m.host.get? d with
        | none => rfl
        | some held => cases held <;> rfl
    obtain ⟨put, hset⟩ := hset
    rw [hset, hset, h]

theorem size_of_load {places : List Place} {objects : Array Host} (h : m.load places = some objects) :
    objects.size = places.length := by
  obtain ⟨hall, rfl⟩ := load_eq_some.mp h
  rw [List.size_toArray]
  apply List.filterMap_length_eq_length.mpr
  intro a ha
  obtain ⟨x, hx⟩ := hall a ha
  rw [hx]
  rfl

/-- Updates of the same places that say the same of one of them. -/
theorem get?_setAll_congr {us vs : List (Place × Host)}
    (hus : List.Forall₂ (fun u v => u.1 = v.1 ∧ (u.1.Apart a ∨ u.1 = a ∧ u.2 = v.2)) us vs)
    (h : m.get? a = n.get? a) : (m.setAll us).get? a = (n.setAll vs).get? a := by
  induction hus generalizing m n with
  | nil => exact h
  | cons huv _ ih =>
    obtain ⟨hplace, hcase⟩ := huv
    rw [setAll_cons, setAll_cons, ← hplace]
    apply ih
    rcases hcase with hapart | ⟨rfl, hvalue⟩
    · rw [get?_set_of_apart hapart, get?_set_of_apart hapart, h]
    · rw [hvalue]
      exact get?_set_congr h _

end Memory

namespace Stage

variable {r : Registry} {p : Plan} {s : Storage} {stage : Stage} {m : Memory}

/-- The updates of a stage over whole objects are what its kernel makes of the frame of its step. -/
theorem exists_effect_of_update {step : Step} {k : Kernel} {us : List (Place × Host)} (hblock : stage.pixelwise = false)
    (hsteps : stage.steps = [step]) (hk : r.find? step.kernel = some k) (h : stage.update? r p s m = some us) :
    ∃ xs f, m.load (stage.touched s) = some xs ∧ k.effect step.border (frame s step xs) = .ok f ∧
      us = stage.updates s f.objects := by
  obtain ⟨xs, hload, h⟩ := Option.bind_eq_some_iff.mp h
  obtain ⟨out, hout, rfl⟩ := Option.map_eq_some_iff.mp h
  unfold compute computeBlock at hout
  rw [if_neg (by rw [hblock]; exact Bool.false_ne_true), hsteps] at hout
  simp only [hk] at hout
  split at hout
  · rename_i f hf
    cases hout
    exact ⟨xs, f, hload, hf, rfl⟩
  · cases hout

theorem touched_of_single {step : Step} (hsteps : stage.steps = [step]) : stage.touched s = s.places step.params := by
  simp [touched, hsteps]

/-- Contents that are the same at one place make updates that are the same there. -/
theorem forall₂_updates {xs ys : Array Host} {a : Place} (hsize : xs.size = ys.size)
    (hwritten : ∀ b ∈ stage.writtenPlaces s, b.Apart a ∨ b = a)
    (hsame : ∀ k : Nat, (stage.touched s)[k]? = some a → xs[k]? = ys[k]?) :
    List.Forall₂ (fun u v => u.1 = v.1 ∧ (u.1.Apart a ∨ u.1 = a ∧ u.2 = v.2)) (stage.updates s xs)
      (stage.updates s ys) := by
  apply forall₂_filterMap
  intro b hb
  cases hidx : (stage.touched s).idxOf? b with
  | none => exact .inl ⟨rfl, rfl⟩
  | some k =>
    rw [Option.bind_some, Option.bind_some]
    by_cases hk : k < xs.size
    · have hk' : k < ys.size := hsize ▸ hk
      right
      refine ⟨(b, xs[k]), (b, ys[k]), ?_, ?_, rfl, ?_⟩
      · rw [Array.getElem?_eq_getElem hk, Option.map_some]
      · rw [Array.getElem?_eq_getElem hk', Option.map_some]
      · rcases hwritten b hb with hapart | heq
        · exact .inl hapart
        · have hget := hsame k (heq ▸ idxOf?_touched.mp hidx)
          rw [Array.getElem?_eq_getElem hk, Array.getElem?_eq_getElem hk', Option.some.injEq] at hget
          exact .inr ⟨heq, hget⟩
    · left
      rw [Array.getElem?_eq_none (by omega), Array.getElem?_eq_none (by omega)]
      exact ⟨rfl, rfl⟩

end Stage

/-- A parameter that stands for an object stands for what is at its place. -/
theorem Storage.place_of_handle {s : Storage} {places : List Place} {o : ObjectId} {k : Nat}
    (h : s.handle places (some o) = .object k) : ∃ a, s.place? o = some a ∧ places[k]? = some a := by
  unfold handle at h
  dsimp only at h
  split at h
  · cases h
  · rename_i j hj _
    cases h
    obtain ⟨a, ha, hidx⟩ := Option.bind_eq_some_iff.mp hj
    obtain ⟨hlt, hat, _⟩ := List.idxOf?_eq_some_iff.mp hidx
    exact ⟨a, ha, List.getElem?_eq_some_iff.mpr ⟨hlt, hat⟩⟩
  · cases h

namespace Plan

variable {p q : Plan} {s : Storage} {stage : Stage} {m n m' n' : Memory} {keep : ObjectId → Prop}

/-- Memories with the same contents at the homes of some objects; a delay is looked at through its images. -/
def AgreeOn (q : Plan) (keep : ObjectId → Prop) (m n : Memory) : Prop :=
  ∀ (o : ObjectId) (r : Resolved) (a : Place), keep o → q.object? o = some r → r.object.kind ≠ .delay →
    q.home o = some a → m.get? a = n.get? a

/-- Objects that have with what a stage writes also all that the stage reads. -/
def Closed (keep : ObjectId → Prop) (stage : Stage) : Prop :=
  ∀ w ∈ stage.writes, keep w → ∀ o ∈ stage.reads, keep o

/-- Among the places that a stage writes, those of other objects are apart. -/
theorem Sound.apart_or_eq (h : q.Sound) (hs : Storage.ofPlan q = .ok s) (hstage : stage ∈ q.stages) {b : Place}
    (hb : b ∈ stage.writtenPlaces s) {o : ObjectId} {r : Resolved} (hr : q.object? o = some r)
    (hkind : r.object.kind ≠ .delay) {a : Place} (ha : q.home o = some a) :
    b.Apart a ∨ b = a ∧ o ∈ stage.writes := by
  obtain ⟨w, hw, hwb⟩ := h.home_of_written hs hstage hb
  by_cases hwo : w = o
  · subst hwo
    right
    rw [hwb] at ha
    exact ⟨Option.some.inj ha, hw⟩
  · left
    obtain ⟨x, hx, _, _, hxk⟩ := h.exists_object hstage (Stage.referenced_of_writes hw)
    exact h.apart_home hx hr hxk hkind hwo hwb ha

/-- A stage that writes one object makes the same updates when all that it touches agrees. -/
theorem AgreeOn.update?_eq (hagree : q.AgreeOn keep m n) (h : q.Sound) (hs : Storage.ofPlan q = .ok s)
    (hstage : stage ∈ q.stages) {w : ObjectId} (hreads : ∀ o ∈ stage.reads, keep o) (hkeep : keep w)
    (hone : ∀ v ∈ stage.writes, v = w) : stage.update? .standard q s m = stage.update? .standard q s n := by
  apply Stage.update?_congr
  intro a ha
  obtain ⟨o, ho, hi, hhome⟩ := h.home_of_touched hs hstage ha
  obtain ⟨r, hr, _, _, hkind⟩ := h.exists_object hstage ho
  have hko : keep o := by
    rcases h.woven.reads_or_writes hstage ho hi with hread | hwrite
    · exact hreads o hread
    · exact hone o hwrite ▸ hkeep
  exact hagree o r a hko hr hkind hhome

/-- Frames of a step over memories that agree on some objects agree on the places of those objects. -/
theorem AgreeOn.frame (hagree : q.AgreeOn keep m n) {places : List Place} {handles : Array Handle}
    {xs ys : Array Host} (hx : m.load places = some xs) (hy : n.load places = some ys) :
    Frame.AgreeOn handles (fun k => ∃ o r a, keep o ∧ q.object? o = some r ∧ r.object.kind ≠ .delay ∧
      q.home o = some a ∧ places[k]? = some a) ⟨handles, xs⟩ ⟨handles, ys⟩ := by
  refine ⟨rfl, rfl, ?_, ?_⟩
  · rw [Memory.size_of_load hx, Memory.size_of_load hy]
  · intro k hk
    obtain ⟨o, r, a, hkeep, hr, hkind, ha, hplace⟩ := hk
    obtain ⟨x, hxk, hxa⟩ := Memory.getElem?_of_load hx hplace
    obtain ⟨y, hyk, hya⟩ := Memory.getElem?_of_load hy hplace
    show xs[k]? = ys[k]?
    rw [hxk, hyk, ← hxa, ← hya]
    exact hagree o r a hkeep hr hkind ha

/-- The first parameter of a step over whole objects is kept when what the stage reads is kept. -/
theorem Sound.kept_first (h : q.Sound) (hs : Storage.ofPlan q = .ok s) (hstage : stage ∈ q.stages) {step : Step}
    (hsteps : stage.steps = [step]) (hinternal : stage.internal = []) (hinput : step.directions[0]? = some .input)
    (hreads : ∀ o ∈ stage.reads, keep o) :
    Frame.Kept (step.params.map (s.handle (s.places step.params))).toArray (fun k => ∃ o r a, keep o ∧
      q.object? o = some r ∧ r.object.kind ≠ .delay ∧ q.home o = some a ∧ (s.places step.params)[k]? = some a) 0 := by
  intro k hk
  rw [List.getElem?_toArray, List.getElem?_map, Option.map_eq_some_iff] at hk
  obtain ⟨param, hparam, hhandle⟩ := hk
  cases param with
  | none => cases hhandle
  | some o =>
    have hstep : step ∈ stage.steps := by rw [hsteps]; exact List.mem_singleton_self step
    have href : o ∈ stage.referenced := Stage.mem_referenced_of_param hstep (List.mem_of_getElem? hparam)
    have hi : o ∉ stage.internal := by rw [hinternal]; exact List.not_mem_nil
    have hread : o ∈ stage.reads :=
      Stage.mem_reads.mpr ⟨⟨step, hstep, Step.mem_boundBy.mpr ⟨0, .input, hparam, hinput, rfl⟩⟩, hi⟩
    obtain ⟨r, hr, _, _, hkind⟩ := h.exists_object hstage href
    obtain ⟨a, ha, hat⟩ := Storage.place_of_handle hhandle
    exact ⟨o, r, a, hreads o hread, hr, hkind, (h.place?_eq_home hs hstage href hi).symm.trans ha, hat⟩

/-- The updates of a stage to memories that agree on all that it reads: what is said of an object that is kept is the
same. -/
theorem AgreeOn.updates (hagree : q.AgreeOn keep m n) (h : q.Sound) (hs : Storage.ofPlan q = .ok s)
    (hstage : stage ∈ q.stages)
    (hsingle : stage.pixelwise = true → ∀ v ∈ stage.writes, ∀ w ∈ stage.writes, v = w)
    (hreads : ∀ o ∈ stage.reads, keep o) {us vs : List (Place × Host)}
    (hus : stage.update? .standard q s m = some us) (hvs : stage.update? .standard q s n = some vs) {w : ObjectId}
    (hw : w ∈ stage.writes) (hkeep : keep w) {a : Place} (ha : q.home w = some a) :
    List.Forall₂ (fun u v => u.1 = v.1 ∧ (u.1.Apart a ∨ u.1 = a ∧ u.2 = v.2)) us vs := by
  obtain ⟨r, hr, _, _, hkind⟩ := h.exists_object hstage (Stage.referenced_of_writes hw)
  by_cases hone : ∀ v ∈ stage.writes, v = w
  · rw [hagree.update?_eq h hs hstage hreads hkeep hone, hvs] at hus
    cases hus
    apply List.forall₂_same.mpr
    intro u hu
    have hplace := h.apart_or_eq hs hstage (Stage.mem_writtenPlaces_of_update hvs hu) hr hkind ha
    exact ⟨rfl, hplace.imp_right fun hsame => ⟨hsame.1, rfl⟩⟩
  · -- only two kernels write several objects, and both work over whole objects
    have hvalid := h.stages stage hstage
    have hblock : stage.pixelwise = false := by
      by_contra hpixel
      exact hone fun v hv => hsingle (by simpa using hpixel) v hv w hw
    obtain ⟨hlength, hinternal⟩ := hvalid.whole hblock
    obtain ⟨step, hsteps⟩ := List.length_eq_one_iff.mp hlength
    obtain ⟨k, hk, _⟩ := hvalid.steps step (by rw [hsteps]; exact List.mem_singleton_self step)
    have hwrites : ∀ v ∈ stage.writes, v ∈ step.writes := by
      intro v hv
      obtain ⟨⟨t, ht, htv⟩, _⟩ := Stage.mem_writes.mp hv
      rw [hsteps, List.mem_singleton] at ht
      exact ht ▸ htv
    rcases Registry.separates_of_mem_standard hk.mem_standard with hfew | ⟨_, hinput, hsteady⟩
    · exact absurd (fun v hv => hk.eq_of_writes hfew (hwrites v hv) (hwrites w hw)) hone
    · have htouched : stage.touched s = s.places step.params := Stage.touched_of_single hsteps
      obtain ⟨xs, f, hxs, hf, rfl⟩ := Stage.exists_effect_of_update hblock hsteps hk.kernel hus
      obtain ⟨ys, f', hys, hf', rfl⟩ := Stage.exists_effect_of_update hblock hsteps hk.kernel hvs
      rw [htouched] at hxs hys
      have hkept := h.kept_first hs hstage hsteps hinternal (hk.directions ▸ hinput) hreads
      have hframes := hsteady _ _ step.border hkept _ _ f f' (hagree.frame hxs hys) hf hf'
      apply Stage.forall₂_updates hframes.size
      · intro b hb
        exact (h.apart_or_eq hs hstage hb hr hkind ha).imp_right fun hsame => hsame.1
      · intro i hi
        exact hframes.objects i ⟨w, r, a, hkeep, hr, hkind, ha, htouched ▸ hi⟩

/-- One stage keeps the agreement on objects that have with what it writes also what it reads. -/
theorem AgreeOn.run_stage (hagree : q.AgreeOn keep m n) (h : q.Sound) (hs : Storage.ofPlan q = .ok s)
    (hstage : stage ∈ q.stages)
    (hsingle : stage.pixelwise = true → ∀ v ∈ stage.writes, ∀ w ∈ stage.writes, v = w)
    (hclosed : Closed keep stage) (hm : stage.run .standard q s m = .ok m') (hn : stage.run .standard q s n = .ok n') :
    q.AgreeOn keep m' n' := by
  obtain ⟨us, hus, rfl⟩ := (h.run_eq_ok hs hstage).mp hm
  obtain ⟨vs, hvs, rfl⟩ := (h.run_eq_ok hs hstage).mp hn
  intro o r a hkeep hr hkind ha
  have hbefore := hagree o r a hkeep hr hkind ha
  by_cases hw : o ∈ stage.writes
  · exact Memory.get?_setAll_congr (hagree.updates h hs hstage hsingle (hclosed o hw hkeep) hus hvs hw hkeep ha) hbefore
  · -- nothing is written at the home of the object
    have hapart : ∀ {k : Memory} {ws : List (Place × Host)}, stage.update? .standard q s k = some ws →
        ∀ u ∈ ws, u.1.Apart a := by
      intro k ws hws u hu
      have hwritten := Stage.mem_writtenPlaces_of_update hws hu
      rcases h.apart_or_eq hs hstage hwritten hr hkind ha with hout | ⟨_, hin⟩
      · exact hout
      · exact absurd hin hw
    rw [Memory.get?_setAll (hapart hus), Memory.get?_setAll (hapart hvs), hbefore]

/-- So do all stages in turn. -/
theorem AgreeOn.run_stages (h : q.Sound) (hs : Storage.ofPlan q = .ok s) {stages : List Stage}
    (hstages : ∀ stage ∈ stages, stage ∈ q.stages)
    (hsingle : ∀ stage ∈ q.stages, stage.pixelwise = true → ∀ v ∈ stage.writes, ∀ w ∈ stage.writes, v = w)
    (hclosed : ∀ stage ∈ q.stages, Closed keep stage) (hagree : q.AgreeOn keep m n)
    (hm : stages.foldlM (fun m stage => stage.run .standard q s m) m = .ok m')
    (hn : stages.foldlM (fun m stage => stage.run .standard q s m) n = .ok n') : q.AgreeOn keep m' n' := by
  induction stages generalizing m n with
  | nil =>
    cases hm
    cases hn
    exact hagree
  | cons stage stages ih =>
    obtain ⟨m₁, hm₁, hm⟩ := foldlM_cons_eq_ok.mp hm
    obtain ⟨n₁, hn₁, hn⟩ := foldlM_cons_eq_ok.mp hn
    have hstage := hstages stage List.mem_cons_self
    have hnext := hagree.run_stage h hs hstage (hsingle stage hstage) (hclosed stage hstage) hm₁ hn₁
    exact ih (fun st hst => hstages st (List.mem_cons_of_mem stage hst)) hnext hm hn

theorem home_of_slot {o : ObjectId} {r : Resolved} (hr : q.object? o = some r) (hconst : r.object.isConstant = false)
    {slot : DelaySlot} (hslot : r.object.slot = some slot) : q.home o = some (.slot slot.delay slot.age.toNat) := by
  simp [home, hr, hconst, hslot]

theorem home_of_entry {o : ObjectId} {r : Resolved} (hr : q.object? o = some r) (hconst : r.object.isConstant = false)
    (hslot : r.object.slot = none) (hext : r.object.isExternal = true) : q.home o = some (.host o) := by
  simp [home, hr, hconst, hslot, DataObject.isEntry, hext]

/-- What a plan holds for an object of the caller is what the caller has bound. -/
theorem held_of_entry {o : ObjectId} {r : Resolved} (hr : q.object? o = some r) (hconst : r.object.isConstant = false)
    (hslot : r.object.slot = none) (hext : r.object.isExternal = true) (m : Memory) : q.held m o = m.host.get? o := by
  rw [held, home_of_entry hr hconst hslot hext]
  rfl

/-- A host object that is not in the plan is left alone. -/
theorem Sound.get?_host_of_absent (h : q.Sound) (hs : Storage.ofPlan q = .ok s) {out : ObjectId}
    (habsent : q.object? out = none)
    (hm : q.stages.foldlM (fun m stage => stage.run .standard q s m) m = .ok m') :
    m'.get? (.host out) = m.get? (.host out) := by
  have hapart : ∀ stage ∈ q.stages, ∀ b ∈ stage.writtenPlaces s, b.Apart (.host out) := by
    intro stage hstage b hb
    obtain ⟨w, hw, hhome⟩ := h.home_of_written hs hstage hb
    obtain ⟨r, hr, hsound, _⟩ := h.exists_object hstage (Stage.referenced_of_writes hw)
    cases b with
    | host o =>
      intro he
      rw [eq_of_home_host hhome] at he
      rw [← he, hr] at habsent
      cases habsent
    | scratch o => trivial
    | slot d age =>
      -- the delay of an image is in the plan
      intro he
      simp only [home, hr, Option.bind_some] at hhome
      split at hhome
      · cases hhome
      · split at hhome
        · rename_i slot hslot
          obtain ⟨_, _, delay, hdelay, _⟩ := hsound.slot slot hslot
          cases hhome
          rw [← he, habsent] at hdelay
          cases hdelay
        · split at hhome
          · cases hhome
          · cases hhome
  refine foldlM_induction (fun k => k.get? (.host out) = m.get? (.host out)) ?_ rfl hm
  intro stage hstage k l hk hrun
  obtain ⟨us, hus, rfl⟩ := (h.run_eq_ok hs hstage).mp hrun
  rw [Memory.get?_setAll (fun u hu => hapart stage hstage _ (Stage.mem_writtenPlaces_of_update hus hu)), hk]

end Plan

end VisionGraph
