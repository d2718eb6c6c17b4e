import Mathlib.Data.List.Rotate
import VisionGraph.Proofs.Failure

/-! The history in a delay. A run hands the images of a delay to its kernels in the order of their ages, and a successful
run makes each of them one age older. So a delay of which only the newest image is ever written holds, at each age, what
was the newest image that many successful runs ago. -/
namespace VisionGraph

theorem map_some_filterMap {α β : Type} {f : α → Option β} {l : List α} (h : ∀ a ∈ l, ∃ b, f a = some b) :
    (l.filterMap f).map some = l.map f := by
  induction l with
  | nil => rfl
  | cons a l ih =>
    obtain ⟨b, hb⟩ := h a List.mem_cons_self
    rw [List.filterMap_cons_some hb, List.map_cons, List.map_cons, hb, ih fun c hc => h c (List.mem_cons_of_mem a hc)]

namespace DelayBuffer

variable (d : DelayBuffer)

/-- The images of a delay are listed by their ages. -/
theorem getElem?_slots (age : Nat) : d.slots[age]? = d.slot? age := by
  have hall : d.slots.map some = (List.range d.size).map d.slot? :=
    map_some_filterMap fun age hage => by
      obtain ⟨b, _, hb⟩ := d.exists_slot? (List.mem_range.mp hage)
      exact ⟨b, hb⟩
  have hat := congrArg (fun l => l[age]?) hall
  simp only [List.getElem?_map] at hat
  by_cases hage : age < d.size
  · rw [List.getElem?_range hage, Option.map_some] at hat
    obtain ⟨b, hb, hsome⟩ := Option.map_eq_some_iff.mp hat
    rw [hb, hsome]
  · have hlist : (List.range d.size)[age]? = none := by simpa using hage
    rw [hlist, Option.map_none, Option.map_eq_none_iff] at hat
    have hpast : ¬age < d.ring.size := hage
    rw [hat, slot?, if_neg hpast]

/-- They stand in the ring from the head on. -/
theorem slots_eq_rotate : d.slots = d.ring.toList.rotate d.head := by
  apply List.ext_getElem?
  intro age
  rw [getElem?_slots, slot?]
  split
  · rename_i hage
    have hlength : age < d.ring.toList.length := by simpa using hage
    rw [List.getElem?_rotate hlength, Array.getElem?_toList, Array.length_toList, index, Nat.add_comm]
  · rename_i hage
    symm
    simpa using hage

/-- The head goes one place back, so every image is found one age later. -/
theorem index_advance (age : Nat) : d.advance.index (age + 1) = d.index age := by
  have hpos : 0 < d.ring.size := Nat.zero_lt_of_lt d.head_lt
  unfold index
  calc ((d.head + d.ring.size - 1) % d.ring.size + (age + 1)) % d.ring.size
      = (d.head + d.ring.size - 1 + (age + 1)) % d.ring.size := Nat.mod_add_mod ..
    _ = (d.head + age + d.ring.size) % d.ring.size := by congr 1; omega
    _ = (d.head + age) % d.ring.size := Nat.add_mod_right ..

theorem slot?_advance {age : Nat} (h : age + 1 < d.size) : d.advance.slot? (age + 1) = d.slot? age := by
  have hold : age < d.ring.size := Nat.lt_of_succ_lt h
  have hnew : age + 1 < d.advance.ring.size := h
  rw [slot?, slot?, if_pos hold, if_pos hnew, index_advance]
  rfl

/-- From the age of one on, the images are those of a list. -/
def Recalls (d : DelayBuffer) (seen : List (Option ImageBuffer)) : Prop :=
  ∀ k < seen.length, k + 1 < d.size → seen[k]? = some (d.slot? (k + 1))

variable {d} {e : DelayBuffer} {seen : List (Option ImageBuffer)}

/-- Whatever happens to the newest image, the others are remembered. -/
theorem Recalls.of_agrees (h : d.Recalls seen) (hagrees : d.Agrees (· = 0) e) : e.Recalls seen := by
  intro k hk hsize
  have hsame : e.size = d.size := hagrees.size
  rw [hagrees.slot (k + 1) (Nat.succ_ne_zero k)]
  exact h k hk (hsame ▸ hsize)

theorem Recalls.advance (h : d.Recalls seen) : d.advance.Recalls (d.slot? 0 :: seen) := by
  intro k hk hsize
  rw [d.slot?_advance hsize]
  cases k with
  | zero => rfl
  | succ k => exact h k (Nat.lt_of_succ_lt_succ hk) (Nat.lt_of_succ_lt hsize)

end DelayBuffer

/-- The newest image of a delay. -/
def Bindings.newest (o : ObjectId) (b : Bindings) : Option ImageBuffer :=
  match b.get? o with
  | some (.delay d) => d.slot? 0
  | _ => none

namespace Program

variable {P : Program} {o : ObjectId}

/-- Runs of a program on objects that the caller may change in between, all but one delay. The list has the newest image of
the delay at the end of the entry point of each successful run, the last run first. -/
inductive History (P : Program) (o : ObjectId) : Bindings → List (Option ImageBuffer) → Prop
  | start (b : Bindings) : History P o b []
  | change {b b' : Bindings} {seen : List (Option ImageBuffer)} (h : History P o b seen)
    (hsame : b'.get? o = b.get? o) : History P o b' seen
  | failed {b b' : Bindings} {seen : List (Option ImageBuffer)} {e : Error} (h : History P o b seen)
    (hrun : P.process b = (.error e, b')) : History P o b' seen
  | succeeded {b b' : Bindings} {seen : List (Option ImageBuffer)} (h : History P o b seen)
    (hrun : P.process b = (.ok (), b')) : History P o b' (Bindings.newest o (P.call b).2 :: seen)

variable {b b' : Bindings} {seen : List (Option ImageBuffer)} {written : Nat → Prop}

theorem History.process (h : P.History o b seen) : P.History o (P.process b).2
    (if (P.process b).1.isOk then Bindings.newest o (P.call b).2 :: seen else seen) := by
  cases hrun : P.process b with
  | mk outcome b' =>
    cases outcome with
    | error e => exact h.failed hrun
    | ok => exact h.succeeded hrun

/-- The entry point leaves a delay as it is, but for the images that are written. -/
theorem delay_call (hp : P.plan.Sound) (hs : Storage.ofPlan P.plan = .ok P.storage) (hspares : P.plan.Spares o written)
    {d : DelayBuffer} (hd : b.get? o = some (.delay d)) :
    ∃ e, (P.call b).2.get? o = some (.delay e) ∧ d.Agrees written e := by
  unfold call
  cases P.module.entry with
  | status code => exact ⟨d, hd, .refl d⟩
  | schedule =>
    dsimp only
    unfold Plan.run
    cases hstart : Memory.start P.plan P.storage b with
    | none => exact ⟨d, hd, .refl d⟩
    | some m =>
      have hreached {done : Nat} {n : Memory} (hn : (P.plan.stages.take done).foldlM
          (fun m stage => stage.run P.registry P.plan P.storage m) m = .ok n) : P.Reached b done n := ⟨m, hstart, hn⟩
      dsimp only
      rcases Plan.runFrom_cases (r := P.registry) 0 P.plan.stages m with
        ⟨n, hrun, hfold⟩ | ⟨i, stage, mid, hi, hmid, ⟨n, hfail, hrun⟩ | ⟨_, hrun⟩⟩
      · rw [hrun]
        have hall : P.Reached b P.plan.stages.length n := hreached (by rwa [List.take_length])
        exact hall.delay hp hs hspares hd
      · rw [hrun]
        obtain ⟨e, he, hde⟩ := (hreached hmid).delay hp hs hspares hd
        obtain ⟨f, hf, hef⟩ := hspares.stage_delays hp hs (List.mem_of_getElem? hi) (.inr hfail) e he
        exact ⟨f, hf, hde.trans hef⟩
      · rw [hrun]
        exact ⟨d, hd, .refl d⟩

/-- An object that passes the check as a delay has an image for every declared age. -/
theorem exists_delay {info : DelayMeta} (ho : (o, .delay info) ∈ P.entries) (hcheck : P.check b = .ok ()) :
    ∃ d, b.get? o = some (.delay d) ∧ info.slots.toNat ≤ d.size := by
  obtain ⟨x, hx, hfit⟩ := check_eq_ok.mp hcheck _ ho
  cases x with
  | delay d =>
    have hinfo : d.info = info := by
      by_contra hne
      simp [Host.mismatch, hne] at hfit
    exact ⟨d, hx, DelayBuffer.le_size_of_info hinfo⟩
  | _ => simp [Host.mismatch] at hfit

/-- After any runs a delay recalls what was its newest image in the successful ones. -/
theorem History.recalls (hp : P.plan.Sound) (hs : Storage.ofPlan P.plan = .ok P.storage)
    (hspares : P.plan.Spares o (· = 0)) (hnodup : (P.entries.map (·.1)).Nodup) {info : DelayMeta}
    (ho : (o, .delay info) ∈ P.entries) (h : P.History o b seen) (hne : seen ≠ []) :
    ∃ d, b.get? o = some (.delay d) ∧ info.slots.toNat ≤ d.size ∧ d.Recalls seen := by
  induction h with
  | start b => contradiction
  | change h hsame ih =>
    obtain ⟨d, hd, hd'⟩ := ih hne
    exact ⟨d, hsame.trans hd, hd'⟩
  | failed h hrun ih =>
    obtain ⟨d, hd, hsize, hrecalls⟩ := ih hne
    rcases process_cases hrun with ⟨_, _, rfl⟩ | ⟨_, ⟨_, _, rfl⟩ | ⟨hok, _⟩⟩
    · exact ⟨d, hd, hsize, hrecalls⟩
    · -- the newest image may have been written by then, but no delay has aged
      obtain ⟨e, he, hagrees⟩ := delay_call hp hs hspares hd
      exact ⟨e, he, hsize.trans_eq hagrees.size.symm, hrecalls.of_agrees hagrees⟩
    · contradiction
  | @succeeded b _ seen h hrun ih =>
    obtain ⟨_, herror, _⟩ | ⟨hcheck, ⟨_, herror, _⟩ | ⟨_, rfl⟩⟩ := process_cases hrun
    · contradiction
    · contradiction
    obtain ⟨d, hd, hsize⟩ := exists_delay ho hcheck
    have hrecalls : d.Recalls seen := by
      intro k hk
      obtain ⟨d', hd', _, hrecalls⟩ := ih (List.ne_nil_of_length_pos (Nat.zero_lt_of_lt hk))
      rw [hd] at hd'
      cases hd'
      exact hrecalls k hk
    obtain ⟨e, he, hagrees⟩ := delay_call hp hs hspares hd
    have hnewest : Bindings.newest o (P.call b).2 = e.slot? 0 := by rw [Bindings.newest, he]
    have hmem : o ∈ P.entries.map (·.1) := List.mem_map_of_mem ho
    refine ⟨e.advance, ?_, hsize.trans_eq hagrees.size.symm, ?_⟩
    · rw [get?_ageDelays hnodup, if_pos hmem, he]
      rfl
    · rw [hnewest]
      exact (hrecalls.of_agrees hagrees).advance

end Program

namespace Plan

/-- Where an image stands in a delay, if it does. -/
def slot? (p : Plan) (q : ObjectId) : Option DelaySlot := (p.object? q).bind (·.object.slot)

/-- Of the images of a delay the stages write the newest only. -/
def WritesNewest (p : Plan) (o : ObjectId) : Prop :=
  ∀ stage ∈ p.stages, ∀ q ∈ stage.writes, ∀ slot ∈ p.slot? q, slot.delay = o → slot.age = 0

instance (p : Plan) (o : ObjectId) : Decidable (p.WritesNewest o) :=
  inferInstanceAs (Decidable (∀ stage ∈ p.stages, ∀ q ∈ stage.writes, ∀ slot ∈ p.slot? q, slot.delay = o → slot.age = 0))

variable {p : Plan} {P : Program} {o : ObjectId}

/-- A joined stage writes what its last one has written. -/
theorem stable_writesNewest (o : ObjectId) : Stable fun p => p.Sound ∧ p.WritesNewest o where
  prune p h := by
    refine ⟨h.1.prune, fun stage hstage q hq slot hslot => ?_⟩
    have hobject := h.1.object?_of_referenced hstage (Stage.referenced_of_writes hq)
    rw [slot?, hobject] at hslot
    exact h.2 stage (stages_prune_sublist.mem hstage) q hq slot hslot
  fuseOnce p q e h hq := by
    refine ⟨h.1.fuseOnce hq, ?_⟩
    obtain ⟨front, between, back, producer, consumer, t, hf, rfl⟩ := fuseOnce_eq_some h.1.woven hq
    intro stage hstage
    rcases Fusable.mem_joined.mp hstage with hold | rfl
    · exact h.2 stage (hf.mem.2.2 stage hold)
    · rw [hf.writes_join h.1.woven]
      exact h.2 consumer hf.mem.2.1

theorem exists_of_home_slot {q : ObjectId} {age : Nat} (h : p.home q = some (.slot o age)) :
    ∃ slot ∈ p.slot? q, slot.delay = o ∧ slot.age.toNat = age := by
  obtain ⟨r, hr, h⟩ := Option.bind_eq_some_iff.mp h
  split at h
  · contradiction
  · split at h
    · rename_i slot hslot
      cases h
      exact ⟨slot, Option.bind_eq_some_iff.mpr ⟨r, hr, hslot⟩, rfl, rfl⟩
    · split at h <;> simp at h

/-- A stage finds an image of a delay in the delay, at its age. -/
theorem Sound.place?_slot (hp : p.Sound) {s : Storage} (hs : Storage.ofPlan p = .ok s) {stage : Stage}
    (hstage : stage ∈ p.stages) {q : ObjectId} (hq : q ∈ stage.referenced) {slot : DelaySlot} (hslot : slot ∈ p.slot? q) :
    s.place? q = some (.slot slot.delay slot.age.toNat) := by
  obtain ⟨r, hr, hslot⟩ := Option.bind_eq_some_iff.mp hslot
  have hi : q ∉ stage.internal := by
    intro hi
    have hhidden := (hp.stages stage hstage).hidden q hi
    simp [isPrivateImage, hr, hslot] at hhidden
  have hreal := Graph.isVirtual_of_slot (hp.objects q r hr).virtual hslot
  have hconst : r.object.isConstant = false := by simp [DataObject.isConstant, DataObject.constant, hreal]
  rw [hp.place?_eq_home hs hstage hq hi, home, hr]
  simp [hconst, hslot]

/-- The metadata of an entry is what the plan knows of it. -/
theorem LoadedAs.info_of_entry (h : p.LoadedAs P) {info : Meta} (ho : (o, info) ∈ P.entries) :
    p.info? o = some info := by
  obtain ⟨_, _, _, _, hentries⟩ := h.fields
  obtain ⟨q, _, hof⟩ := exists_of_mem_mapM hentries ho
  unfold Program.entryOf at hof
  split at hof
  · rename_i found hfound
    cases hof
    exact hfound
  · contradiction

/-- A plan that writes the newest image of a delay only leaves the others and the delay as a whole. -/
theorem LoadedAs.spares (h : p.LoadedAs P) (hp : p.Sound) {info : DelayMeta} (ho : (o, .delay info) ∈ P.entries)
    (hwrites : p.WritesNewest o) : p.Spares o (· = 0) := by
  intro stage hstage q hq
  refine ⟨fun hhome => ?_, fun age hhome => ?_⟩
  · obtain rfl := eq_of_home_host hhome
    obtain ⟨r, hr, hsound, _, hkind⟩ := hp.exists_object hstage (Stage.referenced_of_writes hq)
    rw [← hsound.kind_eq, info_eq hr (h.info_of_entry ho)] at hkind
    exact hkind rfl
  · obtain ⟨slot, hslot, hdelay, hage⟩ := exists_of_home_slot hhome
    rw [← hage, hwrites stage hstage q hq slot hslot hdelay]
    rfl

end Plan

namespace Graph

/-- The history in a delay of which only the newest image is ever written. After any runs, successful or not, with other
objects changed in between, the image of age `k` is what was the newest one at the end of the entry point of the `k`-th
last successful run. All through a run the images are handed to the stages in the order of their ages. -/
theorem delay_history (g : Graph) (hg : g.Built) (p : Plan) (hp : g.verify .standard = .ok p) (c : OptimizerConfig)
    (P : Program) (hP : (p.optimize c).1.LoadedAs P) (o : ObjectId) (info : DelayMeta)
    (ho : (o, .delay info) ∈ P.entries) (hwrites : p.WritesNewest o) :
    (∀ b seen, P.History o b seen → ∀ k, 1 ≤ k → k ≤ min seen.length (info.slots.toNat - 1) →
        ∃ d image, b.get? o = some (.delay d) ∧ d.slot? k = some image ∧ seen[k - 1]? = some (some image)) ∧
      ∀ b d done m, b.get? o = some (.delay d) → P.Reached b done m →
        ∃ e, m.host.get? o = some (.delay e) ∧ e.head = d.head ∧ e.size = d.size ∧
          e.slots = e.ring.toList.rotate d.head ∧ (∀ age, e.slots[age]? = e.slot? age) ∧
          ∀ stage ∈ P.plan.stages, ∀ q ∈ stage.referenced, ∀ slot ∈ P.plan.slot? q, slot.delay = o →
            P.storage.place? q = some (.slot o slot.age.toNat) ∧
              m.get? (.slot o slot.age.toNat) = (e.slots[slot.age.toNat]?).map .image := by
  obtain ⟨hsound, hnewest⟩ := (Plan.stable_writesNewest o).optimize c ⟨sound_of_verify hg hp, hwrites⟩
  obtain ⟨_, hplan, _, hs, _⟩ := hP.fields
  have hspares := hP.spares hsound ho hnewest
  have hnodup : (P.entries.map (·.1)).Nodup := hP.map_entries ▸ Plan.nodup_entries hsound.ids
  rw [← hplan] at hsound hs hspares
  refine ⟨fun b seen h k hpos hk => ?_, fun b d done m hd hm => ?_⟩
  · have hne : seen ≠ [] := List.ne_nil_of_length_pos (by omega)
    obtain ⟨d, hd, hsize, hrecalls⟩ := h.recalls hsound hs hspares hnodup ho hne
    have hage : k - 1 + 1 = k := by omega
    have hlt : k < d.size := by omega
    obtain ⟨image, _, himage⟩ := d.exists_slot? hlt
    refine ⟨d, image, hd, himage, ?_⟩
    rw [hrecalls (k - 1) (by omega) (by omega), hage, himage]
  · obtain ⟨e, he, hagrees⟩ := hm.delay hsound hs hspares hd
    have hget (age : Nat) : m.get? (.slot o age) = (e.slots[age]?).map .image := by
      rw [Memory.get?, he, e.getElem?_slots]
    refine ⟨e, he, hagrees.head, hagrees.size, hagrees.head ▸ e.slots_eq_rotate, e.getElem?_slots, ?_⟩
    rintro stage hstage q hq slot hslot rfl
    exact ⟨hsound.place?_slot hs hstage hq hslot, hget slot.age.toNat⟩

/-- A lookup that writes the newest of three images of a delay, and a node that reads the one before it. -/
def echoing : Graph := Graph.empty.edit [.image 2 1 .u8, .array .u8 256, .delay 3 (.known 2 1 .u8), .image 2 1 .u8,
  .node "vx.table_lookup" [some ⟨0⟩, some ⟨1⟩, some ⟨3⟩], .node "vx.not" [some ⟨4⟩, some ⟨6⟩]]

/-- Two samples to look up. -/
def feed (first second : Int) (b : Bindings) : Bindings :=
  b.insert ⟨0⟩ (.image (.generate 2 1 .u8 fun i => if i = 0 then first else second))

/-- A table with two items. -/
def pairTable (fresh : Bindings) : Bindings :=
  fresh.insert ⟨1⟩ (.array (((ArrayBuffer.empty .u8 256).push 7).push 9))

theorem delay_history_echoing : ∃ p P b seen d image, echoing.verify .standard = .ok p ∧
    (p.optimize .standard).1.LoadedAs P ∧ p.WritesNewest ⟨2⟩ ∧ P.History ⟨2⟩ b seen ∧ seen.length = 2 ∧
      b.get? ⟨2⟩ = some (.delay d) ∧ d.slot? 2 = some image ∧ image.samples = #[7, 7] := by
  have hwrites : (echoing.verify .standard).toOption.map (fun p => decide (p.WritesNewest ⟨2⟩)) = some true := by
    decide +kernel
  -- a lookup that succeeds, one that fails at its second sample, and one that succeeds again
  have hruns : ((echoing.optimized? .standard).bind fun P => P.allocate.toOption.map fun fresh =>
      let start := feed 0 0 (pairTable fresh)
      let once := P.process start
      let failed := P.process (feed 1 5 once.2)
      let twice := P.process (feed 1 1 failed.2)
      ([P.entries.contains (⟨2⟩, .delay ⟨3, .known 2 1 .u8⟩), once.1.isOk, failed.1.isOk, twice.1.isOk],
        (Bindings.newest ⟨2⟩ (P.call start).2).map (·.samples))) =
      some ([true, true, false, true], some #[7, 7]) := by decide +kernel
  obtain ⟨P, hprogram, hruns⟩ := Option.bind_eq_some_iff.mp hruns
  obtain ⟨fresh, _, hruns⟩ := Option.map_eq_some_iff.mp hruns
  obtain ⟨p, hp, hP⟩ := loadedAs_of_optimized? hprogram
  have hbuilt : echoing.Built := ⟨_, rfl⟩
  have hnewest : p.WritesNewest ⟨2⟩ := by simpa [hp, Except.toOption] using hwrites
  simp only [Prod.mk.injEq, List.cons.injEq, and_true, List.contains_iff_mem] at hruns
  obtain ⟨⟨hentry, honce, hfailed, htwice⟩, hsamples⟩ := hruns
  have hfeed (first second : Int) (b : Bindings) : (feed first second b).get? ⟨2⟩ = b.get? ⟨2⟩ :=
    IdMap.get?_insert_of_ne b _ (by decide)
  have hstart : P.History ⟨2⟩ (feed 0 0 (pairTable fresh)) [] := .start _
  have hhistory := ((hstart.process.change (hfeed 1 5 _)).process.change (hfeed 1 1 _)).process
  simp only [honce, hfailed, htwice, if_true, Bool.false_eq_true, if_false] at hhistory
  have hthis := delay_history echoing hbuilt p hp .standard P hP ⟨2⟩ _ hentry hnewest
  obtain ⟨d, image, hd, hslot, hseen⟩ := hthis.1 _ _ hhistory 2 (by decide) (Nat.le_refl 2)
  refine ⟨p, P, _, _, d, image, hp, hP, hnewest, hhistory, rfl, hd, hslot, ?_⟩
  have himage := Option.some.inj hseen
  rw [himage] at hsamples
  exact Option.some.inj hsamples

end Graph

end VisionGraph
