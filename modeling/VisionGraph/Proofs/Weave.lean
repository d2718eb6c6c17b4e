import Mathlib.Data.List.Flatten
import Mathlib.Data.List.Pairwise
import VisionGraph.Proofs.Invariant

/-! How the stages of a plan hang together, whatever their objects are. Joining two stages keeps it: the producer moves
to the consumer, which is the only stage beside it that names the image between them. -/
namespace VisionGraph

theorem exists_append_of_getElem? {α : Type} {l : List α} {i : Nat} {a : α} (h : l[i]? = some a) :
    ∃ front back, l = front ++ a :: back ∧ front.length = i := by
  obtain ⟨hi, rfl⟩ := List.getElem?_eq_some_iff.mp h
  refine ⟨l.take i, l.drop (i + 1), ?_, by simp; omega⟩
  rw [← List.drop_eq_getElem_cons hi, List.take_append_drop]

/-- The members beside one stand at other positions. -/
theorem exists_getElem?_ne {α : Type} (front back : List α) {a : α} (c : α) (h : a ∈ front ++ back) :
    ∃ j : Nat, (front ++ c :: back)[j]? = some a ∧ j ≠ front.length := by
  rcases List.mem_append.mp h with h | h
  · obtain ⟨j, hj⟩ := List.mem_iff_getElem?.mp h
    have hlt := (List.getElem?_eq_some_iff.mp hj).1
    exact ⟨j, by rwa [List.getElem?_append_left hlt], by omega⟩
  · obtain ⟨j, hj⟩ := List.mem_iff_getElem?.mp h
    refine ⟨front.length + (j + 1), ?_, by omega⟩
    rw [List.getElem?_append_right (by omega), Nat.add_sub_cancel_left, List.getElem?_cons_succ, hj]

/-- A part of a list moves behind the next one if it is related to it in both directions. -/
theorem pairwise_move {α : Type} {before : α → α → Prop} {front a b back : List α}
    (h : (front ++ (a ++ (b ++ back))).Pairwise before) (hba : ∀ y ∈ b, ∀ x ∈ a, before y x) :
    (front ++ (b ++ (a ++ back))).Pairwise before := by
  simp only [List.pairwise_append, List.mem_append] at h ⊢
  obtain ⟨hfront, ⟨ha, ⟨hb, hback, hbk⟩, hak⟩, hf⟩ := h
  refine ⟨hfront, ⟨hb, ⟨ha, hback, fun x hx y hy => hak x hx y (.inr hy)⟩, fun y hy x hx => ?_⟩, fun x hx y hy => ?_⟩
  · exact hx.elim (hba y hy x) (hbk y hy x)
  · exact hf x hx y (by tauto)

namespace Plan

/-- Stages that share nothing of what is internal to one of them. -/
def Separate (a b : Stage) : Prop := (∀ o ∈ a.internal, o ∉ b.referenced) ∧ ∀ o ∈ b.internal, o ∉ a.referenced

theorem Separate.symm {a b : Stage} (h : Separate a b) : Separate b a := ⟨h.2, h.1⟩

instance : Std.Symm Separate := ⟨fun _ _ => Separate.symm⟩

/-- What the stages of a plan owe each other: a step writes nothing that an earlier one names, and what is internal to a
stage is named by no other. -/
structure Woven (p : Plan) : Prop where
  after : (p.stages.flatMap (·.steps)).Pairwise Step.After
  named : ∀ stage ∈ p.stages, ∀ s ∈ stage.steps, ∀ o ∈ s.bound, o ∈ s.reads ∨ o ∈ s.writes
  nonempty : ∀ stage ∈ p.stages, stage.steps ≠ []
  separate : p.stages.Pairwise Separate

variable {p q : Plan} {e : Event}

theorem Sound.woven (h : p.Sound) : p.Woven where
  after := h.after
  named stage hstage s hs o ho := by
    obtain ⟨k, hk, _⟩ := (h.stages stage hstage).steps s hs
    exact hk.mem_bound_iff.mp ho
  nonempty stage hstage := (h.stages stage hstage).nonempty
  separate := h.separate

namespace Woven

/-- Stages that are left out leave the others as they are. -/
theorem of_sublist (h : p.Woven) (hq : q.stages.Sublist p.stages) : q.Woven where
  after := h.after.sublist (hq.flatMap _)
  named stage hstage := h.named stage (hq.mem hstage)
  nonempty stage hstage := h.nonempty stage (hq.mem hstage)
  separate := h.separate.sublist hq

/-- A stage that comes after another writes nothing that the other one names. -/
theorem stage_after (h : p.Woven) : p.stages.Pairwise fun a b => ∀ o ∈ b.writes, o ∉ a.referenced := by
  refine (List.pairwise_flatMap.mp h.after).2.imp fun hab o ho href => ?_
  obtain ⟨⟨t, ht, hw⟩, _⟩ := Stage.mem_writes.mp ho
  obtain ⟨s, hs, hbound⟩ := Stage.mem_referenced.mp href
  exact hab s hs t ht o hw hbound

/-- No two stages write the same object. -/
theorem single_writer (h : p.Woven) : p.stages.Pairwise fun a b => ∀ o ∈ a.writes, o ∉ b.writes :=
  h.stage_after.imp fun hab o ha hb => hab o hb (Stage.referenced_of_writes ha)

theorem not_written_after (h : p.Woven) {before later : List Stage} {stage other : Stage}
    (hstages : p.stages = before ++ stage :: later) (hother : other ∈ later) {o : ObjectId} (ho : o ∈ other.writes) :
    o ∉ stage.referenced := by
  have hafter := h.stage_after
  rw [hstages] at hafter
  exact (List.pairwise_cons.mp (List.pairwise_append.mp hafter).2.1).1 other hother o ho

/-- What a stage names beside its internal images, it reads or writes. -/
theorem reads_or_writes (h : p.Woven) {stage : Stage} (hstage : stage ∈ p.stages) {o : ObjectId}
    (ho : o ∈ stage.referenced) (hi : o ∉ stage.internal) : o ∈ stage.reads ∨ o ∈ stage.writes := by
  obtain ⟨s, hs, hbound⟩ := Stage.mem_referenced.mp ho
  rcases h.named stage hstage s hs o hbound with hread | hwrite
  · exact .inl (Stage.mem_reads.mpr ⟨⟨s, hs, hread⟩, hi⟩)
  · exact .inr (Stage.mem_writes.mpr ⟨⟨s, hs, hwrite⟩, hi⟩)

end Woven

/-- Two stages of a plan that can be joined, with the stages around them and the image between them. -/
structure Fusable (p : Plan) (front between back : List Stage) (producer consumer : Stage) (t : ObjectId) : Prop where
  stages : p.stages = front ++ producer :: (between ++ consumer :: back)
  hidden : p.isPrivateImage t = true
  pixelwise : producer.pixelwise = true ∧ consumer.pixelwise = true
  writes : producer.writes = [t]
  read : t ∈ consumer.reads
  unread : ∀ stage ∈ front ++ producer :: (between ++ back), t ∉ stage.reads
  count : ∃ n, p.pixelCount t = some n ∧ ∀ o ∈ consumer.writes, p.pixelCount o = some n

/-- The plan with the joined stage at the place of the consumer. -/
def joined (p : Plan) (front between back : List Stage) (producer consumer : Stage) (t : ObjectId) : Plan :=
  { p with stages := front ++ between ++ join producer consumer t :: back }

theorem mem_consumers {accesses : List Access} {o : ObjectId} {i : Nat} :
    i ∈ Access.consumers accesses o ↔ ∃ a, accesses[i]? = some a ∧ o ∈ a.reads := by
  simp only [Access.consumers, List.mem_map, List.mem_filter, Prod.exists, exists_eq_right,
    List.mem_zipIdx_iff_getElem?, List.contains_eq_mem, decide_eq_true_eq]

theorem candidateAt_eq_some {accesses : List Access} {i : Nat} {stage : Stage} {o : ObjectId} {c : Candidate}
    (h : p.candidateAt accesses i stage o = some c) : c.consumer = i ∧ c.intermediate = o ∧
      p.isPrivateImage o = true ∧ c.producer ≠ i ∧ Access.consumers accesses o = [i] ∧
      (∃ source, p.stages[c.producer]? = some source ∧ source.pixelwise = true ∧ source.writes = [o]) ∧
      ∃ n, p.pixelCount o = some n ∧ ∀ w ∈ stage.writes, p.pixelCount w = some n := by
  unfold candidateAt at h
  split at h
  · contradiction
  · rename_i hprivate
    split at h
    · split at h
      · contradiction
      · rename_i producer _ source hsource
        dsimp only at h
        split at h
        · rename_i hall
          cases h
          simp only [ne_eq, decide_not, Bool.and_eq_true, Bool.not_eq_true', decide_eq_false_iff_not, beq_iff_eq,
            List.all_eq_true] at hall
          obtain ⟨⟨⟨⟨⟨hne, hconsumers⟩, hpixel⟩, hwrites⟩, hcount⟩, hall⟩ := hall
          obtain ⟨n, hn⟩ := Option.isSome_iff_exists.mp hcount
          refine ⟨rfl, rfl, by simpa using hprivate, hne, hconsumers, ⟨source, hsource, hpixel, hwrites⟩, n, hn, ?_⟩
          exact fun w hw => (hall w hw).trans hn
        · contradiction
    · contradiction

/-- The pair that is found stands in the plan and fits. -/
theorem candidate?_eq_some {c : Candidate} (h : p.candidate? = some c) :
    ∃ producer consumer, p.stages[c.producer]? = some producer ∧ p.stages[c.consumer]? = some consumer ∧
      c.producer ≠ c.consumer ∧ p.isPrivateImage c.intermediate = true ∧
      (producer.pixelwise = true ∧ consumer.pixelwise = true) ∧ producer.writes = [c.intermediate] ∧
      c.intermediate ∈ consumer.reads ∧ Access.consumers p.accesses c.intermediate = [c.consumer] ∧
      ∃ n, p.pixelCount c.intermediate = some n ∧ ∀ o ∈ consumer.writes, p.pixelCount o = some n := by
  unfold candidate? at h
  obtain ⟨⟨consumer, i⟩, hmem, hc⟩ := List.exists_of_findSome?_eq_some h
  dsimp only at hc
  split at hc
  · rename_i hpixel
    obtain ⟨t, ht, hc⟩ := List.exists_of_findSome?_eq_some hc
    obtain ⟨rfl, rfl, hprivate, hne, hconsumers, ⟨producer, hproducer, hppixel, hwrites⟩, hcount⟩ :=
      candidateAt_eq_some hc
    exact ⟨producer, consumer, hproducer, List.mem_zipIdx_iff_getElem?.mp hmem, hne, hprivate, ⟨hppixel, hpixel⟩,
      hwrites, ht, hconsumers, hcount⟩
  · contradiction

/-- Joining takes two stages that fit, puts the joined stage in the place of the later one, and tells which they were. -/
theorem fuseOnce_eq_joined (hp : p.Woven) (h : p.fuseOnce = some (q, e)) :
    ∃ front between back producer consumer t, p.Fusable front between back producer consumer t ∧
      q = p.joined front between back producer consumer t ∧ e = .fused producer.origins consumer.origins t := by
  unfold fuseOnce at h
  split at h
  · contradiction
  · rename_i c hc
    obtain ⟨producer, consumer, hproducer, hconsumer, hne, hprivate, hpixel, hwrites, ht, hconsumers, hcount⟩ :=
      candidate?_eq_some hc
    rw [hproducer, hconsumer] at h
    cases h
    -- the consumer names what the producer writes, so it comes later
    have hlt : c.producer < c.consumer := by
      obtain ⟨hi, rfl⟩ := List.getElem?_eq_some_iff.mp hproducer
      obtain ⟨hj, rfl⟩ := List.getElem?_eq_some_iff.mp hconsumer
      by_contra hnot
      have hafter := List.pairwise_iff_getElem.mp hp.stage_after _ _ hj hi (by omega)
      refine hafter c.intermediate (by simp [hwrites]) ?_
      obtain ⟨⟨s, hs, hread⟩, _⟩ := Stage.mem_reads.mp ht
      exact Stage.mem_referenced.mpr ⟨s, hs, Step.bound_of_reads hread⟩
    obtain ⟨front, rest, hstages, hfront⟩ := exists_append_of_getElem? hproducer
    have hrest : rest[c.consumer - c.producer - 1]? = some consumer := by
      rw [hstages, List.getElem?_append_right (by omega), List.getElem?_cons] at hconsumer
      simpa [hfront, show c.consumer - c.producer ≠ 0 by omega] using hconsumer
    obtain ⟨between, back, rfl, hbetween⟩ := exists_append_of_getElem? hrest
    refine ⟨front, between, back, producer, consumer, c.intermediate,
      ⟨hstages, hprivate, hpixel, hwrites, ht, fun stage hstage hread => ?_, hcount⟩, ?_, rfl⟩
    · have hsplit : p.stages = (front ++ producer :: between) ++ consumer :: back := by simpa using hstages
      obtain ⟨j, hj, hother⟩ := exists_getElem?_ne (front ++ producer :: between) back consumer
        (by simpa using hstage)
      have honly : j ∈ Access.consumers p.accesses c.intermediate :=
        mem_consumers.mpr ⟨stage.access, by simp [accesses, hsplit ▸ hj], hread⟩
      rw [hconsumers, List.mem_singleton] at honly
      simp only [List.length_append, List.length_cons] at hother
      omega
    · have hpos : c.consumer = front.length + (between.length + 1) := by omega
      rw [joined, hstages, hpos, ← hfront, List.set_append_right _ _ (by omega), Nat.add_sub_cancel_left,
        List.set_cons_succ, List.set_append_right _ _ (by omega), Nat.sub_self, List.set_cons_zero,
        List.eraseIdx_append_of_length_le (by omega), Nat.sub_self, List.eraseIdx_cons_zero, List.append_assoc]

theorem fuseOnce_eq_some (hp : p.Woven) (h : p.fuseOnce = some (q, e)) :
    ∃ front between back producer consumer t, p.Fusable front between back producer consumer t ∧
      q = p.joined front between back producer consumer t := by
  obtain ⟨front, between, back, producer, consumer, t, hf, hq, _⟩ := fuseOnce_eq_joined hp h
  exact ⟨front, between, back, producer, consumer, t, hf, hq⟩

namespace Fusable

variable {front between back : List Stage} {producer consumer : Stage} {t o : ObjectId}

theorem mem_joined {stage : Stage} : stage ∈ (p.joined front between back producer consumer t).stages ↔
    stage ∈ front ++ between ++ back ∨ stage = join producer consumer t := by
  simp only [joined, List.mem_append, List.mem_cons]
  tauto

theorem referenced_join :
    o ∈ (join producer consumer t).referenced ↔ o ∈ producer.referenced ∨ o ∈ consumer.referenced := by
  simp only [Stage.mem_referenced, join, List.mem_append, or_and_right, exists_or]

theorem mem_internal_join : o ∈ (join producer consumer t).internal ↔
    o ∈ producer.internal ∨ o ∈ consumer.internal ∨ o = t := by
  simp [join]

variable (hf : p.Fusable front between back producer consumer t)

include hf

theorem perm : p.stages.Perm (producer :: consumer :: (front ++ between ++ back)) := by
  rw [hf.stages]
  refine List.perm_middle.trans (.cons producer ?_)
  rw [← List.append_assoc]
  exact List.perm_middle

theorem mem : producer ∈ p.stages ∧ consumer ∈ p.stages ∧ ∀ stage ∈ front ++ between ++ back, stage ∈ p.stages := by
  simp only [hf.perm.mem_iff, List.mem_cons, true_or, or_true, true_and]
  exact fun stage hstage => .inr (.inr hstage)

theorem separate (h : p.Woven) : (producer :: consumer :: (front ++ between ++ back)).Pairwise Separate :=
  (hf.perm.pairwise_iff Separate.symm).mp h.separate

theorem written : t ∈ producer.writes ∧ t ∉ producer.internal ∧ t ∈ consumer.referenced ∧ t ∉ consumer.internal := by
  have hw : t ∈ producer.writes := hf.writes ▸ List.mem_singleton_self t
  obtain ⟨⟨s, hs, hread⟩, hout⟩ := Stage.mem_reads.mp hf.read
  exact ⟨hw, (Stage.mem_writes.mp hw).2, Stage.mem_referenced.mpr ⟨s, hs, Step.bound_of_reads hread⟩, hout⟩

/-- The producer does not read the image between. -/
theorem unread_by_producer : ∀ s ∈ producer.steps, t ∉ s.reads := by
  intro s hs hread
  exact hf.unread producer (by simp) (Stage.mem_reads.mpr ⟨⟨s, hs, hread⟩, hf.written.2.1⟩)

/-- No other stage names the image between. -/
theorem unnamed (h : p.Woven) : ∀ stage ∈ front ++ between ++ back, t ∉ stage.referenced := by
  intro stage hstage href
  have hwritten := hf.written.1
  have hsep := (List.pairwise_cons.mp (hf.separate h)).1 stage (List.mem_cons_of_mem _ hstage)
  have hinternal : t ∉ stage.internal := fun hin => hsep.2 t hin (Stage.referenced_of_writes hwritten)
  rcases h.reads_or_writes (hf.mem.2.2 stage hstage) href hinternal with hread | hwrite
  · refine hf.unread stage ?_ hread
    simp only [List.mem_append, List.mem_cons] at hstage ⊢
    tauto
  · have hsingle := (hf.perm.pairwise_iff fun hab o hb ha => hab o ha hb).mp h.single_writer
    exact (List.pairwise_cons.mp hsingle).1 stage (List.mem_cons_of_mem _ hstage) t hwritten hwrite

theorem unwritten_by_consumer (h : p.Woven) : t ∉ consumer.writes := by
  have hsingle := (hf.perm.pairwise_iff fun hab o hb ha => hab o ha hb).mp h.single_writer
  exact (List.pairwise_cons.mp hsingle).1 consumer List.mem_cons_self t hf.written.1

/-- The joined stage writes what the consumer does. -/
theorem writes_join (h : p.Woven) : (join producer consumer t).writes = consumer.writes := by
  have hsep := (List.pairwise_cons.mp (hf.separate h)).1 consumer List.mem_cons_self
  -- all that the producer writes is internal now, and nothing of what the consumer writes has become so
  have hproducer : (producer.steps.flatMap Step.writes).filter (!(join producer consumer t).internal.contains ·) = [] := by
    refine List.filter_eq_nil_iff.mpr fun o ho => ?_
    obtain ⟨x, hx, hw⟩ := List.mem_flatMap.mp ho
    simp only [List.contains_eq_mem, Bool.not_eq_true', decide_eq_false_iff_not, not_not, mem_internal_join]
    by_cases hi : o ∈ producer.internal
    · exact .inl hi
    · have hout : o ∈ producer.writes := Stage.mem_writes.mpr ⟨⟨x, hx, hw⟩, hi⟩
      rw [hf.writes, List.mem_singleton] at hout
      exact .inr (.inr hout)
  have hconsumer : (consumer.steps.flatMap Step.writes).filter (!(join producer consumer t).internal.contains ·) =
      (consumer.steps.flatMap Step.writes).filter (!consumer.internal.contains ·) := by
    refine List.filter_congr fun o ho => ?_
    obtain ⟨x, hx, hw⟩ := List.mem_flatMap.mp ho
    have href : o ∈ consumer.referenced := Stage.mem_referenced.mpr ⟨x, hx, Step.bound_of_writes hw⟩
    have hP : o ∉ producer.internal := fun hi => hsep.1 o hi href
    have ht : o ≠ t := by
      rintro rfl
      exact hf.unwritten_by_consumer h (Stage.mem_writes.mpr ⟨⟨x, hx, hw⟩, hf.written.2.2.2⟩)
    simp [mem_internal_join, hP, ht]
  unfold Stage.writes
  rw [show (join producer consumer t).steps = producer.steps ++ consumer.steps from rfl, List.flatMap_append,
    List.filter_append, hproducer, hconsumer, List.nil_append]

/-- What a part of the joined stage takes from memory, the joined stage does too, but for the image between. -/
theorem outside_join (h : p.Woven) (hne : o ≠ t)
    (ho : o ∈ producer.referenced ∧ o ∉ producer.internal ∨ o ∈ consumer.referenced ∧ o ∉ consumer.internal) :
    o ∈ (join producer consumer t).referenced ∧ o ∉ (join producer consumer t).internal := by
  have hsep := (List.pairwise_cons.mp (hf.separate h)).1 consumer List.mem_cons_self
  rw [referenced_join, mem_internal_join]
  rcases ho with ⟨href, hi⟩ | ⟨href, hi⟩
  · exact ⟨.inl href, by rintro (hP | hC | hT); exacts [hi hP, hsep.2 o hC href, hne hT]⟩
  · exact ⟨.inr href, by rintro (hP | hC | hT); exacts [hsep.1 o hP href, hi hC, hne hT]⟩

/-- The steps of a plan are the same ones when two of its stages are joined. -/
theorem steps_perm :
    ((p.joined front between back producer consumer t).stages.flatMap (·.steps)).Perm (p.stages.flatMap (·.steps)) := by
  simp only [joined, hf.stages, join, List.flatMap_append, List.flatMap_cons, List.append_assoc]
  exact List.perm_append_comm_assoc _ _ _ |>.append_left _

/-- The stages of a plan still hang together when two of them are joined. -/
theorem woven (h : p.Woven) : (p.joined front between back producer consumer t).Woven where
  after := by
    have hafter := h.after
    rw [hf.stages] at hafter
    simp only [joined, List.append_assoc, List.flatMap_append, List.flatMap_cons, join] at hafter ⊢
    refine pairwise_move hafter fun s hs x hx o ho hbound => ?_
    -- the producer writes the image between and its internal images, which no stage between names
    obtain ⟨stage, hstage, hs⟩ := List.mem_flatMap.mp hs
    have hother : stage ∈ front ++ between ++ back := by simp [hstage]
    have href : o ∈ stage.referenced := Stage.mem_referenced.mpr ⟨s, hs, hbound⟩
    have hsep := (List.pairwise_cons.mp (hf.separate h)).1 stage (List.mem_cons_of_mem _ hother)
    by_cases hi : o ∈ producer.internal
    · exact hsep.1 o hi href
    · have hw : o ∈ producer.writes := Stage.mem_writes.mpr ⟨⟨x, hx, ho⟩, hi⟩
      rw [hf.writes, List.mem_singleton] at hw
      exact hf.unnamed h stage hother (hw ▸ href)
  named stage hstage s hs := by
    rcases mem_joined.mp hstage with hother | rfl
    · exact h.named stage (hf.mem.2.2 stage hother) s hs
    · rcases List.mem_append.mp hs with hs | hs
      · exact h.named producer hf.mem.1 s hs
      · exact h.named consumer hf.mem.2.1 s hs
  nonempty stage hstage := by
    rcases mem_joined.mp hstage with hother | rfl
    · exact h.nonempty stage (hf.mem.2.2 stage hother)
    · simp [join, h.nonempty producer hf.mem.1]
  separate := by
    obtain ⟨hproducer, hrest⟩ := List.pairwise_cons.mp (hf.separate h)
    obtain ⟨hconsumer, hothers⟩ := List.pairwise_cons.mp hrest
    refine (List.perm_middle.pairwise_iff Separate.symm).mpr (List.pairwise_cons.mpr ⟨fun stage hstage => ?_, hothers⟩)
    have hP := hproducer stage (List.mem_cons_of_mem _ hstage)
    have hC := hconsumer stage hstage
    refine ⟨fun o ho => ?_, fun o ho href => ?_⟩
    · simp only [join, List.mem_append, List.mem_singleton] at ho
      rcases ho with (ho | ho) | rfl
      · exact hP.1 o ho
      · exact hC.1 o ho
      · exact hf.unnamed h stage hstage
    · exact (referenced_join.mp href).elim (hP.2 o ho) (hC.2 o ho)

end Fusable

end Plan

namespace Graph

variable {r : Registry} {g : Graph} {p : Plan} {l : List Checked}

/-- The stages of a schedule hang together: every stage has one step and no internal image. -/
theorem Scheduled.woven (h : Scheduled r g l) (known : Array Meta) : (g.planOf l known).Woven where
  after := by
    have hsteps : (g.planOf l known).stages.flatMap (·.steps) = l.map step := by
      rw [planOf, List.flatMap_map, List.map_eq_flatMap]
      rfl
    rw [hsteps, List.pairwise_map]
    exact h.after.imp fun hab o ho => hab o (List.mem_eraseDups.mpr ho)
  named stage hstage s hs o ho := by
    obtain ⟨c, hc, rfl⟩ := List.mem_map.mp hstage
    have hsc : s = step c := by simpa [Stage.single] using hs
    subst hsc
    have hbound := (Checked.mem_bound (h.length_params hc)).mp ho
    exact hbound.imp List.mem_eraseDups.mp List.mem_eraseDups.mp
  nonempty stage hstage := by
    obtain ⟨c, _, rfl⟩ := List.mem_map.mp hstage
    simp [Stage.single]
  separate := List.pairwise_map.mpr (h.after.imp fun _ =>
    ⟨fun _ ho => absurd ho List.not_mem_nil, fun _ ho => absurd ho List.not_mem_nil⟩)

/-- The stages of every plan that verification returns hang together, whatever the kernels are. -/
theorem woven_of_verify (h : g.verify r = .ok p) : p.Woven := by
  obtain ⟨l, known, hl, rfl⟩ := exists_resolves h
  exact hl.woven known

end Graph

end VisionGraph
