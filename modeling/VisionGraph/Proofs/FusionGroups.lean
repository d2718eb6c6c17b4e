import Mathlib.Data.List.Nodup
import Mathlib.Logic.Relation
import VisionGraph.Proofs.Certificate
import VisionGraph.Proofs.Optimization
import VisionGraph.Proofs.Schedule

/-! Fusion is exact. Which images become internal and which stages end up together depends on the plan only, not on the
order in which pairs are joined: the images are the smallest set to which none can be added, and the groups are the
stages that they connect. -/
namespace VisionGraph

namespace Plan

open Relation

variable {p q : Plan} {t o : ObjectId} {a b : Stage}

/-! ### Which images become internal -/

/-- An image on which pixel-wise stages could share a loop. Only the plan can see it, one stage writes it and nothing
else, and the stages that read it are other ones whose images have as many pixels. -/
structure Channel (p : Plan) (t : ObjectId) : Prop where
  hidden : p.isPrivateImage t = true
  source : ∃ a ∈ p.stages, a.pixelwise = true ∧ a.writes = [t] ∧ t ∉ a.reads ∧ ∀ b ∈ p.stages, t ∈ b.writes → b = a
  read : ∃ b ∈ p.stages, t ∈ b.reads
  readers : ∃ n, p.pixelCount t = some n ∧ ∀ b ∈ p.stages, t ∈ b.reads →
    b.pixelwise = true ∧ ∀ o ∈ b.writes, p.pixelCount o = some n

/-- Stages that are connected through some of the images. -/
def Linked (p : Plan) (inner : ObjectId → Prop) : Stage → Stage → Prop :=
  EqvGen fun a b => a ∈ p.stages ∧ b ∈ p.stages ∧ ∃ t, inner t ∧ t ∈ a.writes ∧ t ∈ b.reads

/-- The stages that read an image are connected through others. -/
def Gathered (p : Plan) (inner : ObjectId → Prop) (t : ObjectId) : Prop :=
  ∀ a ∈ p.stages, ∀ b ∈ p.stages, t ∈ a.reads → t ∈ b.reads → p.Linked inner a b

/-- There is nothing to add: stages could share a loop on no other image. -/
def Saturated (p : Plan) (inner : ObjectId → Prop) : Prop := ∀ t, p.Channel t → p.Gathered inner t → inner t

/-- The images of the smallest saturated set. -/
def Inner (p : Plan) (t : ObjectId) : Prop := ∀ inner, p.Saturated inner → inner t

theorem Linked.mono {inner inner' : ObjectId → Prop} (h : ∀ t, inner t → inner' t) (hab : p.Linked inner a b) :
    p.Linked inner' a b := by
  refine EqvGen.mono (fun a b hlink => ?_) _ _ hab
  obtain ⟨ha, hb, t, ht, hw, hr⟩ := hlink
  exact ⟨ha, hb, t, h t ht, hw, hr⟩

theorem Gathered.mono {inner inner' : ObjectId → Prop} (h : ∀ t, inner t → inner' t) (ht : p.Gathered inner t) :
    p.Gathered inner' t :=
  fun a ha b hb hra hrb => (ht a ha b hb hra hrb).mono h

theorem saturated_inner (p : Plan) : p.Saturated p.Inner :=
  fun t ht hgathered inner hsaturated => hsaturated t ht (hgathered.mono fun _ ho => ho inner hsaturated)

/-- An image is in the smallest set only if its readers are connected by it. -/
theorem inner_iff : p.Inner t ↔ p.Channel t ∧ p.Gathered p.Inner t := by
  constructor
  · intro h
    refine h (fun u => p.Channel u ∧ p.Gathered p.Inner u) fun u hu hgathered => ⟨hu, ?_⟩
    exact hgathered.mono fun o ho => p.saturated_inner o ho.1 ho.2
  · rintro ⟨hchannel, hgathered⟩
    exact p.saturated_inner t hchannel hgathered

/-- A plan before fusion: no stage has an internal image yet, and every stage writes something. -/
structure Unfused (p : Plan) : Prop where
  woven : p.Woven
  plain : ∀ a ∈ p.stages, a.internal = []
  writes : ∀ a ∈ p.stages, a.writes ≠ []

namespace Unfused

theorem of_sublist (h : p.Unfused) (hq : q.stages.Sublist p.stages) : q.Unfused where
  woven := h.woven.of_sublist hq
  plain a ha := h.plain a (hq.mem ha)
  writes a ha := h.writes a (hq.mem ha)

theorem mem_reads (h : p.Unfused) (ha : a ∈ p.stages) : o ∈ a.reads ↔ ∃ s ∈ a.steps, o ∈ s.reads := by
  simp [Stage.mem_reads, h.plain a ha]

/-- An object has one writer. -/
theorem eq_of_writes (h : p.Unfused) (ha : a ∈ p.stages) (hb : b ∈ p.stages) (hoa : o ∈ a.writes) (hob : o ∈ b.writes) :
    b = a := by
  by_contra hne
  have hsymm : Std.Symm fun a b : Stage => ∀ o ∈ a.writes, o ∉ b.writes := ⟨fun _ _ hab o hb ha => hab o ha hb⟩
  exact h.woven.single_writer.forall hb ha hne o hob hoa

theorem nodup (h : p.Unfused) : p.stages.Nodup := by
  refine h.woven.single_writer.imp_of_mem fun {a b} ha _ hab heq => ?_
  obtain ⟨o, ho⟩ := List.exists_mem_of_ne_nil _ (h.writes a ha)
  exact hab o ho (heq ▸ ho)

end Unfused

/-! ### Groups -/

/-- A stage that came from a group of others. All but the last of them write one internal image each; what is internal
is written and read inside the group only. -/
structure Part (p : Plan) (group : List Stage) (k : Stage) : Prop where
  steps : k.steps = group.flatMap (·.steps)
  pixelwise : ∀ a ∈ group, a.pixelwise = k.pixelwise
  last : ∃ rest last, group = rest ++ [last] ∧ k.writes = last.writes ∧ ∀ a ∈ rest, ∃ t ∈ k.internal, a.writes = [t]
  inner : ∀ t ∈ k.internal, p.Inner t
  count : ∀ t ∈ k.internal, ∀ o ∈ k.writes, p.pixelCount o = p.pixelCount t
  writer : ∀ t ∈ k.internal, ∃ a ∈ group, a.writes = [t]
  readers : ∀ t ∈ k.internal, ∀ b ∈ p.stages, t ∈ b.reads → b ∈ group
  linked : ∀ a ∈ group, ∀ b ∈ group, p.Linked p.Inner a b

namespace Part

variable {group : List Stage} {k : Stage}

theorem single (h : p.Unfused) (ha : a ∈ p.stages) : p.Part [a] a where
  steps := by simp
  pixelwise b hb := by rw [List.mem_singleton.mp hb]
  last := ⟨[], a, rfl, rfl, nofun⟩
  inner t ht := by simp [h.plain a ha] at ht
  count t ht := by simp [h.plain a ha] at ht
  writer t ht := by simp [h.plain a ha] at ht
  readers t ht := by simp [h.plain a ha] at ht
  linked b hb c hc := by
    rw [List.mem_singleton.mp hb, List.mem_singleton.mp hc]
    exact EqvGen.refl a

variable (h : p.Part group k)

include h

theorem writes_cases (ha : a ∈ group) : a.writes = k.writes ∨ ∃ t ∈ k.internal, a.writes = [t] := by
  obtain ⟨rest, last, rfl, hlast, hrest⟩ := h.last
  rcases List.mem_append.mp ha with ha | ha
  · exact .inr (hrest a ha)
  · rw [List.mem_singleton.mp ha]
    exact .inl hlast.symm

/-- A stage whose image is not internal is the last of its group. -/
theorem writes_eq (ha : a ∈ group) (hw : a.writes = [t]) (hout : t ∉ k.internal) : k.writes = [t] := by
  rcases h.writes_cases ha with hk | ⟨u, hu, hu'⟩
  · exact hk.symm.trans hw
  · have htu : t = u := by simpa [hw] using hu'
    exact absurd (htu ▸ hu) hout

theorem mem_steps (ha : a ∈ group) {s : Step} (hs : s ∈ a.steps) : s ∈ k.steps := by
  rw [h.steps]
  exact List.mem_flatMap.mpr ⟨a, ha, hs⟩

theorem mem_reads (hp : p.Unfused) (ha : a ∈ group) (hstage : a ∈ p.stages) (hr : o ∈ a.reads) (hout : o ∉ k.internal) :
    o ∈ k.reads := by
  obtain ⟨s, hs, hr⟩ := (hp.mem_reads hstage).mp hr
  exact Stage.mem_reads.mpr ⟨⟨s, h.mem_steps ha hs, hr⟩, hout⟩

theorem exists_writer (hw : o ∈ k.writes) : ∃ a ∈ group, o ∈ a.writes := by
  obtain ⟨rest, last, rfl, hlast, _⟩ := h.last
  exact ⟨last, by simp, hlast ▸ hw⟩

theorem exists_reader (hp : p.Unfused) (hgroup : ∀ a ∈ group, a ∈ p.stages) (hr : o ∈ k.reads) :
    ∃ a ∈ group, o ∈ a.reads := by
  obtain ⟨⟨s, hs, hr⟩, _⟩ := Stage.mem_reads.mp hr
  rw [h.steps] at hs
  obtain ⟨a, ha, hs⟩ := List.mem_flatMap.mp hs
  exact ⟨a, ha, (hp.mem_reads (hgroup a ha)).mpr ⟨s, hs, hr⟩⟩

/-- A later stage of the group writes nothing that an earlier one reads. -/
theorem ordered (hafter : k.steps.Pairwise Step.After) : group.Pairwise fun a b => ∀ o ∈ b.writes, o ∉ a.reads := by
  rw [h.steps] at hafter
  refine (List.pairwise_flatMap.mp hafter).2.imp fun {a b} hab o hw hr => ?_
  obtain ⟨⟨s', hs', hw⟩, _⟩ := Stage.mem_writes.mp hw
  obtain ⟨⟨s, hs, hr⟩, _⟩ := Stage.mem_reads.mp hr
  exact hab s hs s' hs' o hw (Step.bound_of_reads hr)

/-- What one stage of the group writes for another one is internal. -/
theorem mem_internal (hafter : k.steps.Pairwise Step.After) (ha : a ∈ group) (hb : b ∈ group) (hw : a.writes = [t])
    (hself : t ∉ a.reads) (hread : t ∈ b.reads) : t ∈ k.internal := by
  have hordered := h.ordered hafter
  obtain ⟨rest, last, rfl, _, hrest⟩ := h.last
  rcases List.mem_append.mp ha with ha | ha
  · obtain ⟨u, hu, hwu⟩ := hrest a ha
    have htu : t = u := by simpa [hw] using hwu
    exact htu ▸ hu
  · -- the last stage writes only after all others have read
    obtain rfl := List.mem_singleton.mp ha
    rcases List.mem_append.mp hb with hb | hb
    · exact absurd hread ((List.pairwise_append.mp hordered).2.2 b hb a ha t (by simp [hw]))
    · exact absurd (List.mem_singleton.mp hb ▸ hread) hself

end Part

/-- The stages of a plan as groups of the stages of another one. -/
structure Parted (p q : Plan) (parts : List (List Stage × Stage)) : Prop where
  objects : q.objects = p.objects
  woven : q.Woven
  stages : q.stages = parts.map (·.2)
  members : (parts.flatMap (·.1)).Perm p.stages
  part : ∀ x ∈ parts, p.Part x.1 x.2

namespace Parted

variable {parts : List (List Stage × Stage)}

theorem start (h : p.Unfused) : p.Parted p (p.stages.map fun a => ([a], a)) where
  objects := rfl
  woven := h.woven
  stages := by simp [Function.comp_def]
  members := by simp [List.flatMap_map]
  part x hx := by
    obtain ⟨a, ha, rfl⟩ := List.mem_map.mp hx
    exact .single h ha

section

variable (h : p.Parted q parts)

include h

theorem exists_part (ha : a ∈ p.stages) : ∃ x ∈ parts, a ∈ x.1 :=
  List.mem_flatMap.mp (h.members.mem_iff.mpr ha)

theorem mem_stages {x : List Stage × Stage} (hx : x ∈ parts) (ha : a ∈ x.1) : a ∈ p.stages :=
  h.members.mem_iff.mp (List.mem_flatMap.mpr ⟨x, hx, ha⟩)

theorem stage_mem {x : List Stage × Stage} (hx : x ∈ parts) : x.2 ∈ q.stages :=
  h.stages ▸ List.mem_map_of_mem hx

theorem getElem?_stages {i : Nat} : q.stages[i]? = some a ↔ ∃ x, parts[i]? = some x ∧ x.2 = a := by
  rw [h.stages, List.getElem?_map, Option.map_eq_some_iff]

theorem steps_after {x : List Stage × Stage} (hx : x ∈ parts) : x.2.steps.Pairwise Step.After :=
  (List.pairwise_flatMap.mp h.woven.after).1 x.2 (h.stage_mem hx)

theorem writes_ne_nil (hp : p.Unfused) {x : List Stage × Stage} (hx : x ∈ parts) : x.2.writes ≠ [] := by
  obtain ⟨rest, last, hgroup, hlast, _⟩ := (h.part x hx).last
  rw [hlast]
  exact hp.writes last (h.mem_stages hx (by simp [hgroup]))

theorem pixelCount_eq (o : ObjectId) : q.pixelCount o = p.pixelCount o := by
  rw [pixelCount, pixelCount, info?, info?, h.objects]

theorem isPrivateImage_eq (o : ObjectId) : q.isPrivateImage o = p.isPrivateImage o := by
  rw [isPrivateImage, isPrivateImage, object?, object?, h.objects]

end

/-! ### One joint -/

section Join

variable {fs bs ks : List (List Stage × Stage)} {gp gc : List Stage} {producer consumer : Stage}
  (h : p.Parted q (fs ++ (gp, producer) :: (bs ++ (gc, consumer) :: ks))) (hp : p.Unfused)
  (hf : q.Fusable (fs.map (·.2)) (bs.map (·.2)) (ks.map (·.2)) producer consumer t)

include h hp hf

/-- All stages that read the image between belong to the consumer. -/
theorem mem_of_reads (hb : b ∈ p.stages) (hread : t ∈ b.reads) : b ∈ gc := by
  obtain ⟨s, hs, hread⟩ := (hp.mem_reads hb).mp hread
  obtain ⟨x, hx, hbx⟩ := h.exists_part hb
  have hstep := (h.part x hx).mem_steps hbx hs
  by_cases hother : x ∈ fs ++ bs ++ ks
  · refine absurd (Stage.mem_referenced.mpr ⟨s, hstep, Step.bound_of_reads hread⟩) (hf.unnamed h.woven x.2 ?_)
    rw [← List.map_append, ← List.map_append]
    exact List.mem_map_of_mem hother
  · have hcases : x = (gp, producer) ∨ x = (gc, consumer) := by
      simp only [List.mem_append, List.mem_cons] at hx hother
      tauto
    rcases hcases with rfl | rfl
    · exact absurd hread (hf.unread_by_producer s hstep)
    · exact hbx

omit hp in
/-- One stage of the producer's group writes the image between and nothing else. -/
theorem exists_source : ∃ a ∈ gp, a ∈ p.stages ∧ a.writes = [t] := by
  have hP : p.Part gp producer := h.part (gp, producer) (by simp)
  obtain ⟨rest, last, hgp, hlast, _⟩ := hP.last
  have hmem : last ∈ gp := by simp [hgp]
  exact ⟨last, hmem, h.mem_stages (x := (gp, producer)) (by simp) hmem, hlast.symm.trans hf.writes⟩

/-- The stages of both groups can share a loop on the image between. -/
theorem channel_between : p.Channel t := by
  have hP : p.Part gp producer := h.part (gp, producer) (by simp)
  have hC : p.Part gc consumer := h.part (gc, consumer) (by simp)
  obtain ⟨last, hmem, hstage, hwrites⟩ := h.exists_source hf
  refine ⟨h.isPrivateImage_eq t ▸ hf.hidden,
    ⟨last, hstage, (hP.pixelwise last hmem).trans hf.pixelwise.1, hwrites, fun hread => ?_, fun b hb hw => ?_⟩, ?_, ?_⟩
  · obtain ⟨s, hs, hread⟩ := (hp.mem_reads hstage).mp hread
    exact hf.unread_by_producer s (hP.mem_steps hmem hs) hread
  · exact hp.eq_of_writes hstage hb (by simp [hwrites]) hw
  · have hgc : ∀ a ∈ gc, a ∈ p.stages := fun a ha => h.mem_stages (x := (gc, consumer)) (by simp) ha
    obtain ⟨b, hb, hread⟩ := hC.exists_reader hp hgc hf.read
    exact ⟨b, hgc b hb, hread⟩
  · obtain ⟨n, hn, hall⟩ := hf.count
    refine ⟨n, h.pixelCount_eq t ▸ hn, fun b hb hread => ?_⟩
    have hbc := h.mem_of_reads hp hf hb hread
    refine ⟨(hC.pixelwise b hbc).trans hf.pixelwise.2, fun o ho => ?_⟩
    rcases hC.writes_cases hbc with hw | ⟨u, hu, hw⟩
    · rw [← h.pixelCount_eq]
      exact hall o (hw ▸ ho)
    · -- an internal image has as many pixels as what the consumer writes
      obtain ⟨w, hcw⟩ := List.exists_mem_of_ne_nil _ (h.writes_ne_nil (x := (gc, consumer)) hp (by simp))
      rw [hw, List.mem_singleton] at ho
      rw [ho, ← hC.count u hu w hcw, ← h.pixelCount_eq]
      exact hall w hcw

theorem inner_between : p.Inner t := by
  have hC : p.Part gc consumer := h.part (gc, consumer) (by simp)
  refine p.saturated_inner t (h.channel_between hp hf) fun a ha b hb hra hrb => ?_
  exact hC.linked a (h.mem_of_reads hp hf ha hra) b (h.mem_of_reads hp hf hb hrb)

/-- The image between connects both groups. -/
theorem linked_join (ha : a ∈ gp ++ gc) (hb : b ∈ gp ++ gc) : p.Linked p.Inner a b := by
  have hP : p.Part gp producer := h.part (gp, producer) (by simp)
  have hC : p.Part gc consumer := h.part (gc, consumer) (by simp)
  obtain ⟨source, hmem, hstage, hwrites⟩ := h.exists_source hf
  obtain ⟨c, hc, hread⟩ := (h.channel_between hp hf).read
  have hacross : p.Linked p.Inner source c :=
    .rel _ _ ⟨hstage, hc, t, h.inner_between hp hf, by simp [hwrites], hread⟩
  have hall : ∀ d ∈ gp ++ gc, p.Linked p.Inner source d := fun d hd => by
    rcases List.mem_append.mp hd with hd | hd
    · exact hP.linked source hmem d hd
    · exact hacross.trans _ _ _ (hC.linked c (h.mem_of_reads hp hf hc hread) d hd)
  exact ((hall a ha).symm _ _).trans _ _ _ (hall b hb)

/-- The joined stage comes from both groups. -/
theorem part_join : p.Part (gp ++ gc) (join producer consumer t) := by
  have hP : p.Part gp producer := h.part (gp, producer) (by simp)
  have hC : p.Part gc consumer := h.part (gc, consumer) (by simp)
  have hwrites := hf.writes_join h.woven
  have hcount : ∀ o ∈ consumer.writes, p.pixelCount o = p.pixelCount t := by
    obtain ⟨n, hn, hall⟩ := hf.count
    intro o ho
    rw [← h.pixelCount_eq, ← h.pixelCount_eq, hn, hall o ho]
  refine ⟨?_, fun a ha => ?_, ?_, fun u hu => ?_, fun u hu o ho => ?_, fun u hu => ?_, fun u hu b hb hread => ?_,
    fun a ha b hb => h.linked_join hp hf ha hb⟩
  · rw [List.flatMap_append, ← hP.steps, ← hC.steps]
    rfl
  · rcases List.mem_append.mp ha with ha | ha
    · exact (hP.pixelwise a ha).trans hf.pixelwise.1
    · exact (hC.pixelwise a ha).trans hf.pixelwise.2
  · -- the last stage of the consumer stays the last; that of the producer now writes an internal image like the others
    obtain ⟨rest, last, hgc, hlast, hrest⟩ := hC.last
    refine ⟨gp ++ rest, last, by rw [hgc, List.append_assoc], hwrites.trans hlast, fun a ha => ?_⟩
    rcases List.mem_append.mp ha with ha | ha
    · rcases hP.writes_cases ha with hw | ⟨u, hu, hw⟩
      · exact ⟨t, Fusable.mem_internal_join.mpr (.inr (.inr rfl)), hw.trans hf.writes⟩
      · exact ⟨u, Fusable.mem_internal_join.mpr (.inl hu), hw⟩
    · obtain ⟨u, hu, hw⟩ := hrest a ha
      exact ⟨u, Fusable.mem_internal_join.mpr (.inr (.inl hu)), hw⟩
  -- an internal image was one of the producer or of the consumer, or it is the one between
  · rcases Fusable.mem_internal_join.mp hu with hu | hu | rfl
    · exact hP.inner u hu
    · exact hC.inner u hu
    · exact h.inner_between hp hf
  · rw [hwrites] at ho
    rcases Fusable.mem_internal_join.mp hu with hu | hu | rfl
    · exact (hcount o ho).trans (hP.count u hu t hf.written.1)
    · exact hC.count u hu o ho
    · exact hcount o ho
  · rcases Fusable.mem_internal_join.mp hu with hu | hu | rfl
    · obtain ⟨a, ha, hw⟩ := hP.writer u hu
      exact ⟨a, List.mem_append_left gc ha, hw⟩
    · obtain ⟨a, ha, hw⟩ := hC.writer u hu
      exact ⟨a, List.mem_append_right gp ha, hw⟩
    · obtain ⟨a, ha, _, hw⟩ := h.exists_source hf
      exact ⟨a, List.mem_append_left gc ha, hw⟩
  · rcases Fusable.mem_internal_join.mp hu with hu | hu | rfl
    · exact List.mem_append_left gc (hP.readers u hu b hb hread)
    · exact List.mem_append_right gp (hC.readers u hu b hb hread)
    · exact List.mem_append_right gp (h.mem_of_reads hp hf hb hread)

end Join

/-- One joint makes one group of two. -/
theorem fuseOnce (h : p.Parted q parts) (hp : p.Unfused) {q' : Plan} {e : Event} (hq : q.fuseOnce = some (q', e)) :
    ∃ parts', p.Parted q' parts' := by
  obtain ⟨_, _, _, _, _, t, hf, rfl⟩ := fuseOnce_eq_some h.woven hq
  obtain ⟨fs, _, rfl, rfl, hproducer⟩ := List.map_eq_append_iff.mp (h.stages.symm.trans hf.stages)
  obtain ⟨⟨gp, producer⟩, _, rfl, rfl, hbetween⟩ := List.map_eq_cons_iff.mp hproducer
  obtain ⟨bs, _, rfl, rfl, hconsumer⟩ := List.map_eq_append_iff.mp hbetween
  obtain ⟨⟨gc, consumer⟩, ks, rfl, rfl, rfl⟩ := List.map_eq_cons_iff.mp hconsumer
  refine ⟨fs ++ bs ++ (gp ++ gc, join producer consumer t) :: ks, h.objects, hf.woven h.woven, ?_, ?_, fun x hx => ?_⟩
  · simp [joined]
  · refine List.Perm.trans ?_ h.members
    simp only [List.flatMap_append, List.flatMap_cons, List.append_assoc]
    exact List.perm_append_comm_assoc _ _ _ |>.append_left _
  · simp only [List.mem_append, List.mem_cons] at hx
    rcases hx with (hx | hx) | rfl | hx
    · exact h.part x (by simp [hx])
    · exact h.part x (by simp [hx])
    · exact h.part_join hp hf
    · exact h.part x (by simp [hx])

theorem fuse (hp : p.Unfused) : ∃ parts, p.Parted p.fuse.1 parts := by
  refine @fuse_induction (fun q => ∃ parts, p.Parted q parts) p (fun q q' e hq hq' => ?_) ⟨_, start hp⟩
  obtain ⟨parts, h⟩ := hq
  exact h.fuseOnce hp hq'

end Parted

/-! ### Nothing left to join -/

/-- The only stage whose accesses have a property is found at its place. -/
theorem positions_eq_singleton {f : Access → Bool} {i : Nat} (hi : p.stages[i]? = some a) (ha : f a.access = true)
    (honly : ∀ (k : Nat) (b : Stage), p.stages[k]? = some b → f b.access = true → k = i) :
    (p.accesses.zipIdx.filter fun x => f x.1).map (·.2) = [i] := by
  have hn : ((p.accesses.zipIdx.filter fun x => f x.1).map (·.2)).Nodup :=
    (List.filter_sublist.map _).nodup (Access.nodup_positions _)
  refine List.perm_singleton.mp ((List.perm_ext_iff_of_nodup hn (List.nodup_singleton i)).mpr fun k => ?_)
  simp only [List.mem_map, List.mem_filter, List.mem_zipIdx_iff_getElem?, accesses, List.getElem?_map,
    Option.map_eq_some_iff, List.mem_singleton]
  constructor
  · rintro ⟨⟨_, _⟩, ⟨⟨b, hb, rfl⟩, hf⟩, rfl⟩
    exact honly _ b hb hf
  · rintro rfl
    exact ⟨(a.access, k), ⟨⟨a, hi, rfl⟩, ha⟩, rfl⟩

/-- Two stages that could be joined keep fusion going. -/
theorem fuseOnce_ne_none {i j n : Nat} {producer consumer : Stage} (hi : p.stages[i]? = some producer)
    (hj : p.stages[j]? = some consumer) (hne : i ≠ j) (hhidden : p.isPrivateImage t = true)
    (hpixel : producer.pixelwise = true ∧ consumer.pixelwise = true) (hwrites : producer.writes = [t])
    (hwriter : ∀ (k : Nat) (a : Stage), p.stages[k]? = some a → t ∈ a.writes → k = i) (hread : t ∈ consumer.reads)
    (hreader : ∀ (k : Nat) (a : Stage), p.stages[k]? = some a → t ∈ a.reads → k = j)
    (hcount : p.pixelCount t = some n ∧ ∀ o ∈ consumer.writes, p.pixelCount o = some n) : p.fuseOnce ≠ none := by
  have hproducers : Access.producers p.accesses t = [i] := by
    refine positions_eq_singleton (f := (·.writes.contains t)) hi (by simp [Stage.access, hwrites]) fun k b hb hw => ?_
    exact hwriter k b hb (by simpa [Stage.access] using hw)
  have hconsumers : Access.consumers p.accesses t = [j] := by
    refine positions_eq_singleton (f := (·.reads.contains t)) hj (by simpa [Stage.access] using hread) fun k b hb hr => ?_
    exact hreader k b hb (by simpa [Stage.access] using hr)
  have hfound : p.candidateAt p.accesses j consumer t = some ⟨i, j, t⟩ := by
    simpa [candidateAt, hhidden, hproducers, hi, hne, hconsumers, hpixel.1, hwrites, hcount.1] using hcount.2
  intro hnone
  unfold fuseOnce at hnone
  split at hnone
  · rename_i hcandidate
    have hat := List.findSome?_eq_none_iff.mp hcandidate (consumer, j) (List.mem_zipIdx_iff_getElem?.mpr hj)
    dsimp only at hat
    rw [if_pos hpixel.2] at hat
    rw [List.findSome?_eq_none_iff.mp hat t hread] at hfound
    cases hfound
  · rename_i c hc
    obtain ⟨_, _, hp, hq, _⟩ := candidate?_eq_some hc
    rw [hp, hq] at hnone
    cases hnone

namespace Parted

variable {parts : List (List Stage × Stage)} (h : p.Parted q parts) (hp : p.Unfused)

include h hp

/-- A stage belongs to one group. -/
theorem index_eq {i j : Nat} {x y : List Stage × Stage} (hi : parts[i]? = some x) (hj : parts[j]? = some y)
    (hx : a ∈ x.1) (hy : a ∈ y.1) : i = j := by
  have hdisjoint := (List.nodup_flatMap.mp (h.members.nodup_iff.mpr hp.nodup)).2
  obtain ⟨hli, rfl⟩ := List.getElem?_eq_some_iff.mp hi
  obtain ⟨hlj, rfl⟩ := List.getElem?_eq_some_iff.mp hj
  rcases lt_trichotomy i j with hij | hij | hij
  · exact absurd hy (List.pairwise_iff_getElem.mp hdisjoint i j hli hlj hij hx)
  · exact hij
  · exact absurd hx (List.pairwise_iff_getElem.mp hdisjoint j i hlj hli hij hy)

theorem part_eq {x y : List Stage × Stage} (hx : x ∈ parts) (hy : y ∈ parts) (hax : a ∈ x.1) (hay : a ∈ y.1) :
    x = y := by
  obtain ⟨i, hi⟩ := List.mem_iff_getElem?.mp hx
  obtain ⟨j, hj⟩ := List.mem_iff_getElem?.mp hy
  obtain rfl := h.index_eq hp hi hj hax hay
  exact Option.some.inj (hi.symm.trans hj)

/-- Stages that internal images connect belong to the same group. -/
theorem mem_iff_of_linked (hab : p.Linked (fun t => ∃ k ∈ q.stages, t ∈ k.internal) a b) {x : List Stage × Stage}
    (hx : x ∈ parts) : a ∈ x.1 ↔ b ∈ x.1 := by
  induction hab with
  | refl a => exact Iff.rfl
  | symm a b _ ih => exact ih.symm
  | trans a b c _ _ hab hbc => exact hab.trans hbc
  | rel a b hlink =>
    obtain ⟨ha, hb, t, ⟨k, hk, ht⟩, hw, hread⟩ := hlink
    rw [h.stages] at hk
    obtain ⟨y, hy, rfl⟩ := List.mem_map.mp hk
    obtain ⟨c, hc, hcw⟩ := (h.part y hy).writer t ht
    have hac : a = c := hp.eq_of_writes (h.mem_stages hy hc) ha (by simp [hcw]) hw
    have hay : a ∈ y.1 := hac ▸ hc
    have hby : b ∈ y.1 := (h.part y hy).readers t ht b hb hread
    constructor
    · intro hax
      rwa [h.part_eq hp hx hy hax hay]
    · intro hbx
      rwa [h.part_eq hp hx hy hbx hby]

/-- Where no two stages can be joined, every image whose readers are together is internal. -/
theorem saturated_internal (hnone : q.fuseOnce = none) : p.Saturated fun t => ∃ k ∈ q.stages, t ∈ k.internal := by
  intro t ht hgathered
  by_contra hout
  obtain ⟨a, ha, hpixel, hwrites, hself, honly⟩ := ht.source
  obtain ⟨c, hc, hread⟩ := ht.read
  obtain ⟨n, hn, hreaders⟩ := ht.readers
  obtain ⟨x, hx, hax⟩ := h.exists_part ha
  obtain ⟨y, hy, hcy⟩ := h.exists_part hc
  have hX := h.part x hx
  have hY := h.part y hy
  have hxout : t ∉ x.2.internal := fun hin => hout ⟨x.2, h.stage_mem hx, hin⟩
  have hyout : t ∉ y.2.internal := fun hin => hout ⟨y.2, h.stage_mem hy, hin⟩
  have htogether : ∀ b ∈ p.stages, t ∈ b.reads → b ∈ y.1 := fun b hb hrb =>
    (h.mem_iff_of_linked hp (hgathered c hc b hb hread hrb) hy).mp hcy
  have hcount : ∀ o ∈ y.2.writes, q.pixelCount o = some n := by
    intro o ho
    rw [h.pixelCount_eq]
    obtain ⟨_, hall⟩ := hreaders c hc hread
    rcases hY.writes_cases hcy with hw | ⟨u, hu, hw⟩
    · exact hall o (hw ▸ ho)
    · exact (hY.count u hu o ho).trans (hall u (by simp [hw]))
  obtain ⟨i, hi⟩ := List.mem_iff_getElem?.mp hx
  obtain ⟨j, hj⟩ := List.mem_iff_getElem?.mp hy
  have hij : i ≠ j := by
    rintro rfl
    obtain rfl : x = y := Option.some.inj (hi.symm.trans hj)
    exact hxout (hX.mem_internal (h.steps_after hx) hax hcy hwrites hself hread)
  -- the two groups are the only ones that write and read the image, so they would be joined
  refine fuseOnce_ne_none (h.getElem?_stages.mpr ⟨x, hi, rfl⟩) (h.getElem?_stages.mpr ⟨y, hj, rfl⟩) hij
    (h.isPrivateImage_eq t ▸ ht.hidden)
    ⟨(hX.pixelwise a hax).symm.trans hpixel, (hY.pixelwise c hcy).symm.trans (hreaders c hc hread).1⟩
    (hX.writes_eq hax hwrites hxout) (fun k b hb hw => ?_) (hY.mem_reads hp hcy hc hread hyout)
    (fun k b hb hr => ?_) ⟨(h.pixelCount_eq t).trans hn, hcount⟩ hnone
  · obtain ⟨z, hz, rfl⟩ := h.getElem?_stages.mp hb
    obtain ⟨d, hd, hdw⟩ := (h.part z (List.mem_of_getElem? hz)).exists_writer hw
    have hda : d = a := honly d (h.mem_stages (List.mem_of_getElem? hz) hd) hdw
    exact h.index_eq hp hz hi (hda ▸ hd) hax
  · obtain ⟨z, hz, rfl⟩ := h.getElem?_stages.mp hb
    have hzs : ∀ d ∈ z.1, d ∈ p.stages := fun d => h.mem_stages (List.mem_of_getElem? hz)
    obtain ⟨d, hd, hdr⟩ := (h.part z (List.mem_of_getElem? hz)).exists_reader hp hzs hr
    exact h.index_eq hp hz hj hd (htogether d (hzs d hd) hdr)

end Parted

/-- What fusion makes of a plan. `groups` are the stages of the plan that became one stage each, in the order of their
steps. -/
structure ExactlyFused (p q : Plan) (groups : List (List Stage)) : Prop where
  objects : q.objects = p.objects
  distinct : p.stages.Nodup
  members : groups.flatten.Perm p.stages
  steps : q.stages.map (·.steps) = groups.map fun group => group.flatMap (·.steps)
  internal : ∀ t, (∃ k ∈ q.stages, t ∈ k.internal) ↔ p.Inner t
  direct : ∀ t, p.Channel t → (∃ b, ∀ a ∈ p.stages, t ∈ a.reads → a = b) → ∃ k ∈ q.stages, t ∈ k.internal
  together : ∀ a ∈ p.stages, ∀ b ∈ p.stages, (∃ group ∈ groups, a ∈ group ∧ b ∈ group) ↔ p.Linked p.Inner a b
  ordered : ∀ group ∈ groups, group.Pairwise fun a b => ∀ o ∈ b.writes, o ∉ a.reads
  enclosed : ∀ (i j : Nat) (a b : Stage), q.stages[i]? = some a → q.stages[j]? = some b → i ≠ j →
    ∀ t ∈ a.internal, t ∉ b.referenced
  schedule : ∀ (i j : Nat) (a b : Stage), q.stages[i]? = some a → q.stages[j]? = some b → i ≠ j →
    ∀ o ∈ a.writes, o ∈ b.reads → i < j

theorem Parted.exactlyFused {parts : List (List Stage × Stage)} (h : p.Parted q parts) (hp : p.Unfused)
    (hnone : q.fuseOnce = none) : p.ExactlyFused q (parts.map (·.1)) := by
  have hinternal : ∀ t, (∃ k ∈ q.stages, t ∈ k.internal) ↔ p.Inner t := by
    refine fun t => ⟨fun hin => ?_, fun hinner => hinner _ (h.saturated_internal hp hnone)⟩
    obtain ⟨k, hk, ht⟩ := hin
    rw [h.stages] at hk
    obtain ⟨x, hx, rfl⟩ := List.mem_map.mp hk
    exact (h.part x hx).inner t ht
  refine ⟨h.objects, hp.nodup, ?_, ?_, hinternal, fun t ht hone => ?_,
    fun a ha b hb => ⟨fun hgroup => ?_, fun hlinked => ?_⟩, fun group hgroup => ?_,
    fun i j a b ha hb hij t ht => ?_, fun i j a b ha hb hij o hw hr => ?_⟩
  · rw [← List.flatMap_def]
    exact h.members
  · rw [h.stages, List.map_map, List.map_map]
    exact List.map_congr_left fun x hx => (h.part x hx).steps
  · obtain ⟨c, hc⟩ := hone
    refine (hinternal t).mpr (inner_iff.mpr ⟨ht, fun a ha b hb hra hrb => ?_⟩)
    rw [hc a ha hra, hc b hb hrb]
    exact EqvGen.refl c
  · obtain ⟨group, hgroup, ha, hb⟩ := hgroup
    obtain ⟨x, hx, rfl⟩ := List.mem_map.mp hgroup
    exact (h.part x hx).linked a ha b hb
  · obtain ⟨x, hx, hax⟩ := h.exists_part ha
    have hsame := h.mem_iff_of_linked hp (hlinked.mono fun t ht => (hinternal t).mpr ht) hx
    exact ⟨x.1, List.mem_map_of_mem hx, hax, hsame.mp hax⟩
  · obtain ⟨x, hx, rfl⟩ := List.mem_map.mp hgroup
    exact (h.part x hx).ordered (h.steps_after hx)
  · obtain ⟨hi, rfl⟩ := List.getElem?_eq_some_iff.mp ha
    obtain ⟨hj, rfl⟩ := List.getElem?_eq_some_iff.mp hb
    rcases Nat.lt_or_gt_of_ne hij with hlt | hgt
    · exact (List.pairwise_iff_getElem.mp h.woven.separate i j hi hj hlt).1 t ht
    · exact (List.pairwise_iff_getElem.mp h.woven.separate j i hj hi hgt).2 t ht
  · obtain ⟨hi, rfl⟩ := List.getElem?_eq_some_iff.mp ha
    obtain ⟨hj, rfl⟩ := List.getElem?_eq_some_iff.mp hb
    refine Nat.lt_of_le_of_ne (Nat.le_of_not_lt fun hgt => ?_) hij
    obtain ⟨⟨s, hs, hr⟩, _⟩ := Stage.mem_reads.mp hr
    refine List.pairwise_iff_getElem.mp h.woven.stage_after j i hj hi hgt o hw ?_
    exact Stage.mem_referenced.mpr ⟨s, hs, Step.bound_of_reads hr⟩

end Plan

/-- At least one gradient is bound where the rule of the filter accepts. -/
theorem Kernel.bound_of_sobel3x3 {known : Known} {infs : List Inference} (h : sobel3x3.rule known = .ok infs) :
    Rule.isBound known 1 = true ∨ Rule.isBound known 2 = true := by
  obtain ⟨input, _, h⟩ := bind_eq_ok.mp h
  obtain ⟨_, _, h⟩ := bind_eq_ok.mp h
  by_contra hnone
  rw [not_or, Bool.not_eq_true, Bool.not_eq_true] at hnone
  simp [hnone, Rule.refuse, bind, Except.bind] at h

/-- Every standard kernel but one has an output that must be bound. -/
theorem Registry.exists_output_of_mem_standard {k : Kernel} (hk : k ∈ Registry.standard.kernels) :
    k = Kernel.sobel3x3 ∨ ∃ spec ∈ k.signature.params, spec.direction.writes = true ∧ spec.optional = false := by
  have hone : standard.kernels.filter (fun k => !k.signature.params.any fun spec =>
      spec.direction.writes && !spec.optional) = [Kernel.sobel3x3] := rfl
  by_cases hany : (k.signature.params.any fun spec => spec.direction.writes && !spec.optional) = true
  · exact .inr (by simpa using hany)
  · refine .inl (List.mem_singleton.mp (hone ▸ List.mem_filter.mpr ⟨hk, ?_⟩))
    rw [Bool.not_eq_true] at hany
    rw [hany, Bool.not_false]

namespace Graph

variable {g : Graph} {p : Plan}

/-- A node of a checked graph has an output. -/
theorem Resolves.exists_write {l : List Checked} {known : Array Meta} (hl : Resolves .standard g l known) {c : Checked}
    (hc : c ∈ l) : ∃ o, o ∈ c.access.writes := by
  have hbound (slot : Nat) {o : ObjectId} {spec : Param} (ho : c.node.params[slot]? = some (some o))
      (hspec : c.kernel.signature.params[slot]? = some spec) (hw : spec.direction.writes = true) :
      ∃ o, o ∈ c.access.writes :=
    ⟨o, Checked.mem_writes.mpr ⟨slot, spec.direction, ho, by simp [Checked.directions, Signature.directions, hspec], hw⟩⟩
  rcases Registry.exists_output_of_mem_standard (List.mem_of_find?_eq_some (hl.find_kernel hc)) with
    hsobel | ⟨spec, hspec, hw, hreq⟩
  · obtain ⟨infs, hrule, _⟩ := run_settles hl.regular hl.after hl.run hc
    rw [hsobel] at hrule
    rcases Kernel.bound_of_sobel3x3 hrule with hone | htwo
    · obtain ⟨m, hm⟩ := Option.isSome_iff_exists.mp hone
      obtain ⟨o, ho, _⟩ := Checked.slotMeta_view.mp hm
      exact hbound 1 ho (by rw [hsobel]; rfl) rfl
    · obtain ⟨m, hm⟩ := Option.isSome_iff_exists.mp htwo
      obtain ⟨o, ho, _⟩ := Checked.slotMeta_view.mp hm
      exact hbound 2 ho (by rw [hsobel]; rfl) rfl
  · obtain ⟨slot, hslot⟩ := List.mem_iff_getElem?.mp hspec
    have hlt : slot < c.node.params.length := hl.length_params hc ▸ (List.getElem?_eq_some_iff.mp hslot).1
    have hparam := List.getElem?_eq_getElem hlt
    have hfits := hl.fits c hc (spec, c.node.params[slot])
      (List.mem_iff_getElem?.mpr ⟨slot, List.getElem?_zip_eq_some.mpr ⟨hslot, hparam⟩⟩)
    cases hvalue : c.node.params[slot] with
    | none =>
      rw [hvalue] at hfits
      exact absurd (hfits.symm.trans hreq) Bool.noConfusion
    | some o => exact hbound slot (hparam.trans (congrArg some hvalue)) hslot hw

/-- Nothing is joined in the plan of a graph, and its stages have outputs. -/
theorem unfused_of_verify (h : g.verify .standard = .ok p) : p.Unfused := by
  have hwoven := woven_of_verify h
  obtain ⟨l, known, hl, rfl⟩ := exists_resolves h
  refine ⟨hwoven, fun a ha => ?_, fun a ha => ?_⟩
  · obtain ⟨c, _, rfl⟩ := List.mem_map.mp ha
    rfl
  · obtain ⟨c, hc, rfl⟩ := List.mem_map.mp ha
    obtain ⟨o, ho⟩ := hl.exists_write hc
    refine List.ne_nil_of_mem (Stage.mem_writes.mpr ⟨⟨step c, ?_, List.mem_eraseDups.mp ho⟩, List.not_mem_nil⟩)
    exact List.mem_singleton_self _

/-- Fusion is exact, on the plan of a graph and on what pruning leaves of it. The internal images and the groups follow
from the plan alone, the steps of a group run in the order of their data, and the result is still a schedule. -/
theorem fuse_exact (g : Graph) (p : Plan) (h : g.verify .standard = .ok p) (q : Plan) (hq : q = p ∨ q = p.prune.1) :
    ∃ groups, q.ExactlyFused q.fuse.1 groups := by
  have hp := unfused_of_verify h
  have hunfused : q.Unfused := by
    rcases hq with rfl | rfl
    · exact hp
    · exact hp.of_sublist Plan.stages_prune_sublist
  obtain ⟨parts, hparts⟩ := Plan.Parted.fuse hunfused
  exact ⟨parts.map (·.1), hparts.exactlyFused hunfused q.fuseOnce_fuse⟩

/-- An image that two nodes read, one of them to feed the other. -/
def forked : Graph := Graph.empty.edit [.image 2 1 .u8, .virtualImage ⟨none, none, none⟩,
  .virtualImage ⟨none, none, none⟩, .image 2 1 .u8, .node "vx.not" [some ⟨0⟩, some ⟨1⟩],
  .node "vx.not" [some ⟨1⟩, some ⟨2⟩], .node "vx.or" [some ⟨1⟩, some ⟨2⟩, some ⟨3⟩]]

/-- Once its readers are one stage, such an image becomes internal too. -/
theorem shared_internal_forked : ∃ p, forked.verify .standard = .ok p ∧
    (p.stages.filter (·.reads.contains ⟨1⟩)).length = 2 ∧ ∃ k ∈ p.fuse.1.stages, (⟨1⟩ : ObjectId) ∈ k.internal := by
  have hplan : (forked.verify .standard).toOption.map (fun p => ((p.stages.filter (·.reads.contains ⟨1⟩)).length,
      p.fuse.1.stages.any (·.internal.contains ⟨1⟩))) = some (2, true) := by decide +kernel
  obtain ⟨p, hp, hplan⟩ := Option.map_eq_some_iff.mp hplan
  have hverify := toOption_eq_some.mp hp
  simp only [Prod.mk.injEq] at hplan
  exact ⟨p, hverify, hplan.1, by simpa using hplan.2⟩

theorem fuse_forked : ∃ p groups, forked.verify .standard = .ok p ∧ p.stages.length = 3 ∧
    p.fuse.1.stages.map (·.internal) = [[⟨2⟩, ⟨1⟩]] ∧ p.ExactlyFused p.fuse.1 groups := by
  have hplan : (forked.verify .standard).toOption.map (fun p => (p.stages.length,
      p.fuse.1.stages.map (·.internal))) = some (3, [[⟨2⟩, ⟨1⟩]]) := by decide +kernel
  obtain ⟨p, hp, hplan⟩ := Option.map_eq_some_iff.mp hplan
  have hverify := toOption_eq_some.mp hp
  simp only [Prod.mk.injEq] at hplan
  obtain ⟨groups, hgroups⟩ := fuse_exact forked p hverify p (.inl rfl)
  exact ⟨p, groups, hverify, hplan.1, hplan.2, hgroups⟩

end Graph

end VisionGraph
