import VisionGraph.Proofs.Pruning

/-! Fusion keeps plans sound: the stage that two stages are joined into is valid. -/
namespace VisionGraph

namespace Plan

variable {p q : Plan} {e : Event}

namespace Fusable

variable {front between back : List Stage} {producer consumer : Stage} {t : ObjectId}

/-- The joined stage is valid. -/
theorem valid_join (h : p.Sound) (hf : p.Fusable front between back producer consumer t) :
    (join producer consumer t).Valid p := by
  obtain ⟨hpm, hcm, _⟩ := hf.mem
  have hP := h.stages producer hpm
  have hC := h.stages consumer hcm
  obtain ⟨⟨sp, hsp, htp⟩, _⟩ := Stage.mem_writes.mp hf.written.1
  have hsep := (List.pairwise_cons.mp (hf.separate h.woven)).1 consumer List.mem_cons_self
  -- the internal images are those of the producer, those of the consumer and the new one
  refine ⟨fun s hs => ?_, ?_, nofun, fun o ho => ?_, fun o ho => ?_, ?_⟩
  · rcases List.mem_append.mp hs with hs | hs
    · obtain ⟨k, hk, hpixel⟩ := hP.steps s hs
      exact ⟨k, hk, hpixel.trans hf.pixelwise.1⟩
    · obtain ⟨k, hk, hpixel⟩ := hC.steps s hs
      exact ⟨k, hk, hpixel.trans hf.pixelwise.2⟩
  · simp [join, hP.nonempty]
  · simp only [join, List.mem_append, List.mem_singleton] at ho
    rcases ho with (ho | ho) | rfl
    · exact hP.hidden o ho
    · exact hC.hidden o ho
    · exact hf.hidden
  · simp only [join, List.mem_append, List.mem_singleton] at ho ⊢
    rcases ho with (ho | ho) | rfl
    · obtain ⟨s, hs, hw⟩ := hP.written o ho
      exact ⟨s, .inl hs, hw⟩
    · obtain ⟨s, hs, hw⟩ := hC.written o ho
      exact ⟨s, .inr hs, hw⟩
    · exact ⟨sp, .inl hsp, htp⟩
  · -- the producer reads none of the new internal images before it writes them
    refine SafeFrom.append (hP.safe.of_unread fun o ho => ?_) hC.safe fun o ho hunwritten => ?_
    · simp only [join, List.mem_append, List.mem_singleton] at ho
      rcases ho with (ho | ho) | rfl
      · exact .inl ho
      · refine .inr fun s hs hread => hsep.2 o ho ?_
        exact Stage.mem_referenced.mpr ⟨s, hs, Step.bound_of_reads hread⟩
      · exact .inr hf.unread_by_producer
    · simp only [join, List.mem_append, List.mem_singleton] at ho
      rcases ho with (ho | ho) | rfl
      · obtain ⟨s, hs, hw⟩ := hP.written o ho
        exact absurd hw (hunwritten s hs)
      · exact ho
      · exact absurd htp (hunwritten sp hsp)

/-- A plan stays sound when two of its stages are joined. -/
theorem sound (h : p.Sound) (hf : p.Fusable front between back producer consumer t) :
    (p.joined front between back producer consumer t).Sound where
  objects o r hr := { h.objects o r hr with }
  stages stage hstage := by
    simp only [joined, List.append_assoc, List.mem_append, List.mem_cons] at hstage
    have hvalid : stage.Valid p := by
      rcases hstage with hstage | hstage | rfl | hstage
      · exact h.stages stage (hf.mem.2.2 stage (by simp [hstage]))
      · exact h.stages stage (hf.mem.2.2 stage (by simp [hstage]))
      · exact hf.valid_join h
      · exact h.stages stage (hf.mem.2.2 stage (by simp [hstage]))
    exact hvalid.congr fun _ _ => rfl
  after := (hf.woven h.woven).after
  separate := (hf.woven h.woven).separate

end Fusable

/-- Joining two stages keeps a plan sound. -/
theorem Sound.fuseOnce (h : p.Sound) (hq : p.fuseOnce = some (q, e)) : q.Sound := by
  obtain ⟨_, _, _, _, _, _, hf, rfl⟩ := fuseOnce_eq_some h.woven hq
  exact hf.sound h

end Plan

end VisionGraph
