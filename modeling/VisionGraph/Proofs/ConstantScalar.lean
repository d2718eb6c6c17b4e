import VisionGraph.Proofs.TwinRuns

/-! Constants and scalars of the caller agree. A graph in which a scalar that nodes take as a number was created as a
constant runs like the graph with the scalar, where the caller binds the value. -/
namespace VisionGraph

namespace Plan

namespace Twins

variable {z : ObjectId} {v : Scalar} {p q : Plan} {P Q : Program} {b : Bindings}

/-- Either both plans can be loaded, or neither. -/
theorem exists_loadedAs_iff (h : Twins z v p q) : (∃ P, p.LoadedAs P) ↔ ∃ Q, q.LoadedAs Q := by
  -- what can keep a plan from being loaded is an image without pixels, and the images are the same
  have hcount : p.pixelCount = q.pixelCount := funext h.pixelCount
  have hempty : p.emptyExtrema = q.emptyExtrema := by
    funext step
    unfold emptyExtrema
    rw [hcount]
  rw [h.sound.exists_loadedAs_iff, h.fixedSound.exists_loadedAs_iff]
  unfold HasExtrema
  rw [h.stages, hempty]

/-- The program asks for the same objects, except the scalar. -/
theorem program_entries (h : Twins z v p q) (hP : p.LoadedAs P) (hQ : q.LoadedAs Q) :
    Q.entries = P.entries.filter (·.1 ≠ z) := by
  obtain ⟨_, _, _, _, hentries⟩ := hP.fields
  obtain ⟨_, _, _, _, hentries'⟩ := hQ.fields
  -- an entry is an object with its metadata, and these differ for the scalar only
  have hof : q.entries.mapM (Program.entryOf q) = q.entries.mapM (Program.entryOf p) := by
    apply mapM_congr
    intro o ho
    rw [Program.entryOf, Program.entryOf, h.info?_of_ne ((h.mem_entries_iff o).mp ho).2]
  have hfst (o : ObjectId) (entry : ObjectId × Meta) (he : Program.entryOf p o = .ok entry) :
      decide (entry.1 ≠ z) = decide (o ≠ z) := by
    unfold Program.entryOf at he
    split at he
    · cases he
      rfl
    · cases he
  have hkept := mapM_filter hfst hentries
  rw [hof, h.entries_eq, hkept] at hentries'
  exact (Except.ok.inj hentries').symm

theorem check (h : Twins z v p q) (hP : p.LoadedAs P) (hQ : q.LoadedAs Q) (hcheck : P.check b = .ok ()) :
    Q.check (b.erase z) = .ok () := by
  apply Program.check_eq_ok.mpr
  intro entry hentry
  rw [h.program_entries hP hQ, List.mem_filter, decide_eq_true_eq] at hentry
  obtain ⟨x, hx, hfit⟩ := Program.check_eq_ok.mp hcheck entry hentry.1
  refine ⟨x, ?_, hfit⟩
  rw [IdMap.get?_erase, if_neg hentry.2, hx]

/-- The same delays age. -/
theorem ageDelays (h : Twins z v p q) (hP : p.LoadedAs P) (hQ : q.LoadedAs Q) (b : Bindings) :
    Q.ageDelays (b.erase z) = (P.ageDelays b).erase z := by
  have hnodup : (P.entries.map (·.1)).Nodup := by
    rw [hP.map_entries]
    exact nodup_entries h.sound.ids
  have hnodup' : (Q.entries.map (·.1)).Nodup := by
    rw [hQ.map_entries]
    exact nodup_entries h.fixedSound.ids
  apply IdMap.ext
  intro o
  rw [Program.get?_ageDelays hnodup', IdMap.get?_erase, IdMap.get?_erase, Program.get?_ageDelays hnodup,
    hP.map_entries, hQ.map_entries]
  by_cases ho : o = z
  · -- the scalar is gone, whether there is something to age or not
    rw [if_pos ho, if_pos ho]
    split <;> rfl
  · rw [if_neg ho, if_neg ho]
    simp only [h.mem_entries_iff, ho, ne_eq, not_false_eq_true, and_true]

/-- One run of both programs. -/
theorem process (h : Twins z v p q) (hP : p.LoadedAs P) (hQ : q.LoadedAs Q) (hu : p.Uniform) (hu' : q.Uniform)
    (hb : b.Sound) (hcheck : P.check b = .ok ()) (hv : b.get? z = some (.scalar v)) :
    Q.process (b.erase z) = ((P.process b).1, (P.process b).2.erase z) := by
  obtain ⟨hreg, hplan, hentry, hs, _⟩ := hP.fields
  obtain ⟨hreg', hplan', hentry', ht, _⟩ := hQ.fields
  have hcheck' := h.check hP hQ hcheck
  have hends := h.runs hs ht hu hu' (hP.hasExtrema h.sound) (hP.hosts hb hcheck) hv
  rcases hP.run_cases h.sound hu hb hcheck with ⟨n, hrun, _⟩ | ⟨i, stage, mid, n, hstage, _, _, _, hrun⟩
  · have hrun' : q.run .standard Q.storage (b.erase z) = .finished (n.without z) := by rw [hends, hrun]; rfl
    have hp : P.process b = (.ok (), P.ageDelays n.host) := by
      rw [Program.process_eq_ok hentry, hreg, hplan]
      exact ⟨hcheck, n, hrun, rfl⟩
    have hq : Q.process (b.erase z) = (.ok (), Q.ageDelays (n.without z).host) := by
      rw [Program.process_eq_ok hentry', hreg', hplan']
      exact ⟨hcheck', n.without z, hrun', rfl⟩
    have hage : Q.ageDelays (n.without z).host = (P.ageDelays n.host).erase z := h.ageDelays hP hQ n.host
    rw [hp, hq, hage]
  · have hrun' : q.run .standard Q.storage (b.erase z) = .failed i (n.without z) := by rw [hends, hrun]; rfl
    have hp : P.process b = (.error (.nodeFailure i stage.origins), n.host) :=
      Program.process_of_failed hentry hcheck (by rw [hreg, hplan, hrun]) (hP.decode_failed hstage)
    have hq : Q.process (b.erase z) = (.error (.nodeFailure i stage.origins), (n.without z).host) :=
      Program.process_of_failed hentry' hcheck' (by rw [hreg', hplan', hrun']) (hQ.decode_failed (h.stages ▸ hstage))
    rw [hp, hq]
    rfl

end Twins

end Plan

namespace Graph

/-- A conversion and a bound of what it converts, where one number is the shift and the lower bound. -/
def converting (number : Edit) : Graph := Graph.empty.edit ([.image 2 1 .u8] ++ number ::
  [.constant (.enum 40961), .constant (.s32 100), .virtualImage ⟨none, none, none⟩, .image 2 1 .s16,
    .node "vx.convert_depth" [some ⟨0⟩, some ⟨4⟩, some ⟨2⟩, some ⟨1⟩],
    .node "vxf.clamp" [some ⟨4⟩, some ⟨1⟩, some ⟨3⟩, some ⟨5⟩]])

/-- Two samples, and three as the number. -/
def threefold (fresh : Bindings) : Bindings :=
  (fresh.insert ⟨0⟩ (.image (.generate 2 1 .u8 fun i => if i = 0 then 1 else 0))).insert ⟨1⟩ (.scalar (.s32 3))

end Graph

end VisionGraph
