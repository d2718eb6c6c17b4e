import VisionGraph.Plan.Verify
import VisionGraph.Proofs.StageRun
import VisionGraph.Run.Program

/-! Runs of programs. A run succeeds exactly when the bound objects fit and all stages of the plan finish; so a
plan can stand in for another one as soon as its stages leave the same host objects. -/
namespace VisionGraph

namespace Program

variable {P : Program} {b b' : Bindings}

theorem make_eq_ok {r : Registry} {p : Plan} {u : CUnit} {m : Module} : make r p u m = .ok P ↔
    ∃ entries s, u.entries.mapM (entryOf p) = .ok entries ∧ m.objectCount = entries.length ∧
      Storage.ofPlan p = .ok s ∧ P = ⟨r, p, s, m, entries, u.origins⟩ := by
  unfold make
  rw [bind_eq_ok]
  refine ⟨?_, ?_⟩
  · rintro ⟨entries, hentries, h⟩
    dsimp only at h
    split at h
    · contradiction
    · rename_i hcount
      obtain ⟨s, hs, h⟩ := bind_eq_ok.mp h
      cases h
      exact ⟨entries, s, hentries, not_not.mp hcount, hs, rfl⟩
  · rintro ⟨entries, s, hentries, hcount, hs, rfl⟩
    refine ⟨entries, hentries, ?_⟩
    simp only [hcount, ne_eq, not_true_eq_false, ↓reduceIte]
    exact bind_eq_ok.mpr ⟨s, hs, rfl⟩

/-- Only the status zero is a success. -/
theorem exists_decode_error {code : Int} (h : code ≠ 0) : ∃ e, P.decode code = .error e := by
  unfold decode
  rw [if_neg h]
  split
  · exact ⟨_, rfl⟩
  split
  · exact ⟨_, rfl⟩
  split
  · exact ⟨_, rfl⟩
  split
  · -- a node failed, whether or not its position has an origin
    dsimp only
    split <;> exact ⟨_, rfl⟩
  · exact ⟨_, rfl⟩

/-- A run is refused, or it leaves what the entry point does; the delays age if it succeeds. -/
theorem process_cases {outcome : Except Error Unit} (h : P.process b = (outcome, b')) :
    (∃ e, outcome = .error e ∧ b' = b) ∨ P.check b = .ok () ∧
      ((∃ e, outcome = .error e ∧ b' = (P.call b).2) ∨ outcome = .ok () ∧ b' = P.ageDelays (P.call b).2) := by
  unfold process at h
  split at h
  · cases h
    exact .inl ⟨_, rfl, rfl⟩
  · rename_i hcheck
    refine .inr ⟨hcheck, ?_⟩
    split at h
    · rename_i hcall
      cases h
      exact .inl ⟨_, rfl, by rw [hcall]⟩
    · rename_i hcall
      split at h
      · cases h
        exact .inl ⟨_, rfl, by rw [hcall]⟩
      · cases h
        exact .inr ⟨rfl, by rw [hcall]⟩

/-- A run succeeds when the bound objects fit and every stage finishes. -/
theorem process_eq_ok (hentry : P.module.entry = .schedule) : P.process b = (.ok (), b') ↔
    P.check b = .ok () ∧ ∃ n, P.plan.run P.registry P.storage b = .finished n ∧ b' = P.ageDelays n.host := by
  unfold process call
  rw [hentry]
  cases P.check b with
  | error e => simp
  | ok u =>
    cases P.plan.run P.registry P.storage b with
    | finished n =>
      have hzero : P.decode 0 = .ok () := rfl
      simp [hzero, eq_comm]
    | failed position m =>
      have hne : (position + 1 : Int) ≠ 0 := by omega
      obtain ⟨e, he⟩ := P.exists_decode_error hne
      simp [he]
    | astray => simp

/-- A run whose stages fail reports what their status means and keeps what was done by then. -/
theorem process_of_failed (hentry : P.module.entry = .schedule) (hcheck : P.check b = .ok ()) {position : Nat}
    {m : Memory} (hrun : P.plan.run P.registry P.storage b = .failed position m) {e : Error}
    (hdecode : P.decode (position + 1) = .error e) : P.process b = (.error e, m.host) := by
  unfold process call
  simp only [hcheck, hentry, hrun, hdecode]

end Program

namespace Plan

variable {p q : Plan} {P Q : Program}

/-- A program that was loaded for the unit of a plan and runs the stages of the plan. -/
def LoadedAs (p : Plan) (P : Program) : Prop :=
  ∃ (u : CUnit) (m : Module), p.generate .standard = .ok u ∧ m.entry = .schedule ∧
    Program.make .standard p u m = .ok P

theorem entries_of_generate {r : Registry} {u : CUnit} (h : p.generate r = .ok u) : u.entries = p.entries := by
  obtain ⟨s, hs, h⟩ := bind_eq_ok.mp h
  obtain ⟨_, _, h⟩ := bind_eq_ok.mp h
  obtain ⟨_, _, h⟩ := bind_eq_ok.mp h
  cases h
  exact (Storage.ofPlan_eq_ok.mp hs).1

/-- A plan that there is code for can be loaded. -/
theorem Sound.exists_loadedAs (hp : p.Sound) {u : CUnit} (hu : p.generate .standard = .ok u) : ∃ P, p.LoadedAs P := by
  obtain ⟨s, hs⟩ := hp.exists_storage
  obtain ⟨entries, hentries⟩ : ∃ entries, u.entries.mapM (Program.entryOf p) = .ok entries := by
    apply exists_mapM_eq_ok
    intro o ho
    rw [entries_of_generate hu, mem_entries hp.ids] at ho
    obtain ⟨r, hr, _⟩ := ho
    exact ⟨(o, r.info), by rw [Program.entryOf, info?_of_object? hr]⟩
  exact ⟨_, u, ⟨0, entries.length, .schedule⟩, hu, rfl, Program.make_eq_ok.mpr ⟨entries, s, hentries, rfl, hs, rfl⟩⟩

/-- A plan stands in for another one: it asks for the same host objects, and on all that the other plan can run
to the end, it ends with the same host objects. -/
structure Replaces (q p : Plan) : Prop where
  entries : q.entries = p.entries
  info : ∀ o ∈ p.entries, q.info? o = p.info? o
  run : ∀ (s t : Storage) (b : Bindings) (m : Memory), Storage.ofPlan p = .ok s → Storage.ofPlan q = .ok t →
    p.run .standard s b = .finished m → ∃ n, q.run .standard t b = .finished n ∧ n.host = m.host

namespace Replaces

theorem refl (p : Plan) : p.Replaces p where
  entries := rfl
  info _ _ := rfl
  run s t b m hs ht hrun := by
    rw [hs] at ht
    cases ht
    exact ⟨m, hrun, rfl⟩

theorem trans {p' : Plan} (h : q.Replaces p) (h' : p'.Replaces q) (hq : ∃ s, Storage.ofPlan q = .ok s) :
    p'.Replaces p where
  entries := h'.entries.trans h.entries
  info o ho := (h'.info o (h.entries ▸ ho)).trans (h.info o ho)
  run s t b m hs ht hrun := by
    obtain ⟨u, hu⟩ := hq
    obtain ⟨n, hn, hhost⟩ := h.run s u b m hs hu hrun
    obtain ⟨n', hn', hhost'⟩ := h'.run u t b n hu ht hn
    exact ⟨n', hn', hhost'.trans hhost⟩

/-- Both programs ask for the same objects with the same metadata. -/
theorem entries_eq (h : q.Replaces p) (hP : p.LoadedAs P) (hQ : q.LoadedAs Q) : Q.entries = P.entries := by
  obtain ⟨u, _, hu, _, hmake⟩ := hP
  obtain ⟨v, _, hv, _, hmake'⟩ := hQ
  obtain ⟨entries, _, hentries, _, _, rfl⟩ := Program.make_eq_ok.mp hmake
  obtain ⟨entries', _, hentries', _, _, rfl⟩ := Program.make_eq_ok.mp hmake'
  rw [entries_of_generate hv, h.entries] at hentries'
  rw [entries_of_generate hu] at hentries
  have hof : p.entries.mapM (Program.entryOf q) = p.entries.mapM (Program.entryOf p) :=
    mapM_congr fun o ho => by rw [Program.entryOf, Program.entryOf, h.info o ho]
  rw [hof, hentries] at hentries'
  exact (Except.ok.inj hentries').symm

/-- What a program does successfully, the program of a plan that replaces its plan does too. -/
theorem process (h : q.Replaces p) (hP : p.LoadedAs P) (hQ : q.LoadedAs Q) {b b' : Bindings}
    (hrun : P.process b = (.ok (), b')) : Q.process b = (.ok (), b') := by
  have hsame := h.entries_eq hP hQ
  obtain ⟨_, _, _, hentry, hmake⟩ := hP
  obtain ⟨_, _, _, hentry', hmake'⟩ := hQ
  obtain ⟨entries, s, _, _, hs, rfl⟩ := Program.make_eq_ok.mp hmake
  obtain ⟨entries', t, _, _, ht, rfl⟩ := Program.make_eq_ok.mp hmake'
  cases hsame
  obtain ⟨hcheck, m, hm, rfl⟩ := (Program.process_eq_ok hentry).mp hrun
  obtain ⟨n, hn, hhost⟩ := h.run s t b m hs ht hm
  refine (Program.process_eq_ok hentry').mpr ⟨hcheck, n, hn, ?_⟩
  rw [hhost]
  rfl

end Replaces

end Plan

namespace Graph

variable {g : Graph}

/-- The program of a graph over the standard kernels, from a library that runs the stages. -/
def program? (g : Graph) : Option Program := do
  let p ← (g.verify .standard).toOption
  let u ← (p.generate .standard).toOption
  (Program.make .standard p u ⟨0, p.entries.length, .schedule⟩).toOption

/-- Whether the program of a graph runs on fresh objects and changes them. -/
def runsFresh (g : Graph) : Bool :=
  match g.program? with
  | none => false
  | some P =>
    match P.allocate with
    | .error _ => false
    | .ok b =>
      match P.process b with
      | (.ok (), next) => decide (next ≠ b)
      | (.error _, _) => false

theorem loadedAs_of_program? {P : Program} (h : g.program? = some P) :
    ∃ p, g.verify .standard = .ok p ∧ p.LoadedAs P := by
  unfold program? at h
  obtain ⟨p, hp, h⟩ := Option.bind_eq_some_iff.mp h
  obtain ⟨u, hu, hmake⟩ := Option.bind_eq_some_iff.mp h
  exact ⟨p, toOption_eq_some.mp hp, u, _, toOption_eq_some.mp hu, rfl, toOption_eq_some.mp hmake⟩

theorem exists_of_runsFresh (h : g.runsFresh = true) : ∃ p P b b', g.verify .standard = .ok p ∧ p.LoadedAs P ∧
    P.process b = (.ok (), b') ∧ b' ≠ b := by
  unfold runsFresh at h
  split at h
  · contradiction
  · rename_i P hP
    obtain ⟨p, hp, hload⟩ := loadedAs_of_program? hP
    split at h
    · contradiction
    · rename_i b _
      split at h
      · rename_i next hrun
        exact ⟨p, P, b, next, hp, hload, hrun, of_decide_eq_true h⟩
      · contradiction

end Graph

end VisionGraph
