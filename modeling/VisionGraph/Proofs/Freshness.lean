import VisionGraph.Proofs.Construction
import VisionGraph.Session.Basic

/-! Sessions are never stale. A stage that a session keeps is the one that its pipeline would compute from the graph as it
is now, whatever was done before; so a session behaves like a new one for the same graph. -/
namespace VisionGraph

namespace Store

variable {s : Store} {u : CUnit} {t : Toolchain} {k : String} {m : Module}

theorem modules_provide (s : Store) (k : String) (u : CUnit) (t : Toolchain) :
    (s.provide k u t).2.modules = s.modules := by
  unfold provide
  split
  · rfl
  · split
    · rfl
    · dsimp only
      split <;> rfl

/-- Loading puts one module in front, or fails and adds none. -/
theorem load_cases (s : Store) (k : String) (u : CUnit) (t : Toolchain) :
    (∃ e, (s.load k u t).1 = .error e ∧ (s.load k u t).2.modules = s.modules) ∨
      ∃ m, (s.load k u t).1 = .ok m ∧ (s.load k u t).2.modules = (k, m) :: s.modules := by
  have hprovide := s.modules_provide k u t
  unfold load
  split
  · rename_i fault s' heq
    rw [heq] at hprovide
    exact .inl ⟨_, rfl, hprovide⟩
  · rename_i library s' heq
    rw [heq] at hprovide
    split
    · exact .inl ⟨_, rfl, hprovide⟩
    · exact .inr ⟨_, rfl, congrArg ((k, _) :: ·) hprovide⟩

/-- A module that is at hand stays at hand: a request loads only what is missing. -/
theorem lookup_request (h : s.modules.lookup k = some m) : (s.request u t).2.modules.lookup k = some m := by
  unfold request
  dsimp only
  split
  · exact h
  · rename_i hnone
    have hne : k ≠ key u t := by
      intro he
      rw [he, hnone] at h
      contradiction
    rcases s.load_cases (key u t) u t with ⟨_, _, hmodules⟩ | ⟨_, _, hmodules⟩
    · rw [hmodules, h]
    · rw [hmodules, List.lookup_cons, beq_false_of_ne hne]
      exact h

/-- A module that was asked for is at hand. -/
theorem lookup_of_request (h : (s.request u t).1 = .ok m) : (s.request u t).2.modules.lookup (key u t) = some m := by
  unfold request at h ⊢
  dsimp only at h ⊢
  split at h
  · rename_i m' hsome
    cases h
    exact hsome
  · rename_i hnone
    rcases s.load_cases (key u t) u t with ⟨e, herror, _⟩ | ⟨m', hok, hmodules⟩
    · rw [herror] at h
      contradiction
    · rw [hok] at h
      cases h
      rw [hmodules, List.lookup_cons_self]

end Store

namespace Pipeline

/-- One pipeline is another one after more builds: its store has lost no module. -/
structure Grows (l l' : Pipeline) : Prop where
  registry : l'.registry = l.registry
  optimizer : l'.optimizer = l.optimizer
  toolchain : l'.toolchain = l.toolchain
  modules : ∀ k m, l.store.modules.lookup k = some m → l'.store.modules.lookup k = some m

theorem Grows.refl (l : Pipeline) : l.Grows l := ⟨rfl, rfl, rfl, fun _ _ h => h⟩

variable {l : Pipeline}

theorem build_eq (l : Pipeline) (p : Plan) (u : CUnit) :
    l.build p u = ((l.store.request u l.toolchain).1.bind (Program.make l.registry p u),
      { l with store := (l.store.request u l.toolchain).2 }) := by
  unfold build
  rcases l.store.request u l.toolchain with ⟨e | m, store⟩ <;> rfl

theorem grows_build (l : Pipeline) (p : Plan) (u : CUnit) : l.Grows (l.build p u).2 := by
  rw [build_eq]
  exact ⟨rfl, rfl, rfl, fun _ _ => Store.lookup_request⟩

theorem grows_compile (l : Pipeline) (g : Graph) : l.Grows (l.compile g).2 := by
  unfold compile
  split
  · exact .refl l
  · dsimp only
    split
    · exact .refl l
    · exact l.grows_build _ _

end Pipeline

namespace Session

/-- Every stage that is kept comes from the one before it, and the first one from the graph as it is. -/
structure UpToDate (s : Session) : Prop where
  verified : ∀ p, s.verified = some p → s.pipeline.verify s.graph = .ok p
  optimized : ∀ r, s.optimized = some r → ∃ p, s.verified = some p ∧ r = s.pipeline.optimize p
  unit : ∀ u, s.unit = some u → ∃ r, s.optimized = some r ∧ s.pipeline.generate r.1 = .ok u
  /-- The module of the program is still at hand, so building again would give the same program. -/
  program : ∀ P, s.program = some P → ∃ r u m, s.optimized = some r ∧ s.unit = some u ∧
    s.pipeline.store.modules.lookup (Store.key u s.pipeline.toolchain) = some m ∧
    Program.make s.pipeline.registry r.1 u m = .ok P

theorem upToDate_ofGraph (l : Pipeline) (g : Graph) : (ofGraph l g).UpToDate := ⟨nofun, nofun, nofun, nofun⟩

namespace UpToDate

variable {s : Session} {p : Plan} {r : Plan × Report} {u : CUnit} (h : s.UpToDate)

include h

/-- More builds make nothing stale. -/
theorem grow {l : Pipeline} (hl : s.pipeline.Grows l) : { s with pipeline := l }.UpToDate where
  verified p hp := by
    rw [Pipeline.verify, hl.registry]
    exact h.verified p hp
  optimized r hr := by
    obtain ⟨p, hp, hopt⟩ := h.optimized r hr
    refine ⟨p, hp, hopt.trans ?_⟩
    rw [Pipeline.optimize, Pipeline.optimize, hl.optimizer]
  unit u hu := by
    obtain ⟨r, hr, hgen⟩ := h.unit u hu
    refine ⟨r, hr, ?_⟩
    rw [Pipeline.generate, hl.registry]
    exact hgen
  program P hP := by
    obtain ⟨r, u, m, hr, hu, hm, hmake⟩ := h.program P hP
    refine ⟨r, u, m, hr, hu, ?_, ?_⟩
    · rw [hl.toolchain]
      exact hl.modules _ _ hm
    · rw [hl.registry]
      exact hmake

/-! ### What the single stages give -/

theorem verify_of_ok (hp : s.pipeline.verify s.graph = .ok p) : s.verify = (.ok p, { s with verified := some p }) := by
  unfold verify
  split
  · rename_i q hq
    have hqp : q = p := Except.ok.inj ((h.verified q hq).symm.trans hp)
    rw [← hqp, ← hq]
  · rw [hp]

theorem verify_of_error {e : Error} (he : s.pipeline.verify s.graph = .error e) : s.verify = (.error e, s) := by
  unfold verify
  split
  · rename_i q hq
    rw [h.verified q hq] at he
    contradiction
  · rw [he]

theorem optimize_of_verified (hp : s.verified = some p) :
    s.optimize = (.ok (s.pipeline.optimize p), { s with optimized := some (s.pipeline.optimize p) }) := by
  unfold optimize
  split
  · rename_i hnone
    rw [hp] at hnone
    contradiction
  · rename_i q r hq hr
    rw [hp] at hq
    cases hq
    obtain ⟨q, hq, rfl⟩ := h.optimized r hr
    rw [hp] at hq
    cases hq
    rw [← hr]
  · rename_i q hq _
    rw [hp] at hq
    cases hq
    rfl

theorem generate_of_ok (hr : s.optimized = some r) (hu : s.pipeline.generate r.1 = .ok u) :
    s.generate r.1 = (.ok u, { s with unit := some u }) := by
  unfold generate
  split
  · rename_i v hv
    obtain ⟨r', hr', hgen⟩ := h.unit v hv
    rw [hr] at hr'
    cases hr'
    have hvu : v = u := Except.ok.inj (hgen.symm.trans hu)
    rw [← hvu, ← hv]
  · rw [hu]

theorem generate_of_error (hr : s.optimized = some r) {e : Error} (he : s.pipeline.generate r.1 = .error e) :
    s.generate r.1 = (.error e, s) := by
  unfold generate
  split
  · rename_i v hv
    obtain ⟨r', hr', hgen⟩ := h.unit v hv
    rw [hr] at hr'
    cases hr'
    rw [hgen] at he
    contradiction
  · rw [he]

/-! ### Stages that are added -/

theorem addVerified (hp : s.pipeline.verify s.graph = .ok p) : { s with verified := some p }.UpToDate where
  verified := by
    rintro _ ⟨⟩
    exact hp
  optimized r hr := by
    obtain ⟨q, hq, hopt⟩ := h.optimized r hr
    have hqp : q = p := Except.ok.inj ((h.verified q hq).symm.trans hp)
    exact ⟨p, rfl, hqp ▸ hopt⟩
  unit := h.unit
  program := h.program

theorem addOptimized (hp : s.verified = some p) : { s with optimized := some (s.pipeline.optimize p) }.UpToDate where
  verified := h.verified
  optimized := by
    rintro _ ⟨⟩
    exact ⟨p, hp, rfl⟩
  unit u hu := by
    obtain ⟨r, hr, hgen⟩ := h.unit u hu
    obtain ⟨q, hq, rfl⟩ := h.optimized r hr
    rw [hp] at hq
    cases hq
    exact ⟨_, rfl, hgen⟩
  program P hP := by
    obtain ⟨r, u, m, hr, hu, hm, hmake⟩ := h.program P hP
    obtain ⟨q, hq, rfl⟩ := h.optimized r hr
    rw [hp] at hq
    cases hq
    exact ⟨_, u, m, rfl, hu, hm, hmake⟩

theorem addUnit (hr : s.optimized = some r) (hu : s.pipeline.generate r.1 = .ok u) :
    { s with unit := some u }.UpToDate where
  verified := h.verified
  optimized := h.optimized
  unit := by
    rintro _ ⟨⟩
    exact ⟨r, hr, hu⟩
  program P hP := by
    obtain ⟨r', v, m, hr', hv, hm, hmake⟩ := h.program P hP
    obtain ⟨r'', hr'', hgen⟩ := h.unit v hv
    rw [hr] at hr' hr''
    cases hr'
    cases hr''
    have hvu : v = u := Except.ok.inj (hgen.symm.trans hu)
    exact ⟨r, u, m, hr, rfl, hvu ▸ hm, hvu ▸ hmake⟩

theorem build (hr : s.optimized = some r) (hu : s.unit = some u) : (s.build r.1 u).2.UpToDate := by
  have hgrown := h.grow (s.pipeline.grows_build r.1 u)
  unfold Session.build
  rw [Pipeline.build_eq] at hgrown ⊢
  cases hm : (s.pipeline.store.request u s.pipeline.toolchain).1 with
  | error e => exact hgrown
  | ok m =>
    cases hP : Program.make s.pipeline.registry r.1 u m with
    | error e =>
      simp only [Except.bind, hP]
      exact hgrown
    | ok P =>
      simp only [Except.bind, hP]
      -- the module was just requested, so it is at hand
      refine { hgrown with program := ?_ }
      rintro _ ⟨⟩
      exact ⟨r, u, m, hr, hu, Store.lookup_of_request hm, hP⟩

/-! ### The way to the program -/

/-- The session with all stages before the program. -/
theorem compileMissing_eq : s.compileMissing =
    match s.pipeline.verify s.graph with
    | .error e => (.error e, s)
    | .ok p =>
      let r := s.pipeline.optimize p
      match s.pipeline.generate r.1 with
      | .error e => (.error e, { s with verified := some p, optimized := some r })
      | .ok u => { s with verified := some p, optimized := some r, unit := some u }.build r.1 u := by
  unfold compileMissing
  cases hp : s.pipeline.verify s.graph with
  | error e => rw [h.verify_of_error hp]
  | ok p =>
    rw [h.verify_of_ok hp]
    have h₁ := h.addVerified hp
    have h₂ := h₁.addOptimized rfl
    simp only [h₁.optimize_of_verified rfl]
    cases hu : s.pipeline.generate (s.pipeline.optimize p).1 with
    | error e => simp only [h₂.generate_of_error rfl hu]
    | ok u => simp only [h₂.generate_of_ok rfl hu]

theorem compileMissing : s.compileMissing.2.UpToDate := by
  rw [h.compileMissing_eq]
  cases hp : s.pipeline.verify s.graph with
  | error e => exact h
  | ok p =>
    have h₂ := (h.addVerified hp).addOptimized rfl
    dsimp only
    cases hu : s.pipeline.generate (s.pipeline.optimize p).1 with
    | error e => exact h₂
    | ok u => exact (h₂.addUnit rfl hu).build rfl rfl

theorem compile : s.compile.2.UpToDate := by
  unfold Session.compile
  split
  · exact h
  · exact h.compileMissing

/-- Compiling gives what the pipeline makes of the graph as it is. -/
theorem compile_eq : s.compile.1 = (s.pipeline.compile s.graph).1.map (·.program) := by
  unfold Session.compile Pipeline.compile
  split
  · rename_i P hP
    obtain ⟨r, u, m, hr, hu, hm, hmake⟩ := h.program P hP
    obtain ⟨r', hr', hgen⟩ := h.unit u hu
    obtain ⟨p, hp, rfl⟩ := h.optimized r hr
    rw [hr] at hr'
    cases hr'
    have hrequest : s.pipeline.store.request u s.pipeline.toolchain = (.ok m, s.pipeline.store) := by
      unfold Store.request
      simp only [hm]
    simp only [h.verified p hp, hgen, Pipeline.build_eq, hrequest, Except.bind, hmake, Except.map]
  · rw [h.compileMissing_eq]
    cases hp : s.pipeline.verify s.graph with
    | error e => rfl
    | ok p =>
      dsimp only
      cases hu : s.pipeline.generate (s.pipeline.optimize p).1 with
      | error e => rfl
      | ok u =>
        unfold Session.build
        dsimp only
        rcases s.pipeline.build (s.pipeline.optimize p).1 u with ⟨e | P, l⟩ <;> rfl

theorem verify : s.verify.2.UpToDate := by
  cases hp : s.pipeline.verify s.graph with
  | error e => rwa [h.verify_of_error hp]
  | ok p =>
    rw [h.verify_of_ok hp]
    exact h.addVerified hp

theorem optimize : s.optimize.2.UpToDate := by
  cases hp : s.verified with
  | none => simpa only [Session.optimize, hp] using h
  | some p =>
    rw [h.optimize_of_verified hp]
    exact h.addOptimized hp

theorem emit : s.emit.2.UpToDate := by
  unfold Session.emit
  have hverified := h.verify
  split
  · rename_i heq
    rwa [heq] at hverified
  · rename_i heq
    rw [heq] at hverified
    exact hverified.optimize

omit h in
/-- Two sessions for one graph that share a pipeline run alike, whatever stages they keep. -/
theorem process_eq {t : Session} (hs : s.UpToDate) (ht : t.UpToDate) (hgraph : t.graph = s.graph)
    (hpipeline : t.pipeline = s.pipeline) (b : Bindings) :
    (s.process b).1 = (t.process b).1 ∧ (s.process b).2.1 = (t.process b).2.1 := by
  have hcompile : s.compile.1 = t.compile.1 := by rw [hs.compile_eq, ht.compile_eq, hgraph, hpipeline]
  unfold Session.process
  rcases hsc : s.compile with ⟨e | P, s'⟩ <;> rcases htc : t.compile with ⟨e' | P', t'⟩ <;> rw [hsc, htc] at hcompile
  · cases hcompile
    exact ⟨rfl, rfl⟩
  · contradiction
  · contradiction
  · cases hcompile
    exact ⟨rfl, rfl⟩

end UpToDate

/-! ### Runs of operations -/

theorem snd_process (s : Session) (b : Bindings) : (s.process b).2.2 = s.compile.2 := by
  unfold process
  rcases s.compile with ⟨e | P, s'⟩ <;> rfl

theorem graph_verify (s : Session) : s.verify.2.graph = s.graph := by
  unfold verify
  split
  · rfl
  · split <;> rfl

theorem graph_optimize (s : Session) : s.optimize.2.graph = s.graph := by
  unfold optimize
  split <;> rfl

theorem graph_build (s : Session) (p : Plan) (u : CUnit) : (s.build p u).2.graph = s.graph := by
  unfold build
  split <;> rfl

theorem UpToDate.graph_compile {s : Session} (h : s.UpToDate) : s.compile.2.graph = s.graph := by
  unfold Session.compile
  split
  · rfl
  · rw [h.compileMissing_eq]
    cases s.pipeline.verify s.graph with
    | error e => rfl
    | ok p =>
      dsimp only
      split
      · rfl
      · exact graph_build _ _ _

theorem graph_emit (s : Session) : s.emit.2.graph = s.graph := by
  unfold emit
  have hverify := s.graph_verify
  split
  · rename_i heq
    rwa [heq] at hverify
  · rename_i heq
    rw [heq] at hverify
    exact (graph_optimize _).trans hverify

end Session

/-- What can be done with a session. -/
inductive Operation where
  | edit (change : Edit)
  | verify
  | optimize
  | compile
  | emit
  | allocate
  | check (b : Bindings)
  | process (b : Bindings)
  /-- Another graph is compiled by the same pipeline. -/
  | elsewhere (g : Graph)

/-- The construction operation, if it is one. -/
def Operation.edit? : Operation → Option Edit
  | .edit change => some change
  | _ => none

namespace Session

/-- The session after an operation, whether the operation succeeds or fails. -/
def perform (s : Session) : Operation → Session
  | .edit change => (s.edit fun g => (g.apply change).map fun next => ((), next)).2
  | .verify => s.verify.2
  | .optimize => s.optimize.2
  | .compile => s.compile.2
  | .emit => s.emit.2
  | .allocate => s.allocate.2
  | .check b => (s.check b).2
  | .process b => (s.process b).2.2
  | .elsewhere g => { s with pipeline := (s.pipeline.compile g).2 }

def performAll (s : Session) (operations : List Operation) : Session := operations.foldl perform s

/-- An edit drops every stage, so nothing is left to be stale. -/
theorem perform_edit (s : Session) (change : Edit) :
    s.perform (.edit change) = ofGraph s.pipeline (s.graph.edit [change]) := by
  unfold perform Session.edit
  simp only [Graph.edit, List.foldl_cons, List.foldl_nil]
  cases s.graph.apply change <;> rfl

theorem UpToDate.perform {s : Session} (h : s.UpToDate) (operation : Operation) : (s.perform operation).UpToDate := by
  cases operation with
  | edit change =>
    rw [perform_edit]
    exact upToDate_ofGraph _ _
  | verify => exact h.verify
  | optimize => exact h.optimize
  | emit => exact h.emit
  | compile => exact h.compile
  | allocate => exact h.compile
  | check b => exact h.compile
  | process b =>
    show (s.process b).2.2.UpToDate
    rw [snd_process]
    exact h.compile
  | elsewhere g => exact h.grow (s.pipeline.grows_compile g)

theorem UpToDate.graph_perform {s : Session} (h : s.UpToDate) (operation : Operation) :
    (s.perform operation).graph = s.graph.edit operation.edit?.toList := by
  cases operation with
  | edit change =>
    rw [perform_edit]
    rfl
  | verify => exact s.graph_verify
  | optimize => exact s.graph_optimize
  | emit => exact s.graph_emit
  | compile => exact h.graph_compile
  | allocate => exact h.graph_compile
  | check b => exact h.graph_compile
  | process b =>
    show (s.process b).2.2.graph = s.graph
    rw [snd_process, h.graph_compile]
  | elsewhere g => rfl

/-- Every run of operations keeps a session up to date, with the graph that its edits build. -/
theorem UpToDate.performAll {s : Session} (h : s.UpToDate) (operations : List Operation) :
    (s.performAll operations).UpToDate ∧
      (s.performAll operations).graph = s.graph.edit (operations.filterMap Operation.edit?) := by
  induction operations generalizing s with
  | nil => exact ⟨h, rfl⟩
  | cons operation rest ih =>
    obtain ⟨hrest, hgraph⟩ := ih (h.perform operation)
    refine ⟨hrest, ?_⟩
    calc ((s.perform operation).performAll rest).graph
        = (s.perform operation).graph.edit (rest.filterMap Operation.edit?) := hgraph
      _ = (s.graph.edit operation.edit?.toList).edit (rest.filterMap Operation.edit?) := by rw [h.graph_perform]
      _ = s.graph.edit ((operation :: rest).filterMap Operation.edit?) := by
        rw [List.filterMap_cons]
        cases operation.edit? <;> rfl

/-- Sessions are never stale. After any operations on a new session, each of which may have failed, the graph is the one
that the edits among them build, a stage is kept only together with all stages before it, and every stage that is kept is
what the pipeline computes from the graph as it is now. Hence a run has the same result, and leaves the same bindings, as
a run of a new session for this graph. -/
theorem stages_follow_graph (l : Pipeline) (operations : List Operation) :
    let s := (ofGraph l Graph.empty).performAll operations
    s.graph = Graph.empty.edit (operations.filterMap Operation.edit?) ∧
      (s.program.isSome = true → s.unit.isSome = true) ∧ (s.unit.isSome = true → s.optimized.isSome = true) ∧
      (s.optimized.isSome = true → s.verified.isSome = true) ∧
      (∀ p, s.verified = some p → s.pipeline.verify s.graph = .ok p) ∧
      (∀ r, s.optimized = some r → (s.pipeline.verify s.graph).map s.pipeline.optimize = .ok r) ∧
      (∀ u, s.unit = some u → s.pipeline.emit s.graph = .ok u) ∧
      (∀ P, s.program = some P → (s.pipeline.compile s.graph).1.map (·.program) = .ok P) ∧
      ∀ b, (s.process b).1 = ((ofGraph s.pipeline s.graph).process b).1 ∧
        (s.process b).2.1 = ((ofGraph s.pipeline s.graph).process b).2.1 := by
  obtain ⟨h, hgraph⟩ := (upToDate_ofGraph l Graph.empty).performAll operations
  refine ⟨hgraph, ?_⟩
  generalize (ofGraph l Graph.empty).performAll operations = s at h
  simp only [Option.isSome_iff_exists]
  refine ⟨?_, ?_, ?_, h.verified, ?_, ?_, ?_, fun b => h.process_eq (upToDate_ofGraph _ _) rfl rfl b⟩
  · rintro ⟨P, hP⟩
    obtain ⟨_, u, _, _, hu, _⟩ := h.program P hP
    exact ⟨u, hu⟩
  · rintro ⟨u, hu⟩
    obtain ⟨r, hr, _⟩ := h.unit u hu
    exact ⟨r, hr⟩
  · rintro ⟨r, hr⟩
    obtain ⟨p, hp, _⟩ := h.optimized r hr
    exact ⟨p, hp⟩
  · intro r hr
    obtain ⟨p, hp, rfl⟩ := h.optimized r hr
    rw [h.verified p hp]
    rfl
  · intro u hu
    obtain ⟨r, hr, hgen⟩ := h.unit u hu
    obtain ⟨p, hp, rfl⟩ := h.optimized r hr
    exact bind_eq_ok.mpr ⟨p, h.verified p hp, hgen⟩
  · intro P hP
    rw [← h.compile_eq, Session.compile, hP]

end Session

end VisionGraph
