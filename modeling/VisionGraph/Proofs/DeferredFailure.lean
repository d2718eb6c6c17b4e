import VisionGraph.Proofs.DelayHistory
import VisionGraph.Proofs.Flow
import VisionGraph.Proofs.JoinedFailure
import VisionGraph.Proofs.OptimizedRun

/-! Fusion and failing runs. A program whose stages were joined fails when the program of the plan as it is does. It may get
some stages further before, so what these write may differ after both runs, and nothing else does. -/
namespace VisionGraph

namespace Plan

variable {p : Plan} {s : Storage} {b : Bindings} {m n : Memory}

/-! ### Programs -/

theorem runFrom_failed {before rest : List Stage} {failing : Stage} {mid : Memory} (position : Nat)
    (hmid : before.foldlM (fun m stage => stage.run .standard p s m) m = .ok mid)
    (hfail : failing.run .standard p s mid = .error (.failed n)) :
    p.runFrom .standard s position (before ++ failing :: rest) m = .failed (position + before.length) n := by
  induction before generalizing position m with
  | nil =>
    cases hmid
    simp only [List.nil_append, runFrom, hfail, List.length_nil, Nat.add_zero]
  | cons stage before ih =>
    obtain ⟨next, hnext, hrest⟩ := foldlM_cons_eq_ok.mp hmid
    rw [List.cons_append, runFrom, hnext, List.length_cons, Nat.add_comm before.length 1, ← Nat.add_assoc]
    exact ih (position + 1) hrest

namespace LoadedAs

variable {P : Program}

theorem ready (h : p.LoadedAs P) (hp : p.Sound) (hu : p.Uniform) (hb : b.Sound) (hcheck : P.check b = .ok ()) :
    p.Ready b := ⟨hp, hu, h.hasExtrema hp, h.hosts hb hcheck⟩

/-- A run that stops reports the position and the nodes of its stage. -/
theorem process_of_stops (h : p.LoadedAs P) (R : p.Ready b) (hcheck : P.check b = .ok ()) {before rest : List Stage}
    {failing : Stage} (hstops : p.Stops P.storage b before failing rest n) :
    P.process b = (.error (.nodeFailure before.length failing.origins), n.host) := by
  obtain ⟨hreg, hplan, hentry, hs, _⟩ := h.fields
  obtain ⟨hstages, mid, hmid, hfail⟩ := hstops
  have hrun : P.plan.run P.registry P.storage b = .failed before.length n := by
    rw [hreg, hplan, Plan.run, R.start hs]
    dsimp only
    rw [hstages, runFrom_failed 0 hmid hfail, Nat.zero_add]
  refine Program.process_of_failed hentry hcheck hrun (h.decode_failed ?_)
  rw [hstages, List.getElem?_append_right (Nat.le_refl _), Nat.sub_self]
  rfl

/-- A run of accepted objects succeeds or stops at a stage. -/
theorem process_or_stops (h : p.LoadedAs P) (hp : p.Sound) (hu : p.Uniform) (hb : b.Sound) (hcheck : P.check b = .ok ()) :
    (∃ b', P.process b = (.ok (), b')) ∨ ∃ before failing rest n, p.Stops P.storage b before failing rest n := by
  obtain ⟨hreg, hplan, hentry, _, _⟩ := h.fields
  rcases h.run_cases hp hu hb hcheck with ⟨m, hrun, _⟩ | ⟨i, stage, mid, n, hi, hmid, hfail, _, _⟩
  · left
    rw [← hplan, ← hreg] at hrun
    exact ⟨_, (Program.process_eq_ok hentry).mpr ⟨hcheck, m, hrun, rfl⟩⟩
  · right
    obtain ⟨before, rest, hstages, rfl⟩ := exists_append_of_getElem? hi
    rw [h.reached_iff hp hb hcheck, hstages, List.take_left] at hmid
    exact ⟨before, stage, rest, n, hstages, mid, hmid, hfail⟩

end LoadedAs

end Plan

/-! ### Graphs -/

namespace Graph

variable {g : Graph} {p : Plan}

/-- Stages write neither an object nor an image of it. -/
def Spared (g : Graph) (stages : List Stage) (o : ObjectId) : Prop :=
  ∀ stage ∈ stages, ∀ w ∈ stage.writes, w ≠ o ∧ ∀ x age, g.object? w = some x → x.slot ≠ some ⟨o, age⟩

/-- Every stage of the plan of a graph is one node, and no node is there twice. -/
theorem nodes_of_verify (hg : g.Built) (h : g.verify .standard = .ok p) :
    (∀ stage ∈ p.stages, ∃ step, stage.steps = [step]) ∧ (p.stages.map (·.origins)).Nodup := by
  obtain ⟨l, known, hl, rfl⟩ := exists_resolves h
  constructor
  · intro stage hstage
    obtain ⟨c, _, rfl⟩ := List.mem_map.mp hstage
    exact ⟨step c, rfl⟩
  · have hids : (l.map (·.node.id)).Nodup := by
      have hnodes := (hl.nodes.map Node.id).nodup_iff.mpr hg.wellFormed.nodes
      rwa [List.map_map] at hnodes
    have horigins : (g.planOf l known).stages.map (·.origins) = (l.map (·.node.id)).map ([·]) := by
      simp only [planOf, List.map_map]
      rfl
    rw [horigins]
    exact hids.map fun x y hxy => List.singleton_inj.mp hxy

theorem leaves_host (hg : g.Built) (h : g.verify .standard = .ok p) {stages : List Stage} {o : ObjectId}
    (ho : g.Spared stages o) : p.Leaves stages (.host o) := by
  intro stage hstage w hw c hc
  obtain ⟨hne, hslots⟩ := ho stage hstage w hw
  cases c with
  | host w' =>
    have hsame : w' = w := Plan.eq_of_home_host hc
    exact hsame ▸ hne
  | slot d age =>
    obtain ⟨slot, hslot, rfl, rfl⟩ := Plan.exists_of_home_slot hc
    obtain ⟨r, hr, hslot⟩ := Option.bind_eq_some_iff.mp hslot
    intro he
    exact hslots r.object slot.age (object?_of_plan hg h hr) (he ▸ hslot)
  | scratch w' => trivial

theorem leaves_image (hg : g.Built) (h : g.verify .standard = .ok p) {stages : List Stage}
    (hstages : ∀ stage ∈ stages, stage ∈ p.stages) {o : ObjectId} {x : DataObject} (hx : g.object? o = some x)
    {slot : DelaySlot} (hslot : x.slot = some slot) (ho : ∀ stage ∈ stages, o ∉ stage.writes) :
    p.Leaves stages (.slot slot.delay slot.age.toNat) := by
  intro stage hstage w hw c hc
  have hsound := sound_of_verify hg h
  have hobject := hg.wellFormed.objects o.index x hx
  have hreal := isVirtual_of_slot hobject.virtual hslot
  have hext : x.isExternal = true := by simp [DataObject.isExternal, hreal]
  have hkind : x.kind ≠ .delay := by
    rw [(hobject.slot slot hslot).1]
    intro hdelay
    cases hdelay
  rcases object?_of_verify hg h hx with ⟨info, hr⟩ | ⟨_, hvirtual⟩
  · obtain ⟨r, hrw, _, _, hwkind⟩ := hsound.exists_object (hstages stage hstage) (Stage.referenced_of_writes hw)
    have hne : w ≠ o := by
      intro he
      exact ho stage hstage (he ▸ hw)
    exact hsound.apart_home hrw hr hwkind hkind hne hc (Plan.home_of_slot hr (not_constant_of_external hg hx hext) hslot)
  · rw [hreal] at hvirtual
    contradiction

/-- A stage that ends with a node, where every stage is one node, is the stage of the node. -/
theorem origins_of_ending (hsingle : ∀ stage ∈ p.stages, ∃ step, stage.steps = [step]) {stage other : Stage}
    (hstage : stage ∈ p.stages) (hending : stage.ending = other.ending) :
    ∃ node, stage.origins = [node] ∧ other.origins.getLast? = some node := by
  obtain ⟨step, hstep⟩ := hsingle stage hstage
  have hlast : stage.steps.getLast? = other.steps.getLast? := congrArg Prod.fst hending
  refine ⟨step.origin, by rw [Stage.origins, hstep]; rfl, ?_⟩
  rw [Stage.origins, List.getLast?_map, ← hlast, hstep]
  rfl

/-- If the node at which a run stops is the last of a stage that is not done, then nothing is deferred. -/
theorem passed_eq_nil (hsingle : ∀ stage ∈ p.stages, ∃ step, stage.steps = [step])
    (hnodup : (p.stages.map (·.origins)).Nodup) {q : Plan} {before passed later rest' : List Stage}
    {failing failing' other : Stage} {n n' : Memory} (hstages : p.stages = before ++ failing :: (passed ++ later))
    (hdefers : q.Defers failing passed later n failing' rest' n') (hother : other ∈ failing' :: rest') {node : NodeId}
    (hnode : failing.origins = [node]) (hlast : other.origins.getLast? = some node) : passed = [] := by
  -- no stage after the one that fails has its node
  have hunique : ∀ stage ∈ passed ++ later, stage.ending ≠ other.ending := by
    intro stage hstage hending
    have hmem : stage ∈ p.stages := hstages ▸ List.mem_append_right before (List.mem_cons_of_mem failing hstage)
    obtain ⟨node', hnode', hlast'⟩ := origins_of_ending hsingle hmem hending
    have hsame : node' = node := Option.some.inj (hlast'.symm.trans hlast)
    rw [hstages, List.map_append, List.map_cons] at hnodup
    refine (List.nodup_cons.mp (List.nodup_append.mp hnodup).2.1).1 (List.mem_map.mpr ⟨stage, hstage, ?_⟩)
    rw [hnode, hnode', hsame]
  rcases List.mem_cons.mp hother with rfl | hother
  · rcases List.eq_nil_or_concat passed with hnil | ⟨near, last, rfl⟩
    · exact hnil
    · have hending : last.ending = other.ending := by simpa [List.getLast?_cons] using hdefers.ending
      exact absurd hending (hunique last (by simp))
  · obtain ⟨stage, hstage, hending⟩ :=
      List.mem_map.mp (hdefers.sublist.mem (List.mem_map.mpr ⟨other, hother, rfl⟩))
    exact absurd hending (hunique stage (List.mem_append_right passed hstage))

/-- A conversion, the sum of what it converts, and between them a node and a lookup that neither of both needs. -/
def deferring : Graph := Graph.empty.edit [.image 2 1 .u8, .scalar .s32, .constant (.enum 40960),
  .virtualImage ⟨none, none, none⟩, .image 2 1 .u8, .image 2 1 .s16, .array .u8 256, .image 2 1 .u8,
  .node "vx.convert_depth" [some ⟨0⟩, some ⟨3⟩, some ⟨2⟩, some ⟨1⟩], .node "vx.not" [some ⟨0⟩, some ⟨4⟩],
  .node "vx.table_lookup" [some ⟨0⟩, some ⟨6⟩, some ⟨7⟩],
  .node "vx.add" [some ⟨3⟩, some ⟨3⟩, some ⟨2⟩, some ⟨5⟩]]

/-- A shift that is out of range; the table is empty. -/
def farShift (fresh : Bindings) : Bindings := fresh.insert ⟨1⟩ (.scalar (.s32 9))

/-- Where the programs of a graph without and with joined stages fail, and whether they leave the same of an object. -/
def failures (g : Graph) (change : Bindings → Bindings) (o : ObjectId) :
    Option ((Nat × List NodeId) × (Nat × List NodeId) × Bool) := do
  let P ← g.optimized? .disabled
  let Q ← g.optimized? ⟨false, true, 8⟩
  let fresh ← P.allocate.toOption
  match P.process (change fresh), Q.process (change fresh) with
  | (.error (.nodeFailure i nodes), next), (.error (.nodeFailure j others), next') =>
    some ((i, nodes), (j, others), decide (next.get? o = next'.get? o))
  | _, _ => none

theorem exists_of_failures (hg : g.Built) {change : Bindings → Bindings}
    (hchange : ∀ fresh : Bindings, fresh.Sound → (change fresh).Sound) {o : ObjectId} {i j : Nat}
    {nodes others : List NodeId} {same : Bool} (h : g.failures change o = some ((i, nodes), (j, others), same)) :
    ∃ p P Q b next next', g.verify .standard = .ok p ∧ (p.optimize .disabled).1.LoadedAs P ∧
      (p.optimize ⟨false, true, 8⟩).1.LoadedAs Q ∧ b.Sound ∧ P.check b = .ok () ∧
      P.process b = (.error (.nodeFailure i nodes), next) ∧ Q.process b = (.error (.nodeFailure j others), next') ∧
      decide (next.get? o = next'.get? o) = same := by
  unfold failures at h
  obtain ⟨P, hprogram, h⟩ := Option.bind_eq_some_iff.mp h
  obtain ⟨Q, hprogram', h⟩ := Option.bind_eq_some_iff.mp h
  obtain ⟨fresh, hfresh, h⟩ := Option.bind_eq_some_iff.mp h
  obtain ⟨p, hp, hP⟩ := loadedAs_of_optimized? hprogram
  obtain ⟨p', hp', hQ⟩ := loadedAs_of_optimized? hprogram'
  rw [hp] at hp'
  cases hp'
  have hallocate : P.allocate = .ok fresh := toOption_eq_some.mp hfresh
  have hb := hchange fresh (hP.allocate_fits (sound_of_verify hg hp) hallocate).1
  split at h
  · rename_i hrun hrun'
    cases h
    refine ⟨p, P, Q, change fresh, _, _, hp, hP, hQ, hb, ?_, hrun, hrun', rfl⟩
    -- objects that are not accepted are reported as such
    rcases P.check_cases (change fresh) with ⟨hcheck, _⟩ | ⟨_, _, _, _, _, _, _, _, hcheck⟩
    · exact hcheck
    · unfold Program.process at hrun
      rw [hcheck] at hrun
      cases hrun
  · contradiction

theorem failures_deferring : deferring.failures farShift ⟨4⟩ = some ((0, [⟨0⟩]), (1, [⟨2⟩]), false) := by decide +kernel

theorem sound_farShift (fresh : Bindings) (h : fresh.Sound) : (farShift fresh).Sound :=
  h.insert (x := .scalar _) trivial ⟨1⟩

end Graph

end VisionGraph
