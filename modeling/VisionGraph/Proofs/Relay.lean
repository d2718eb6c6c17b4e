import VisionGraph.Proofs.Acceptance

/-! Two kernels in a row. Kernels that make one byte image of another can follow each other, with an image of the
graph's own between them. Such a graph is accepted and loaded for images of any extent and however its plan is
optimised; it never fails, and its output is what the second kernel makes of what the first one makes of the input. -/
namespace VisionGraph

open Kernel (byteRule)

/-- A step of a loaded plan whose kernel makes one byte image of another. -/
structure Step.Links (p : Plan) (s : Storage) (k : Kernel) (step : Step) (input output : ObjectId) : Prop where
  sound : p.Sound
  storage : Storage.ofPlan p = .ok s
  extrema : p.HasExtrema
  mem : Stage.single step k.isPixelwise ∈ p.stages
  valid : step.Valid p k
  specs : k.signature.params = [.input "in" .image, .output "out" .image]
  rule : k.rule = byteRule 1
  params : step.params = [some input, some output]
  apart : input ≠ output

namespace Step.Links

variable {p : Plan} {s : Storage} {m : Memory} {k : Kernel} {step : Step} {input output : ObjectId}

theorem directions (h : step.Links p s k input output) : step.directions = [.input, .output] := by
  rw [h.valid.directions, Signature.directions, h.specs]
  rfl

theorem mem_writes (h : step.Links p s k input output) {o : ObjectId} :
    o ∈ (Stage.single step k.isPixelwise).writes ↔ o = output := by
  simp [Stage.mem_writes_single, Step.writes, Step.boundBy, h.params, h.directions, Direction.writes]

theorem referenced (h : step.Links p s k input output) {o : ObjectId} (ho : o = input ∨ o = output) :
    o ∈ (Stage.single step k.isPixelwise).referenced := by
  apply Stage.mem_referenced_of_param (List.mem_singleton_self step)
  rcases ho with rfl | rfl <;> simp [h.params]

/-- Both objects hold byte images of one extent. -/
theorem images (h : step.Links p s k input output) (hm : p.Conforms s m) :
    ∃ src dst, p.held m input = some (.image src) ∧ p.held m output = some (.image dst) ∧ src.format = .u8 ∧
      dst.info = src.info := by
  obtain ⟨_, hrule, hset⟩ := h.valid.accepted
  rw [h.rule] at hrule
  obtain ⟨shape, hbytes, hin, hout⟩ := Kernel.byteRule_known hrule hset
  have hheld (o : ObjectId) (slot : Nat) (hparam : step.params[slot]? = some (some o))
      (hknown : Rule.slotMeta (p.known step) slot = some (.image (Rule.shapeMeta shape))) :
      ∃ b, p.held m o = some (.image b) ∧ b.info = Rule.shapeMeta shape := by
    obtain ⟨q, hq, hinfo⟩ := Plan.slotMeta_known.mp hknown
    rw [hparam, Option.some.injEq, Option.some.injEq] at hq
    subst hq
    have href : o ∈ (Stage.single step k.isPixelwise).referenced :=
      Stage.mem_referenced_of_param (List.mem_singleton_self step) (List.mem_of_getElem? hparam)
    exact hm.held_image h.sound h.storage h.mem href List.not_mem_nil hinfo
  obtain ⟨src, hsrc, hsrcInfo⟩ := hheld input 0 (by rw [h.params]; rfl) hin
  obtain ⟨dst, hdst, hdstInfo⟩ := hheld output 1 (by rw [h.params]; rfl) hout
  refine ⟨src, dst, hsrc, hdst, ?_, hdstInfo.trans hsrcInfo.symm⟩
  rw [← hbytes]
  exact (ImageBuffer.fields_of_info hsrcInfo).2.2

end Step.Links

/-- A kernel that makes one byte image of another. It is none of those that can fail or that look for extrema. -/
structure Kernel.Draws (k : Kernel) (border : Border) (change : ImageBuffer → ImageBuffer) : Prop where
  found : Registry.standard.find? k.name = some k
  specs : k.signature.params = [.input "in" .image, .output "out" .image]
  rule : k.rule = byteRule 1
  steady : k.name ∉ ["vx.convert_depth", "vx.table_lookup", "vx.minmaxloc"]
  stage : ∀ {p : Plan} {s : Storage} {m n : Memory} {step : Step} {input output : ObjectId} {src : ImageBuffer},
    step.Links p s k input output → step.border = border → p.Conforms s m →
    (Stage.single step k.isPixelwise).run .standard p s m = .ok n → p.held m input = some (.image src) →
    p.held n output = some (.image (change src))

namespace Kernel.Draws

variable {k : Kernel} {border : Border} {change : ImageBuffer → ImageBuffer}

theorem directions (h : k.Draws border change) : k.signature.directions = [.input, .output] := by
  rw [Signature.directions, h.specs]
  rfl

/-- When a run is over, the output holds what the input has been made into. -/
theorem held_output (h : k.Draws border change) {p : Plan} {s : Storage} {step : Step} {input output : ObjectId}
    {first mid next last : Memory} {src : ImageBuffer} (hlinks : step.Links p s k input output)
    (hborder : step.border = border) (hturn : p.Turn s (Stage.single step k.isPixelwise) first mid next last)
    (hsrc : p.held last input = some (.image src)) : p.held last output = some (.image (change src)) := by
  have hin := hlinks.referenced (.inl rfl)
  have hunwritten : input ∉ (Stage.single step k.isPixelwise).writes := fun hw => hlinks.apart (hlinks.mem_writes.mp hw)
  rw [hturn.after input hin, hturn.kept input hin hunwritten] at hsrc
  rw [hturn.after output (hlinks.referenced (.inr rfl))]
  exact h.stage hlinks hborder hturn.conforms hturn.run hsrc

end Kernel.Draws

/-! ### The graph -/

namespace Graph

/-- A node that makes one byte image of another settles its output with the shape of its input. -/
theorem infer_byteRule {g : Graph} {c : Checked} {known : Array Meta} {input output : ObjectId} {width height : UInt32}
    {m : ImageMeta} {object : DataObject} (hrule : c.kernel.rule = byteRule 1)
    (hdirections : c.directions = [.input, .output]) (hparams : c.node.params = [some input, some output])
    (hobject : g.object? output = some object)
    (hinput : known[input.index]? = some (.image (.known width height .u8)))
    (houtput : known[output.index]? = some (.image m)) (hm : m = ⟨none, none, none⟩ ∨ m = .known width height .u8) :
    g.infer known c = .ok (known.setIfInBounds output.index (.image (.known width height .u8))) := by
  have hview : c.view known = [some (.image (.known width height .u8)), some (.image m)] := by
    simp [Checked.view, hparams, hinput, houtput]
  have hextends : (Meta.image (.known width height .u8)).Extends (.image m) := by
    rcases hm with rfl | rfl
    · exact ⟨.none _, .none _, .none _⟩
    · exact .refl _
  refine infer_image 1 ⟨width, height, .u8⟩ ?_ (by rw [hdirections]; rfl) (by rw [hparams]; rfl) hobject houtput hextends
  rw [hrule, hview]
  rcases hm with rfl | rfl <;> rfl

/-- Two nodes in a row between images of the caller. -/
def relay (first second : Kernel) (border border' : Border) (width height : UInt32) : Graph :=
  Graph.empty.edit [.image width height .u8, .virtualImage ⟨none, none, none⟩, .image width height .u8,
    .node first.name [some ⟨0⟩, some ⟨1⟩], .border ⟨0⟩ border, .node second.name [some ⟨1⟩, some ⟨2⟩],
    .border ⟨1⟩ border']

section Relay

variable {first second : Kernel} {border border' : Border} {width height : UInt32}
  {change change' : ImageBuffer → ImageBuffer} {o : ObjectId} {k : Kernel} {edge : Border} {id : Nat}

theorem objects_relay : (relay first second border border' width height).objects =
    #[⟨⟨0⟩, .image (.known width height .u8), false, false, none⟩, ⟨⟨1⟩, .image ⟨none, none, none⟩, true, false, none⟩,
      ⟨⟨2⟩, .image (.known width height .u8), false, false, none⟩] := rfl

/-- Three images, of which the second one is the graph's own. -/
theorem exists_object_relay (ho : o.index < 3) : ∃ object,
    (relay first second border border' width height).object? o = some object ∧ object.kind = .image ∧
      object.isConstant = false ∧ (object.isVirtual = true → o = ⟨1⟩) := by
  have hindex : o.index = 0 ∨ o.index = 1 ∨ o.index = 2 := by omega
  unfold object?
  rw [objects_relay]
  rcases hindex with hzero | hone | htwo
  · rw [hzero]
    exact ⟨_, rfl, rfl, rfl, fun hvirtual => absurd hvirtual Bool.false_ne_true⟩
  · rw [hone]
    exact ⟨_, rfl, rfl, rfl, fun _ => IdMap.object_ext hone⟩
  · rw [htwo]
    exact ⟨_, rfl, rfl, rfl, fun hvirtual => absurd hvirtual Bool.false_ne_true⟩

/-- The node of a kernel between an image and the next one. -/
def link (k : Kernel) (border : Border) (id : Nat) : Checked :=
  ⟨⟨⟨id⟩, k.name, [some ⟨id⟩, some ⟨id + 1⟩], border⟩, k⟩

theorem mem_bound_link : o ∈ (link k edge id).node.bound ↔ o = ⟨id⟩ ∨ o = ⟨id + 1⟩ := by
  simp [link, Node.bound]

theorem mem_writes_link (h : k.Draws edge change) : o ∈ (link k edge id).access.writes ↔ o = ⟨id + 1⟩ := by
  have hdirections : (link k edge id).directions = [.input, .output] := h.directions
  unfold Checked.access
  rw [hdirections]
  simp [link, Direction.writes]

theorem lookUp_link (h : k.Draws edge change) (hid : id < 2) :
    (relay first second border border' width height).lookUp .standard (link k edge id).node = .ok (link k edge id) := by
  refine lookUp_eq_ok.mpr ⟨rfl, h.found, ?_, fun o ho => ?_⟩
  · show 2 = k.signature.params.length
    rw [h.specs]
    rfl
  · have hlt : o.index < 3 := by
      rcases mem_bound_link.mp ho with rfl | rfl
      · show id < 3
        omega
      · show id + 1 < 3
        omega
    obtain ⟨object, hobject, _⟩ := exists_object_relay hlt
    exact ⟨object, hobject⟩

/-- The objects of a node are images; the one between the nodes is written before it is read. -/
theorem fits_link (h : k.Draws edge change) (hid : id < 2) {written : ObjectId → Prop} (hwritten : id = 1 → written ⟨1⟩)
    {x : Param × Option ObjectId} (hx : x ∈ k.signature.params.zip (link k edge id).node.params) :
    (relay first second border border' width height).Fits written x.1 x.2 := by
  rw [h.specs] at hx
  simp only [link, List.zip_cons_cons, List.zip_nil_left, List.mem_cons, List.not_mem_nil, or_false] at hx
  rcases hx with rfl | rfl
  · obtain ⟨object, hobject, hkind, hconst, hvirtual⟩ := exists_object_relay (o := ⟨id⟩) (Nat.lt_succ_of_lt hid)
    refine ⟨object, hobject, hkind, fun _ => hconst, fun hd => Direction.noConfusion hd, fun _ hv _ => ?_⟩
    have hone := hvirtual hv
    rw [hone]
    exact hwritten (congrArg ObjectId.index hone)
  · obtain ⟨object, hobject, hkind, hconst, _⟩ := exists_object_relay (o := ⟨id + 1⟩) (Nat.succ_lt_succ hid)
    exact ⟨object, hobject, hkind, fun _ => hconst, fun hd => Direction.noConfusion hd,
      fun hd => Direction.noConfusion hd⟩

/-- All metadata resolves along the two nodes. -/
theorem resolves_relay (h : first.Draws border change) (h' : second.Draws border' change') :
    Resolves .standard (relay first second border border' width height) [link first border 0, link second border' 1]
      (Array.replicate 3 (.image (.known width height .u8))) where
  nodes := .refl _
  found c hc := by
    simp only [List.mem_cons, List.not_mem_nil, or_false] at hc
    rcases hc with rfl | rfl
    · exact lookUp_link h (by decide)
    · exact lookUp_link h' (by decide)
  after := by
    refine List.pairwise_pair.mpr fun o ho hbound => ?_
    rw [mem_writes_link h'] at ho
    subst ho
    rcases mem_bound_link.mp hbound with heq | heq <;> cases heq
  fits c hc x hx := by
    simp only [List.mem_cons, List.not_mem_nil, or_false] at hc
    rcases hc with rfl | rfl
    · exact fits_link h (by decide) (fun hone => absurd hone (by decide)) hx
    · exact fits_link h' (by decide) (fun _ => ⟨_, List.mem_cons_self, (mem_writes_link h).mpr rfl⟩) hx
  run := by
    have hinfos : (relay first second border border' width height).objects.map (·.info) =
        #[.image (.known width height .u8), .image ⟨none, none, none⟩, .image (.known width height .u8)] := by
      simp [objects_relay]
    rw [hinfos]
    refine foldlM_cons_eq_ok.mpr ⟨_, infer_byteRule h.rule h.directions rfl rfl rfl rfl (.inl rfl), ?_⟩
    exact foldlM_cons_eq_ok.mpr ⟨_, infer_byteRule h'.rule h'.directions rfl rfl rfl rfl (.inr rfl), rfl⟩
  resolved c hc := by
    simp only [List.mem_cons, List.not_mem_nil, or_false] at hc
    rcases hc with rfl | rfl <;> rfl

/-! ### Runs -/

/-- However its plan is optimised, a graph makes one image of another: it is accepted and can be loaded, and every run on
the image with an output of its shape succeeds. -/
def Makes (g : Graph) (src out : ImageBuffer) : Prop :=
  ∃ p, g.verify .standard = .ok p ∧ ∀ c : OptimizerConfig, (∃ P, (p.optimize c).1.LoadedAs P) ∧
    ∀ P, (p.optimize c).1.LoadedAs P → ∀ (b : Bindings) (dst : ImageBuffer), b.Sound → b.get? ⟨0⟩ = some (.image src) →
      b.get? ⟨2⟩ = some (.image dst) → dst.info = src.info → ∃ b', P.process b = (.ok (), b') ∧
        b'.get? ⟨0⟩ = some (.image src) ∧ b'.get? ⟨2⟩ = some (.image out)

/-- The plan of two nodes in a row: all three images are known, and there is one stage for each node. -/
structure Relays (first second : Kernel) (border border' : Border) (width height : UInt32) (p : Plan) : Prop where
  sound : p.Sound
  uniform : p.Uniform
  object : ∀ o, p.object? o = ((relay first second border border' width height).object? o).map
    (⟨·, .image (.known width height .u8)⟩)
  stages : ∀ stage, stage ∈ p.stages ↔ stage = .single (step (link first border 0)) first.isPixelwise ∨
    stage = .single (step (link second border' 1)) second.isPixelwise

theorem exists_relays (h : first.Draws border change) (h' : second.Draws border' change') (width height : UInt32) :
    ∃ p, (relay first second border border' width height).verify .standard = .ok p ∧
      Relays first second border border' width height p := by
  have hgraph : Resolves .standard (relay first second border border' width height) _ _ := resolves_relay h h'
  obtain ⟨l, hl, hperm, hp⟩ := verify_of_resolves hgraph.regular hgraph
  have hbuilt : (relay first second border border' width height).Built := ⟨_, rfl⟩
  obtain ⟨hsound, huniform⟩ := uniform_of_verify hbuilt hp
  refine ⟨_, hp, hsound, huniform, fun o => Option.ext fun r => ?_, fun stage => ?_⟩
  · rw [object?_planOf hbuilt.wellFormed, Option.map_eq_some_iff, Array.getElem?_replicate]
    constructor
    · intro hr
      obtain ⟨hobject, hinfo, _⟩ := hr
      refine ⟨r.object, hobject, ?_⟩
      split at hinfo
      · rw [Option.some.inj hinfo]
      · contradiction
    · intro hr
      obtain ⟨object, hobject, rfl⟩ := hr
      have hlt : o.index < 3 := (Array.getElem?_eq_some_iff.mp hobject).1
      exact ⟨hobject, if_pos hlt, fun _ hopen => Bool.noConfusion hopen⟩
  · simp only [planOf, List.mem_map, hperm.mem_iff, List.mem_cons, List.not_mem_nil, or_false]
    constructor
    · intro hstage
      obtain ⟨c, rfl | rfl, rfl⟩ := hstage
      · exact .inl rfl
      · exact .inr rfl
    · intro hstage
      rcases hstage with rfl | rfl
      · exact ⟨_, .inl rfl, rfl⟩
      · exact ⟨_, .inr rfl, rfl⟩

namespace Relays

variable {p : Plan} {P : Program} {s : Storage} {b : Bindings} {src dst : ImageBuffer}
  (hp : Relays first second border border' width height p)

include hp

theorem steady (h : first.Draws border change) (h' : second.Draws border' change') : p.Steady := by
  intro stage hstage step hstep
  rcases (hp.stages stage).mp hstage with rfl | rfl
  · rw [List.mem_singleton.mp hstep]
    exact h.steady
  · rw [List.mem_singleton.mp hstep]
    exact h'.steady

/-- A step of such a plan links an image with the next one. -/
theorem links (hx : p.HasExtrema) (hs : Storage.ofPlan p = .ok s) {k : Kernel} {edge : Border} (h : k.Draws edge change)
    {id : Nat} (hmem : Stage.single (step (link k edge id)) k.isPixelwise ∈ p.stages) :
    (step (link k edge id)).Links p s k ⟨id⟩ ⟨id + 1⟩ where
  sound := hp.sound
  storage := hs
  extrema := hx
  mem := hmem
  valid := by
    obtain ⟨k', hk', _⟩ := (hp.sound.stages _ hmem).steps _ (List.mem_singleton_self _)
    have hsame : k' = k := Option.some.inj (hk'.kernel.symm.trans h.found)
    exact hsame ▸ hk'
  specs := h.specs
  rule := h.rule
  params := rfl
  apart := fun heq => absurd (congrArg ObjectId.index heq) (Nat.ne_of_lt (Nat.lt_succ_self id))

/-- Byte images of the right extent pass the check. -/
theorem check (hP : p.LoadedAs P) (hsrc : b.get? ⟨0⟩ = some (.image src)) (hdst : b.get? ⟨2⟩ = some (.image dst))
    (hinfo : src.info = .known width height .u8) (hinfo' : dst.info = src.info) : P.check b = .ok () := by
  apply Program.check_eq_ok.mpr
  intro entry hentry
  obtain ⟨o, info⟩ := entry
  have hknown := hP.info_of_entry hentry
  have hmem : o ∈ p.entries := hP.map_entries ▸ List.mem_map_of_mem hentry
  obtain ⟨r, hr, hisEntry⟩ := (Plan.mem_entries hp.sound.ids).mp hmem
  rw [Plan.info?_of_object? hr, Option.some.injEq] at hknown
  rw [hp.object] at hr
  obtain ⟨object, hobject, rfl⟩ := Option.map_eq_some_iff.mp hr
  subst hknown
  have hindex : o.index = 0 ∨ o.index = 1 ∨ o.index = 2 := by
    have hlt : o.index < 3 := (Array.getElem?_eq_some_iff.mp hobject).1
    omega
  rcases hindex with hzero | hone | htwo
  · obtain rfl : o = ⟨0⟩ := IdMap.object_ext hzero
    exact ⟨.image src, hsrc, if_pos hinfo⟩
  · -- the image between the nodes is not bound
    obtain rfl : o = ⟨1⟩ := IdMap.object_ext hone
    cases hobject
    contradiction
  · obtain rfl : o = ⟨2⟩ := IdMap.object_ext htwo
    exact ⟨.image dst, hdst, if_pos (hinfo'.trans hinfo)⟩

/-- The caller's images are held where the caller has bound them. -/
theorem held_eq {o : ObjectId} (ho : o = ⟨0⟩ ∨ o = ⟨2⟩) (m : Memory) : p.held m o = m.host.get? o := by
  rcases ho with rfl | rfl <;> exact Plan.held_of_entry (hp.object _) rfl rfl rfl m

/-- A run leaves in the output what both kernels make of the input. -/
theorem process (h : first.Draws border change) (h' : second.Draws border' change') (hP : p.LoadedAs P) (hb : b.Sound)
    (hsrc : b.get? ⟨0⟩ = some (.image src)) (hdst : b.get? ⟨2⟩ = some (.image dst))
    (hinfo : src.info = .known width height .u8) (hinfo' : dst.info = src.info) :
    ∃ b', P.process b = (.ok (), b') ∧ b'.get? ⟨0⟩ = some (.image src) ∧
      b'.get? ⟨2⟩ = some (.image (change' (change src))) := by
  have hcheck := hp.check hP hsrc hdst hinfo hinfo'
  obtain ⟨last, hended, hrun⟩ := (hp.steady h h').exists_ended hp.sound hp.uniform hP hb hcheck
  have hmem := (hp.stages _).mpr (.inl rfl)
  have hmem' := (hp.stages _).mpr (.inr rfl)
  have hlinks := hp.links hended.extrema hended.storage h hmem
  have hlinks' := hp.links hended.extrema hended.storage h' hmem'
  -- the input is written by no stage, so it is there at the end
  have hunwritten (stage : Stage) (hstage : stage ∈ p.stages) : (⟨0⟩ : ObjectId) ∉ stage.writes := by
    rcases (hp.stages stage).mp hstage with rfl | rfl
    · rw [hlinks.mem_writes]
      decide
    · rw [hlinks'.mem_writes]
      decide
  have hinput : p.held last ⟨0⟩ = some (.image src) := by
    rw [hended.kept ⟨0⟩ _ (hp.object ⟨0⟩) (fun hkind => Kind.noConfusion hkind) hunwritten, hp.held_eq (.inl rfl)]
    exact hsrc
  obtain ⟨_, _, hturn⟩ := hended.turn _ hmem
  obtain ⟨_, _, hturn'⟩ := hended.turn _ hmem'
  have hmiddle := h.held_output hlinks rfl hturn hinput
  have houtput := h'.held_output hlinks' rfl hturn' hmiddle
  rw [hp.held_eq (.inl rfl)] at hinput
  rw [hp.held_eq (.inr rfl)] at houtput
  have hnodup : (P.entries.map (·.1)).Nodup := hP.map_entries ▸ Plan.nodup_entries hp.sound.ids
  exact ⟨_, hrun, Program.get?_ageDelays_image hnodup hinput, Program.get?_ageDelays_image hnodup houtput⟩

end Relays

/-- Two kernels in a row make of an image what the second one makes of what the first one makes of it. -/
theorem makes_relay (h : first.Draws border change) (h' : second.Draws border' change') {src : ImageBuffer}
    (hinfo : src.info = .known width height .u8) :
    (relay first second border border' width height).Makes src (change' (change src)) := by
  obtain ⟨p, hverify, hp⟩ := exists_relays h h' width height
  obtain ⟨P₀, hP₀⟩ := hp.sound.exists_loadedAs_iff.mpr (hp.steady h h').hasExtrema
  refine ⟨p, hverify, fun c => ?_⟩
  -- what a run of the plan as it is does, a run of the optimised plan does too
  have hrefines := (Plan.Refines.stable p).optimize c (.refl hp.sound)
  refine ⟨hrefines.exists_loadedAs hp.sound hP₀, fun P hP b dst hb hsrc hdst hinfo' => ?_⟩
  obtain ⟨b', hrun, hkept, hout⟩ := hp.process h h' hP₀ hb hsrc hdst hinfo hinfo'
  exact ⟨b', hrefines.replaces.process hP₀ hP hrun, hkept, hout⟩

end Relay

/-- A graph that makes one image of another has a run that does. -/
theorem Makes.exists_run {g : Graph} {src out : ImageBuffer} (h : g.Makes src out) (c : OptimizerConfig) :
    ∃ p P b b', g.verify .standard = .ok p ∧ (p.optimize c).1.LoadedAs P ∧ b.get? ⟨0⟩ = some (.image src) ∧
      P.process b = (.ok (), b') ∧ b'.get? ⟨2⟩ = some (.image out) := by
  obtain ⟨p, hp, hruns⟩ := h
  obtain ⟨⟨P, hP⟩, hprocess⟩ := hruns c
  let input : Bindings := IdMap.insert .empty ⟨0⟩ (.image src)
  let both : Bindings := input.insert ⟨2⟩ (.image (.zero src.width src.height src.format))
  have hempty : Bindings.Sound .empty := fun o x hx => by simp at hx
  have hsound : both.Sound := (hempty.insert (x := .image src) trivial ⟨0⟩).insert (x := .image _) trivial ⟨2⟩
  have hsrc : both.get? ⟨0⟩ = some (.image src) :=
    (IdMap.get?_insert_of_ne _ _ (by decide)).trans (IdMap.get?_insert_self ..)
  obtain ⟨b', hrun, _, hout⟩ := hprocess P hP both _ hsound hsrc (IdMap.get?_insert_self ..) rfl
  exact ⟨p, P, both, b', hp, hP, hsrc, hrun, hout⟩

end Graph

end VisionGraph
