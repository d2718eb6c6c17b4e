import VisionGraph.Proofs.Outcome

/-! Graphs that are accepted whatever the extents of their images. What the nodes ask of their objects is told by the
roles of the objects, which hold no numbers and can be checked once; the metadata is followed along the nodes. -/
namespace VisionGraph

/-- Metadata that fits what is declared takes its place. -/
theorem ImageMeta.merge_of_extends {m : ImageMeta} {width height : UInt32} {format : Format}
    (h : (Meta.image (.known width height format)).Extends (.image m)) :
    ∃ changed, m.merge (.known width height format) = ⟨.known width height format, .ok changed⟩ := by
  obtain ⟨hw, hh, hf⟩ := h
  obtain ⟨width', height', format'⟩ := m
  cases width' <;> cases height' <;> cases format' <;>
    simp_all [Keeps, known, merge, fill, clash]

/-- What the checks of bindings ask about an object. -/
structure Role where
  kind : Kind
  isConstant : Bool
  isVirtual : Bool
deriving DecidableEq

namespace Role

/-- Whether a parameter may be bound to an object of its role, where `written` are the objects that some node writes. -/
def fits (roles : List Role) (written : List ObjectId) (spec : Param) : Option ObjectId → Bool
  | none => spec.optional
  | some o => (roles[o.index]?).any fun role => role.kind == spec.kind &&
      (!spec.direction.writes || !role.isConstant) && (spec.direction != .bidirectional || !role.isVirtual) &&
      (spec.direction != .input || !role.isVirtual || role.isConstant || written.contains o)

/-- Whether nodes in an order can run in it, by the roles of their objects. -/
def arranged (roles : List Role) (l : List Checked) : Bool :=
  l.all fun c => c.node.params.length == c.kernel.signature.params.length &&
    (c.kernel.signature.params.zip c.node.params).all fun x => fits roles (l.flatMap (·.access.writes)) x.1 x.2

end Role

instance : DecidableRel Graph.After := fun a b => inferInstanceAs (Decidable (∀ o ∈ b.access.writes, o ∉ a.node.bound))

namespace Graph

variable {g : Graph} {l : List Checked} {known : Array Meta} {o : ObjectId}

/-- The roles of the objects, in the order of their numbers. -/
def roles (g : Graph) : List Role := g.objects.toList.map fun x => ⟨x.kind, x.isConstant, x.isVirtual⟩

theorem fits_of_role {written : List ObjectId} {spec : Param} {param : Option ObjectId}
    (h : Role.fits g.roles written spec param = true) : g.Fits (· ∈ written) spec param := by
  cases param with
  | none => exact h
  | some o =>
    obtain ⟨role, hrole, h⟩ := (Option.any_eq_true _ _).mp h
    rw [roles, List.getElem?_map, Array.getElem?_toList] at hrole
    obtain ⟨object, hobject, rfl⟩ := Option.map_eq_some_iff.mp hrole
    simp only [Bool.and_eq_true, Bool.or_eq_true, Bool.not_eq_true', beq_iff_eq, bne_iff_ne, ne_eq,
      List.contains_iff_mem] at h
    obtain ⟨⟨⟨hkind, hconst⟩, hbi⟩, hin⟩ := h
    refine ⟨object, hobject, hkind, fun hw => ?_, fun hd => ?_, fun hd hv hc => ?_⟩
    · exact hconst.resolve_left (by simp [hw])
    · exact hbi.resolve_left (fun hne => hne hd)
    · simpa [hd, hv, hc] using hin

theorem scheduled_of_arranged {roles : List Role} (hnodes : g.nodes = l.map (·.node)) (hroles : g.roles = roles)
    (hfound : ∀ c ∈ l, Registry.standard.find? c.node.kernel = some c.kernel)
    (harranged : Role.arranged roles l = true) (hafter : l.Pairwise After) : Scheduled .standard g l := by
  subst hroles
  have hall (c : Checked) (hc : c ∈ l) : c.node.params.length = c.kernel.signature.params.length ∧
      ∀ x ∈ c.kernel.signature.params.zip c.node.params, g.Fits (· ∈ l.flatMap (·.access.writes)) x.1 x.2 := by
    have hchecked := List.all_eq_true.mp harranged c hc
    rw [Bool.and_eq_true, beq_iff_eq, List.all_eq_true] at hchecked
    exact ⟨hchecked.1, fun x hx => fits_of_role (hchecked.2 x hx)⟩
  refine ⟨?_, fun c hc => ?_, hafter, fun c hc x hx => ?_⟩
  · rw [hnodes]
  · obtain ⟨hlength, hfits⟩ := hall c hc
    refine lookUp_eq_ok.mpr ⟨rfl, hfound c hc, hlength, fun o ho => ?_⟩
    -- every bound parameter meets its specification
    obtain ⟨slot, hslot⟩ := Node.mem_bound.mp ho
    have hlt := (List.getElem?_eq_some_iff.mp hslot).1
    obtain ⟨spec, hspec⟩ : ∃ spec, c.kernel.signature.params[slot]? = some spec :=
      ⟨_, List.getElem?_eq_getElem (hlength ▸ hlt)⟩
    have hmem : (spec, some o) ∈ c.kernel.signature.params.zip c.node.params :=
      List.mem_of_getElem? (List.getElem?_zip_eq_some.mpr ⟨hspec, hslot⟩)
    obtain ⟨object, hobject, _⟩ := hfits _ hmem
    exact ⟨object, hobject⟩
  · exact ((hall c hc).2 x hx).imp fun o ho => List.mem_flatMap.mp ho

/-- A node that infers one image settles it. -/
theorem infer_image {c : Checked} (slot : Nat) (shape : ImageShape) {format : Format} {m : ImageMeta}
    {object : DataObject} (hrule : c.kernel.rule (c.view known) = .ok [Rule.inferImage slot shape format])
    (hdirection : c.directions[slot]? = some .output) (hparam : c.node.params[slot]? = some (some o))
    (hobject : g.object? o = some object) (hknown : known[o.index]? = some (.image m))
    (hm : (Meta.image (.known shape.width shape.height format)).Extends (.image m)) :
    g.infer known c = .ok (known.setIfInBounds o.index (.image (.known shape.width shape.height format))) := by
  obtain ⟨changed, hmerge⟩ := ImageMeta.merge_of_extends hm
  refine infer_eq_ok.mpr ⟨_, hrule, foldlM_cons_eq_ok.mpr ⟨_, ?_, rfl⟩⟩
  simp [absorb, hdirection, hparam, hobject, hknown, Rule.inferImage, Meta.merge, hmerge, Merged.map, Direction.writes]

/-- The plan of a graph has a step for each node and the metadata that was found along the nodes. -/
structure Accepted (g : Graph) (l : List Checked) (known : Array Meta) (p : Plan) : Prop where
  built : g.Built
  verified : g.verify .standard = .ok p
  stages : ∀ stage ∈ p.stages, ∃ c ∈ l, stage = .single (step c) c.kernel.isPixelwise
  has : ∀ c ∈ l, p.Has c.kernel (step c)
  info : ∀ o info, known[o.index]? = some info → p.info? o = some info

theorem exists_accepted (infos : List Meta) (hg : g.Built) (hl : Scheduled .standard g l)
    (hinfos : g.objects.toList.map (·.info) = infos) (hrun : l.foldlM g.infer infos.toArray = .ok known)
    (hknown : ∀ m ∈ known, m.isResolved = true) : ∃ p, Accepted g l known p := by
  have hinfos : infos.toArray = g.objects.map (·.info) := by rw [← hinfos, ← Array.toList_map, Array.toArray_toList]
  rw [hinfos] at hrun
  have hsize : known.size = (g.objects.map (·.info)).size := by
    refine foldlM_induction (fun s => s.size = (g.objects.map (·.info)).size) ?_ rfl hrun
    exact fun c _ s t hs hst => (infer_size hst).trans hs
  have hobject {i : Nat} (hi : i < known.size) : ∃ object, g.objects[i]? = some object := by
    rw [hsize, Array.size_map] at hi
    exact ⟨_, Array.getElem?_eq_getElem hi⟩
  have hresolves : Resolves .standard g l known := by
    refine ⟨hl, hrun, fun c hc => List.find?_eq_none.mpr fun o ho => ?_⟩
    obtain ⟨_, _, _, hbound⟩ := lookUp_eq_ok.mp (hl.found c hc)
    obtain ⟨object, ho⟩ := hbound o ho
    have hlt : o.index < known.size := by
      rw [hsize, Array.size_map]
      exact (Array.getElem?_eq_some_iff.mp ho).1
    simp [hlt, hknown]
  obtain ⟨l', hl', hperm, hp⟩ := verify_of_resolves hresolves.regular hresolves
  refine ⟨_, hg, hp, fun stage hstage => ?_, fun c hc => ?_, fun o info hinfo => ?_⟩
  · obtain ⟨c, hc, rfl⟩ := List.mem_map.mp hstage
    exact ⟨c, hperm.mem_iff.mp hc, rfl⟩
  · have hc' := hperm.mem_iff.mpr hc
    exact ⟨List.mem_map_of_mem hc', hl'.valid hg.wellFormed hc'⟩
  · obtain ⟨object, hobject⟩ := hobject (Array.getElem?_eq_some_iff.mp hinfo).1
    refine Plan.info?_of_object? (r := ⟨object, info⟩) ((object?_planOf hg.wellFormed).mpr ⟨hobject, hinfo, ?_⟩)
    intro _ hopen
    rw [hknown info (Array.mem_of_getElem? hinfo)] at hopen
    contradiction

/-- The objects that the caller has to bind. -/
def seen (g : Graph) : List ObjectId := (g.objects.toList.filter sees).map (·.id)

/-- A graph yields what its nodes leave in the output, if none of them can fail and none writes an input. -/
theorem Accepted.yields {p : Plan} (h : Accepted g l known p) {inputs : List (ObjectId × ImageBuffer)}
    {output : ObjectId} {out : ImageBuffer}
    (hsteady : ∀ c ∈ l, c.node.kernel ∉ ["vx.convert_depth", "vx.table_lookup", "vx.minmaxloc"])
    (hseen : ∀ o ∈ g.seen, o ∈ output :: inputs.map (·.1))
    (hinputs : ∀ x ∈ inputs, g.Takes x.1 x.2 ∧ ∀ c ∈ l, x.1 ∉ c.access.writes) (houtput : g.Takes output out)
    (hend : ∀ {s b last}, p.Ended s b last → (∀ x ∈ inputs, p.held last x.1 = some (.image x.2)) →
      p.held last output = some (.image out)) : g.Yields inputs output out := by
  refine yields_of_ended h.built h.verified (fun stage hstage step' hstep => ?_) (fun object hobject hsees => ?_)
    (fun x hx => ?_) houtput hend
  · obtain ⟨c, hc, rfl⟩ := h.stages stage hstage
    rw [List.mem_singleton.mp hstep]
    exact hsteady c hc
  · exact hseen _ (List.mem_map_of_mem (List.mem_filter.mpr ⟨Array.mem_toList_iff.mpr hobject, hsees⟩))
  · obtain ⟨htakes, hunwritten⟩ := hinputs x hx
    refine ⟨htakes, fun stage hstage => ?_⟩
    obtain ⟨c, hc, rfl⟩ := h.stages stage hstage
    rw [Stage.mem_writes_single]
    simpa [Checked.access, Step.writes, Step.boundBy, step] using hunwritten c hc

end Graph

end VisionGraph
