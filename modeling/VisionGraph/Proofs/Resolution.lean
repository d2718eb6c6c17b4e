import VisionGraph.Plan.Verify
import VisionGraph.Proofs.FiniteMap
import VisionGraph.Proofs.Inference

/-! Metadata along a schedule. Running the rule of a node only extends what is known, changes nothing but what
the node writes, and depends on nothing but what the node names. -/
namespace VisionGraph

theorem Step.mem_boundBy {keep : Direction → Bool} {s : Step} {o : ObjectId} :
    o ∈ s.boundBy keep ↔
      ∃ (slot : Nat) (d : Direction), s.params[slot]? = some (some o) ∧ s.directions[slot]? = some d ∧ keep d = true := by
  simp only [boundBy, List.mem_filterMap, Prod.exists]
  constructor
  · rintro ⟨param, d, hmem, h⟩
    obtain ⟨slot, hslot⟩ := List.mem_iff_getElem?.mp hmem
    obtain ⟨hp, hd⟩ := List.getElem?_zip_eq_some.mp hslot
    split at h
    · rename_i hkeep
      exact ⟨slot, d, by rw [hp, h], hd, hkeep⟩
    · contradiction
  · rintro ⟨slot, d, hp, hd, hkeep⟩
    refine ⟨some o, d, ?_, by simp [hkeep]⟩
    exact List.mem_iff_getElem?.mpr ⟨slot, List.getElem?_zip_eq_some.mpr ⟨hp, hd⟩⟩

theorem Node.mem_bound {n : Node} {o : ObjectId} : o ∈ n.bound ↔ ∃ slot : Nat, n.params[slot]? = some (some o) := by
  rw [Node.bound, List.mem_filterMap]
  simp only [exists_eq_right, List.mem_iff_getElem?]

namespace Checked

variable {c : Checked} {o : ObjectId}

theorem mem_reads : o ∈ c.access.reads ↔
    ∃ (slot : Nat) (d : Direction),
      c.node.params[slot]? = some (some o) ∧ c.directions[slot]? = some d ∧ d.reads = true := by
  have h : c.access.reads = (Graph.step c).reads.eraseDups := rfl
  rw [h, List.mem_eraseDups]
  exact Step.mem_boundBy

theorem mem_writes : o ∈ c.access.writes ↔
    ∃ (slot : Nat) (d : Direction),
      c.node.params[slot]? = some (some o) ∧ c.directions[slot]? = some d ∧ d.writes = true := by
  have h : c.access.writes = (Graph.step c).writes.eraseDups := rfl
  rw [h, List.mem_eraseDups]
  exact Step.mem_boundBy

/-- Every parameter is read or written when the node has as many as its kernel. -/
theorem mem_bound (hlen : c.node.params.length = c.kernel.signature.params.length) :
    o ∈ c.node.bound ↔ o ∈ c.access.reads ∨ o ∈ c.access.writes := by
  rw [Node.mem_bound, mem_reads, mem_writes]
  constructor
  · rintro ⟨slot, hslot⟩
    have hlt := (List.getElem?_eq_some_iff.mp hslot).1
    have hdir : slot < c.directions.length := by
      simpa [directions, Signature.directions, ← hlen] using hlt
    cases hd : c.directions[slot] with
    | input => exact .inl ⟨slot, .input, hslot, by rw [List.getElem?_eq_getElem hdir, hd], rfl⟩
    | output => exact .inr ⟨slot, .output, hslot, by rw [List.getElem?_eq_getElem hdir, hd], rfl⟩
    | bidirectional => exact .inl ⟨slot, .bidirectional, hslot, by rw [List.getElem?_eq_getElem hdir, hd], rfl⟩
  · rintro (⟨slot, _, hslot, _⟩ | ⟨slot, _, hslot, _⟩)
    · exact ⟨slot, hslot⟩
    · exact ⟨slot, hslot⟩

theorem bound_of_writes (h : o ∈ c.access.writes) : o ∈ c.node.bound := by
  obtain ⟨slot, _, hslot, _⟩ := mem_writes.mp h
  exact Node.mem_bound.mpr ⟨slot, hslot⟩

/-- What is known of the parameters of a node. -/
def view (c : Checked) (known : Array Meta) : Known :=
  c.node.params.map fun param => param.bind fun o => known[o.index]?

theorem slotMeta_view {known : Array Meta} {slot : Nat} {m : Meta} :
    Rule.slotMeta (c.view known) slot = some m ↔
      ∃ o, c.node.params[slot]? = some (some o) ∧ known[o.index]? = some m := by
  simp only [Rule.slotMeta, view, List.getElem?_map]
  cases hp : c.node.params[slot]? with
  | none => simp
  | some param =>
    cases param with
    | none => simp
    | some o => simp

end Checked

/-! ### What one node does -/

/-- One state knows at least what another one does; the values of scalars are the same. -/
structure Fuller (next known : Array Meta) : Prop where
  size : next.size = known.size
  extend : ∀ (i : Nat) (m : Meta), known[i]? = some m →
    ∃ n, next[i]? = some n ∧ n.Extends m ∧ n.value? = m.value?

namespace Fuller

variable {known next : Array Meta}

/-- A fact that metadata covers stays covered. -/
theorem covers (h : Fuller next known) {i : Nat} {info : Meta}
    (hm : ∃ m, known[i]? = some m ∧ m.Extends info) : ∃ m, next[i]? = some m ∧ m.Extends info := by
  obtain ⟨m, hm, hext⟩ := hm
  obtain ⟨n, hn, hext', _⟩ := h.extend i m hm
  exact ⟨n, hn, hext'.trans hext⟩

theorem refines (h : Fuller next known) (c : Checked) : Rule.Refines (c.view next) (c.view known) where
  unbound slot hnone := by
    by_contra hsome
    obtain ⟨n, hn⟩ := Option.ne_none_iff_exists'.mp hsome
    obtain ⟨o, ho, hget⟩ := Checked.slotMeta_view.mp hn
    have hlt : o.index < known.size := h.size ▸ (Array.getElem?_eq_some_iff.mp hget).1
    have hk := Checked.slotMeta_view.mpr ⟨o, ho, Array.getElem?_eq_getElem hlt⟩
    rw [hnone] at hk
    contradiction
  bound slot m hm := by
    obtain ⟨o, ho, hget⟩ := Checked.slotMeta_view.mp hm
    obtain ⟨n, hn, hext, hv⟩ := h.extend _ m hget
    exact ⟨n, Checked.slotMeta_view.mpr ⟨o, ho, hn⟩, hext, hv⟩

end Fuller

/-- What was known is extended, and nothing changes but what is written. -/
structure Grows (written : List ObjectId) (known next : Array Meta) : Prop where
  size : next.size = known.size
  extend : ∀ (i : Nat) (m : Meta), known[i]? = some m →
    ∃ n, next[i]? = some n ∧ n.Extends m ∧ n.value? = m.value?
  frame : ∀ o : ObjectId, o ∉ written → next[o.index]? = known[o.index]?

namespace Grows

variable {written more : List ObjectId} {known next last : Array Meta}

theorem refl (written : List ObjectId) (known : Array Meta) : Grows written known known :=
  ⟨rfl, fun _ m h => ⟨m, h, .refl m, rfl⟩, fun _ _ => rfl⟩

theorem trans (h : Grows written known next) (h' : Grows written next last) : Grows written known last where
  size := h'.size.trans h.size
  extend i m hm := by
    obtain ⟨n, hn, hext, hv⟩ := h.extend i m hm
    obtain ⟨l, hl, hext', hv'⟩ := h'.extend i n hn
    exact ⟨l, hl, hext'.trans hext, hv'.trans hv⟩
  frame o ho := (h'.frame o ho).trans (h.frame o ho)

theorem mono (h : Grows written known next) (hsub : written ⊆ more) : Grows more known next :=
  ⟨h.size, h.extend, fun o ho => h.frame o fun hmem => ho (hsub hmem)⟩

theorem fuller (h : Grows written known next) : Fuller next known := ⟨h.size, h.extend⟩

end Grows

namespace Graph

variable {g : Graph} {c : Checked} {known next : Array Meta}

/-- An inference is for a written parameter; where that is bound, it merges into what is known. -/
theorem absorb_eq_ok {inference : Inference} (h : g.absorb c known inference = .ok next) :
    (∃ d, c.directions[inference.slot]? = some d ∧ d.writes = true) ∧
      ((c.node.params[inference.slot]?).getD none = none ∧ next = known ∨
        ∃ o current changed, c.node.params[inference.slot]? = some (some o) ∧ known[o.index]? = some current ∧
          (current.merge inference.info).outcome = .ok changed ∧
          next = known.setIfInBounds o.index (current.merge inference.info).after) := by
  unfold absorb at h
  split at h
  · contradiction
  rename_i hdir
  have hwrites : ∃ d, c.directions[inference.slot]? = some d ∧ d.writes = true := by
    simpa [Option.any_eq_true] using hdir
  refine ⟨hwrites, ?_⟩
  -- an inference for an optional parameter that is not bound is dropped
  split at h
  · rename_i hnone
    cases h
    exact .inl ⟨hnone, rfl⟩
  rename_i o ho
  have hparam : c.node.params[inference.slot]? = some (some o) := by
    cases hp : c.node.params[inference.slot]? with
    | none => simp [hp] at ho
    | some param => simpa [hp] using ho
  split at h
  · rename_i object current hobject hcurrent
    cases hmerge : (current.merge inference.info).outcome with
    | ok changed =>
      simp only [hmerge, Except.ok.injEq] at h
      exact .inr ⟨o, current, changed, hparam, hcurrent, hmerge, h.symm⟩
    | error conflict =>
      simp only [hmerge] at h
      split at h <;> contradiction
  · contradiction

theorem absorb_grows {inference : Inference} (hv : inference.info.value? = none)
    (h : g.absorb c known inference = .ok next) : Grows c.access.writes known next := by
  obtain ⟨⟨d, hd, hdw⟩, ⟨_, rfl⟩ | ⟨o, current, changed, hparam, hcurrent, hmerge, rfl⟩⟩ := absorb_eq_ok h
  · exact .refl _ _
  obtain ⟨hext, _, hval⟩ := Meta.merge_ok hv hmerge
  have hlt := (Array.getElem?_eq_some_iff.mp hcurrent).1
  refine ⟨by simp, fun i m hm => ?_, fun p hp => ?_⟩
  · by_cases hi : o.index = i
    · subst hi
      have hmc : current = m := by simpa [hcurrent] using hm
      subst hmc
      exact ⟨_, Array.getElem?_setIfInBounds_self_of_lt hlt, hext, hval⟩
    · exact ⟨m, by rw [Array.getElem?_setIfInBounds_ne hi, hm], .refl m, rfl⟩
  · have hne : o.index ≠ p.index := by
      intro he
      have hop : o = p := IdMap.object_ext he
      exact hp (hop ▸ Checked.mem_writes.mpr ⟨_, d, hparam, hd, hdw⟩)
    rw [Array.getElem?_setIfInBounds_ne hne]

theorem absorb_covers {inference : Inference} (hv : inference.info.value? = none)
    (h : g.absorb c known inference = .ok next) {o : ObjectId}
    (ho : c.node.params[inference.slot]? = some (some o)) :
    ∃ m, next[o.index]? = some m ∧ m.Extends inference.info := by
  obtain ⟨_, ⟨hnone, _⟩ | ⟨p, current, changed, hparam, hcurrent, hmerge, rfl⟩⟩ := absorb_eq_ok h
  · simp [ho] at hnone
  obtain ⟨_, hext, _⟩ := Meta.merge_ok hv hmerge
  have hpo : p = o := by simpa [ho] using hparam.symm
  have hlt := (Array.getElem?_eq_some_iff.mp hcurrent).1
  exact ⟨_, hpo ▸ Array.getElem?_setIfInBounds_self_of_lt hlt, hext⟩

/-- All inferences of a node in turn. -/
theorem absorb_all {inferences : List Inference} (hv : ∀ i ∈ inferences, i.info.value? = none)
    (h : inferences.foldlM (g.absorb c) known = .ok next) :
    Grows c.access.writes known next ∧
      ∀ i ∈ inferences, ∀ o, c.node.params[i.slot]? = some (some o) →
        ∃ m, next[o.index]? = some m ∧ m.Extends i.info := by
  induction inferences generalizing known with
  | nil =>
    cases h
    exact ⟨.refl _ _, nofun⟩
  | cons i rest ih =>
    obtain ⟨mid, hfirst, hrest⟩ := foldlM_cons_eq_ok.mp h
    have hvi := hv i List.mem_cons_self
    obtain ⟨hgrow, hcover⟩ := ih (fun j hj => hv j (List.mem_cons_of_mem _ hj)) hrest
    refine ⟨(absorb_grows hvi hfirst).trans hgrow, fun j hj o ho => ?_⟩
    rcases List.mem_cons.mp hj with rfl | hj
    · exact hgrow.fuller.covers (absorb_covers hvi hfirst ho)
    · exact hcover j hj o ho

theorem infer_eq_ok : g.infer known c = .ok next ↔
    ∃ inferences, c.kernel.rule (c.view known) = .ok inferences ∧ inferences.foldlM (g.absorb c) known = .ok next := by
  unfold infer Checked.view
  cases c.kernel.rule (c.node.params.map fun param => param.bind fun o => known[o.index]?) with
  | error e => simp
  | ok inferences => simp

/-- A node extends what is known of the objects it writes. -/
theorem infer_grows (hr : Rule.Regular c.kernel.rule) (h : g.infer known c = .ok next) :
    Grows c.access.writes known next := by
  obtain ⟨infs, hrule, hall⟩ := infer_eq_ok.mp h
  exact (absorb_all (fun i hi => (hr.names hrule i hi).1) hall).1

/-- A state that covers all inferences of a rule settles them. -/
theorem settled_of_covers (hr : Rule.Regular c.kernel.rule) {inferences : List Inference}
    (hrule : c.kernel.rule (c.view known) = .ok inferences)
    (hcover : ∀ i ∈ inferences, ∀ o, c.node.params[i.slot]? = some (some o) →
      ∃ m, next[o.index]? = some m ∧ m.Extends i.info) : Rule.Settled (c.view next) inferences := by
  intro i hi
  obtain ⟨_, m, hm⟩ := hr.names hrule i hi
  obtain ⟨o, ho, _⟩ := Checked.slotMeta_view.mp hm
  obtain ⟨n, hn, hext⟩ := hcover i hi o ho
  exact ⟨n, Checked.slotMeta_view.mpr ⟨o, ho, hn⟩, hext⟩

/-- After a node ran, its rule accepts what is known then and infers nothing new. -/
theorem infer_settles (hr : Rule.Regular c.kernel.rule) (h : g.infer known c = .ok next) :
    ∃ inferences, c.kernel.rule (c.view next) = .ok inferences ∧ Rule.Settled (c.view next) inferences ∧
      ∀ i ∈ inferences, i.info.value? = none := by
  obtain ⟨infs, hrule, hall⟩ := infer_eq_ok.mp h
  have hv : ∀ i ∈ infs, i.info.value? = none := fun i hi => (hr.names hrule i hi).1
  obtain ⟨hgrow, hcover⟩ := absorb_all hv hall
  have hset := settled_of_covers hr hrule hcover
  exact ⟨infs, hr.settles (hgrow.fuller.refines c) (.refl _) hrule hset, hset, hv⟩

/-! ### A node depends on its own objects only -/

/-- Two states know the same of some objects. -/
def AgreeOn (objects : List ObjectId) (known known' : Array Meta) : Prop :=
  ∀ o ∈ objects, known[o.index]? = known'[o.index]?

theorem view_congr {known known' : Array Meta} (h : AgreeOn c.node.bound known known') :
    c.view known = c.view known' := by
  refine List.map_congr_left fun param hp => ?_
  cases param with
  | none => rfl
  | some o =>
    obtain ⟨slot, hslot⟩ := List.mem_iff_getElem?.mp hp
    exact h o (Node.mem_bound.mpr ⟨slot, hslot⟩)

theorem absorb_local {known' : Array Meta} {inference : Inference} (h : g.absorb c known inference = .ok next)
    (hagree : AgreeOn c.node.bound known known') :
    ∃ next', g.absorb c known' inference = .ok next' ∧ AgreeOn c.node.bound next next' := by
  obtain ⟨⟨d, hd, hdw⟩, ⟨hnone, rfl⟩ | ⟨o, current, changed, hparam, hcurrent, hmerge, rfl⟩⟩ := absorb_eq_ok h
  · refine ⟨known', ?_, hagree⟩
    simp [absorb, hd, hdw, hnone]
  have hbound : o ∈ c.node.bound := Node.mem_bound.mpr ⟨_, hparam⟩
  have hcurrent' : known'[o.index]? = some current := by rw [← hagree o hbound, hcurrent]
  refine ⟨known'.setIfInBounds o.index (current.merge inference.info).after, ?_, fun p hp => ?_⟩
  · unfold absorb at h ⊢
    simp only [hd, Option.any_some, hdw, Bool.not_true, Bool.false_eq_true, ↓reduceIte, hparam, Option.getD_some,
      hcurrent, hcurrent'] at h ⊢
    cases hobject : g.object? o with
    | none => simp [hobject] at h
    | some object => simp only [hmerge]
  · have hlt := (Array.getElem?_eq_some_iff.mp hcurrent).1
    have hlt' := (Array.getElem?_eq_some_iff.mp hcurrent').1
    by_cases he : o.index = p.index
    · rw [← he, Array.getElem?_setIfInBounds_self_of_lt hlt, Array.getElem?_setIfInBounds_self_of_lt hlt']
    · rw [Array.getElem?_setIfInBounds_ne he, Array.getElem?_setIfInBounds_ne he]
      exact hagree p hp

theorem infer_local {known' : Array Meta} (h : g.infer known c = .ok next)
    (hagree : AgreeOn c.node.bound known known') :
    ∃ next', g.infer known' c = .ok next' ∧ AgreeOn c.node.bound next next' := by
  obtain ⟨infs, hrule, hall⟩ := infer_eq_ok.mp h
  have hfold : ∃ next', infs.foldlM (g.absorb c) known' = .ok next' ∧ AgreeOn c.node.bound next next' := by
    clear hrule h
    induction infs generalizing known known' with
    | nil =>
      cases hall
      exact ⟨known', rfl, hagree⟩
    | cons i rest ih =>
      obtain ⟨mid, hfirst, hrest⟩ := foldlM_cons_eq_ok.mp hall
      obtain ⟨mid', hfirst', hmid⟩ := absorb_local hfirst hagree
      obtain ⟨next', hrest', hnext⟩ := ih hmid hrest
      exact ⟨next', foldlM_cons_eq_ok.mpr ⟨mid', hfirst', hrest'⟩, hnext⟩
  obtain ⟨next', hfold, hnext⟩ := hfold
  exact ⟨next', infer_eq_ok.mpr ⟨infs, view_congr hagree ▸ hrule, hfold⟩, hnext⟩

/-- A node that comes after another writes nothing that the other one names. -/
def After (a b : Checked) : Prop := ∀ o ∈ b.access.writes, o ∉ a.node.bound

/-- Nodes that may come in either order infer the same in both. -/
theorem infer_exchanges {a b : Checked} (ha : Rule.Regular a.kernel.rule) (hb : Rule.Regular b.kernel.rule)
    (hab : After a b) (hba : After b a) : Exchanges g.infer a b := by
  intro s t u hst htu
  have hgrow := infer_grows ha hst
  have hgrow' := infer_grows hb htu
  have hsb : AgreeOn b.node.bound t s := fun o ho => hgrow.frame o fun hw => hba o hw ho
  obtain ⟨t', hst', ht'⟩ := infer_local htu hsb
  have hswap := infer_grows hb hst'
  have hsa : AgreeOn a.node.bound s t' := fun o ho => (hswap.frame o fun hw => hab o hw ho).symm
  obtain ⟨u', htu', hu'⟩ := infer_local hst hsa
  have hswap' := infer_grows ha htu'
  -- both ends agree where `a` writes, where `b` writes, and everywhere else
  have hends : u' = u := by
    refine Array.ext_getElem? fun i => ?_
    by_cases hwa : ⟨i⟩ ∈ a.access.writes
    · have hna : ⟨i⟩ ∉ b.access.writes := fun hwb => hab _ hwb (Checked.bound_of_writes hwa)
      calc u'[i]? = t[i]? := (hu' ⟨i⟩ (Checked.bound_of_writes hwa)).symm
        _ = u[i]? := (hgrow'.frame ⟨i⟩ hna).symm
    · have hkeep : u'[i]? = t'[i]? := hswap'.frame ⟨i⟩ hwa
      by_cases hwb : ⟨i⟩ ∈ b.access.writes
      · exact hkeep.trans (ht' ⟨i⟩ (Checked.bound_of_writes hwb)).symm
      · calc u'[i]? = t'[i]? := hkeep
          _ = s[i]? := hswap.frame ⟨i⟩ hwb
          _ = t[i]? := (hgrow.frame ⟨i⟩ hwa).symm
          _ = u[i]? := (hgrow'.frame ⟨i⟩ hwb).symm
  exact ⟨t', hst', hends ▸ htu'⟩

/-! ### Whole schedules -/

theorem run_grows {l : List Checked} (hr : ∀ c ∈ l, Rule.Regular c.kernel.rule)
    (h : l.foldlM g.infer known = .ok next) : Grows (l.flatMap (·.access.writes)) known next := by
  refine foldlM_induction (fun s => Grows (l.flatMap (·.access.writes)) known s) ?_ (.refl _ _) h
  intro c hc s t hs hst
  exact hs.trans ((infer_grows (hr c hc) hst).mono fun o ho => List.mem_flatMap.mpr ⟨c, hc, ho⟩)

/-- At the end of a schedule the rule of every node accepts what is known, and infers nothing new. -/
theorem run_settles {l : List Checked} (hr : ∀ c ∈ l, Rule.Regular c.kernel.rule) (hl : l.Pairwise After)
    (h : l.foldlM g.infer known = .ok next) {c : Checked} (hc : c ∈ l) :
    ∃ inferences, c.kernel.rule (c.view next) = .ok inferences ∧ Rule.Settled (c.view next) inferences ∧
      ∀ i ∈ inferences, i.info.value? = none := by
  obtain ⟨front, back, rfl⟩ := List.append_of_mem hc
  obtain ⟨_, hcb, _⟩ := List.pairwise_append.mp hl
  obtain ⟨hafter, _⟩ := List.pairwise_cons.mp hcb
  obtain ⟨s, _, hrest⟩ := foldlM_append_eq_ok.mp h
  obtain ⟨t, hst, hback⟩ := foldlM_cons_eq_ok.mp hrest
  have hgrow := run_grows (fun b hb => hr b (by simp [hb])) hback
  -- what comes later writes none of the objects of `c`
  have hsame : c.view next = c.view t := by
    refine view_congr fun o ho => hgrow.frame o fun hw => ?_
    obtain ⟨b, hb, hbw⟩ := List.mem_flatMap.mp hw
    exact hafter b hb o hbw ho
  rw [hsame]
  exact infer_settles (hr c hc) hst

end Graph

end VisionGraph
