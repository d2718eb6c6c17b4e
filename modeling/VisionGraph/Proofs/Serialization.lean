import VisionGraph.Proofs.Certificate
import VisionGraph.Proofs.Codec
import VisionGraph.Proofs.Optimization
/-!
Graphs and plans as text.

The compact text of a graph that was built, and of any plan made from it, reads back as an equal value when
no constant is a single. A single that is no number, or infinite, has null in its place, and nothing reads
such a text.
-/

namespace VisionGraph

/-! ### Places in a value -/

namespace Json

/-- One step into a value: to a member of an object or to an item of an array. -/
inductive Selector where
  | member (name : String)
  | item (index : Nat)

/-- What one step leads to. -/
def follow? : Json → Selector → Option Json
  | .object members, .member name => (members.filterMap member?).lookup name
  | .array items, .item i => items[i]?
  | _, _ => none

/-- What a path leads to. -/
def at? (j : Json) (path : List Selector) : Option Json := path.foldlM follow? j

theorem at?_cons {j k : Json} {sel : Selector} (h : j.follow? sel = some k) (path : List Selector) :
    j.at? (sel :: path) = k.at? path := by
  simp [at?, h]

theorem follow?_record (members : List (String × Json)) (name : String) :
    (record members).reread.follow? (.member name) = (rereadFields members).lookup name := by
  have hmembers : (members.map fun m => ((pieces m.1).map Piece.reread, m.2.reread)).filterMap member? =
      rereadFields members := by
    rw [List.filterMap_map, rereadFields]
    apply List.filterMap_eq_map_iff_forall_eq_some.mpr
    intro m _
    exact member?_pieces m.1 m.2.reread
  rw [reread_record, follow?, hmembers]

theorem follow?_tagged (name : String) (content : Json) :
    (tagged name content).reread.follow? (.member name) = some content.reread := by
  rw [tagged, follow?_record]
  simp [rereadFields]

theorem follow?_ofList {α : Type} (write : α → Json) (xs : List α) (i : Nat) :
    (ofList write xs).reread.follow? (.item i) = xs[i]?.map fun a => (write a).reread := by
  rw [reread_ofList, follow?, List.getElem?_map]

/-- The text reads back as an equal value. -/
def Restores {α : Type} (read : Json → Option α) (write : α → Json) (a : α) : Prop :=
  (parse? (write a).compact).bind read = some a

/-- The text has null at a place, and is not read. -/
def Loses {α : Type} (read : Json → Option α) (write : α → Json) (a : α) (path : List Selector) : Prop :=
  ∃ j, parse? (write a).compact = some j ∧ j.at? path = some .null ∧ read j = none

section

variable {α : Type} {read : Json → Option α} {write : α → Json} {a : α}

theorem Reads.restores (h : Reads read write a) (hproper : (write a).Proper) : Restores read write a := by
  rw [Restores, parse?_compact hproper]
  exact h

theorem loses_of_reread {path : List Selector} (hproper : (write a).Proper)
    (hpath : (write a).reread.at? path = some .null) (hread : read (write a).reread = none) :
    Loses read write a path :=
  ⟨(write a).reread, parse?_compact hproper, hpath, hread⟩

end

end Json

open Json

/-! ### Singles in metadata -/

/-- Where metadata has a constant that is a single. -/
def Meta.singlePath : List Selector := [.member "Scalar", .member "value", .member "F32"]

theorem Meta.at?_singlePath {m : Meta} {x : Single} (hm : m.value? = some (.f32 x)) (h : x.Special) :
    m.toJson.reread.at? singlePath = some .null := by
  obtain ⟨s, rfl, hs⟩ := exists_scalar_of_value? hm
  have hvalue : s.toJson.reread.follow? (.member "value") = some (Scalar.f32 x).toJson.reread := by
    rw [ScalarMeta.toJson, follow?_record, hs]
    rfl
  have hsingle : (Scalar.f32 x).toJson.reread.follow? (.member "F32") = some .null := by
    rw [Scalar.toJson_special h]
    exact follow?_tagged "F32" .null
  have hscalar : (Meta.scalar s).toJson.reread.follow? (.member "Scalar") = some s.toJson.reread :=
    follow?_tagged "Scalar" s.toJson
  rw [singlePath, at?_cons hscalar, at?_cons hvalue, at?_cons hsingle]
  rfl

namespace DataObject

theorem reads_toJson {o : DataObject} (haddr : o.Addressable) (h : ∀ x, o.info.value? ≠ some (.f32 x)) :
    Reads ofJson? toJson o := by
  have hinfo : Meta.ofJson? o.info.toJson.reread = some o.info := Meta.reads_toJson h
  show ofJson? o.toJson.reread = some o
  rw [ofJson?_toJson haddr, hinfo]
  rfl

theorem ofJson?_special {o : DataObject} {x : Single} (haddr : o.Addressable) (ho : o.info.value? = some (.f32 x))
    (h : x.Special) : ofJson? o.toJson.reread = none := by
  rw [ofJson?_toJson haddr, Meta.ofJson?_special ho h]
  rfl

theorem follow?_meta (o : DataObject) : o.toJson.reread.follow? (.member "meta") = some o.info.toJson.reread := by
  rw [toJson, follow?_record]
  rfl

end DataObject

/-! ### Graphs -/

namespace Graph

/-- No constant is a single. -/
def FreeOfSingles (g : Graph) : Prop := ∀ x ∈ g.objects, ∀ v, x.info.value? ≠ some (.f32 v)

/-- The numbers of a graph are words. -/
structure Addressable (g : Graph) : Prop where
  objects : g.objects.size ≤ UInt32.size
  nextNode : g.nextNode < UInt32.size
  params : ∀ n ∈ g.nodes, ∀ o, some o ∈ n.params → o.Addressable

namespace Addressable

variable {g : Graph}

theorem node (h : g.Addressable) (hg : g.WellFormed) {n : Node} (hn : n ∈ g.nodes) : n.Addressable where
  id := Nat.lt_trans (hg.fresh n hn) h.nextNode
  params := h.params n hn

theorem object (h : g.Addressable) (hg : g.WellFormed) {i : Nat} {o : DataObject} (ho : g.objects[i]? = some o) :
    o.Addressable := by
  have hi : i < UInt32.size := by
    obtain ⟨hlt, -⟩ := Array.getElem?_eq_some_iff.mp ho
    exact Nat.lt_of_lt_of_le hlt h.objects
  have hsound := hg.objects i o ho
  constructor
  · rw [hsound.id]
    exact hi
  · -- an image of a delay stands behind it
    intro s hs
    obtain ⟨-, hposition, -⟩ := hsound.slot s hs
    show s.delay.index < UInt32.size
    omega

end Addressable

variable {g : Graph}

theorem restores (hg : g.WellFormed) (haddr : g.Addressable) (hfree : g.FreeOfSingles) :
    Restores Graph.ofJson? Graph.toJson g := by
  apply Reads.restores _ g.proper_toJson
  have hobjects : list? DataObject.ofJson? (ofList DataObject.toJson g.objects.toList).reread =
      some g.objects.toList := by
    apply reads_list
    intro o ho
    obtain ⟨i, hi⟩ := List.mem_iff_getElem?.mp ho
    exact DataObject.reads_toJson (haddr.object hg (by simpa using hi)) (hfree o (by simpa using ho))
  show Graph.ofJson? g.toJson.reread = some g
  rw [ofJson?_toJson (fun n hn => haddr.node hg hn) haddr.nextNode, hobjects]
  rfl

theorem loses (hg : g.WellFormed) (haddr : g.Addressable) {i : Nat} {o : DataObject} {v : Single}
    (ho : g.objects[i]? = some o) (hv : o.info.value? = some (.f32 v)) (h : v.Special) :
    Loses Graph.ofJson? Graph.toJson g (.member "objects" :: .item i :: .member "meta" :: Meta.singlePath) := by
  have hmem : o ∈ g.objects.toList := List.mem_of_getElem? (by simpa using ho)
  apply loses_of_reread g.proper_toJson
  · have hobjects : g.toJson.reread.follow? (.member "objects") =
        some (ofList DataObject.toJson g.objects.toList).reread := by
      rw [toJson, follow?_record]
      rfl
    have hitem : (ofList DataObject.toJson g.objects.toList).reread.follow? (.item i) = some o.toJson.reread := by
      rw [follow?_ofList]
      simp [ho]
    rw [at?_cons hobjects, at?_cons hitem, at?_cons o.follow?_meta]
    exact Meta.at?_singlePath hv h
  · have hlist : list? DataObject.ofJson? (ofList DataObject.toJson g.objects.toList).reread = none := by
      rw [reread_ofList, list?, List.mapM_map]
      exact mapM_eq_none hmem (DataObject.ofJson?_special (haddr.object hg ho) hv h)
    rw [ofJson?_toJson (fun n hn => haddr.node hg hn) haddr.nextNode, hlist]
    rfl

end Graph

/-! ### Plans -/

namespace Resolved

theorem reads_toJson {r : Resolved} (haddr : r.object.Addressable) (hobject : ∀ x, r.object.info.value? ≠ some (.f32 x))
    (hinfo : ∀ x, r.info.value? ≠ some (.f32 x)) : Reads ofJson? toJson r := by
  have hfirst : DataObject.ofJson? r.object.toJson.reread = some r.object := DataObject.reads_toJson haddr hobject
  have hsecond : Meta.ofJson? r.info.toJson.reread = some r.info := Meta.reads_toJson hinfo
  show ofJson? r.toJson.reread = some r
  rw [ofJson?_toJson, hfirst, hsecond]
  rfl

theorem ofJson?_special {r : Resolved} {x : Single} (haddr : r.object.Addressable)
    (hr : r.object.info.value? = some (.f32 x) ∨ r.info.value? = some (.f32 x)) (h : x.Special) :
    ofJson? r.toJson.reread = none := by
  rw [ofJson?_toJson]
  rcases hr with hr | hr
  · rw [DataObject.ofJson?_special haddr hr h]
    rfl
  · rw [Meta.ofJson?_special hr h]
    cases DataObject.ofJson? r.object.toJson.reread <;> rfl

theorem follow?_object (r : Resolved) : r.toJson.reread.follow? (.member "object") = some r.object.toJson.reread := by
  rw [toJson, follow?_record]
  rfl

theorem follow?_resolved (r : Resolved) : r.toJson.reread.follow? (.member "resolved") = some r.info.toJson.reread := by
  rw [toJson, follow?_record]
  rfl

end Resolved

namespace Plan

/-- No constant is a single, neither as it was declared nor as it was found. -/
def FreeOfSingles (p : Plan) : Prop :=
  ∀ o r, p.object? o = some r → ∀ v, r.object.info.value? ≠ some (.f32 v) ∧ r.info.value? ≠ some (.f32 v)

variable {p q : Plan}

theorem mem_entries_iff {o : ObjectId} {r : Resolved} : (o, r) ∈ p.objects.entries ↔ p.object? o = some r :=
  IdMap.get?_eq_some_iff.symm

theorem restores (haddr : p.Addressable) (hfree : p.FreeOfSingles) : Restores ofJson? toJson p := by
  apply Reads.restores _ p.proper_toJson
  have htable : table? (Json.object (p.objects.entries.map keyed)).reread = some p.objects := by
    apply reads_table
    · rintro ⟨o, r⟩ he
      exact haddr.keys o r (mem_entries_iff.mp he)
    · rintro ⟨o, r⟩ he
      have hr := mem_entries_iff.mp he
      exact Resolved.reads_toJson (haddr.objects o r hr) (fun v => (hfree o r hr v).1) fun v => (hfree o r hr v).2
  show ofJson? p.toJson.reread = some p
  rw [ofJson?_toJson haddr.stages, htable]
  rfl

theorem eq_of_toString_eq {m n : Nat} (h : toString m = toString n) : m = n := by
  have hdigits : Nat.toDigits 10 m = Nat.toDigits 10 n := by
    rw [Nat.toString_eq_ofList_toDigits, Nat.toString_eq_ofList_toDigits] at h
    simpa using congrArg String.toList h
  calc m = Nat.ofDigitChars 10 (Nat.toDigits 10 m) 0 := Nat.ofDigitChars_ten_toDigits.symm
    _ = Nat.ofDigitChars 10 (Nat.toDigits 10 n) 0 := by rw [hdigits]
    _ = n := Nat.ofDigitChars_ten_toDigits

theorem lookup_toString {α : Type} (f : Resolved → α) (entries : List (ObjectId × Resolved)) (o : ObjectId) :
    (entries.map fun e => (toString e.1.index, f e.2)).lookup (toString o.index) = (entries.lookup o).map f := by
  induction entries with
  | nil => rfl
  | cons e rest ih =>
    obtain ⟨k, r⟩ := e
    by_cases hk : o = k
    · simp [hk]
    · -- numbers that differ have names that differ
      have hname : (toString o.index == toString k.index) = false := by
        apply beq_false_of_ne
        intro hsame
        exact hk (IdMap.object_ext (eq_of_toString_eq hsame))
      have hkey : (o == k) = false := beq_false_of_ne hk
      simp only [List.map_cons, List.lookup_cons, hname, hkey]
      exact ih

/-- The members of a table are named by the numbers of its objects. -/
theorem follow?_table (entries : List (ObjectId × Resolved)) (o : ObjectId) :
    (Json.object (entries.map keyed)).reread.follow? (.member (toString o.index)) =
      (entries.lookup o).map fun r => r.toJson.reread := by
  have hmembers : (entries.map fun e => (pieces (toString e.1.index), e.2.toJson.reread)).filterMap member? =
      entries.map fun e => (toString e.1.index, e.2.toJson.reread) := by
    rw [List.filterMap_map]
    apply List.filterMap_eq_map_iff_forall_eq_some.mpr
    intro e _
    show member? (pieces (toString e.1.index), e.2.toJson.reread) = _
    rw [← reread_digits]
    exact member?_pieces _ _
  rw [reread_table, follow?, hmembers]
  exact lookup_toString (fun r => r.toJson.reread) entries o

theorem loses (haddr : p.Addressable) {o : ObjectId} {r : Resolved} {v : Single} (hr : p.object? o = some r)
    (h : v.Special) {path : List Selector}
    (hv : r.object.info.value? = some (.f32 v) ∨ r.info.value? = some (.f32 v))
    (hpath : r.toJson.reread.at? path = some .null) :
    Loses ofJson? toJson p (.member "objects" :: .member (toString o.index) :: path) := by
  apply loses_of_reread p.proper_toJson
  · have hobjects : p.toJson.reread.follow? (.member "objects") =
        some (Json.object (p.objects.entries.map keyed)).reread := by
      rw [toJson, follow?_record]
      rfl
    have hentry : (Json.object (p.objects.entries.map keyed)).reread.follow? (.member (toString o.index)) =
        some r.toJson.reread := by
      have hlookup : p.objects.entries.lookup o = some r := hr
      rw [follow?_table, hlookup]
      rfl
    rw [at?_cons hobjects, at?_cons hentry]
    exact hpath
  · have htable : table? (Json.object (p.objects.entries.map keyed)).reread = none :=
      table?_eq_none (mem_entries_iff.mpr hr) (Resolved.ofJson?_special (haddr.objects o r hr) hv h)
    rw [ofJson?_toJson haddr.stages, htable]
    rfl

/-! ### Numbers along optimisation -/

theorem addressable_of_reads {stage : Stage} (h : stage.Addressable) {o : ObjectId} (ho : o ∈ stage.reads) :
    o.Addressable := by
  obtain ⟨⟨s, hs, hread⟩, -⟩ := Stage.mem_reads.mp ho
  obtain ⟨slot, -, hslot, -⟩ := Step.mem_boundBy.mp hread
  exact (h.steps s hs).params o (List.mem_of_getElem? hslot)

theorem Addressable.join {producer consumer : Stage} {t : ObjectId} (hp : producer.Addressable)
    (hc : consumer.Addressable) (ht : t.Addressable) : (join producer consumer t).Addressable where
  steps s hs := (List.mem_append.mp hs).elim (hp.steps s) (hc.steps s)
  internal o ho := by
    simp only [Plan.join, List.mem_append, List.mem_singleton] at ho
    rcases ho with (ho | ho) | rfl
    · exact hp.internal o ho
    · exact hc.internal o ho
    · exact ht

theorem Addressable.fuseOnce {e : Event} (h : p.Addressable) (hq : p.fuseOnce = some (q, e)) : q.Addressable := by
  unfold Plan.fuseOnce at hq
  split at hq
  case h_1 => cases hq
  case h_2 c hc =>
    split at hq
    case h_2 => cases hq
    case h_1 producer consumer hproducer hconsumer =>
      injection hq with hq
      injection hq with hq
      -- the image between the two is read by the consumer
      have hbetween : c.intermediate.Addressable := by
        unfold candidate? at hc
        obtain ⟨⟨stage, i⟩, hmem, hc⟩ := List.exists_of_findSome?_eq_some hc
        dsimp only at hc
        split at hc
        case isFalse => cases hc
        case isTrue =>
          obtain ⟨o, ho, hc⟩ := List.exists_of_findSome?_eq_some hc
          obtain ⟨-, hsame, -⟩ := candidateAt_eq_some hc
          rw [hsame]
          exact addressable_of_reads (h.stages stage (List.mem_of_getElem? (List.mem_zipIdx_iff_getElem?.mp hmem))) ho
      have hjoin := Addressable.join (h.stages producer (List.mem_of_getElem? hproducer))
        (h.stages consumer (List.mem_of_getElem? hconsumer)) hbetween
      rw [← hq]
      refine ⟨h.keys, h.objects, ?_⟩
      intro s hs
      rcases List.mem_or_eq_of_mem_set (List.mem_of_mem_eraseIdx hs) with hs | rfl
      · exact h.stages s hs
      · exact hjoin

theorem object?_of_prune {o : ObjectId} {r : Resolved} (h : p.prune.1.object? o = some r) : p.object? o = some r := by
  have hget : p.prune.1.object? o = if o ∈ unusedObjects p.objects p.prune.1.stages then none else p.object? o :=
    IdMap.get?_foldl_erase _ _ _
  rw [hget] at h
  split at h
  · cases h
  · exact h

theorem stable_addressable : Stable Addressable where
  prune _ h := by
    refine ⟨?_, ?_, ?_⟩
    · exact fun o r hr => h.keys o r (object?_of_prune hr)
    · exact fun o r hr => h.objects o r (object?_of_prune hr)
    · exact fun s hs => h.stages s (stages_prune_sublist.subset hs)
  fuseOnce _ _ _ h hq := h.fuseOnce hq

theorem addressable_of_verify {r : Registry} {g : Graph} (hg : g.WellFormed) (haddr : g.Addressable)
    (h : g.verify r = .ok p) : p.Addressable := by
  obtain ⟨l, known, hl, rfl⟩ := Graph.exists_resolves h
  have hobject : ∀ o r, (g.planOf l known).object? o = some r → g.objects[o.index]? = some r.object :=
    fun o r hr => ((Graph.object?_planOf hg).mp hr).1
  refine ⟨?_, ?_, ?_⟩
  · intro o r hr
    obtain ⟨hlt, -⟩ := Array.getElem?_eq_some_iff.mp (hobject o r hr)
    exact Nat.lt_of_lt_of_le hlt haddr.objects
  · exact fun o r hr => haddr.object hg (hobject o r hr)
  · intro s hs
    obtain ⟨c, hc, rfl⟩ := List.mem_map.mp hs
    have hnode := haddr.node hg (hl.nodes.subset (List.mem_map.mpr ⟨c, hc, rfl⟩))
    constructor
    · intro step hstep
      rw [List.mem_singleton.mp hstep]
      exact ⟨hnode.id, hnode.params⟩
    · exact fun o ho => absurd ho List.not_mem_nil

end Plan

namespace Graph

/-- The text of a graph that was built, and of every plan that verification and any optimisations of it give,
reads back as an equal value when no constant is a single. A constant that is no number, or infinite, has null in
its place, and the text is not read. -/
theorem text_reads_back_without_singles (g : Graph) (hg : g.Built) (haddr : g.Addressable) :
    (g.FreeOfSingles → Restores Graph.ofJson? Graph.toJson g) ∧
    (∀ (i : Nat) (x : DataObject) (v : Single), g.objects[i]? = some x → x.info.value? = some (.f32 v) → v.Special →
      Loses Graph.ofJson? Graph.toJson g (.member "objects" :: .item i :: .member "meta" :: Meta.singlePath)) ∧
    ∀ (r : Registry) (p : Plan), g.verify r = .ok p → ∀ (configs : List OptimizerConfig) (q : Plan),
      q = configs.foldl (fun q c => (q.optimize c).1) p →
      (q.FreeOfSingles → Restores Plan.ofJson? Plan.toJson q) ∧
      ∀ (o : ObjectId) (x : Resolved) (v : Single), q.object? o = some x → v.Special →
        (x.object.info.value? = some (.f32 v) → Loses Plan.ofJson? Plan.toJson q (.member "objects" ::
          .member (toString o.index) :: .member "object" :: .member "meta" :: Meta.singlePath)) ∧
        (x.info.value? = some (.f32 v) → Loses Plan.ofJson? Plan.toJson q (.member "objects" ::
          .member (toString o.index) :: .member "resolved" :: Meta.singlePath)) := by
  have hwell := hg.wellFormed
  refine ⟨restores hwell haddr, ?_, ?_⟩
  · intro i x v hx hv hspecial
    exact loses hwell haddr hx hv hspecial
  · intro r p hp configs q hq
    have hplan : q.Addressable := by
      rw [hq]
      exact Plan.stable_addressable.foldl_optimize configs (Plan.addressable_of_verify hwell haddr hp)
    refine ⟨Plan.restores hplan, ?_⟩
    intro o x v hx hspecial
    constructor
    · intro hv
      apply Plan.loses hplan hx hspecial (.inl hv)
      rw [at?_cons x.follow?_object, at?_cons x.object.follow?_meta]
      exact Meta.at?_singlePath hv hspecial
    · intro hv
      apply Plan.loses hplan hx hspecial (.inr hv)
      rw [at?_cons x.follow?_resolved]
      exact Meta.at?_singlePath hv hspecial

/-- A node of an unknown kernel whose name needs escapes, bound to an object that does not exist. -/
def stray : Graph := Graph.empty.edit [.node "a \"kernel\"\n" [some ⟨7⟩, none]]

/-- Two constants, of which the second is no number. -/
def undefinedConstant : Graph := Graph.empty.edit [.constant (.f32 ⟨0x3f800000⟩), .constant (.f32 ⟨0x7fc00000⟩)]

theorem text_reads_back_without_singles_stray : Restores Graph.ofJson? Graph.toJson stray ∧
    ∃ p, undefinedConstant.verify .standard = .ok p ∧ Loses Plan.ofJson? Plan.toJson p (.member "objects" ::
      .member "1" :: .member "resolved" :: Meta.singlePath) := by
  have hparams : ∀ n ∈ stray.nodes, n.params = [some ⟨7⟩, none] := by decide
  have hstray : stray.Addressable := by
    refine ⟨by decide, by decide, ?_⟩
    intro n hn o ho
    rw [hparams n hn] at ho
    have hseven : o = ⟨7⟩ := by simpa using ho
    rw [hseven]
    show 7 < UInt32.size
    decide
  have hundefined : undefinedConstant.Addressable := by
    refine ⟨by decide, by decide, ?_⟩
    intro n hn
    exact absurd hn List.not_mem_nil
  have hvalue : ((undefinedConstant.verify .standard).toOption.bind fun p =>
      (p.object? ⟨1⟩).bind fun x => x.info.value?) = some (.f32 ⟨0x7fc00000⟩) := by decide +kernel
  constructor
  · apply (text_reads_back_without_singles stray ⟨_, rfl⟩ hstray).1
    intro x hx
    exact absurd hx (Array.not_mem_empty x)
  · cases hp : undefinedConstant.verify .standard with
    | error e =>
      rw [hp] at hvalue
      cases hvalue
    | ok p =>
      rw [hp] at hvalue
      change ((p.object? ⟨1⟩).bind fun x => x.info.value?) = some (.f32 ⟨0x7fc00000⟩) at hvalue
      obtain ⟨x, hx, hv⟩ := Option.bind_eq_some_iff.mp hvalue
      have hplans := (text_reads_back_without_singles undefinedConstant ⟨_, rfl⟩ hundefined).2.2 .standard p hp
      exact ⟨p, rfl, ((hplans [] p rfl).2 ⟨1⟩ x ⟨0x7fc00000⟩ hx (.inl (by decide))).2 hv⟩

end Graph

end VisionGraph
