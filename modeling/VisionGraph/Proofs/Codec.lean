import VisionGraph.Codec.Plan
import VisionGraph.Proofs.FiniteMap
import VisionGraph.Proofs.Metadata
import VisionGraph.Proofs.Records
/-!
Graphs and plans that were written, as they are read.

All of a graph comes back as it was, except that a single is read from its decimal: a reader refuses the
null that stands for a single without one. The numbers of objects and nodes have to be words.
-/

namespace VisionGraph

open Json

/-! ### Names of alternatives -/

/-- A name in place of a value is read through the table of names. -/
theorem reads_label {α : Type} {label : α → String} {find : String → Option α} (h : ∀ a, find (label a) = some a)
    (a : α) : Reads (fun j => j.bareVariant?.bind find) (fun a => ofText (label a)) a := by
  show (ofText (label a)).reread.bareVariant?.bind find = some a
  rw [bareVariant?_ofText]
  exact h a

theorem Kind.ofLabel?_label (k : Kind) : ofLabel? k.label = some k := by cases k <;> rfl

theorem ScalarType.ofLabel?_label (t : ScalarType) : ofLabel? t.label = some t := by cases t <;> rfl

theorem Format.reads_formatJson (f : Format) : Reads Format.ofJson? formatJson f :=
  reads_label (fun f => by cases f <;> rfl) f

theorem ItemType.reads_text (t : ItemType) : Reads ItemType.ofJson? (fun t => ofText t.label) t :=
  reads_label (fun t => by cases t <;> rfl) t

theorem ScalarType.reads_text (t : ScalarType) : Reads ScalarType.ofJson? (fun t => ofText t.label) t :=
  reads_label ScalarType.ofLabel?_label t

theorem Direction.reads_toJson (d : Direction) : Reads Direction.ofJson? Direction.toJson d :=
  reads_label (fun d => by cases d <;> rfl) d

theorem reads_word (w : UInt32) : Reads word? wordJson w := word?_ofNat w

theorem reads_optionalWord (w : Option UInt32) : Reads (option? word?) (ofOption wordJson) w :=
  reads_option rfl fun w _ => reads_word w

theorem Format.reads_optional (f : Option Format) : Reads (option? Format.ofJson?) (ofOption formatJson) f :=
  reads_option rfl fun f _ => f.reads_formatJson

/-! ### Data -/

namespace Scalar

theorem ofJson?_toJson (v : Scalar) {content : Json} (h : v.toJson = tagged v.type.label content) :
    ofJson? v.toJson.reread = ofTyped? v.type content.reread := by
  rw [h, ofJson?, variant?_tagged]
  simp [ScalarType.ofLabel?_label]

/-- A scalar other than a single is read back. -/
theorem reads_toJson {v : Scalar} (h : ∀ x, v ≠ .f32 x) : Reads ofJson? toJson v := by
  show ofJson? v.toJson.reread = some v
  rw [ofJson?_toJson v rfl]
  cases v with
  | u8 v =>
    show (nat? UInt8.size (ofNat v.toNat)).map _ = _
    rw [nat?_ofNat v.toNat_lt_size (by decide)]
    simp
  | u16 v =>
    show (nat? UInt16.size (ofNat v.toNat)).map _ = _
    rw [nat?_ofNat v.toNat_lt_size (by decide)]
    simp
  | s16 v =>
    show (int? (-32768) 32767 (ofInt v.toInt).reread).map _ = _
    have hlo := v.le_toInt
    have hhi := v.toInt_lt
    rw [reread_ofInt, int?_ofInt (by omega) (by omega) (by omega) (by omega)]
    simp
  | s32 v =>
    show (int? (-2147483648) 2147483647 (ofInt v.toInt).reread).map _ = _
    have hlo := v.le_toInt
    have hhi := v.toInt_lt
    rw [reread_ofInt, int?_ofInt (by omega) (by omega) (by omega) (by omega)]
    simp
  | f32 v => exact absurd rfl (h v)
  | bool v => rfl
  | u32 v | enum v =>
    show (word? (ofNat v.toNat)).map _ = _
    rw [word?_ofNat]
    rfl

theorem proper_toJson (v : Scalar) : v.toJson.Proper := by
  cases v <;> simp [toJson]

theorem toJson_special {x : Single} (h : x.Special) : (f32 x).toJson = tagged ScalarType.f32.label .null := by
  show tagged _ (ofSingle x) = _
  rw [ofSingle_eq_null h]
  rfl

theorem ofJson?_special {x : Single} (h : x.Special) : ofJson? (f32 x).toJson.reread = none := by
  rw [ofJson?_toJson _ (toJson_special h)]
  rfl

end Scalar

namespace ImageMeta

theorem reads_toJson (m : ImageMeta) : Reads ofJson? toJson m := by
  show ofJson? m.toJson.reread = some m
  have hwidth : option? word? (ofOption wordJson m.width).reread = _ := reads_optionalWord _
  have hheight : option? word? (ofOption wordJson m.height).reread = _ := reads_optionalWord _
  have hformat : option? Format.ofJson? (ofOption formatJson m.format).reread = _ := Format.reads_optional _
  rw [ofJson?, toJson, fields?_record (by rfl) (by decide)]
  simp [rereadFields, Fields.optional, List.lookup_cons, hwidth, hheight, hformat]

theorem proper_toJson (m : ImageMeta) : m.toJson.Proper := by
  simp [toJson, wordJson, formatJson]

end ImageMeta

namespace ArrayMeta

theorem reads_toJson (m : ArrayMeta) : Reads ofJson? toJson m := by
  show ofJson? m.toJson.reread = some m
  have htype : option? ItemType.ofJson? (ofOption (fun t => ofText t.label) m.itemType).reread = _ :=
    reads_option rfl fun t _ => t.reads_text
  have hcapacity : option? word? (ofOption wordJson m.capacity).reread = _ := reads_optionalWord _
  rw [ofJson?, toJson, fields?_record (by rfl) (by decide)]
  simp [rereadFields, Fields.optional, List.lookup_cons, htype, hcapacity]

theorem proper_toJson (m : ArrayMeta) : m.toJson.Proper := by
  simp [toJson, wordJson]

end ArrayMeta

namespace PyramidMeta

theorem reads_toJson (m : PyramidMeta) : Reads ofJson? toJson m := by
  show ofJson? m.toJson.reread = some m
  have hlevels : option? word? (ofOption wordJson m.levels).reread = _ := reads_optionalWord _
  have hwidth : option? word? (ofOption wordJson m.width).reread = _ := reads_optionalWord _
  have hheight : option? word? (ofOption wordJson m.height).reread = _ := reads_optionalWord _
  have hformat : option? Format.ofJson? (ofOption formatJson m.format).reread = _ := Format.reads_optional _
  rw [ofJson?, toJson, fields?_record (by rfl) (by decide)]
  simp [rereadFields, Fields.optional, List.lookup_cons, hlevels, hwidth, hheight, hformat]

theorem proper_toJson (m : PyramidMeta) : m.toJson.Proper := by
  simp [toJson, wordJson, formatJson]

end PyramidMeta

namespace DelayMeta

theorem reads_toJson (m : DelayMeta) : Reads ofJson? toJson m := by
  show ofJson? m.toJson.reread = some m
  have hslots : word? (wordJson m.slots).reread = _ := reads_word m.slots
  have htemplate : ImageMeta.ofJson? m.template.toJson.reread = _ := m.template.reads_toJson
  rw [ofJson?, toJson, fields?_record (by rfl) (by decide)]
  simp [rereadFields, Fields.required, List.lookup_cons, hslots, htemplate]

theorem proper_toJson (m : DelayMeta) : m.toJson.Proper := by
  simp [toJson, wordJson, ImageMeta.proper_toJson]

end DelayMeta

namespace ScalarMeta

theorem ofJson?_toJson (m : ScalarMeta) : ofJson? m.toJson.reread =
    (option? Scalar.ofJson? (ofOption Scalar.toJson m.value).reread).map fun value => { m with value := value } := by
  have htype : option? ScalarType.ofJson? (ofOption (fun t => ofText t.label) m.type).reread = _ :=
    reads_option rfl fun t _ => t.reads_text
  rw [ofJson?, toJson, fields?_record (by rfl) (by decide)]
  cases hvalue : option? Scalar.ofJson? (ofOption Scalar.toJson m.value).reread <;>
    simp [rereadFields, Fields.optional, List.lookup_cons, htype, hvalue]

theorem reads_toJson {m : ScalarMeta} (h : ∀ x, m.value ≠ some (.f32 x)) : Reads ofJson? toJson m := by
  have hvalue : option? Scalar.ofJson? (ofOption Scalar.toJson m.value).reread = some m.value :=
    reads_option rfl fun v hv => Scalar.reads_toJson fun x hx => h x (by rw [hv, hx])
  show ofJson? m.toJson.reread = some m
  rw [ofJson?_toJson, hvalue]
  rfl

theorem ofJson?_special {m : ScalarMeta} {x : Single} (hm : m.value = some (.f32 x)) (h : x.Special) :
    ofJson? m.toJson.reread = none := by
  have hvalue : option? Scalar.ofJson? (ofOption Scalar.toJson m.value).reread = none := by
    rw [hm]
    exact option?_eq_none nofun (Scalar.ofJson?_special h)
  rw [ofJson?_toJson, hvalue]
  rfl

theorem proper_toJson (m : ScalarMeta) : m.toJson.Proper := by
  simp [toJson, Scalar.proper_toJson]

end ScalarMeta

namespace Meta

theorem ofJson?_toJson (m : Meta) {content : Json} (h : m.toJson = tagged m.kind.label content) :
    ofJson? m.toJson.reread = ofKind? m.kind content.reread := by
  rw [h, ofJson?, variant?_tagged]
  simp [Kind.ofLabel?_label]

/-- Metadata without a single is read back. -/
theorem reads_toJson {m : Meta} (h : ∀ x, m.value? ≠ some (.f32 x)) : Reads ofJson? toJson m := by
  show ofJson? m.toJson.reread = some m
  rw [ofJson?_toJson m rfl]
  cases m with
  | image m => exact congrArg (Option.map image) m.reads_toJson
  | array m => exact congrArg (Option.map array) m.reads_toJson
  | scalar m => exact congrArg (Option.map scalar) (ScalarMeta.reads_toJson h)
  | pyramid m => exact congrArg (Option.map pyramid) m.reads_toJson
  | delay m => exact congrArg (Option.map delay) m.reads_toJson

theorem exists_scalar_of_value? {m : Meta} {v : Scalar} (h : m.value? = some v) :
    ∃ s : ScalarMeta, m = .scalar s ∧ s.value = some v := by
  cases m with
  | scalar s => exact ⟨s, rfl, h⟩
  | image | array | pyramid | delay => cases h

theorem ofJson?_special {m : Meta} {x : Single} (hm : m.value? = some (.f32 x)) (h : x.Special) :
    ofJson? m.toJson.reread = none := by
  obtain ⟨s, rfl, hs⟩ := exists_scalar_of_value? hm
  rw [ofJson?_toJson _ rfl]
  exact congrArg (Option.map scalar) (ScalarMeta.ofJson?_special hs h)

theorem proper_toJson (m : Meta) : m.toJson.Proper := by
  unfold toJson
  rw [proper_tagged]
  cases m with
  | image m => exact m.proper_toJson
  | array m => exact m.proper_toJson
  | scalar m => exact m.proper_toJson
  | pyramid m => exact m.proper_toJson
  | delay m => exact m.proper_toJson

end Meta

/-! ### Numbers of objects and nodes -/

/-- The number is a word. -/
def ObjectId.Addressable (o : ObjectId) : Prop := o.index < UInt32.size

/-- The number is a word. -/
def NodeId.Addressable (n : NodeId) : Prop := n.index < UInt32.size

theorem ObjectId.reads_toJson {o : ObjectId} (h : o.Addressable) : Reads ofJson? toJson o := by
  show (nat? UInt32.size (ofNat o.index)).map _ = some o
  rw [nat?_ofNat h (by decide)]
  rfl

theorem NodeId.reads_toJson {n : NodeId} (h : n.Addressable) : Reads ofJson? toJson n := by
  show (nat? UInt32.size (ofNat n.index)).map _ = some n
  rw [nat?_ofNat h (by decide)]
  rfl

theorem DelaySlot.reads_toJson {s : DelaySlot} (h : s.delay.Addressable) : Reads ofJson? toJson s := by
  have hdelay : ObjectId.ofJson? s.delay.toJson.reread = _ := ObjectId.reads_toJson h
  have hage : word? (wordJson s.age).reread = _ := reads_word s.age
  show ofJson? s.toJson.reread = some s
  rw [ofJson?, toJson, fields?_record (by rfl) (by decide)]
  simp [rereadFields, Fields.required, List.lookup_cons, hdelay, hage]

namespace DataObject

/-- The numbers of an object are words. -/
structure Addressable (o : DataObject) : Prop where
  id : o.id.Addressable
  slot : ∀ s, o.slot = some s → s.delay.Addressable

/-- All but the metadata of an object comes back in any case. -/
theorem ofJson?_toJson {o : DataObject} (h : o.Addressable) : ofJson? o.toJson.reread =
    (Meta.ofJson? o.info.toJson.reread).map fun info => { o with info := info } := by
  have hid : ObjectId.ofJson? o.id.toJson.reread = _ := ObjectId.reads_toJson h.id
  have hslot : option? DelaySlot.ofJson? (ofOption DelaySlot.toJson o.slot).reread = _ :=
    reads_option rfl fun s hs => DelaySlot.reads_toJson (h.slot s hs)
  rw [ofJson?, toJson, fields?_record (by rfl) (by decide)]
  -- the metadata may be refused, and then so is the object
  cases hinfo : Meta.ofJson? o.info.toJson.reread <;>
    simp [rereadFields, Fields.required, Fields.optional, List.lookup_cons, reread, bool?, hid, hslot, hinfo]

theorem proper_toJson (o : DataObject) : o.toJson.Proper := by
  simp [toJson, ObjectId.toJson, DelaySlot.toJson, wordJson, Meta.proper_toJson]

end DataObject

/-! ### Graphs -/

theorem Border.reads_toJson (b : Border) : Reads ofJson? toJson b := by
  show ofJson? b.toJson.reread = some b
  cases b with
  | replicate =>
    rw [toJson, ofJson?, variant?_ofText]
    rfl
  | constant v =>
    have hvalue : nat? UInt8.size (ofNat v.toNat).reread = some v.toNat := nat?_ofNat v.toNat_lt_size (by decide)
    rw [toJson, ofJson?, variant?_tagged]
    simp [hvalue]

theorem Border.proper_toJson (b : Border) : b.toJson.Proper := by
  cases b <;> simp [toJson]

theorem reads_params {params : List (Option ObjectId)} (h : ∀ o, some o ∈ params → o.Addressable) :
    Reads params? paramsJson params := by
  apply reads_list
  intro param hparam
  apply reads_option rfl
  intro o ho
  exact ObjectId.reads_toJson (h o (ho ▸ hparam))

theorem proper_params (params : List (Option ObjectId)) : (paramsJson params).Proper := by
  simp [paramsJson, ObjectId.toJson]

namespace Node

/-- The numbers of a node are words. -/
structure Addressable (n : Node) : Prop where
  id : n.id.Addressable
  params : ∀ o, some o ∈ n.params → o.Addressable

theorem reads_toJson {n : Node} (h : n.Addressable) : Reads ofJson? toJson n := by
  have hid : NodeId.ofJson? n.id.toJson.reread = _ := NodeId.reads_toJson h.id
  have hkernel : text? (ofText n.kernel).reread = _ := reads_text n.kernel
  have hparams : params? (paramsJson n.params).reread = _ := reads_params h.params
  have hborder : Border.ofJson? n.border.toJson.reread = _ := n.border.reads_toJson
  show ofJson? n.toJson.reread = some n
  rw [ofJson?, toJson, fields?_record (by rfl) (by decide)]
  simp [rereadFields, Fields.required, List.lookup_cons, hid, hkernel, hparams, hborder]

theorem proper_toJson (n : Node) : n.toJson.Proper := by
  simp [toJson, NodeId.toJson, proper_params, Border.proper_toJson]

end Node

namespace Graph

/-- All but the objects of a graph comes back in any case. -/
theorem ofJson?_toJson {g : Graph} (hnodes : ∀ n ∈ g.nodes, n.Addressable) (hnext : g.nextNode < UInt32.size) :
    ofJson? g.toJson.reread = (list? DataObject.ofJson? (ofList DataObject.toJson g.objects.toList).reread).map
      fun objects => { g with objects := objects.toArray } := by
  have hlist : list? Node.ofJson? (ofList Node.toJson g.nodes).reread = _ :=
    reads_list fun n hn => Node.reads_toJson (hnodes n hn)
  have hcount : nat? UInt32.size (ofNat g.nextNode).reread = _ := nat?_ofNat hnext (by decide)
  rw [ofJson?, toJson, fields?_record (by rfl) (by decide)]
  -- one object that is refused is enough to refuse the graph
  cases hobjects : list? DataObject.ofJson? (ofList DataObject.toJson g.objects.toList).reread <;>
    simp [rereadFields, Fields.required, List.lookup_cons, hlist, hcount, hobjects]

theorem proper_toJson (g : Graph) : g.toJson.Proper := by
  simp [toJson, DataObject.proper_toJson, Node.proper_toJson]

end Graph

/-! ### Plans -/

namespace Step

/-- The numbers of a step are words. -/
structure Addressable (s : Step) : Prop where
  origin : s.origin.Addressable
  params : ∀ o, some o ∈ s.params → o.Addressable

theorem reads_toJson {s : Step} (h : s.Addressable) : Reads ofJson? toJson s := by
  have horigin : NodeId.ofJson? s.origin.toJson.reread = _ := NodeId.reads_toJson h.origin
  have hkernel : text? (ofText s.kernel).reread = _ := reads_text s.kernel
  have hparams : params? (paramsJson s.params).reread = _ := reads_params h.params
  have hdirections : list? Direction.ofJson? (ofList Direction.toJson s.directions).reread = _ :=
    reads_list fun d _ => d.reads_toJson
  have hborder : Border.ofJson? s.border.toJson.reread = _ := s.border.reads_toJson
  show ofJson? s.toJson.reread = some s
  rw [ofJson?, toJson, fields?_record (by rfl) (by decide)]
  simp [rereadFields, Fields.required, List.lookup_cons, horigin, hkernel, hparams, hdirections, hborder]

theorem proper_toJson (s : Step) : s.toJson.Proper := by
  simp [toJson, NodeId.toJson, Direction.toJson, proper_params, Border.proper_toJson]

end Step

namespace Stage

/-- The numbers of a stage are words. -/
structure Addressable (s : Stage) : Prop where
  steps : ∀ step ∈ s.steps, step.Addressable
  internal : ∀ o ∈ s.internal, o.Addressable

theorem reads_toJson {s : Stage} (h : s.Addressable) : Reads ofJson? toJson s := by
  have hsteps : list? Step.ofJson? (ofList Step.toJson s.steps).reread = _ :=
    reads_list fun step hstep => Step.reads_toJson (h.steps step hstep)
  have hinternal : list? ObjectId.ofJson? (ofList ObjectId.toJson s.internal).reread = _ :=
    reads_list fun o ho => ObjectId.reads_toJson (h.internal o ho)
  show ofJson? s.toJson.reread = some s
  rw [ofJson?, toJson, fields?_record (by rfl) (by decide)]
  simp [rereadFields, Fields.required, List.lookup_cons, reread, bool?, hsteps, hinternal]

theorem proper_toJson (s : Stage) : s.toJson.Proper := by
  simp [toJson, ObjectId.toJson, Step.proper_toJson]

end Stage

namespace Resolved

theorem ofJson?_toJson (r : Resolved) : ofJson? r.toJson.reread =
    (DataObject.ofJson? r.object.toJson.reread).bind fun object =>
      (Meta.ofJson? r.info.toJson.reread).map fun info => ⟨object, info⟩ := by
  rw [ofJson?, toJson, fields?_record (by rfl) (by decide)]
  cases hobject : DataObject.ofJson? r.object.toJson.reread <;>
    cases hinfo : Meta.ofJson? r.info.toJson.reread <;>
      simp [rereadFields, Fields.required, List.lookup_cons, hobject, hinfo]

theorem proper_toJson (r : Resolved) : r.toJson.Proper := by
  simp [toJson, DataObject.proper_toJson, Meta.proper_toJson]

end Resolved

namespace Plan

theorem pieces_toString (n : Nat) : pieces (toString n) = (Nat.toDigits 10 n).map Piece.plain := by
  rw [pieces, Nat.toString_eq_ofList_toDigits, String.toList_ofList]

/-- Digits stand for themselves between quotes. -/
theorem reread_digits (n : Nat) : (pieces (toString n)).map Piece.reread = pieces (toString n) := by
  rw [pieces_toString, List.map_map]
  apply List.map_congr_left
  intro c hc
  have hplain : Piece.isEscaped c = false := Piece.isEscaped_of_isDigit ((Numeral.whole_toDigits n).digit c hc)
  show Piece.reread (.plain c) = .plain c
  simp [Piece.reread, hplain]

theorem key?_pieces {o : ObjectId} (h : o.Addressable) : key? (pieces (toString o.index)) = some o := by
  have hnumber : ObjectId.ofJson? (.number (Nat.toDigits 10 o.index)) = some o := ObjectId.reads_toJson h
  rw [key?, pieces_toString, List.mapM_map, mapM_eq_some (g := fun c => c) (by intro c _; rfl), List.map_id']
  exact hnumber

theorem reread_table (entries : List (ObjectId × Resolved)) : (Json.object (entries.map keyed)).reread =
    .object (entries.map fun e => (pieces (toString e.1.index), e.2.toJson.reread)) := by
  rw [reread, rereadMembers_eq_map, List.map_map]
  congr 1
  apply List.map_congr_left
  intro e _
  show ((pieces (toString e.1.index)).map Piece.reread, e.2.toJson.reread) = _
  rw [reread_digits]

/-- A table whose entries are read back is read back, since its numbers are in order. -/
theorem reads_table {m : IdMap Resolved} (haddr : ∀ e ∈ m.entries, e.1.Addressable)
    (hreads : ∀ e ∈ m.entries, Resolved.ofJson? e.2.toJson.reread = some e.2) :
    table? (Json.object (m.entries.map keyed)).reread = some m := by
  rw [reread_table, table?, List.foldlM_map, foldlM_eq_some (g := fun t e => t.insert e.1 e.2)]
  · exact congrArg some m.ofList_entries
  · intro e he t
    show ((key? (pieces (toString e.1.index))).bind fun o =>
      (Resolved.ofJson? e.2.toJson.reread).bind fun r => some (t.insert o r)) = _
    rw [key?_pieces (haddr e he), hreads e he]
    rfl

/-- One entry that is refused spoils a table. -/
theorem table?_eq_none {entries : List (ObjectId × Resolved)} {e : ObjectId × Resolved} (he : e ∈ entries)
    (h : Resolved.ofJson? e.2.toJson.reread = none) : table? (Json.object (entries.map keyed)).reread = none := by
  rw [reread_table, table?, List.foldlM_map]
  apply foldlM_eq_none he
  intro t
  show ((key? (pieces (toString e.1.index))).bind fun o =>
    (Resolved.ofJson? e.2.toJson.reread).bind fun r => some (t.insert o r)) = none
  -- the name of the entry is read first, and that may fail as well
  rw [h]
  cases key? (pieces (toString e.1.index)) <;> rfl

/-- The numbers of a plan are words. -/
structure Addressable (p : Plan) : Prop where
  keys : ∀ o r, p.object? o = some r → o.Addressable
  objects : ∀ o r, p.object? o = some r → r.object.Addressable
  stages : ∀ s ∈ p.stages, s.Addressable

/-- All but the objects of a plan comes back in any case. -/
theorem ofJson?_toJson {p : Plan} (hstages : ∀ s ∈ p.stages, s.Addressable) : ofJson? p.toJson.reread =
    (table? (Json.object (p.objects.entries.map keyed)).reread).map fun objects => { p with objects := objects } := by
  have hlist : list? Stage.ofJson? (ofList Stage.toJson p.stages).reread = _ :=
    reads_list fun s hs => Stage.reads_toJson (hstages s hs)
  rw [ofJson?, toJson, fields?_record (by rfl) (by decide)]
  -- the stages hold no constants, so only the table can be refused
  cases htable : table? (Json.object (p.objects.entries.map keyed)).reread <;>
    simp [rereadFields, Fields.required, List.lookup_cons, hlist, htable]

theorem proper_toJson (p : Plan) : p.toJson.Proper := by
  have htable : (Json.object (p.objects.entries.map keyed)).Proper := by
    rw [Json.Proper, properMembers_iff, List.forall_mem_map]
    intro e _
    exact ⟨proper_pieces _, e.2.proper_toJson⟩
  simp [toJson, htable, Stage.proper_toJson]

end Plan

end VisionGraph
