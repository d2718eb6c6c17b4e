import VisionGraph.Proofs.Certificate
import VisionGraph.Proofs.Join

/-! Declaring what is found anyway. Where metadata of a graph is declared that verification would infer, every rule still
accepts and infers the same, since it sees something between what it saw before and what is known at the end. -/
namespace VisionGraph

/-! ### Inference from more metadata -/

namespace Fuller

variable {known next : Array Meta}

theorem antisymm (h : Fuller next known) (h' : Fuller known next) : next = known := by
  apply Array.ext_getElem?
  intro i
  cases hm : known[i]? with
  | none =>
    have hsize := Array.getElem?_eq_none_iff.mp hm
    exact Array.getElem?_eq_none_iff.mpr (h.size ▸ hsize)
  | some m =>
    obtain ⟨n, hn, hext, _⟩ := h.extend i m hm
    obtain ⟨m', hm', hext', _⟩ := h'.extend i n hn
    cases hm.symm.trans hm'
    rw [hn, hext.antisymm hext']

/-- Two states in which one object was replaced, by more in the fuller one. -/
theorem set (h : Fuller next known) {i : Nat} {m n : Meta} (hext : n.Extends m) (hv : n.value? = m.value?) :
    Fuller (next.setIfInBounds i n) (known.setIfInBounds i m) where
  size := by simp [h.size]
  extend j x hx := by
    by_cases hij : i = j
    · subst hij
      have hi : i < known.size := by simpa using (Array.getElem?_eq_some_iff.mp hx).1
      rw [Array.getElem?_setIfInBounds_self_of_lt hi] at hx
      cases hx
      exact ⟨n, Array.getElem?_setIfInBounds_self_of_lt (h.size.symm ▸ hi), hext, hv⟩
    · rw [Array.getElem?_setIfInBounds_ne hij] at hx ⊢
      exact h.extend j x hx

/-- A state stays fuller than another one in which an object was replaced by something that it still covers. -/
theorem set_right (h : Fuller next known) {i : Nat} {m n : Meta} (hn : next[i]? = some n) (hext : n.Extends m)
    (hv : n.value? = m.value?) : Fuller next (known.setIfInBounds i m) := by
  have hsame : next.setIfInBounds i n = next := by
    apply Array.ext_getElem?
    intro j
    by_cases hij : i = j
    · subst hij
      rw [hn, Array.getElem?_setIfInBounds_self_of_lt (Array.getElem?_eq_some_iff.mp hn).1]
    · exact Array.getElem?_setIfInBounds_ne hij
  exact hsame ▸ h.set hext hv

end Fuller

namespace Graph

variable {g next : Graph} {c : Checked} {l : List Checked} {known mid last result : Array Meta}

/-- An inference that merges into what is known merges into more as well, up to what covers both. -/
theorem absorb_between {inference : Inference} (hv : inference.info.value? = none)
    (hobjects : ∀ o ∈ c.node.bound, ∃ object, next.object? o = some object)
    (h : g.absorb c known inference = .ok result) (hmid : Fuller mid known) (hlast : Fuller last mid)
    (hcover : ∀ o, c.node.params[inference.slot]? = some (some o) →
      ∃ m, last[o.index]? = some m ∧ m.Extends inference.info) :
    ∃ mid', next.absorb c mid inference = .ok mid' ∧ Fuller mid' result ∧ Fuller last mid' := by
  obtain ⟨⟨d, hd, hdw⟩, ⟨hnone, rfl⟩ | ⟨o, current, _, hparam, hcurrent, hmerge, rfl⟩⟩ := absorb_eq_ok h
  · exact ⟨mid, by simp [absorb, hd, hdw, hnone], hmid, hlast⟩
  obtain ⟨object, hobject⟩ := hobjects o (Node.mem_bound.mpr ⟨_, hparam⟩)
  obtain ⟨middle, hmiddle, hext, hvalue⟩ := hmid.extend _ current hcurrent
  obtain ⟨m, hm, hmext, hmvalue⟩ := hlast.extend _ middle hmiddle
  obtain ⟨_, hm', hcovers⟩ := hcover o hparam
  cases hm.symm.trans hm'
  -- what is known at the end is above both sides, so they merge into something below it
  have hexact := Meta.Exact.of_value hv
  obtain ⟨flag, hflag⟩ := (Meta.merge_ok_iff hexact).mpr (Meta.compatible_of_le hmext hcovers)
  obtain ⟨⟨_, hleast⟩, _⟩ := Meta.merge_isLUB hexact hmerge
  obtain ⟨⟨_, hleast'⟩, _⟩ := Meta.merge_isLUB hexact hflag
  obtain ⟨_, _, hval⟩ := Meta.merge_ok hv hmerge
  obtain ⟨hleft', hright', hval'⟩ := Meta.merge_ok hv hflag
  refine ⟨mid.setIfInBounds o.index (middle.merge inference.info).after, ?_, hmid.set ?_ ?_, hlast.set_right hm ?_ ?_⟩
  · simp only [absorb, hd, Option.any_some, hdw, Bool.not_true, Bool.false_eq_true, ↓reduceIte, hparam,
      Option.getD_some, hobject, hmiddle, hflag]
  · apply hleast
    simpa [mem_upperBounds] using ⟨hleft'.trans hext, hright'⟩
  · exact hval'.trans (hvalue.trans hval.symm)
  · apply hleast'
    simpa [mem_upperBounds] using ⟨hmext, hcovers⟩
  · exact hmvalue.trans hval'.symm

theorem absorbAll_between {inferences : List Inference} (hv : ∀ i ∈ inferences, i.info.value? = none)
    (hobjects : ∀ o ∈ c.node.bound, ∃ object, next.object? o = some object)
    (h : inferences.foldlM (g.absorb c) known = .ok result) (hmid : Fuller mid known) (hlast : Fuller last mid)
    (hcover : ∀ i ∈ inferences, ∀ o, c.node.params[i.slot]? = some (some o) →
      ∃ m, last[o.index]? = some m ∧ m.Extends i.info) :
    ∃ mid', inferences.foldlM (next.absorb c) mid = .ok mid' ∧ Fuller mid' result ∧ Fuller last mid' := by
  induction inferences generalizing known mid with
  | nil =>
    cases h
    exact ⟨mid, rfl, hmid, hlast⟩
  | cons i rest ih =>
    obtain ⟨s, hfirst, hrest⟩ := foldlM_cons_eq_ok.mp h
    obtain ⟨t, ht, hts, hlt⟩ := absorb_between (hv i List.mem_cons_self) hobjects hfirst hmid hlast
      (hcover i List.mem_cons_self)
    obtain ⟨mid', hall, hresult, hlast'⟩ := ih (fun j hj => hv j (List.mem_cons_of_mem i hj)) hrest hts hlt
      fun j hj => hcover j (List.mem_cons_of_mem i hj)
    exact ⟨mid', foldlM_cons_eq_ok.mpr ⟨t, ht, hall⟩, hresult, hlast'⟩

/-- A node that is given more, but nothing that is not known at the end, infers the same. -/
theorem infer_between (hr : Rule.Regular c.kernel.rule)
    (hobjects : ∀ o ∈ c.node.bound, ∃ object, next.object? o = some object) (h : g.infer known c = .ok result)
    (hmid : Fuller mid known) (hlast : Fuller last mid) (hresult : Fuller last result) :
    ∃ mid', next.infer mid c = .ok mid' ∧ Fuller mid' result ∧ Fuller last mid' := by
  obtain ⟨inferences, hrule, hall⟩ := infer_eq_ok.mp h
  have hv : ∀ i ∈ inferences, i.info.value? = none := fun i hi => (hr.names hrule i hi).1
  have hcover : ∀ i ∈ inferences, ∀ o, c.node.params[i.slot]? = some (some o) →
      ∃ m, last[o.index]? = some m ∧ m.Extends i.info :=
    fun i hi o ho => hresult.covers ((absorb_all hv hall).2 i hi o ho)
  have hagain := hr.settles (hmid.refines c) (hlast.refines c) hrule (settled_of_covers hr hrule hcover)
  obtain ⟨mid', hfold, hends⟩ := absorbAll_between hv hobjects hall hmid hlast hcover
  exact ⟨mid', infer_eq_ok.mpr ⟨inferences, hagain, hfold⟩, hends⟩

/-- Along a schedule, a start between the old one and the end leads to the same end. -/
theorem run_between (hr : ∀ c ∈ l, Rule.Regular c.kernel.rule)
    (hobjects : ∀ c ∈ l, ∀ o ∈ c.node.bound, ∃ object, next.object? o = some object)
    (h : l.foldlM g.infer known = .ok last) (hmid : Fuller mid known) (hlast : Fuller last mid) :
    l.foldlM next.infer mid = .ok last := by
  induction l generalizing known mid with
  | nil =>
    cases h
    exact congrArg Except.ok (hmid.antisymm hlast)
  | cons c rest ih =>
    obtain ⟨s, hfirst, hrest⟩ := foldlM_cons_eq_ok.mp h
    have hgrow := run_grows (fun b hb => hr b (List.mem_cons_of_mem c hb)) hrest
    obtain ⟨t, ht, hts, hlt⟩ := infer_between (hr c List.mem_cons_self) (hobjects c List.mem_cons_self) hfirst hmid hlast
      hgrow.fuller
    have hend := ih (fun b hb => hr b (List.mem_cons_of_mem c hb))
      (fun b hb => hobjects b (List.mem_cons_of_mem c hb)) hrest hts hlt
    exact foldlM_cons_eq_ok.mpr ⟨t, ht, hend⟩

end Graph

/-! ### Declaring what was found -/

/-- A field that is open takes the value that was found, if it is chosen. -/
def pinField {α : Type} (chosen : Bool) (declared found : Option α) : Option α :=
  fill declared (if chosen then found else none)

theorem keeps_pinField {α : Type} (chosen : Bool) {declared found : Option α} (h : Keeps found declared) :
    Keeps found (pinField chosen declared found) := by
  cases declared with
  | some x => exact h
  | none =>
    cases chosen with
    | false => exact Keeps.none found
    | true => exact Keeps.refl found

theorem pinField_self {α : Type} (chosen : Bool) (x : Option α) : pinField chosen x x = x := by
  cases x <;> cases chosen <;> rfl

namespace Meta

/-- Metadata with the chosen ones of its open fields as they were found. -/
def pin (chosen : MetaField → Bool) : (declared found : Meta) → Meta
  | .image a, .image b => .image ⟨pinField (chosen .width) a.width b.width,
      pinField (chosen .height) a.height b.height, pinField (chosen .format) a.format b.format⟩
  | .array a, .array b => .array ⟨pinField (chosen .itemType) a.itemType b.itemType,
      pinField (chosen .capacity) a.capacity b.capacity⟩
  | .scalar a, .scalar b => .scalar ⟨pinField (chosen .scalarType) a.type b.type,
      pinField (chosen .value) a.value b.value⟩
  | .pyramid a, .pyramid b => .pyramid ⟨pinField (chosen .levels) a.levels b.levels,
      pinField (chosen .width) a.width b.width, pinField (chosen .height) a.height b.height,
      pinField (chosen .format) a.format b.format⟩
  | a, _ => a

variable {declared found : Meta} (chosen : MetaField → Bool)

/-- It is between what is declared and what was found. -/
theorem pin_between (h : found.Extends declared) (hv : found.value? = declared.value?) :
    (declared.pin chosen found).Extends declared ∧ found.Extends (declared.pin chosen found) ∧
      (declared.pin chosen found).value? = declared.value? := by
  have hk := h.kind_eq
  cases declared <;> cases found <;> cases hk
  case image =>
    obtain ⟨hw, hh, hf⟩ := h
    exact ⟨⟨keeps_fill_left _ _, keeps_fill_left _ _, keeps_fill_left _ _⟩,
      ⟨keeps_pinField _ hw, keeps_pinField _ hh, keeps_pinField _ hf⟩, rfl⟩
  case array =>
    obtain ⟨ht, hc⟩ := h
    exact ⟨⟨keeps_fill_left _ _, keeps_fill_left _ _⟩, ⟨keeps_pinField _ ht, keeps_pinField _ hc⟩, rfl⟩
  case scalar a b =>
    obtain ⟨ht, hvalue⟩ := h
    refine ⟨⟨keeps_fill_left _ _, keeps_fill_left _ _⟩, ⟨keeps_pinField _ ht, keeps_pinField _ hvalue⟩, ?_⟩
    -- there is no value to find
    have hsame : b.value = a.value := hv
    calc pinField (chosen .value) a.value b.value
        = pinField (chosen .value) a.value a.value := by rw [hsame]
      _ = a.value := pinField_self ..
  case pyramid =>
    obtain ⟨hl, hw, hh, hf⟩ := h
    exact ⟨⟨keeps_fill_left _ _, keeps_fill_left _ _, keeps_fill_left _ _, keeps_fill_left _ _⟩,
      ⟨keeps_pinField _ hl, keeps_pinField _ hw, keeps_pinField _ hh, keeps_pinField _ hf⟩, rfl⟩
  case delay => exact ⟨Extends.refl _, h, rfl⟩

end Meta

/-- An object of a graph that declares the chosen ones of its fields as they are in a plan. -/
def DataObject.pin (p : Plan) (chosen : ObjectId → MetaField → Bool) (object : DataObject) : DataObject :=
  { object with
    info := if object.isVirtual then
        ((p.info? object.id).map (object.info.pin (chosen object.id))).getD object.info
      else object.info }

theorem DataObject.pin_of_real {p : Plan} {chosen : ObjectId → MetaField → Bool} {x : DataObject}
    (h : x.isVirtual = false) : x.pin p chosen = x := by
  obtain ⟨id, info, isVirtual, marked, slot⟩ := x
  cases h
  rfl

namespace Graph

/-- The graph whose virtual objects declare the chosen ones of their open fields as verification found them. -/
def pin (g : Graph) (p : Plan) (chosen : ObjectId → MetaField → Bool) : Graph :=
  { g with objects := g.objects.map (·.pin p chosen) }

variable {g : Graph} {p : Plan} {l : List Checked} {known : Array Meta} {o : ObjectId} {x : DataObject}
  (chosen : ObjectId → MetaField → Bool)

theorem object?_pin : (g.pin p chosen).object? o = (g.object? o).map (·.pin p chosen) := Array.getElem?_map ..

theorem lookUp_pin (r : Registry) (n : Node) : (g.pin p chosen).lookUp r n = g.lookUp r n := by
  simp only [lookUp, object?_pin, Option.isNone_map]

section

variable (hg : g.WellFormed) (hknown : Fuller known (g.objects.map (·.info)))
include hg hknown

/-- What an object declares then is between what it declared before and what is known at the end. -/
theorem pin_between (hx : g.object? o = some x) :
    ∃ m, known[o.index]? = some m ∧ (x.pin (g.planOf l known) chosen).info.Extends x.info ∧
      m.Extends (x.pin (g.planOf l known) chosen).info ∧
      (x.pin (g.planOf l known) chosen).info.value? = x.info.value? ∧ m.value? = x.info.value? := by
  obtain ⟨m, hm, hext, hv⟩ := hknown.extend o.index x.info (by simpa using ⟨x, hx, rfl⟩)
  have hid : x.id = o := (hg.objects o.index x hx).id
  refine ⟨m, hm, ?_⟩
  cases hvirtual : x.isVirtual with
  | false =>
    rw [DataObject.pin_of_real hvirtual]
    exact ⟨Meta.Extends.refl _, hext, rfl, hv⟩
  | true =>
    cases hfound : (g.planOf l known).info? o with
    | none =>
      have hsame : (x.pin (g.planOf l known) chosen).info = x.info := by
        simp [DataObject.pin, hvirtual, hid, hfound]
      rw [hsame]
      exact ⟨Meta.Extends.refl _, hext, rfl, hv⟩
    | some found =>
      have hpin : (x.pin (g.planOf l known) chosen).info = x.info.pin (chosen o) found := by
        simp [DataObject.pin, hvirtual, hid, hfound]
      obtain ⟨r, hr, rfl⟩ := Option.map_eq_some_iff.mp hfound
      obtain ⟨_, hinfo, _⟩ := (object?_planOf hg).mp hr
      cases hm.symm.trans hinfo
      obtain ⟨habove, hbelow, hvalue⟩ := Meta.pin_between (chosen o) hext hv
      rw [hpin]
      exact ⟨habove, hbelow, hvalue, hv⟩

/-- No object changes its kind, and none becomes a constant. -/
theorem kind_pin (hx : g.object? o = some x) : (x.pin (g.planOf l known) chosen).kind = x.kind ∧
    (x.pin (g.planOf l known) chosen).isConstant = x.isConstant := by
  obtain ⟨_, _, hext, _, hv, _⟩ := pin_between (l := l) chosen hg hknown hx
  refine ⟨hext.kind_eq, ?_⟩
  have hconstant : (x.pin (g.planOf l known) chosen).constant = x.constant :=
    congrArg (fun v => if x.isVirtual then v else none) hv
  simp only [DataObject.isConstant, hconstant]

theorem WellFormed.pin : (g.pin (g.planOf l known) chosen).WellFormed where
  objects i y hy := by
    obtain ⟨x, hx, rfl⟩ := Option.map_eq_some_iff.mp ((object?_pin (o := ⟨i⟩) chosen).symm.trans hy)
    obtain ⟨hkind, hconst⟩ := kind_pin (l := l) chosen hg hknown hx
    have hs := hg.objects i x hx
    -- a delay and its images are the caller's, so they stay as they are
    have hreal : ∀ {j : Nat} {d : DataObject}, g.objects[j]? = some d → d.isVirtual = false →
        (g.pin (g.planOf l known) chosen).objects[j]? = some d := by
      intro j d hd hv
      have hmap := (object?_pin (o := ⟨j⟩) (p := g.planOf l known) chosen).trans (congrArg _ hd)
      rwa [Option.map_some, DataObject.pin_of_real hv] at hmap
    exact {
      id := hs.id
      real := fun hv => by
        rw [DataObject.pin_of_real (x := x) hv]
        exact hs.real hv
      virtual := hs.virtual
      unmarked := fun hc => hs.unmarked (hconst ▸ hc)
      slot := fun s hslot => by
        obtain ⟨himage, hi, d, hd, hv, hrest⟩ := hs.slot s hslot
        exact ⟨hkind.trans himage, hi, d, hreal hd hv, hv, hrest⟩
      template := fun s hslot => by
        obtain ⟨_, _, d, hd, hv, _⟩ := hs.slot s hslot
        obtain ⟨d', m, hd', hm, hinfo, hage⟩ := hs.template s hslot
        cases hd.symm.trans hd'
        rw [DataObject.pin_of_real (isVirtual_of_slot hs.virtual hslot)]
        exact ⟨d, m, hreal hd hv, hm, hinfo, hage⟩ }
  nodes := hg.nodes
  fresh := hg.fresh

theorem Fits.pin {written : ObjectId → Prop} {spec : Param} {param : Option ObjectId} (h : g.Fits written spec param) :
    (g.pin (g.planOf l known) chosen).Fits written spec param := by
  cases param with
  | none => exact h
  | some o =>
    obtain ⟨x, hx, hrest⟩ := h
    obtain ⟨hkind, hconst⟩ := kind_pin (l := l) chosen hg hknown hx
    refine ⟨x.pin (g.planOf l known) chosen, (object?_pin chosen).trans (congrArg _ hx), ?_⟩
    rw [hkind, hconst]
    exact hrest

/-- The start of inference is between the old start and the old end. -/
theorem fuller_pin : Fuller ((g.pin (g.planOf l known) chosen).objects.map (·.info)) (g.objects.map (·.info)) ∧
    Fuller known ((g.pin (g.planOf l known) chosen).objects.map (·.info)) := by
  have hstart (i : Nat) : ((g.pin (g.planOf l known) chosen).objects.map (·.info))[i]? =
      (g.object? ⟨i⟩).map fun x => (x.pin (g.planOf l known) chosen).info := by
    simp only [Graph.pin, object?, Array.getElem?_map, Option.map_map]
    rfl
  have hsize : ((g.pin (g.planOf l known) chosen).objects.map (·.info)).size = (g.objects.map (·.info)).size := by
    simp [Graph.pin]
  refine ⟨⟨hsize, fun i m hm => ?_⟩, ⟨hknown.size.trans hsize.symm, fun i m hm => ?_⟩⟩
  · obtain ⟨x, hx, rfl⟩ := Option.map_eq_some_iff.mp ((Array.getElem?_map ..).symm.trans hm)
    obtain ⟨_, _, hext, _, hv, _⟩ := pin_between (o := ⟨i⟩) (l := l) chosen hg hknown hx
    exact ⟨_, (hstart i).trans (congrArg _ hx), hext, hv⟩
  · rw [hstart i] at hm
    obtain ⟨x, hx, rfl⟩ := Option.map_eq_some_iff.mp hm
    obtain ⟨n, hn, _, hext, hv, hv'⟩ := pin_between (o := ⟨i⟩) (l := l) chosen hg hknown hx
    exact ⟨n, hn, hext, hv'.trans hv.symm⟩

/-- The plan of the same nodes with the same metadata has the same objects, as far as they are found. -/
theorem object?_planOf_pin : ((g.pin (g.planOf l known) chosen).planOf l known).object? o =
    ((g.planOf l known).object? o).map fun r => ⟨r.object.pin (g.planOf l known) chosen, r.info⟩ := by
  apply Option.ext
  intro r
  rw [object?_planOf (WellFormed.pin chosen hg hknown), object?_pin]
  simp only [Option.map_eq_some_iff]
  constructor
  · rintro ⟨⟨x, hx, hpin⟩, hinfo, hnamed⟩
    obtain ⟨object, info⟩ := r
    cases hpin
    exact ⟨⟨x, info⟩, (object?_planOf hg).mpr ⟨hx, hinfo, hnamed⟩, rfl⟩
  · rintro ⟨r, hr, rfl⟩
    obtain ⟨hx, hinfo, hnamed⟩ := (object?_planOf hg).mp hr
    exact ⟨⟨r.object, hx, rfl⟩, hinfo, hnamed⟩

end

/-- A graph that declares some of what verification finds is accepted, with the same stages in the same order and the
same metadata of every object. -/
theorem verify_pin (hg : g.Built) (h : g.verify .standard = .ok p) (chosen : ObjectId → MetaField → Bool) :
    ∃ q, (g.pin p chosen).verify .standard = .ok q ∧ q.stages = p.stages ∧ ∀ o, q.info? o = p.info? o := by
  obtain ⟨l, known, hl, rfl, hverify⟩ := exists_resolves_along h
  have hg := hg.wellFormed
  have hknown := (run_grows hl.regular hl.run).fuller
  obtain ⟨hmid, hlast⟩ := fuller_pin (l := l) chosen hg hknown
  have hrun : l.foldlM (g.pin (g.planOf l known) chosen).infer
      ((g.pin (g.planOf l known) chosen).objects.map (·.info)) = .ok known := by
    apply run_between hl.regular ?_ hl.run hmid hlast
    intro c hc o ho
    obtain ⟨x, hx⟩ := (lookUp_eq_ok.mp (hl.found c hc)).2.2.2 o ho
    exact ⟨_, (object?_pin chosen).trans (congrArg _ hx)⟩
  have hfits : ∀ written spec param, g.Fits written spec param →
      (g.pin (g.planOf l known) chosen).Fits written spec param := by
    intro written spec param hfit
    exact hfit.pin chosen hg hknown
  refine ⟨_, hverify (g.pin (g.planOf l known) chosen) rfl (lookUp_pin chosen _) hfits known hrun hl.resolved, rfl, ?_⟩
  intro o
  have hobject := object?_planOf_pin (o := o) (l := l) chosen hg hknown
  exact (congrArg (Option.map Resolved.info) hobject).trans (Option.map_map ..)

/-- A node whose input and outputs are all open, behind a node that determines its input. -/
def surveyed : Graph := Graph.empty.edit [.image 3 2 .u8, .virtualImage ⟨none, none, none⟩, .virtualScalar none,
  .virtualScalar none, .virtualArray ⟨none, none⟩, .node "vx.not" [some ⟨0⟩, some ⟨1⟩],
  .node "vx.minmaxloc" [some ⟨1⟩, some ⟨2⟩, some ⟨3⟩, some ⟨4⟩, none, none, none]]

theorem verify_pin_surveyed : ∃ p q, surveyed.verify .standard = .ok p ∧
    surveyed.pin p (fun _ field => field ∈ [.width, .scalarType, .capacity]) ≠ surveyed ∧
      (surveyed.pin p fun _ field => field ∈ [.width, .scalarType, .capacity]).verify .standard = .ok q ∧
      q.stages = p.stages ∧ q.info? ⟨4⟩ = some (.array (.known .coordinates2d 6)) := by
  have hplan : (surveyed.verify .standard).toOption.map (fun p =>
      (decide (surveyed.pin p (fun _ field => field ∈ [.width, .scalarType, .capacity]) = surveyed), p.info? ⟨4⟩)) =
      some (false, some (.array (.known .coordinates2d 6))) := by decide +kernel
  obtain ⟨p, hp, hplan⟩ := Option.map_eq_some_iff.mp hplan
  simp only [Prod.mk.injEq, decide_eq_false_iff_not] at hplan
  obtain ⟨hne, hinfo⟩ := hplan
  have hverify := toOption_eq_some.mp hp
  obtain ⟨q, hq, hstages, hsame⟩ := verify_pin ⟨_, rfl⟩ hverify fun _ field => field ∈ [.width, .scalarType, .capacity]
  exact ⟨p, q, hverify, hne, hq, hstages, (hsame ⟨4⟩).trans hinfo⟩

end Graph

end VisionGraph
