import VisionGraph.Proofs.Failure
import VisionGraph.Proofs.Numbering
import VisionGraph.Proofs.OptimizedRun
import VisionGraph.Session.Pipeline

/-! Bindings that a program allocates. Every object of a plan is fully known, so storage can be made for all objects
that the caller binds; and the check compares shapes, so an object can be exchanged for any other of its shape. -/
namespace VisionGraph

/-- Pyramids that there can be: made with a number of levels, after which images are put into levels. -/
inductive PyramidBuffer.Made : PyramidBuffer → Prop
  | zero (levels width height : UInt32) (format : Format) : Made (.zero levels width height format)
  | setLevel {p : PyramidBuffer} (h : Made p) (k : Nat) (b : ImageBuffer) : Made (p.setLevel k b)

theorem PyramidBuffer.Made.map_levels {p : PyramidBuffer} (h : p.Made) :
    p.info.levels.map UInt32.toNat = some p.levels.size := by
  induction h with
  | zero levels width height format => simp [PyramidBuffer.zero, PyramidMeta.known]
  | setLevel _ k b ih => simpa [PyramidBuffer.setLevel] using ih

/-- Delays that there can be: made with a number of slots, after which images are put into slots and the ring turns. -/
inductive DelayBuffer.Made : DelayBuffer → Prop
  | make {slots : UInt32} {template : ImageMeta} {d : DelayBuffer} (h : make slots template = .ok d) : Made d
  | setSlot {d : DelayBuffer} (h : Made d) (age : Nat) (b : ImageBuffer) : Made (d.setSlot age b)
  | advance {d : DelayBuffer} (h : Made d) : Made d.advance

theorem DelayBuffer.Made.size_lt {d : DelayBuffer} (h : d.Made) : d.size < UInt32.size := by
  induction h with
  | make h =>
    unfold DelayBuffer.make at h
    split at h
    · obtain ⟨slot, _, h⟩ := bind_eq_ok.mp h
      cases h
      simpa [DelayBuffer.size] using UInt32.toNat_lt _
    · cases h
  | setSlot _ age b ih => simpa [DelayBuffer.size] using ih
  | advance _ ih => exact ih

namespace Host

variable {x : Host} {info : Meta}

/-- Host objects that there can be. Images, scalars and arrays are well made by their types. -/
def Made : Host → Prop
  | .pyramid p => p.Made
  | .delay d => d.Made
  | _ => True

/-- The shape and the type of an object are those that metadata gives. The number of levels, of slots and of items is
what the storage holds. -/
def HasShape : Host → Meta → Prop
  | .image b, .image m => m.width = some b.width ∧ m.height = some b.height ∧ m.format = some b.format
  | .scalar v, .scalar m => m.type = some v.type
  | .array a, .array m => m.itemType = some a.itemType ∧ m.capacity.map UInt32.toNat = some a.capacity
  | .pyramid p, .pyramid m => m.levels.map UInt32.toNat = some p.levels.size ∧
    m.width = p.info.width ∧ m.height = p.info.height ∧ m.format = p.info.format
  | .delay d, .delay m => m.slots.toNat = d.size ∧ m.template = d.template
  | _, _ => False

/-- Storage whose parts can be counted in a word. -/
def Counted : Host → Prop
  | .array a => a.capacity < UInt32.size
  | .pyramid p => p.info.levels.map UInt32.toNat = some p.levels.size
  | .delay d => d.size < UInt32.size
  | _ => True

theorem ofNat_eq_iff {n : Nat} (hn : n < UInt32.size) {w : UInt32} : UInt32.ofNat n = w ↔ w.toNat = n := by
  constructor
  · rintro rfl
    exact UInt32.toNat_ofNat_of_lt' hn
  · rintro rfl
    exact UInt32.ofNat_toNat

/-- The check of one object compares its shape. -/
theorem mismatch_eq_none_iff (hx : x.Counted) : x.mismatch info = none ↔ x.HasShape info := by
  cases x with
  | image b =>
    cases info with
    | image m =>
      obtain ⟨w, h, f⟩ := m
      simp [mismatch, HasShape, ImageBuffer.info, ImageMeta.known, eq_comm]
    | _ => simp [mismatch, HasShape]
  | scalar v =>
    cases info with
    | scalar m => simp [mismatch, HasShape, eq_comm]
    | _ => simp [mismatch, HasShape]
  | array a =>
    cases info with
    | array m =>
      obtain ⟨t, c⟩ := m
      have hc : some (UInt32.ofNat a.capacity) = c ↔ c.map UInt32.toNat = some a.capacity := by
        cases c with
        | none => simp
        | some c => simpa using ofNat_eq_iff hx
      simp only [mismatch, HasShape, ArrayBuffer.info, ArrayMeta.known, ArrayMeta.mk.injEq, ite_eq_left_iff,
        reduceCtorEq, imp_false, not_not, hc]
      rw [eq_comm]
    | _ => simp [mismatch, HasShape]
  | pyramid p =>
    cases info with
    | pyramid m =>
      obtain ⟨levels, w, h, f⟩ := m
      have hlevels : p.info.levels = levels ↔ levels.map UInt32.toNat = some p.levels.size := by
        rw [← show p.info.levels.map UInt32.toNat = some p.levels.size from hx, eq_comm]
        exact (Option.map_injective fun _ _ => UInt32.toNat_inj.mp).eq_iff.symm
      have hinfo : p.info = ⟨levels, w, h, f⟩ ↔
          p.info.levels = levels ∧ p.info.width = w ∧ p.info.height = h ∧ p.info.format = f := by
        cases p.info
        simp
      simp only [mismatch, HasShape, ite_eq_left_iff, reduceCtorEq, imp_false, not_not, hinfo, hlevels]
      rw [eq_comm (a := w), eq_comm (a := h), eq_comm (a := f)]
    | _ => simp [mismatch, HasShape]
  | delay d =>
    cases info with
    | delay m =>
      obtain ⟨slots, template⟩ := m
      simp only [mismatch, HasShape, DelayBuffer.info, DelayMeta.mk.injEq, ite_eq_left_iff, reduceCtorEq, imp_false,
        not_not, ofNat_eq_iff hx]
      rw [eq_comm (a := template)]
    | _ => simp [mismatch, HasShape]

/-- Of a host object that there can be, only the capacity of an array may be too large for a word. -/
theorem Made.counted (h : x.Made) (hcapacity : ∀ a, x = .array a → a.capacity < UInt32.size) : x.Counted := by
  cases x with
  | array a => exact hcapacity a rfl
  | pyramid p => exact PyramidBuffer.Made.map_levels h
  | delay d => exact DelayBuffer.Made.size_lt h
  | _ => trivial

/-- A delay with a slot and a complete template has fresh contents. -/
theorem exists_ofMeta_delay {m : DelayMeta} (hslots : 0 < m.slots.toNat) (hres : m.template.isResolved = true) :
    ∃ x, ofMeta (.delay m) = .ok x := by
  obtain ⟨slot, hslot⟩ : ∃ slot, ImageBuffer.ofMeta m.template = .ok slot := by
    obtain ⟨x, hx⟩ := @exists_ofMeta (.image m.template) hres (by simp [Meta.kind])
    obtain ⟨slot, hslot, _⟩ := map_eq_ok.mp hx
    exact ⟨slot, hslot⟩
  have hmake : ∃ d, DelayBuffer.ofMeta m = .ok d := by
    unfold DelayBuffer.ofMeta DelayBuffer.make
    rw [dif_pos hslots]
    exact ⟨_, bind_eq_ok.mpr ⟨slot, hslot, rfl⟩⟩
  obtain ⟨d, hd⟩ := hmake
  exact ⟨.delay d, map_eq_ok.mpr ⟨d, hd, rfl⟩⟩

end Host

namespace Graph

variable {g next : Graph} {r : Registry} {l : List Checked} {known : Array Meta} {o : ObjectId}

/-! ### Delays have slots -/

/-- Every delay of a graph has a slot. -/
def DelaysHaveSlots (g : Graph) : Prop := ∀ x ∈ g.objects, ∀ m, x.info = .delay m → 0 < m.slots.toNat

namespace DelaysHaveSlots

theorem register (h : g.DelaysHaveSlots) {info : Meta} (hinfo : ∀ m, info = .delay m → 0 < m.slots.toNat)
    (isVirtual : Bool) (slot : Option DelaySlot) : (g.register info isVirtual slot).2.DelaysHaveSlots := by
  intro x hx
  rcases Array.mem_push.mp hx with hx | rfl
  · exact h x hx
  · exact hinfo

theorem registerSlots {delay : ObjectId} {template : ImageMeta} (left age : Nat) (h : g.DelaysHaveSlots) :
    (registerSlots delay template left age g).DelaysHaveSlots := by
  induction left generalizing g age with
  | zero => exact h
  | succ left ih => exact ih (age + 1) (h.register (by simp) false _)

theorem createDelay (h : g.DelaysHaveSlots) {slots : UInt32} {template : ImageMeta}
    (hok : g.createDelay slots template = .ok (o, next)) : next.DelaysHaveSlots := by
  unfold Graph.createDelay at hok
  split at hok
  · contradiction
  rename_i hslots
  split at hok
  · contradiction
  cases hok
  refine registerSlots _ _ (h.register ?_ false none)
  rintro m ⟨⟩
  exact Nat.pos_of_ne_zero fun hzero => hslots (UInt32.toNat_inj.mp hzero)

theorem mark (h : g.DelaysHaveSlots) (i : Nat) :
    { g with objects := g.objects.modify i fun x => { x with markedOutput := true } }.DelaysHaveSlots := by
  intro x hx
  obtain ⟨j, hj⟩ := Array.getElem?_of_mem hx
  rw [Array.getElem?_modify] at hj
  split at hj
  · obtain ⟨y, hy, rfl⟩ := Option.map_eq_some_iff.mp hj
    exact h y (Array.mem_of_getElem? hy)
  · exact h x (Array.mem_of_getElem? hj)

theorem change (h : g.DelaysHaveSlots) {e : Edit} (hc : g.Change e next) : next.DelaysHaveSlots := by
  cases hc with
  | object info isVirtual _ hinfo hnext =>
    subst hnext
    refine h.register ?_ isVirtual none
    rintro m rfl
    cases hinfo
  | delay slots template d _ hnext => exact h.createDelay hnext
  | node kernel params _ hnext =>
    subst hnext
    exact h
  | nodes nodes _ _ hnext =>
    subst hnext
    exact h
  | mark o _ hnext =>
    subst hnext
    exact h.mark o.index

theorem edit (h : g.DelaysHaveSlots) (edits : List Edit) : (g.edit edits).DelaysHaveSlots := by
  induction edits generalizing g with
  | nil => exact h
  | cons e rest ih =>
    rw [edit_cons]
    apply ih
    rcases edit_one_cases g e with ⟨_, hsame⟩ | hchange
    · rw [hsame]
      exact h
    · exact h.change hchange

end DelaysHaveSlots

theorem Built.delaysHaveSlots (hg : g.Built) : g.DelaysHaveSlots := by
  obtain ⟨edits, rfl⟩ := hg
  exact DelaysHaveSlots.edit (fun x hx => by simp [Graph.empty] at hx) edits

/-! ### Objects of a plan are known -/

/-- Everything that is in a plan is fully known: what a node names was checked, and what no node names was dropped
unless it was known. -/
theorem Resolves.isResolved (hg : g.WellFormed) (h : Resolves .standard g l known) {x : Resolved}
    (hx : (g.planOf l known).object? o = some x) : x.info.isResolved = true := by
  have hsound := h.sound hg hx
  obtain ⟨_, hinfo, hnamed⟩ := (object?_planOf hg).mp hx
  by_cases hvirtual : x.object.isVirtual = true
  · by_contra hopen
    obtain ⟨n, hn, hbound⟩ := List.mem_flatMap.mp (hnamed hvirtual (Bool.eq_false_iff.mpr hopen))
    obtain ⟨c, hc, rfl⟩ := List.mem_map.mp (h.nodes.mem_iff.mpr hn)
    obtain ⟨_, m, _, hm, hres, _⟩ := h.object_of_bound hg hc hbound
    rw [hinfo] at hm
    cases hm
    exact hopen hres
  · exact (hsound.real (Bool.eq_false_iff.mpr hvirtual)).2.1

/-- Storage can be made for every object that the caller binds, and it can be bound. -/
theorem exists_storage_of_entry (hg : g.Built) {p : Plan} (h : g.verify .standard = .ok p) (ho : o ∈ p.entries) :
    ∃ info x, p.info? o = some info ∧ Host.ofMeta info = .ok x ∧ x.mismatch info = none := by
  have hsound := sound_of_verify hg h
  obtain ⟨x, hx, hentry⟩ := (Plan.mem_entries hsound.ids).mp ho
  have hobject := hsound.objects o x hx
  have hres : x.info.isResolved = true := by
    obtain ⟨l, known, hl, rfl⟩ := exists_resolves h
    exact hl.isResolved hg.wellFormed hx
  have hvalue : x.info.value? = none := by
    rw [← hsound.constant_eq hx]
    by_contra hsome
    have hconst : x.object.isConstant = true := Option.isSome_iff_ne_none.mpr hsome
    have hvirtual : x.object.isVirtual = true := by
      by_contra hreal
      simp [DataObject.constant, hreal] at hsome
    simp [DataObject.isEntry, DataObject.isExternal, hvirtual, hobject.unmarked hconst] at hentry
  have hmade : ∃ fresh, Host.ofMeta x.info = .ok fresh := by
    by_cases hkind : x.info.kind = .delay
    · cases hm : x.info with
      | delay m =>
        have hdelay : x.object.info = .delay m := by
          have hext := hobject.extend
          rw [hm] at hext
          cases hdeclared : x.object.info with
          | delay n => rw [hdeclared] at hext; exact congrArg Meta.delay hext.symm
          | _ => rw [hdeclared] at hext; exact hext.elim
        have hmem : x.object ∈ g.objects := Array.mem_of_getElem? (object?_of_plan hg h hx)
        refine Host.exists_ofMeta_delay (hg.delaysHaveSlots _ hmem m hdelay) ?_
        simpa [hm, Meta.isResolved] using hres
      | _ => simp [hm, Meta.kind] at hkind
    · exact Host.exists_ofMeta hres hkind
  obtain ⟨fresh, hfresh⟩ := hmade
  exact ⟨x.info, fresh, Plan.info?_of_object? hx, hfresh, (Host.fits_of_ofMeta hvalue hfresh).1⟩

end Graph

theorem IdMap.mem_keys {α : Type} {m : IdMap α} {o : ObjectId} : o ∈ m.keys ↔ ∃ a, m.get? o = some a := by
  simp only [keys, List.mem_map, Prod.exists, exists_and_right, exists_eq_right, get?_eq_some_iff]

/-- Bindings with some of the bound objects replaced. -/
def Bindings.overlay (b replaced : Bindings) : Bindings := replaced.entries.foldl (fun b e => b.insert e.1 e.2) b

theorem Bindings.get?_overlay (b replaced : Bindings) (o : ObjectId) :
    (b.overlay replaced).get? o = (replaced.get? o).or (b.get? o) :=
  IdMap.get?_foldl_insert b replaced.entries replaced.nodup_keys o

/-- An object has the shape and the type that a plan found for the number. -/
def Plan.Suits (p : Plan) (o : ObjectId) (x : Host) : Prop := ∃ info, p.info? o = some info ∧ x.HasShape info

namespace Program

variable {P : Program}

/-- Fresh storage for an entry. -/
def freshEntry (entry : ObjectId × Meta) : Except BufferFault (ObjectId × Host) :=
  (Host.ofMeta entry.2).map (entry.1, ·)

/-- Storage is made for one entry after the other. -/
theorem allocate_of_mapM {made : List (ObjectId × Host)} (h : P.entries.mapM freshEntry = .ok made) :
    P.allocate = .ok (.ofList made) := by
  unfold allocate IdMap.ofList
  generalize (IdMap.empty : Bindings) = b
  have hall := mapM_eq_ok.mp h
  clear h
  revert hall
  generalize P.entries = entries
  intro hall
  induction hall generalizing b with
  | nil => rfl
  | cons hentry _ ih =>
    obtain ⟨x, hx, rfl⟩ := map_eq_ok.mp hentry
    refine foldlM_cons_eq_ok.mpr ⟨_, ?_, ih _⟩
    simp only [hx]

/-- Where storage can be made for every entry, the program allocates it. -/
theorem exists_allocate (h : ∀ entry ∈ P.entries, ∃ x, Host.ofMeta entry.2 = .ok x)
    (hnodup : (P.entries.map (·.1)).Nodup) : ∃ b, P.allocate = .ok b ∧ ∀ o x, b.get? o = some x ↔
      ∃ info, (o, info) ∈ P.entries ∧ Host.ofMeta info = .ok x := by
  have hfresh (entry : ObjectId × Meta) (hentry : entry ∈ P.entries) : ∃ made, freshEntry entry = .ok made := by
    obtain ⟨x, hx⟩ := h entry hentry
    exact ⟨(entry.1, x), map_eq_ok.mpr ⟨x, hx, rfl⟩⟩
  obtain ⟨made, hmade⟩ := exists_mapM_eq_ok hfresh
  have hkeys : made.map (·.1) = P.entries.map (·.1) := by
    refine map_eq_of_mapM hmade fun entry out hout => ?_
    obtain ⟨x, _, rfl⟩ := map_eq_ok.mp hout
    rfl
  refine ⟨_, allocate_of_mapM hmade, fun o x => ?_⟩
  rw [IdMap.get?_ofList (hkeys ▸ hnodup)]
  constructor
  · intro hmem
    obtain ⟨entry, hentry, hout⟩ := exists_of_mem_mapM hmade hmem
    obtain ⟨y, hy, he⟩ := map_eq_ok.mp hout
    cases he
    exact ⟨entry.2, hentry, hy⟩
  · rintro ⟨info, hmem, hx⟩
    obtain ⟨out, hout, hfound⟩ := exists_ok_of_mapM hmade hmem
    obtain ⟨y, hy, rfl⟩ := map_eq_ok.mp hfound
    rw [hx] at hy
    cases hy
    exact hout

theorem check_of_faultless {b : Bindings} (h : ∀ entry ∈ P.entries, fault? b entry = none) : P.check b = .ok () := by
  rcases P.check_cases b with ⟨hcheck, _⟩ | ⟨front, o, info, back, fault, hsplit, _, hfault, _⟩
  · exact hcheck
  · rw [h (o, info) (hsplit ▸ List.mem_append_right _ List.mem_cons_self)] at hfault
    cases hfault

end Program

namespace Pipeline

variable {l l' : Pipeline} {g : Graph} {a : Artifacts}

/-- What compilation makes of a graph, step by step. -/
theorem compile_eq_ok (h : l.compile g = (.ok a, l')) : g.verify l.registry = .ok a.verified ∧
    a.optimized = (a.verified.optimize l.optimizer).1 ∧ a.optimized.generate l.registry = .ok a.unit ∧
      ∃ m, Program.make l.registry a.optimized a.unit m = .ok a.program := by
  unfold compile verify at h
  cases hverify : g.verify l.registry with
  | error e => simp [hverify] at h
  | ok p =>
    simp only [hverify, optimize, generate] at h
    cases hunit : (p.optimize l.optimizer).1.generate l.registry with
    | error e => simp [hunit] at h
    | ok u =>
      simp only [hunit, build] at h
      cases hrequest : l.store.request u l.toolchain with
      | mk result store =>
        cases result with
        | error e => simp [hrequest, Except.map] at h
        | ok m =>
          simp only [hrequest, Prod.mk.injEq] at h
          obtain ⟨P, hP, rfl⟩ := map_eq_ok.mp h.1
          exact ⟨rfl, rfl, hunit, m, hP⟩

/-- The entries of the program are those of the verified plan, with what was found of them. -/
theorem entries_of_compile (hl : l.registry = .standard) (hg : g.Built) (h : l.compile g = (.ok a, l')) :
    a.program.entries.map (·.1) = a.verified.entries ∧
      ∀ o info, (o, info) ∈ a.program.entries ↔ o ∈ a.verified.entries ∧ a.verified.info? o = some info := by
  obtain ⟨hverify, hoptimized, hunit, m, hmake⟩ := compile_eq_ok h
  rw [hl] at hverify
  have hsound := Graph.sound_of_verify hg hverify
  have hreplaces := ((Plan.Refines.stable a.verified).optimize l.optimizer (.refl hsound)).replaces
  rw [← hoptimized] at hreplaces
  obtain ⟨entries, s, hentries, _, _, hprogram⟩ := Program.make_eq_ok.mp hmake
  rw [Plan.entries_of_generate hunit, hreplaces.entries] at hentries
  have hfields : a.program.entries = entries := by rw [hprogram]
  have hout (o : ObjectId) (entry : ObjectId × Meta) (hentry : Program.entryOf a.optimized o = .ok entry) :
      entry.1 = o ∧ a.optimized.info? o = some entry.2 := by
    unfold Program.entryOf at hentry
    split at hentry <;> cases hentry
    exact ⟨rfl, by assumption⟩
  rw [hfields]
  refine ⟨(map_eq_of_mapM hentries fun o entry he => (hout o entry he).1).trans (List.map_id _), fun o info => ?_⟩
  constructor
  · intro hmem
    obtain ⟨q, hq, he⟩ := exists_of_mem_mapM hentries hmem
    obtain ⟨rfl, hinfo⟩ := hout q _ he
    exact ⟨hq, (hreplaces.info _ hq).symm.trans hinfo⟩
  · rintro ⟨ho, hinfo⟩
    obtain ⟨entry, hmem, he⟩ := exists_ok_of_mapM hentries ho
    obtain ⟨rfl, hfound⟩ := hout o entry he
    rw [hreplaces.info _ ho, hinfo] at hfound
    cases hfound
    exact hmem

/-- The bindings that a program allocates hold storage for exactly its entries, and pass the check. -/
theorem exists_allocated (hl : l.registry = .standard) (hg : g.Built) (h : l.compile g = (.ok a, l')) :
    ∃ b, a.program.allocate = .ok b ∧ b.keys = a.verified.entries ∧
      ∀ entry ∈ a.program.entries, Program.fault? b entry = none := by
  obtain ⟨hkeys, hentries⟩ := entries_of_compile hl hg h
  have hverify := hl ▸ (compile_eq_ok h).1
  have hids := (Graph.sound_of_verify hg hverify).ids
  have hstorage {o : ObjectId} {info : Meta} (hmem : (o, info) ∈ a.program.entries) :
      ∃ x, Host.ofMeta info = .ok x ∧ x.mismatch info = none := by
    obtain ⟨ho, hinfo⟩ := (hentries o info).mp hmem
    obtain ⟨found, x, hfound, hx, hfit⟩ := Graph.exists_storage_of_entry hg hverify ho
    rw [hinfo] at hfound
    cases hfound
    exact ⟨x, hx, hfit⟩
  obtain ⟨b, hb, hget⟩ := a.program.exists_allocate (fun entry hentry => by
    obtain ⟨x, hx, _⟩ := hstorage hentry
    exact ⟨x, hx⟩) (hkeys ▸ Plan.nodup_entries hids)
  refine ⟨b, hb, ?_, fun ⟨o, info⟩ hmem => ?_⟩
  · refine IdMap.eq_of_increasing _ (List.pairwise_map.mpr b.sorted) (Plan.sorted_entries hids) fun o => ?_
    rw [← hkeys, IdMap.mem_keys]
    constructor
    · rintro ⟨x, hx⟩
      obtain ⟨info, hmem, _⟩ := (hget o x).mp hx
      exact List.mem_map.mpr ⟨_, hmem, rfl⟩
    · intro ho
      obtain ⟨⟨_, info⟩, hmem, rfl⟩ := List.mem_map.mp ho
      obtain ⟨x, hx, _⟩ := hstorage hmem
      exact ⟨x, (hget _ x).mpr ⟨info, hmem, hx⟩⟩
  · obtain ⟨x, hx, hfit⟩ := hstorage hmem
    rw [Program.fault?, (hget o x).mpr ⟨info, hmem, hx⟩]
    exact hfit

/-- The check of an entry looks at the replacement if there is one; what was there before passes. -/
theorem fault?_overlay {b replaced : Bindings} {entry : ObjectId × Meta} (hfits : Program.fault? b entry = none)
    (hcounted : ∀ o x, replaced.get? o = some x → x.Counted) :
    Program.fault? (b.overlay replaced) entry = none ↔ ∀ x, replaced.get? entry.1 = some x → x.HasShape entry.2 := by
  rw [Program.fault?, Bindings.get?_overlay]
  cases hx : replaced.get? entry.1 with
  | none => simpa [Program.fault?] using hfits
  | some x => simpa using Host.mismatch_eq_none_iff (hcounted _ x hx)

/-- A graph that there is code for compiles when a module for its unit is at hand. -/
theorem exists_compile {c : OptimizerConfig} {P : Program} (h : g.optimized? c = some P) :
    ∃ (l : Pipeline) (a : Artifacts) (l' : Pipeline), l.registry = .standard ∧ l.compile g = (.ok a, l') ∧
      g.verify .standard = .ok a.verified := by
  obtain ⟨p, hp, u, m, hu, _, hmake⟩ := Graph.loadedAs_of_optimized? h
  let l : Pipeline := ⟨.standard, c, .refusing "", { Store.fresh "" with modules := [(Store.key u (.refusing ""), m)] }⟩
  refine ⟨l, ⟨p, (p.optimize c).1, (p.optimize c).2, u, P⟩, l, rfl, ?_, hp⟩
  have hrequest : l.store.request u l.toolchain = (.ok m, l.store) := by
    simp [Store.request, l, Store.fresh]
  simp only [compile, verify, show l.registry = .standard from rfl, hp, optimize, generate,
    show l.optimizer = c from rfl, hu, build, hrequest, hmake]
  rfl

/-- A graph with entries of every kind, one of them an image that is inferred. -/
def equipped : Graph := Graph.empty.edit [.image 2 1 .u8, .virtualImage ⟨none, none, none⟩,
  .node "vx.not" [some ⟨0⟩, some ⟨1⟩], .output ⟨1⟩, .pyramid 2 2 2 .u8, .delay 2 (.known 1 1 .u8), .scalar .s32,
  .array .u8 3]

/-- A delay that has one slot. -/
def shallow : DelayBuffer := ⟨.known 1 1 .u8, #[.zero 1 1 .u8], 0, by decide⟩

/-- An array and a delay that are too large and too small. -/
def misfits : List (ObjectId × Host) := [(⟨7⟩, .array (.empty .u8 4)), (⟨3⟩, .delay shallow)]

end Pipeline

end VisionGraph
