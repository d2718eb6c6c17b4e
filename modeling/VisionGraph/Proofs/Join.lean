import Mathlib.Order.Bounds.Basic
import VisionGraph.Proofs.Metadata

/-! Merging is a join. Metadata is ordered by what is known: one is below another that keeps all its known fields. Two of
them merge when something is above both, and merging gives the least that is; so the order of merges does not matter. -/
namespace VisionGraph

/-! ### Fields -/

/-- Fields that are not known with different values. -/
def Consistent {α : Type} (a b : Option α) : Prop := ∀ x y, a = some x → b = some y → x = y

section Fields

variable {α : Type} {a b c : Option α}

theorem Keeps.antisymm (hab : Keeps a b) (hba : Keeps b a) : a = b :=
  Option.ext fun x => ⟨hba x, hab x⟩

theorem Keeps.consistent (ha : Keeps c a) (hb : Keeps c b) : Consistent a b := by
  intro x y hx hy
  exact Option.some.inj ((ha x hx).symm.trans (hb y hy))

/-- Where both sides are consistent, a field keeps the filled one if and only if it keeps both. -/
theorem Consistent.keeps_fill_iff (h : Consistent a b) : Keeps c (fill a b) ↔ Keeps c a ∧ Keeps c b := by
  cases a with
  | none => exact (and_iff_right (Keeps.none c)).symm
  | some x =>
    refine (and_iff_left_of_imp fun hx y hy => ?_).symm
    exact h x y rfl hy ▸ hx x rfl

/-- Known values that differ clash, if the comparison tells them apart. -/
theorem clash_eq_none_iff {same : α → α → Bool} {field : MetaField} {text : α → String}
    (hsame : ∀ x y, b = some y → (same x y = true ↔ x = y)) : clash same field text a b = none ↔ Consistent a b := by
  cases a with
  | none => simp [clash, Consistent]
  | some x =>
    cases b with
    | none => simp [clash, Consistent]
    | some y => simp [clash, Consistent, hsame x y rfl]

theorem Consistent.clash_eq_none [BEq α] [LawfulBEq α] (h : Consistent a b) {field : MetaField} {text : α → String} :
    clash (· == ·) field text a b = none :=
  (clash_eq_none_iff fun _ _ _ => beq_iff_eq).mpr h

theorem fills_iff : fills a b = true ↔ fill a b ≠ a := by
  cases a with
  | none => cases b <;> simp [fills, fill]
  | some x => simp [fills, fill]

end Fields

/-- Values are compared as they are, unless both are singles. -/
theorem Scalar.sameValue_iff {u v : Scalar} (hv : ∀ x, v ≠ .f32 x) : u.sameValue v = true ↔ u = v := by
  cases v with
  | f32 x => exact absurd rfl (hv x)
  | _ => cases u <;> simp [sameValue]

namespace Meta

variable {a b c m : Meta} {l l' : List Meta}

/-! ### The order of what is known -/

theorem Extends.antisymm (hab : a.Extends b) (hba : b.Extends a) : a = b := by
  have hk := hab.kind_eq
  cases a <;> cases b <;> cases hk
  case image.image.refl a b =>
    cases a
    cases b
    rw [image.injEq, ImageMeta.mk.injEq]
    exact ⟨hab.1.antisymm hba.1, hab.2.1.antisymm hba.2.1, hab.2.2.antisymm hba.2.2⟩
  case array.array.refl a b =>
    cases a
    cases b
    rw [array.injEq, ArrayMeta.mk.injEq]
    exact ⟨hab.1.antisymm hba.1, hab.2.antisymm hba.2⟩
  case scalar.scalar.refl a b =>
    cases a
    cases b
    rw [scalar.injEq, ScalarMeta.mk.injEq]
    exact ⟨hab.1.antisymm hba.1, hab.2.antisymm hba.2⟩
  case pyramid.pyramid.refl a b =>
    cases a
    cases b
    rw [pyramid.injEq, PyramidMeta.mk.injEq]
    exact ⟨hab.1.antisymm hba.1, hab.2.1.antisymm hba.2.1, hab.2.2.1.antisymm hba.2.2.1,
      hab.2.2.2.antisymm hba.2.2.2⟩
  case delay.delay.refl a b => exact congrArg delay hab

instance : PartialOrder Meta where
  le a b := b.Extends a
  le_refl := Extends.refl
  le_trans _ _ _ hab hbc := hbc.trans hab
  le_antisymm _ _ hab hba := hba.antisymm hab

/-- Metadata of one kind, field by field known with the same values. Delays have to be the same. -/
def Compatible : Meta → Meta → Prop
  | .image a, .image b => Consistent a.width b.width ∧ Consistent a.height b.height ∧
      Consistent a.format b.format
  | .array a, .array b => Consistent a.itemType b.itemType ∧ Consistent a.capacity b.capacity
  | .scalar a, .scalar b => Consistent a.type b.type ∧ Consistent a.value b.value
  | .pyramid a, .pyramid b => Consistent a.levels b.levels ∧ Consistent a.width b.width ∧
      Consistent a.height b.height ∧ Consistent a.format b.format
  | .delay a, .delay b => a = b
  | _, _ => False

/-- Every gap filled from the other side. -/
def filled : Meta → Meta → Meta
  | .image a, .image b => .image ⟨fill a.width b.width, fill a.height b.height, fill a.format b.format⟩
  | .array a, .array b => .array ⟨fill a.itemType b.itemType, fill a.capacity b.capacity⟩
  | .scalar a, .scalar b => .scalar ⟨fill a.type b.type, fill a.value b.value⟩
  | .pyramid a, .pyramid b =>
    .pyramid ⟨fill a.levels b.levels, fill a.width b.width, fill a.height b.height, fill a.format b.format⟩
  | a, _ => a

theorem Compatible.kind_eq (h : a.Compatible b) : a.kind = b.kind := by
  cases a <;> cases b <;> simp only [Compatible] at h <;> rfl

/-- What has something above both sides agrees. -/
theorem compatible_of_le (ha : a ≤ c) (hb : b ≤ c) : a.Compatible b := by
  have hka := Extends.kind_eq ha
  have hkb := Extends.kind_eq hb
  cases c <;> cases a <;> cases hka <;> cases b <;> cases hkb
  case image => exact ⟨ha.1.consistent hb.1, ha.2.1.consistent hb.2.1, ha.2.2.consistent hb.2.2⟩
  case array => exact ⟨ha.1.consistent hb.1, ha.2.consistent hb.2⟩
  case scalar => exact ⟨ha.1.consistent hb.1, ha.2.consistent hb.2⟩
  case pyramid => exact ⟨ha.1.consistent hb.1, ha.2.1.consistent hb.2.1, ha.2.2.1.consistent hb.2.2.1, ha.2.2.2.consistent hb.2.2.2⟩
  case delay => exact Eq.trans ha.symm hb

/-- What is above the filled metadata is what is above both sides. -/
theorem filled_le_iff (h : a.Compatible b) : a.filled b ≤ c ↔ a ≤ c ∧ b ≤ c := by
  have hk := h.kind_eq
  cases a <;> cases b <;> cases hk
  case image =>
    obtain ⟨hw, hh, hf⟩ := h
    cases c <;> simp only [filled, LE.le, Extends, hw.keeps_fill_iff, hh.keeps_fill_iff, hf.keeps_fill_iff] <;> tauto
  case array =>
    obtain ⟨ht, hc⟩ := h
    cases c <;> simp only [filled, LE.le, Extends, ht.keeps_fill_iff, hc.keeps_fill_iff] <;> tauto
  case scalar =>
    obtain ⟨ht, hv⟩ := h
    cases c <;> simp only [filled, LE.le, Extends, ht.keeps_fill_iff, hv.keeps_fill_iff] <;> tauto
  case pyramid =>
    obtain ⟨hl, hw, hh, hf⟩ := h
    cases c <;> simp only [filled, LE.le, Extends, hl.keeps_fill_iff, hw.keeps_fill_iff, hh.keeps_fill_iff,
      hf.keeps_fill_iff] <;> tauto
  case delay =>
    cases h
    exact (and_self_iff ..).symm

/-! ### Merging -/

/-- Metadata without a single as its value: singles are compared as numbers, all other values as they are. -/
def Exact (m : Meta) : Prop := ∀ x, m.value? ≠ some (.f32 x)

theorem Exact.of_value (h : m.value? = none) : m.Exact := by
  intro x hx
  rw [h] at hx
  cases hx

theorem Exact.same {s : ScalarMeta} (h : (scalar s).Exact) (u v : Scalar) (hv : s.value = some v) :
    u.sameValue v = true ↔ u = v := by
  refine Scalar.sameValue_iff fun x hx => h x ?_
  rw [← hx, ← hv]
  rfl

/-- Merging compatible metadata fills all gaps, and tells whether there were any to fill. -/
theorem merge_of_compatible (hb : b.Exact) (h : a.Compatible b) :
    ∃ changed, a.merge b = ⟨a.filled b, .ok changed⟩ ∧ (changed = true ↔ a.filled b ≠ a) := by
  have hk := h.kind_eq
  cases a <;> cases b <;> cases hk
  case image a b =>
    obtain ⟨hw, hh, hf⟩ := h
    refine ⟨fills a.width b.width || fills a.height b.height || fills a.format b.format, ?_, ?_⟩
    · simp only [merge, ImageMeta.merge, hw.clash_eq_none, hh.clash_eq_none, hf.clash_eq_none, Merged.map, filled]
    · cases a
      simp only [Bool.or_eq_true, fills_iff, filled, ne_eq, image.injEq, ImageMeta.mk.injEq, not_and_or, or_assoc]
  case array a b =>
    obtain ⟨ht, hc⟩ := h
    refine ⟨fills a.itemType b.itemType || fills a.capacity b.capacity, ?_, ?_⟩
    · simp only [merge, ArrayMeta.merge, ht.clash_eq_none, hc.clash_eq_none, Merged.map, filled]
    · cases a
      simp only [Bool.or_eq_true, fills_iff, filled, ne_eq, array.injEq, ArrayMeta.mk.injEq, not_and_or]
  case scalar a b =>
    obtain ⟨ht, hv⟩ := h
    have hclash : clash Scalar.sameValue .value Scalar.inspect a.value b.value = none :=
      (clash_eq_none_iff hb.same).mpr hv
    refine ⟨fills a.type b.type || fills a.value b.value, ?_, ?_⟩
    · simp only [merge, ScalarMeta.merge, ht.clash_eq_none, hclash, Merged.map, filled]
    · cases a
      simp only [Bool.or_eq_true, fills_iff, filled, ne_eq, scalar.injEq, ScalarMeta.mk.injEq, not_and_or]
  case pyramid a b =>
    obtain ⟨hl, hw, hh, hf⟩ := h
    refine ⟨fills a.levels b.levels || fills a.width b.width || fills a.height b.height || fills a.format b.format,
      ?_, ?_⟩
    · simp only [merge, PyramidMeta.merge, hl.clash_eq_none, hw.clash_eq_none, hh.clash_eq_none, hf.clash_eq_none,
        Merged.map, filled]
    · cases a
      simp only [Bool.or_eq_true, fills_iff, filled, ne_eq, pyramid.injEq, PyramidMeta.mk.injEq, not_and_or, or_assoc]
  case delay a b =>
    cases h
    exact ⟨false, if_pos rfl, by simp [filled]⟩

/-- Nothing else merges. -/
theorem compatible_of_merge (hb : b.Exact) {changed : Bool} (h : (a.merge b).outcome = .ok changed) :
    a.Compatible b := by
  have hk := kind_eq_of_merge h
  cases a <;> cases b <;> cases hk
  case image =>
    obtain ⟨_, hw, hh, hf⟩ := ImageMeta.merge_ok h
    exact ⟨(keeps_fill_left _ _).consistent hw, (keeps_fill_left _ _).consistent hh, (keeps_fill_left _ _).consistent hf⟩
  case array =>
    obtain ⟨_, ht, hc⟩ := ArrayMeta.merge_ok h
    exact ⟨(keeps_fill_left _ _).consistent ht, (keeps_fill_left _ _).consistent hc⟩
  case scalar a b =>
    simp only [merge, Merged.map, ScalarMeta.merge] at h
    split at h
    · contradiction
    · rename_i htype
      split at h
      · contradiction
      · rename_i hvalue
        exact ⟨(keeps_fill_left _ _).consistent (keeps_fill_right htype), (clash_eq_none_iff hb.same).mp hvalue⟩
  case pyramid =>
    obtain ⟨_, hl, hw, hh, hf⟩ := PyramidMeta.merge_ok h
    exact ⟨(keeps_fill_left _ _).consistent hl, (keeps_fill_left _ _).consistent hw,
      (keeps_fill_left _ _).consistent hh, (keeps_fill_left _ _).consistent hf⟩
  case delay a b =>
    by_contra hne
    have hab : a ≠ b := hne
    simp [merge, hab] at h

theorem merge_ok_iff (hb : b.Exact) : (∃ changed, (a.merge b).outcome = .ok changed) ↔ a.Compatible b := by
  constructor
  · rintro ⟨changed, h⟩
    exact compatible_of_merge hb h
  · intro h
    obtain ⟨changed, heq, _⟩ := merge_of_compatible hb h
    exact ⟨changed, by rw [heq]⟩

/-- What merging gives is the least metadata above both sides, and the answer tells whether it is new. -/
theorem merge_isLUB (hb : b.Exact) {changed : Bool} (h : (a.merge b).outcome = .ok changed) :
    IsLUB {a, b} (a.merge b).after ∧ (changed = true ↔ (a.merge b).after ≠ a) := by
  have hcomp := compatible_of_merge hb h
  obtain ⟨flag, heq, hflag⟩ := merge_of_compatible hb hcomp
  rw [heq] at h ⊢
  cases h
  refine ⟨isLUB_iff_le_iff.mpr fun c => ?_, hflag⟩
  rw [filled_le_iff hcomp, upperBounds_insert, upperBounds_singleton]
  rfl

/-! ### Merging a list -/

/-- Merges metadata into another in turn, up to the first conflict. -/
def mergeAll (start : Meta) (l : List Meta) : Except Conflict Meta :=
  l.foldlM (fun m next => (m.merge next).outcome.map fun _ => (m.merge next).after) start

theorem mergeAll_cons_eq_ok (hb : b.Exact) : a.mergeAll (b :: l) = .ok m ↔
    a.Compatible b ∧ (a.filled b).mergeAll l = .ok m := by
  unfold mergeAll
  rw [foldlM_cons_eq_ok]
  constructor
  · rintro ⟨t, hstep, hrest⟩
    obtain ⟨changed, hok, rfl⟩ := map_eq_ok.mp hstep
    have hcomp := compatible_of_merge hb hok
    obtain ⟨_, heq, _⟩ := merge_of_compatible hb hcomp
    rw [heq] at hrest
    exact ⟨hcomp, hrest⟩
  · rintro ⟨hcomp, hrest⟩
    obtain ⟨changed, heq, _⟩ := merge_of_compatible hb hcomp
    exact ⟨a.filled b, by rw [heq]; rfl, hrest⟩

/-- Merging a list gives the least metadata above the start and all of the list; where there is none, it fails. -/
theorem mergeAll_eq_ok_iff (hl : ∀ b ∈ l, b.Exact) : a.mergeAll l = .ok m ↔ IsLUB {b | b ∈ a :: l} m := by
  induction l generalizing a with
  | nil =>
    have hone : {b | b ∈ [a]} = {a} := Set.ext fun b => List.mem_singleton
    rw [hone]
    constructor
    · intro h
      cases h
      exact isLUB_singleton
    · intro h
      rw [h.unique isLUB_singleton]
      rfl
  | cons b l ih =>
    rw [mergeAll_cons_eq_ok (hl b List.mem_cons_self), ih fun c hc => hl c (List.mem_cons_of_mem b hc)]
    -- whatever is above both of the first two is above what they merge into
    have habove (h : a.Compatible b) : upperBounds {x | x ∈ a.filled b :: l} = upperBounds {x | x ∈ a :: b :: l} := by
      ext c
      simp [mem_upperBounds, filled_le_iff h, and_assoc]
    constructor
    · rintro ⟨hcomp, hlub⟩
      exact (isLUB_congr (habove hcomp)).mp hlub
    · intro hlub
      have hcomp : a.Compatible b := compatible_of_le (hlub.1 (by simp)) (hlub.1 (by simp))
      exact ⟨hcomp, (isLUB_congr (habove hcomp)).mpr hlub⟩

theorem mergeAll_perm (hl : ∀ b ∈ l, b.Exact) (hp : l'.Perm l) : a.mergeAll l' = .ok m ↔ a.mergeAll l = .ok m := by
  have hset : {b | b ∈ a :: l'} = {b | b ∈ a :: l} := Set.ext fun b => (hp.cons a).mem_iff
  rw [mergeAll_eq_ok_iff hl, mergeAll_eq_ok_iff fun b hb => hl b (hp.mem_iff.mp hb), hset]

theorem filled_self (a : Meta) : a.filled a = a := by
  have hcomp : a.Compatible a := compatible_of_le le_rfl le_rfl
  exact le_antisymm ((filled_le_iff hcomp).mpr ⟨le_rfl, le_rfl⟩) ((filled_le_iff hcomp).mp le_rfl).1

/-- Merging is a join in the order of what is known, for metadata without singles as values. Metadata merges if and only if
it agrees on what both sides know, into the least metadata above both, and the answer tells whether anything was filled in;
merged into itself it stays as it is. A list merges in every order or in none, and always with the same result. -/
theorem merge_is_join (a b : Meta) (ha : a.Exact) (hb : b.Exact) (l : List Meta) (hl : ∀ c ∈ l, c.Exact) :
    ((∃ changed, (a.merge b).outcome = .ok changed) ↔ a.Compatible b) ∧
      (∀ changed, (a.merge b).outcome = .ok changed →
        IsLUB {a, b} (a.merge b).after ∧ (changed = true ↔ (a.merge b).after ≠ a)) ∧
      a.merge a = ⟨a, .ok false⟩ ∧
      ((∀ l', l'.Perm l → ∃ conflict, a.mergeAll l' = .error conflict) ∨
        ∃ m, ∀ l', l'.Perm l → a.mergeAll l' = .ok m) := by
  refine ⟨merge_ok_iff hb, fun changed h => merge_isLUB hb h, ?_, ?_⟩
  · obtain ⟨changed, heq, hflag⟩ := merge_of_compatible ha (compatible_of_le (le_refl a) le_rfl)
    rw [filled_self] at heq hflag
    have hsame : changed = false := by simpa using hflag
    rw [heq, hsame]
  · cases h : a.mergeAll l with
    | ok m => exact .inr ⟨m, fun l' hp => (mergeAll_perm hl hp).mpr h⟩
    | error conflict =>
      refine .inl fun l' hp => ?_
      cases h' : a.mergeAll l' with
      | error conflict' => exact ⟨conflict', rfl⟩
      | ok m =>
        have hok := (mergeAll_perm hl hp).mp h'
        rw [h] at hok
        cases hok

/-- A type and a value that are learnt apart make a constant, in whatever order. -/
theorem merge_is_join_constant :
    (Meta.scalar ⟨some .u8, none⟩).Compatible (.scalar ⟨none, some (.u8 9)⟩) ∧
      ∃ m, m = .scalar (.constant (.u8 9)) ∧ ∀ l', l'.Perm [.scalar ⟨some .u8, none⟩, .scalar ⟨none, some (.u8 9)⟩] →
        (Meta.scalar ⟨none, none⟩).mergeAll l' = .ok m := by
  have htype : (Meta.scalar ⟨some .u8, none⟩).Exact := .of_value rfl
  have hopen : (Meta.scalar ⟨none, none⟩).Exact := .of_value rfl
  have hvalue : (Meta.scalar ⟨none, some (.u8 9)⟩).Exact := by
    intro x hx
    cases hx
  have hparts : ∀ c ∈ [Meta.scalar ⟨some .u8, none⟩, .scalar ⟨none, some (.u8 9)⟩], c.Exact := by
    simpa using ⟨htype, hvalue⟩
  obtain ⟨hiff, _⟩ := merge_is_join _ _ htype hvalue [] (List.forall_mem_nil _)
  obtain ⟨_, _, _, hfail | ⟨m, hm⟩⟩ := merge_is_join _ _ hopen hopen _ hparts
  · obtain ⟨_, herror⟩ := hfail _ (.refl _)
    cases herror
  · have hmerged := hm _ (.refl _)
    exact ⟨hiff.mp ⟨true, rfl⟩, m, (Except.ok.inj hmerged).symm, hm⟩

end Meta

end VisionGraph
