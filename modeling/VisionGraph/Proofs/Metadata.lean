import VisionGraph.Data.Merge
import VisionGraph.Kernel.Rule
import VisionGraph.Proofs.Sequence

/-! The order of metadata: one extends another when it keeps every known field. Merging goes up in this order,
and the checks of inference rules give the same answer on metadata that was extended meanwhile. -/
namespace VisionGraph

/-- A field that is known stays known with its value. -/
def Keeps {α : Type} (next current : Option α) : Prop := ∀ a, current = some a → next = some a

variable {α : Type} {a b c : Option α} {field : MetaField} {text : α → String}

theorem Keeps.refl (a : Option α) : Keeps a a := fun _ h => h

theorem Keeps.trans (hab : Keeps a b) (hbc : Keeps b c) : Keeps a c :=
  fun x h => hab x (hbc x h)

theorem Keeps.none (a : Option α) : Keeps a none := fun _ h => nomatch h

/-- A field between one that is open or has a value and one that has this value, has no other value either. -/
theorem Keeps.getD_eq {default x : α} (hba : Keeps b a) (hcb : Keeps c b) (hc : c = some x) (ha : a.getD default = x) :
    b.getD default = x := by
  cases b with
  | some y => exact Option.some.inj ((hcb y rfl).symm.trans hc)
  | none =>
    cases a with
    | some y => cases hba y rfl
    | none => exact ha

theorem Keeps.not_other [BEq α] [LawfulBEq α] {x : α} (hcb : Keeps c b) (hc : c = some x) :
    ¬(b.isSome && b != some x) = true := by
  cases b with
  | none => simp
  | some y => simp [← hcb y rfl, hc]

theorem keeps_fill_left (a b : Option α) : Keeps (fill a b) a := by
  intro x h
  simp [h, fill]

/-- A field that does not clash is filled with what the newcomer knows. -/
theorem keeps_fill_right [BEq α] [LawfulBEq α] (h : clash (· == ·) field text a b = none) : Keeps (fill a b) b := by
  intro x hb
  cases a with
  | none => exact hb
  | some y =>
    subst hb
    have hxy : y = x := by
      by_contra hne
      simp [clash, hne] at h
    simp [fill, hxy]

theorem fill_eq_left (h : Keeps a b) : fill a b = a := by
  cases a with
  | some x => rfl
  | none =>
    cases b with
    | none => rfl
    | some y => exact nomatch h y rfl

theorem fills_eq_false (h : Keeps a b) : fills a b = false := by
  cases b with
  | none => simp [fills]
  | some y => simp [fills, h y rfl]

theorem clash_eq_none [BEq α] [LawfulBEq α] (h : Keeps a b) : clash (· == ·) field text a b = none := by
  cases b with
  | none => cases a <;> rfl
  | some y => simp [clash, h y rfl]

/-! ### Merging one kind of metadata -/

theorem ImageMeta.merge_ok {m next : ImageMeta} {changed : Bool} (h : (m.merge next).outcome = .ok changed) :
    (m.merge next).after = ⟨fill m.width next.width, fill m.height next.height, fill m.format next.format⟩ ∧
      Keeps (fill m.width next.width) next.width ∧ Keeps (fill m.height next.height) next.height ∧
      Keeps (fill m.format next.format) next.format := by
  unfold merge at h ⊢
  split at h
  · contradiction
  · rename_i hw
    split at h
    · contradiction
    · rename_i hh
      split at h
      · contradiction
      · rename_i hf
        exact ⟨rfl, keeps_fill_right hw, keeps_fill_right hh, keeps_fill_right hf⟩

theorem ImageMeta.merge_eq_self {m next : ImageMeta} (hw : Keeps m.width next.width)
    (hh : Keeps m.height next.height) (hf : Keeps m.format next.format) : m.merge next = ⟨m, .ok false⟩ := by
  unfold merge
  simp only [clash_eq_none hw, clash_eq_none hh, clash_eq_none hf, fill_eq_left hw, fill_eq_left hh,
    fill_eq_left hf, fills_eq_false hw, fills_eq_false hh, fills_eq_false hf, Bool.or_self]

theorem ArrayMeta.merge_ok {m next : ArrayMeta} {changed : Bool} (h : (m.merge next).outcome = .ok changed) :
    (m.merge next).after = ⟨fill m.itemType next.itemType, fill m.capacity next.capacity⟩ ∧
      Keeps (fill m.itemType next.itemType) next.itemType ∧
      Keeps (fill m.capacity next.capacity) next.capacity := by
  unfold merge at h ⊢
  split at h
  · contradiction
  · rename_i ht
    split at h
    · contradiction
    · rename_i hc
      exact ⟨rfl, keeps_fill_right ht, keeps_fill_right hc⟩

theorem ArrayMeta.merge_eq_self {m next : ArrayMeta} (ht : Keeps m.itemType next.itemType)
    (hc : Keeps m.capacity next.capacity) : m.merge next = ⟨m, .ok false⟩ := by
  unfold merge
  simp only [clash_eq_none ht, clash_eq_none hc, fill_eq_left ht, fill_eq_left hc, fills_eq_false ht,
    fills_eq_false hc, Bool.or_self]

/-- A newcomer without a value leaves the value of a scalar as it is. -/
theorem ScalarMeta.merge_ok {m next : ScalarMeta} {changed : Bool} (hv : next.value = none)
    (h : (m.merge next).outcome = .ok changed) :
    (m.merge next).after = ⟨fill m.type next.type, m.value⟩ ∧ Keeps (fill m.type next.type) next.type := by
  have hkeep : Keeps m.value next.value := hv ▸ Keeps.none _
  unfold merge at h ⊢
  split at h
  · contradiction
  · rename_i ht
    split at h
    · contradiction
    · rename_i hc
      simp only [fill_eq_left hkeep, true_and]
      exact keeps_fill_right ht

theorem ScalarMeta.merge_eq_self {m next : ScalarMeta} (hv : next.value = none)
    (ht : Keeps m.type next.type) : m.merge next = ⟨m, .ok false⟩ := by
  have hkeep : Keeps m.value next.value := hv ▸ Keeps.none _
  have hclash : clash Scalar.sameValue .value Scalar.inspect m.value next.value = none := by
    rw [hv]
    cases m.value <;> rfl
  unfold merge
  simp only [clash_eq_none ht, hclash, fill_eq_left ht, fill_eq_left hkeep, fills_eq_false ht,
    fills_eq_false hkeep, Bool.or_self]

theorem PyramidMeta.merge_ok {m next : PyramidMeta} {changed : Bool}
    (h : (m.merge next).outcome = .ok changed) :
    (m.merge next).after = ⟨fill m.levels next.levels, fill m.width next.width, fill m.height next.height,
        fill m.format next.format⟩ ∧
      Keeps (fill m.levels next.levels) next.levels ∧ Keeps (fill m.width next.width) next.width ∧
      Keeps (fill m.height next.height) next.height ∧ Keeps (fill m.format next.format) next.format := by
  unfold merge at h ⊢
  split at h
  · contradiction
  · rename_i hl
    split at h
    · contradiction
    · rename_i hw
      split at h
      · contradiction
      · rename_i hh
        split at h
        · contradiction
        · rename_i hf
          exact ⟨rfl, keeps_fill_right hl, keeps_fill_right hw, keeps_fill_right hh, keeps_fill_right hf⟩

theorem PyramidMeta.merge_eq_self {m next : PyramidMeta} (hl : Keeps m.levels next.levels)
    (hw : Keeps m.width next.width) (hh : Keeps m.height next.height) (hf : Keeps m.format next.format) :
    m.merge next = ⟨m, .ok false⟩ := by
  unfold merge
  simp only [clash_eq_none hl, clash_eq_none hw, clash_eq_none hh, clash_eq_none hf, fill_eq_left hl,
    fill_eq_left hw, fill_eq_left hh, fill_eq_left hf, fills_eq_false hl, fills_eq_false hw,
    fills_eq_false hh, fills_eq_false hf, Bool.or_self]

namespace Meta

/-- The value of a scalar that has one. -/
def value? (m : Meta) : Option Scalar := m.scalar?.bind (·.value)

/-- Metadata of one kind that keeps every known field of another. -/
def Extends : Meta → Meta → Prop
  | .image b, .image a => Keeps b.width a.width ∧ Keeps b.height a.height ∧ Keeps b.format a.format
  | .array b, .array a => Keeps b.itemType a.itemType ∧ Keeps b.capacity a.capacity
  | .scalar b, .scalar a => Keeps b.type a.type ∧ Keeps b.value a.value
  | .pyramid b, .pyramid a =>
    Keeps b.levels a.levels ∧ Keeps b.width a.width ∧ Keeps b.height a.height ∧ Keeps b.format a.format
  | .delay b, .delay a => b = a
  | _, _ => False

theorem Extends.refl (m : Meta) : m.Extends m := by
  cases m <;> simp [Extends, Keeps.refl]

theorem Extends.kind_eq {a b : Meta} (h : a.Extends b) : a.kind = b.kind := by
  cases a <;> cases b <;> simp only [Extends] at h <;> rfl

theorem Extends.trans {a b c : Meta} (hab : a.Extends b) (hbc : b.Extends c) : a.Extends c := by
  have hkab := hab.kind_eq
  have hkbc := hbc.kind_eq
  cases a <;> cases b <;> cases hkab <;> cases c <;> cases hkbc
  case image.image.refl.image.refl =>
    exact ⟨hab.1.trans hbc.1, hab.2.1.trans hbc.2.1, hab.2.2.trans hbc.2.2⟩
  case array.array.refl.array.refl => exact ⟨hab.1.trans hbc.1, hab.2.trans hbc.2⟩
  case scalar.scalar.refl.scalar.refl => exact ⟨hab.1.trans hbc.1, hab.2.trans hbc.2⟩
  case pyramid.pyramid.refl.pyramid.refl =>
    exact ⟨hab.1.trans hbc.1, hab.2.1.trans hbc.2.1, hab.2.2.1.trans hbc.2.2.1,
      hab.2.2.2.trans hbc.2.2.2⟩
  case delay.delay.refl.delay.refl => exact Eq.trans hab hbc

theorem kind_eq_of_merge {m next : Meta} {changed : Bool} (h : (m.merge next).outcome = .ok changed) :
    m.kind = next.kind := by
  cases m <;> cases next <;> simp only [merge, reduceCtorEq] at h <;> rfl

/-- What merging gives: it extends both sides and keeps the value. -/
theorem merge_ok {m next : Meta} {changed : Bool} (hv : next.value? = none)
    (h : (m.merge next).outcome = .ok changed) :
    (m.merge next).after.Extends m ∧ (m.merge next).after.Extends next ∧
      (m.merge next).after.value? = m.value? := by
  have hk := kind_eq_of_merge h
  cases m <;> cases next <;> cases hk
  case image.image.refl a b =>
    obtain ⟨hafter, hw, hh, hf⟩ := ImageMeta.merge_ok h
    simp only [merge, Merged.map, hafter]
    exact ⟨⟨keeps_fill_left _ _, keeps_fill_left _ _, keeps_fill_left _ _⟩, ⟨hw, hh, hf⟩, rfl⟩
  case array.array.refl a b =>
    obtain ⟨hafter, ht, hc⟩ := ArrayMeta.merge_ok h
    simp only [merge, Merged.map, hafter]
    exact ⟨⟨keeps_fill_left _ _, keeps_fill_left _ _⟩, ⟨ht, hc⟩, rfl⟩
  case scalar.scalar.refl a b =>
    have hb : b.value = none := hv
    obtain ⟨hafter, ht⟩ := ScalarMeta.merge_ok hb h
    simp only [merge, Merged.map, hafter]
    exact ⟨⟨keeps_fill_left _ _, Keeps.refl _⟩, ⟨ht, hb ▸ Keeps.none _⟩, rfl⟩
  case pyramid.pyramid.refl a b =>
    obtain ⟨hafter, hl, hw, hh, hf⟩ := PyramidMeta.merge_ok h
    simp only [merge, Merged.map, hafter]
    exact ⟨⟨keeps_fill_left _ _, keeps_fill_left _ _, keeps_fill_left _ _, keeps_fill_left _ _⟩,
      ⟨hl, hw, hh, hf⟩, rfl⟩
  case delay.delay.refl a b =>
    by_cases hab : a = b
    · subst hab
      simp [merge, Extends.refl]
    · simp [merge, hab] at h

/-- Merging what is known already changes nothing. -/
theorem merge_eq_self {m next : Meta} (hv : next.value? = none) (h : m.Extends next) :
    m.merge next = ⟨m, .ok false⟩ := by
  have hk := h.kind_eq
  cases m <;> cases next <;> cases hk
  case image.image.refl a b => simp only [merge, ImageMeta.merge_eq_self h.1 h.2.1 h.2.2, Merged.map]
  case array.array.refl a b => simp only [merge, ArrayMeta.merge_eq_self h.1 h.2, Merged.map]
  case scalar.scalar.refl a b =>
    have hb : b.value = none := hv
    simp only [merge, ScalarMeta.merge_eq_self hb h.1, Merged.map]
  case pyramid.pyramid.refl a b =>
    simp only [merge, PyramidMeta.merge_eq_self h.1 h.2.1 h.2.2.1 h.2.2.2, Merged.map]
  case delay.delay.refl a b =>
    have hab : a = b := h
    simp [merge, hab]

/-- Complete metadata has nothing left to extend but the value of a scalar. -/
theorem Extends.eq_of_resolved {a b : Meta} (h : a.Extends b) (hb : b.isResolved = true)
    (hv : a.value? = b.value?) : a = b := by
  have hk := h.kind_eq
  -- every field of the one is known, so the other one has nothing to add
  cases a <;> cases b <;> cases hk
  case image.image.refl a b =>
    obtain ⟨w, hgt, f⟩ := b
    simp only [isResolved, ImageMeta.isResolved, Bool.and_eq_true, Option.isSome_iff_exists] at hb
    obtain ⟨⟨⟨x, rfl⟩, ⟨y, rfl⟩⟩, ⟨z, rfl⟩⟩ := hb
    have : a = ⟨some x, some y, some z⟩ := by
      cases a
      simp_all [Extends, Keeps]
    rw [this]
  case array.array.refl a b =>
    obtain ⟨t, c⟩ := b
    simp only [isResolved, ArrayMeta.isResolved, Bool.and_eq_true, Option.isSome_iff_exists] at hb
    obtain ⟨⟨x, rfl⟩, ⟨y, rfl⟩⟩ := hb
    have : a = ⟨some x, some y⟩ := by
      cases a
      simp_all [Extends, Keeps]
    rw [this]
  case scalar.scalar.refl a b =>
    obtain ⟨t, v⟩ := b
    simp only [isResolved, ScalarMeta.isResolved, Option.isSome_iff_exists] at hb
    obtain ⟨x, rfl⟩ := hb
    have hval : a.value = v := hv
    have : a = ⟨some x, v⟩ := by
      cases a
      simp_all [Extends, Keeps]
    rw [this]
  case pyramid.pyramid.refl a b =>
    obtain ⟨l, w, hgt, f⟩ := b
    simp only [isResolved, PyramidMeta.isResolved, Bool.and_eq_true, Option.isSome_iff_exists] at hb
    obtain ⟨⟨⟨⟨x, rfl⟩, ⟨y, rfl⟩⟩, ⟨z, rfl⟩⟩, ⟨u, rfl⟩⟩ := hb
    have : a = ⟨some x, some y, some z, some u⟩ := by
      cases a
      simp_all [Extends, Keeps]
    rw [this]
  case delay.delay.refl a b => exact congrArg Meta.delay h

end Meta

end VisionGraph
