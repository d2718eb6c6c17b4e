import VisionGraph.Kernel.Registry
import VisionGraph.Proofs.Metadata

/-! Inference rules of the standard kernels. A rule that accepts what is known of its parameters accepts the
same parameters again once its inferences are merged into them, and infers the same. -/
namespace VisionGraph

namespace Rule

/-- What is known of a parameter, if it is bound. -/
def slotMeta (known : Known) (slot : Nat) : Option Meta := (known[slot]?).getD none

variable {known : Known} {slot : Nat}

theorem bound_eq_ok {m : Meta} : bound known slot = .ok m ↔ slotMeta known slot = some m := by
  unfold bound slotMeta refuse
  cases (known[slot]?).getD none <;> simp

theorem image_eq_ok {a : ImageMeta} : image known slot = .ok a ↔ slotMeta known slot = some (.image a) := by
  simp only [image, bind_eq_ok, bound_eq_ok]
  constructor
  · rintro ⟨m, hm, h⟩
    cases m <;> simp_all [Meta.image?, refuse]
  · exact fun h => ⟨_, h, rfl⟩

theorem scalar_eq_ok {a : ScalarMeta} : scalar known slot = .ok a ↔ slotMeta known slot = some (.scalar a) := by
  simp only [scalar, bind_eq_ok, bound_eq_ok]
  constructor
  · rintro ⟨m, hm, h⟩
    cases m <;> simp_all [Meta.scalar?, refuse]
  · exact fun h => ⟨_, h, rfl⟩

theorem array_eq_ok {a : ArrayMeta} : array known slot = .ok a ↔ slotMeta known slot = some (.array a) := by
  simp only [array, bind_eq_ok, bound_eq_ok]
  constructor
  · rintro ⟨m, hm, h⟩
    cases m <;> simp_all [Meta.array?, refuse]
  · exact fun h => ⟨_, h, rfl⟩

theorem pyramid_eq_ok {a : PyramidMeta} : pyramid known slot = .ok a ↔ slotMeta known slot = some (.pyramid a) := by
  simp only [pyramid, bind_eq_ok, bound_eq_ok]
  constructor
  · rintro ⟨m, hm, h⟩
    cases m <;> simp_all [Meta.pyramid?, refuse]
  · exact fun h => ⟨_, h, rfl⟩

/-- The metadata of an image all of whose metadata is known. -/
def shapeMeta (s : ImageShape) : ImageMeta := .known s.width s.height s.format

theorem shape?_eq_some {a : ImageMeta} {s : ImageShape} : a.shape? = some s ↔ a = shapeMeta s := by
  obtain ⟨w, h, f⟩ := a
  cases w <;> cases h <;> cases f <;> simp [ImageMeta.shape?, shapeMeta, ImageMeta.known]
  rename_i w h f
  constructor
  · rintro rfl
    simp
  · rintro ⟨rfl, rfl, rfl⟩
    rfl

theorem inputImage_eq_ok {s : ImageShape} :
    inputImage known slot = .ok s ↔ slotMeta known slot = some (.image (shapeMeta s)) := by
  simp only [inputImage, bind_eq_ok, image_eq_ok]
  constructor
  · rintro ⟨a, ha, h⟩
    cases hs : a.shape? with
    | none => simp [hs, refuse] at h
    | some t =>
      have hts : t = s := by simpa [hs] using h
      rw [ha, shape?_eq_some.mp hs, hts]
  · intro h
    exact ⟨_, h, by rw [shape?_eq_some.mpr rfl]⟩

theorem requireFormat_eq_ok {s : ImageShape} {allowed : List Format} {f : Format} :
    requireFormat slot s allowed = .ok f ↔ s.format ∈ allowed ∧ s.format = f := by
  unfold requireFormat refuse
  by_cases h : s.format ∈ allowed <;> simp [h]

theorem chooseFormat_eq_ok {declared : Option Format} {default : Format} {allowed : List Format} {f : Format} :
    chooseFormat slot declared default allowed = .ok f ↔ f ∈ allowed ∧ declared.getD default = f := by
  unfold chooseFormat refuse
  by_cases h : declared.getD default ∈ allowed
  · simp only [List.contains_eq_mem, h, decide_true, ↓reduceIte, Except.ok.injEq]
    exact ⟨fun he => ⟨he ▸ h, he⟩, fun he => he.2⟩
  · simp only [List.contains_eq_mem, h, decide_false, Bool.false_eq_true, ↓reduceIte, reduceCtorEq,
      false_iff, not_and]
    exact fun hf he => h (he ▸ hf)

theorem sameExtent_eq_ok {reference other : ImageShape} {u : Unit} :
    sameExtent slot reference other = .ok u ↔ reference.extent = other.extent := by
  unfold sameExtent refuse
  by_cases h : reference.extent = other.extent <;> simp [h]

/-- A check that refuses before the rest of a rule. -/
theorem unless_refused_eq_ok {α β : Type} {c : Prop} [Decidable c] {cause : RejectionCause} {f : α → Except Rejection β}
    {rest : Except Rejection β} {b : β} :
    (if c then refuse slot cause >>= f else rest) = .ok b ↔ ¬c ∧ rest = .ok b := by
  by_cases hc : c <;> simp [hc, refuse, Bind.bind, Except.bind]

theorem scalarOf_eq_ok {allowed : List ScalarType} {a : ScalarMeta} :
    scalarOf known slot allowed = .ok a ↔
      slotMeta known slot = some (.scalar a) ∧ ∃ t ∈ allowed, a.type = some t := by
  simp only [scalarOf, bind_eq_ok, scalar_eq_ok]
  constructor
  · rintro ⟨m, hm, h⟩
    cases ht : m.type with
    | none => simp [ht, refuse] at h
    | some t =>
      by_cases ha : t ∈ allowed
      · have hma : m = a := by simpa [ht, ha] using h
        exact ⟨hma ▸ hm, t, ha, hma ▸ ht⟩
      · simp [ht, ha, refuse] at h
  · rintro ⟨hm, t, ha, ht⟩
    exact ⟨a, hm, by simp [ht, ha]⟩

/-- The numbers of the conversion policies, and whether they saturate. -/
def PolicyNumber (v : UInt32) (saturate : Bool) : Prop :=
  v = wrapPolicy ∧ saturate = false ∨ v = saturatePolicy ∧ saturate = true

theorem policy_eq_ok {saturate : Bool} :
    policy known slot = .ok saturate ↔
      ∃ a v, slotMeta known slot = some (.scalar a) ∧ a.value = some (.enum v) ∧ PolicyNumber v saturate := by
  have hne : wrapPolicy ≠ saturatePolicy := by decide
  simp only [policy, bind_eq_ok, scalar_eq_ok, PolicyNumber]
  constructor
  · rintro ⟨m, hm, h⟩
    cases hv : m.value with
    | none => simp [hv, refuse] at h
    | some x =>
      cases x
      case enum v =>
        refine ⟨m, v, hm, hv, ?_⟩
        by_cases hw : v = wrapPolicy
        · exact .inl ⟨hw, by simpa [hv, hw] using h.symm⟩
        · by_cases hs : v = saturatePolicy
          · exact .inr ⟨hs, by simpa [hv, hs, hne.symm] using h.symm⟩
          · simp [hv, hw, hs, refuse] at h
      all_goals simp [hv, refuse] at h
  · rintro ⟨a, v, hm, hv, ⟨rfl, rfl⟩ | ⟨rfl, rfl⟩⟩
    · exact ⟨a, hm, by simp [hv]⟩
    · exact ⟨a, hm, by simp [hv, hne.symm]⟩

theorem imagePair_eq_ok {allowed : List Format} {first second : ImageShape} :
    imagePair known allowed = .ok (first, second) ↔
      slotMeta known 0 = some (.image (shapeMeta first)) ∧ first.format ∈ allowed ∧
      slotMeta known 1 = some (.image (shapeMeta second)) ∧ second.format ∈ allowed ∧
      first.extent = second.extent := by
  simp only [imagePair, bind_eq_ok, inputImage_eq_ok, requireFormat_eq_ok, sameExtent_eq_ok,
    pure, Except.pure, Except.ok.injEq, Prod.mk.injEq]
  constructor
  · rintro ⟨a, ha, f, ⟨hf, _⟩, b, hb, g, ⟨hg, _⟩, _, he, rfl, rfl⟩
    exact ⟨ha, hf, hb, hg, he⟩
  · rintro ⟨ha, hf, hb, hg, he⟩
    exact ⟨first, ha, _, ⟨hf, rfl⟩, second, hb, _, ⟨hg, rfl⟩, (), he, rfl, rfl⟩

/-! ### Metadata that was extended meanwhile -/

/-- The same parameters with metadata that was extended; the values of scalars stay. -/
structure Refines (next known : Known) : Prop where
  unbound : ∀ slot, slotMeta known slot = none → slotMeta next slot = none
  bound : ∀ slot m, slotMeta known slot = some m →
    ∃ n, slotMeta next slot = some n ∧ n.Extends m ∧ n.value? = m.value?

/-- Every inference is part of what is known. -/
def Settled (known : Known) (inferences : List Inference) : Prop :=
  ∀ i ∈ inferences, ∃ m, slotMeta known i.slot = some m ∧ m.Extends i.info

namespace Refines

variable {next known : Known}

theorem refl (known : Known) : Refines known known := ⟨fun _ h => h, fun _ m h => ⟨m, h, .refl m, rfl⟩⟩

variable (h : Refines next known)

include h

theorem isBound_eq (slot : Nat) : isBound next slot = isBound known slot := by
  cases hk : slotMeta known slot with
  | none =>
    have hn := h.unbound slot hk
    simp only [isBound, slotMeta] at hk hn ⊢
    simp [hk, hn]
  | some m =>
    obtain ⟨n, hn, _⟩ := h.bound slot m hk
    simp only [isBound, slotMeta] at hk hn ⊢
    simp [hk, hn]

variable {slot : Nat} {a : ScalarMeta}

theorem shape {s : ImageShape} (hs : slotMeta known slot = some (.image (shapeMeta s))) :
    slotMeta next slot = some (.image (shapeMeta s)) := by
  obtain ⟨n, hn, hext, hv⟩ := h.bound slot _ hs
  rw [hn, hext.eq_of_resolved rfl hv]

theorem image {a : ImageMeta} (ha : slotMeta known slot = some (.image a)) :
    ∃ b, slotMeta next slot = some (.image b) ∧ (Meta.image b).Extends (.image a) := by
  obtain ⟨n, hn, hext, _⟩ := h.bound slot _ ha
  cases n with
  | image b => exact ⟨b, hn, hext⟩
  | _ => exact hext.elim

theorem scalar (ha : slotMeta known slot = some (.scalar a)) :
    ∃ b, slotMeta next slot = some (.scalar b) ∧ Keeps b.type a.type ∧ b.value = a.value := by
  obtain ⟨n, hn, hext, hv⟩ := h.bound slot _ ha
  cases n <;> simp only [Meta.Extends] at hext
  exact ⟨_, hn, hext.1, hv⟩

theorem array {a : ArrayMeta} (ha : slotMeta known slot = some (.array a)) :
    ∃ b, slotMeta next slot = some (.array b) ∧ Keeps b.itemType a.itemType ∧ Keeps b.capacity a.capacity := by
  obtain ⟨n, hn, hext, _⟩ := h.bound slot _ ha
  cases n <;> simp only [Meta.Extends] at hext
  exact ⟨_, hn, hext⟩

theorem pyramid {a : PyramidMeta} (ha : slotMeta known slot = some (.pyramid a)) :
    ∃ b, slotMeta next slot = some (.pyramid b) ∧ Keeps b.levels a.levels ∧ Keeps b.format a.format := by
  obtain ⟨n, hn, hext, _⟩ := h.bound slot _ ha
  cases n <;> simp only [Meta.Extends] at hext
  exact ⟨_, hn, hext.1, hext.2.2.2⟩

theorem scalarOf {allowed : List ScalarType}
    (ha : slotMeta known slot = some (.scalar a) ∧ ∃ t ∈ allowed, a.type = some t) :
    ∃ b, (slotMeta next slot = some (.scalar b) ∧ ∃ t ∈ allowed, b.type = some t) ∧ b.value = a.value := by
  obtain ⟨hs, t, hmem, ht⟩ := ha
  obtain ⟨b, hb, htype, hv⟩ := h.scalar hs
  exact ⟨b, ⟨hb, t, hmem, htype t ht⟩, hv⟩

theorem policy {saturate : Bool}
    (hp : ∃ a v, slotMeta known slot = some (.scalar a) ∧ a.value = some (.enum v) ∧ PolicyNumber v saturate) :
    ∃ a v, slotMeta next slot = some (.scalar a) ∧ a.value = some (.enum v) ∧ PolicyNumber v saturate := by
  obtain ⟨a, v, ha, hv, hn⟩ := hp
  obtain ⟨b, hb, _, hval⟩ := h.scalar ha
  exact ⟨b, v, hb, hval.trans hv, hn⟩

end Refines

/-! ### Rules built from regular parts -/

/-- A check whose answer survives any extension of the metadata. -/
def Stable {α : Type} (a : Known → Except Rejection α) : Prop :=
  ∀ ⦃known next x⦄, Refines next known → a known = .ok x → a next = .ok x

/-- A rule infers for bound parameters only and never a value. It infers the same again from metadata that
was extended meanwhile, as long as there is an extension that covers its inferences. -/
structure Regular (rule : Rule) : Prop where
  names : ∀ ⦃known inferences⦄, rule known = .ok inferences →
    ∀ i ∈ inferences, i.info.value? = none ∧ ∃ m, slotMeta known i.slot = some m
  settles : ∀ ⦃known mid next inferences⦄, Refines mid known → Refines next mid → rule known = .ok inferences →
    Settled next inferences → rule mid = .ok inferences

theorem stable_const {α : Type} (a : Except Rejection α) : Stable fun _ => a := fun _ _ _ _ h => h

theorem stable_inputImage (slot : Nat) : Stable fun known => inputImage known slot := by
  intro known next s h hs
  rw [inputImage_eq_ok] at hs ⊢
  exact h.shape hs

theorem stable_scalarOf (slot : Nat) (allowed : List ScalarType) :
    Stable fun known => scalarOf known slot allowed := by
  intro known next a h ha
  rw [scalarOf_eq_ok] at ha ⊢
  obtain ⟨b, ⟨hb, t, hmem, hbt⟩, hv⟩ := h.scalarOf ha
  obtain ⟨hs, u, _, hau⟩ := ha
  obtain ⟨b', hb', htype, _⟩ := h.scalar hs
  -- A known type stays and so does the value, hence the whole record.
  have hbb : b' = b := by simpa [hb] using hb'.symm
  have hab : b = a := by
    obtain ⟨bt, bv⟩ := b
    obtain ⟨at', av⟩ := a
    have ht : bt = some u := by simpa [hbb] using htype u hau
    simp_all
  exact ⟨hab ▸ hb, t, hmem, hab ▸ hbt⟩

theorem stable_policy (slot : Nat) : Stable fun known => policy known slot := by
  intro known next b h hb
  rw [policy_eq_ok] at hb ⊢
  exact h.policy hb

theorem stable_imagePair (allowed : List Format) : Stable fun known => imagePair known allowed := by
  rintro known next ⟨first, second⟩ h hp
  rw [imagePair_eq_ok] at hp ⊢
  obtain ⟨h0, hf0, h1, hf1, he⟩ := hp
  exact ⟨h.shape h0, hf0, h.shape h1, hf1, he⟩

theorem Stable.bind {α β : Type} {a : Known → Except Rejection α} {f : α → Known → Except Rejection β}
    (ha : Stable a) (hf : ∀ x, Stable (f x)) : Stable fun known => a known >>= fun x => f x known := by
  intro known next y h hy
  rw [bind_eq_ok] at hy ⊢
  obtain ⟨x, hx, hy⟩ := hy
  exact ⟨x, ha h hx, hf x h hy⟩

theorem stable_forM {f : Nat → Known → Except Rejection Unit} (hf : ∀ slot, Stable (f slot)) (slots : List Nat) :
    Stable fun known => slots.forM fun slot => f slot known := by
  intro known next u h hk
  have hall := forM_eq_ok.mp hk
  exact forM_eq_ok.mpr fun slot hs => hf slot h (hall slot hs)

namespace Regular

/-- A check may see more on extended metadata, as long as the rest of the rule does not care. -/
theorem bindUpTo {α : Type} {a : Known → Except Rejection α} {f : α → Rule} (R : α → α → Prop)
    (ha : ∀ ⦃known next x⦄, Refines next known → a known = .ok x → ∃ y, a next = .ok y ∧ R y x)
    (hR : ∀ ⦃x y known inferences⦄, R y x → f x known = .ok inferences → f y known = .ok inferences)
    (hf : ∀ x, Regular (f x)) : Regular fun known => a known >>= fun x => f x known where
  names known infs h := by
    obtain ⟨x, _, h⟩ := bind_eq_ok.mp h
    exact (hf x).names h
  settles known mid next infs href hnext h hset := by
    obtain ⟨x, hx, h⟩ := bind_eq_ok.mp h
    obtain ⟨y, hy, hyx⟩ := ha href hx
    exact bind_eq_ok.mpr ⟨y, hy, hR hyx ((hf x).settles href hnext h hset)⟩

theorem bind {α : Type} {a : Known → Except Rejection α} {f : α → Rule} (ha : Stable a)
    (hf : ∀ x, Regular (f x)) : Regular fun known => a known >>= fun x => f x known := by
  refine bindUpTo Eq (fun known next x href hx => ⟨x, ha href hx, rfl⟩) ?_ hf
  rintro x _ known infs rfl h
  exact h

/-- A rule that goes on after a refusal never infers anything. -/
theorem refused {α : Type} (slot : Nat) (cause : RejectionCause) (f : α → Rule) :
    Regular fun known => refuse slot cause >>= fun x => f x known where
  names known infs h := by
    obtain ⟨x, hx, _⟩ := bind_eq_ok.mp h
    cases hx
  settles known mid next infs href hnext h := by
    obtain ⟨x, hx, _⟩ := bind_eq_ok.mp h
    cases hx

theorem ite {c : Prop} [Decidable c] {f g : Rule} (hf : Regular f) (hg : Regular g) :
    Regular fun known => if c then f known else g known := by
  by_cases hc : c <;> simpa [hc]

/-- A rule may branch on what extensions of the metadata do not change. -/
theorem iteOf {c : Known → Bool} (hc : ∀ ⦃known next⦄, Refines next known → c next = c known) {f g : Rule}
    (hf : Regular f) (hg : Regular g) : Regular fun known => if c known then f known else g known where
  names known infs h := by
    split at h
    · exact hf.names h
    · exact hg.names h
  settles known mid next infs href hnext h hset := by
    simp only [hc href]
    cases hk : c known
    · simp only [hk, Bool.false_eq_true, ↓reduceIte] at h ⊢
      exact hg.settles href hnext h hset
    · simp only [hk, ↓reduceIte] at h ⊢
      exact hf.settles href hnext h hset

/-- An output image has the same format again: none was declared and none is, or it is the one that was found. -/
theorem chosenFormat {known mid next : Known} {slot : Nat} {a : ImageMeta} {like : ImageShape} {default format : Format}
    (href : Refines mid known) (hnext : Refines next mid) (ha : slotMeta known slot = some (.image a))
    (hformat : a.format.getD default = format) {m : Meta} (hm : slotMeta next slot = some m)
    (hext : m.Extends (inferImage slot like format).info) :
    ∃ b, slotMeta mid slot = some (.image b) ∧ b.format.getD default = format := by
  obtain ⟨b, hb, hkeeps⟩ := href.image ha
  obtain ⟨c, hc, hkeeps'⟩ := hnext.image hb
  have hmc : m = .image c := by simpa [hc] using hm.symm
  subst hmc
  exact ⟨b, hb, hkeeps.2.2.getD_eq hkeeps'.2.2 (hext.2.2 format rfl) hformat⟩

/-- The usual last part of a rule: an output image in the declared format or in the default one. -/
theorem output (slot : Nat) (like : ImageShape) (default : Format) (allowed : List Format) :
    Regular fun known => do
      let out ← image known slot
      let format ← chooseFormat slot out.format default allowed
      return [inferImage slot like format] where
  names known infs h := by
    simp only [bind_eq_ok, image_eq_ok, chooseFormat_eq_ok, pure, Except.pure, Except.ok.injEq] at h
    obtain ⟨out, hout, format, _, rfl⟩ := h
    simpa [inferImage] using ⟨rfl, _, hout⟩
  settles known mid next infs href hnext h hset := by
    simp only [bind_eq_ok, image_eq_ok, chooseFormat_eq_ok, pure, Except.pure, Except.ok.injEq] at h ⊢
    obtain ⟨out, hout, format, ⟨hmem, hformat⟩, rfl⟩ := h
    obtain ⟨m, hm, hext⟩ := hset _ (List.mem_singleton.mpr rfl)
    obtain ⟨b, hb, hagain⟩ := chosenFormat href hnext hout hformat hm hext
    exact ⟨b, hb, format, ⟨hmem, hagain⟩, rfl⟩

/-- A rule may look at whether a parameter is bound. -/
theorem ofBound {f : Bool → Rule} (slot : Nat) (hf : ∀ b, Regular (f b)) :
    Regular fun known => f (isBound known slot) known where
  names known infs h := (hf _).names h
  settles known mid next infs href hnext h hset := by
    have hn := (hf _).settles href hnext h hset
    rwa [← href.isBound_eq slot] at hn

end Regular

/-- An inference for one parameter. -/
structure RegularAt (slot : Nat) (a : Known → Except Rejection Inference) : Prop where
  names : ∀ ⦃known i⦄, a known = .ok i → i.slot = slot ∧ i.info.value? = none ∧ ∃ m, slotMeta known slot = some m
  settles : ∀ ⦃known mid next i m⦄, Refines mid known → Refines next mid → a known = .ok i →
    slotMeta next slot = some m → m.Extends i.info → a mid = .ok i

namespace RegularAt

theorem bound {slot : Nat} {a : Known → Except Rejection Inference} (ha : RegularAt slot a) {known : Known}
    {i : Inference} (h : a known = .ok i) : i.info.value? = none ∧ ∃ m, slotMeta known i.slot = some m := by
  obtain ⟨hs, hrest⟩ := ha.names h
  exact hs ▸ hrest

theorem again {slot : Nat} {a : Known → Except Rejection Inference} (ha : RegularAt slot a) {known mid next : Known}
    {i : Inference} {inferences : List Inference} (href : Refines mid known) (hnext : Refines next mid)
    (h : a known = .ok i) (hset : Settled next inferences) (hi : i ∈ inferences) : a mid = .ok i := by
  obtain ⟨m, hm, hext⟩ := hset i hi
  exact ha.settles href hnext h ((ha.names h).1 ▸ hm) hext

end RegularAt

/-- Inferences for those of some parameters that are bound. -/
theorem Regular.overBound {f : Nat → Known → Except Rejection Inference} (hf : ∀ slot, RegularAt slot (f slot))
    (slots : List Nat) : Regular fun known => (slots.filter (isBound known)).mapM fun slot => f slot known where
  names known infs h i hi := by
    obtain ⟨slot, _, hslot⟩ := exists_of_mem_mapM h hi
    exact (hf slot).bound hslot
  settles known mid next infs href hnext h hset := by
    have hsame : isBound mid = isBound known := funext href.isBound_eq
    rw [hsame]
    exact mapM_eq_ok_of_imp h fun slot _ i hi hslot => (hf slot).again href hnext hslot hset hi

end Rule

/-! ### The standard kernels -/

namespace Kernel

open Rule

theorem regular_additiveRule : Regular additiveRule :=
  .bind (stable_imagePair _) fun _ => .bind (stable_policy 2) fun _ => .output 3 _ _ _

theorem regular_multiply : Regular multiply.rule :=
  .bind (stable_imagePair _) fun _ => .bind (stable_scalarOf 2 _) fun _ => .bind (stable_policy 3) fun _ =>
    .output 4 _ _ _

theorem regular_absdiff : Regular absdiff.rule :=
  .bind (stable_imagePair _) fun _ => .ite (.refused 1 _ _) (.output 2 _ _ _)

theorem regular_multiplyScalar : Regular multiplyScalar.rule :=
  .bind (stable_inputImage 0) fun _ => .bind (stable_const _) fun _ => .bind (stable_scalarOf 1 _) fun _ =>
    .output 2 _ _ _

theorem regular_clamp : Regular Kernel.clamp.rule :=
  .bind (stable_inputImage 0) fun _ => .bind (stable_const _) fun _ => .bind (stable_scalarOf 1 _) fun _ =>
    .bind (stable_scalarOf 2 _) fun _ => .output 3 _ _ _

theorem regular_bitwise (name : String) (number : UInt32) (sign : String) (combine : Nat → Nat → Nat) :
    Regular (bitwise name number sign combine).rule :=
  .bind (stable_imagePair _) fun _ => .output 2 _ _ _

theorem regular_byteRule (target : Nat) : Regular (byteRule target) :=
  .bind (stable_inputImage 0) fun _ => .bind (stable_const _) fun _ => .output target _ _ _

theorem regular_threshold : Regular threshold.rule :=
  .bind (stable_inputImage 0) fun _ => .bind (stable_const _) fun _ => .bind (stable_scalarOf 1 _) fun _ =>
    .output 2 _ _ _

theorem regular_gradientRule (format : Format) : Regular (gradientRule format) :=
  .bind (stable_imagePair _) fun _ => .output 2 _ _ _

theorem regular_colorConvert : Regular colorConvert.rule :=
  .bind (stable_inputImage 0) fun _ => .bind (stable_const _) fun _ => .output 1 _ _ _

theorem regular_filter (name : String) (number : UInt32) (reduction : String) (helpers : List Helper)
    (reduce : Taps → Int) : Regular (Kernel.filter name number reduction helpers reduce).rule :=
  .bind (stable_inputImage 0) fun _ => .bind (stable_const _) fun _ => .output 1 _ _ _

theorem regular_convertDepth : Regular convertDepth.rule := by
  refine .bind (stable_inputImage 0) fun input => ?_
  cases depthFormats? input.format with
  | none => exact .refused 0 _ _
  | some formats =>
    refine .bind (stable_const _) fun _ => .bind (stable_policy 2) fun _ => .bind (stable_scalarOf 3 _) fun shift => ?_
    split
    · exact .ite (.refused 3 _ _) (.output 1 _ _ _)
    · exact .output 1 _ _ _

theorem regular_channelExtract : Regular channelExtract.rule := by
  refine .bind (stable_inputImage 0) fun input => .bind (stable_const _) fun format => ?_
  refine .bindUpTo (fun a b => a.value = b.value) ?_ ?_ fun channel => ?_
  · intro known next a href ha
    rw [scalar_eq_ok] at ha
    obtain ⟨b, hb, _, hv⟩ := href.scalar ha
    exact ⟨b, scalar_eq_ok.mpr hb, hv⟩
  · intro a b known infs hv h
    simpa only [hv] using h
  · split
    · refine .bind (stable_const _) fun v => ?_
      dsimp only
      split
      · exact .ite (.refused 1 _ _) (.output 2 _ _ _)
      · exact .refused 1 _ _
    · exact .refused 1 _ _

theorem regular_tableLookup : Regular tableLookup.rule := by
  refine .bind (stable_inputImage 0) fun input => .bind (stable_const _) fun _ => ?_
  refine .bindUpTo (fun a b => Keeps a.itemType b.itemType) ?_ ?_ fun table =>
    .ite (.refused 1 _ _) (.output 2 _ _ _)
  · intro known next a href ha
    rw [array_eq_ok] at ha
    obtain ⟨b, hb, hkeeps, _⟩ := href.array ha
    exact ⟨b, array_eq_ok.mpr hb, hkeeps⟩
  · intro a b known infs hkeeps h
    by_cases ha : a.itemType = some .u8
    · simpa [ha, hkeeps _ ha] using h
    · simp [ha, refuse, Bind.bind, Except.bind] at h

theorem regular_accumulate : Regular accumulate.rule := by
  refine .bind (stable_inputImage 0) fun input => .bind (stable_const _) fun _ => ?_
  refine .bindUpTo (fun a b => b.isResolved → a.isResolved) ?_ ?_ fun accum => .ite (.refused 1 _ _) ?_
  · intro known next a href ha
    rw [image_eq_ok] at ha
    obtain ⟨b, hb, hext⟩ := href.image ha
    refine ⟨b, image_eq_ok.mpr hb, fun hres => ?_⟩
    have hsame : b = a := Meta.image.inj (hext.eq_of_resolved hres rfl)
    exact hsame ▸ hres
  · intro a b known infs hres h
    cases ha : a.isResolved
    · simp [ha, refuse, Bind.bind, Except.bind] at h
    · simpa [ha, hres ha] using h
  · refine .bind (stable_inputImage 1) fun accum => .bind (stable_const _) fun _ => .bind (stable_const _) fun _ => ?_
    exact ⟨fun _ _ h => by cases h; simp, fun _ _ _ _ _ _ h _ => h⟩

theorem regular_channelCombine : Regular channelCombine.rule := by
  refine .bind (stable_inputImage 0) fun first => .bind (stable_const _) fun _ => ?_
  refine .ofBound (f := fun four known => do
    (if four then [1, 2, 3] else [1, 2]).forM fun slot => do
      let plane ← inputImage known slot
      let _ ← requireFormat slot plane [.u8]
      sameExtent slot first plane
    let out ← image known 4
    let format ← if four then chooseFormat 4 out.format .rgbx [.rgbx]
      else chooseFormat 4 out.format .rgb [.rgb, .rgbx]
    return [inferImage 4 first format]) 3 fun four => ?_
  refine .bind (stable_forM (fun slot => ?_) _) fun _ => ?_
  · exact .bind (stable_inputImage slot) fun plane => .bind (stable_const _) fun _ => stable_const _
  · cases four <;> exact .output 4 _ _ _

theorem regularAt_gradient (slot : Nat) (input : ImageShape) :
    RegularAt slot fun known => do
      let out ← image known slot
      let format ← chooseFormat slot out.format .s16 [.s16]
      return inferImage slot input format where
  names known i h := by
    simp only [bind_eq_ok, image_eq_ok, pure, Except.pure, Except.ok.injEq] at h
    obtain ⟨out, hout, format, _, rfl⟩ := h
    exact ⟨rfl, rfl, _, hout⟩
  settles known mid next i m href hnext h hm hext := by
    simp only [bind_eq_ok, image_eq_ok, chooseFormat_eq_ok, pure, Except.pure, Except.ok.injEq] at h ⊢
    obtain ⟨out, hout, format, ⟨hmem, hformat⟩, rfl⟩ := h
    obtain ⟨b, hb, hagain⟩ := Regular.chosenFormat href hnext hout hformat hm hext
    exact ⟨b, hb, format, ⟨hmem, hagain⟩, rfl⟩

theorem regular_sobel3x3 : Regular sobel3x3.rule := by
  refine .bind (stable_inputImage 0) fun input => .bind (stable_const _) fun _ => ?_
  refine .iteOf (fun known next href => ?_) (.refused 1 _ _)
    (.overBound (fun slot => regularAt_gradient slot input) _)
  rw [href.isBound_eq, href.isBound_eq]

theorem regular_histogram : Regular histogram.rule := by
  refine .bind (stable_inputImage 0) fun input => .bind (stable_const _) fun _ => ?_
  constructor
  · intro known infs h
    simp only [bind_eq_ok, array_eq_ok, unless_refused_eq_ok, pure, Except.pure, Except.ok.injEq] at h
    obtain ⟨a, ha, _, _, rfl⟩ := h
    simpa using ⟨rfl, _, ha⟩
  · intro known mid next infs href hnext h hset
    simp only [bind_eq_ok, array_eq_ok, unless_refused_eq_ok, pure, Except.pure, Except.ok.injEq] at h ⊢
    obtain ⟨a, ha, _, hbins, rfl⟩ := h
    obtain ⟨m, hm, hext⟩ := hset _ (List.mem_singleton.mpr rfl)
    obtain ⟨b, hb, _, hcapacity⟩ := href.array ha
    obtain ⟨c, hc, htype, hcapacity'⟩ := hnext.array hb
    have hmc : m = .array c := by simpa [hc] using hm.symm
    subst hmc
    have hsame := hcapacity.getD_eq hcapacity' (hext.2 _ rfl) rfl
    exact ⟨b, hb, htype.not_other (hext.1 _ rfl), by rwa [hsame], by rw [hsame]⟩

variable {known : Known} {slot : Nat} {i : Inference} {input : ImageShape}

/-- What the rule of the pyramid asks of the pyramid, once the image is known. -/
theorem pyramid_rest_eq_ok {infs : List Inference} :
    (do
      let declared ← pyramid known 1
      let levels ← match declared.levels with
        | some n => Except.ok n
        | none => refuse 1 .openLevels
      if levels = 0 then
        refuse 1 .noLevels
      if declared.format.isSome && declared.format != some .u8 then
        refuse 1 .pyramidFormat
      return [⟨1, .pyramid (.known levels input.width input.height .u8)⟩]) = Except.ok infs ↔
      ∃ a n, slotMeta known 1 = some (.pyramid a) ∧ a.levels = some n ∧ n ≠ 0 ∧
        ¬(a.format.isSome && a.format != some .u8) = true ∧
        [⟨1, .pyramid (.known n input.width input.height .u8)⟩] = infs := by
  simp only [bind_eq_ok, pyramid_eq_ok]
  refine exists_congr fun a => ?_
  cases hl : a.levels with
  | none => simp [refuse, Bind.bind, Except.bind]
  | some n =>
    simp only [bind_eq_ok, unless_refused_eq_ok, pure, Except.pure, Except.ok.injEq, Option.some.injEq]
    constructor
    · rintro ⟨ha, _, rfl, hn, hf, hi⟩
      exact ⟨_, ha, rfl, hn, hf, hi⟩
    · rintro ⟨_, ha, rfl, hn, hf, hi⟩
      exact ⟨ha, _, rfl, hn, hf, hi⟩

theorem regular_gaussianPyramid : Regular gaussianPyramid.rule := by
  refine .bind (stable_inputImage 0) fun input => .bind (stable_const _) fun _ => ?_
  constructor
  · intro known infs h
    obtain ⟨a, n, ha, _, _, _, rfl⟩ := pyramid_rest_eq_ok.mp h
    simpa using ⟨rfl, _, ha⟩
  · intro known mid next infs href hnext h hset
    obtain ⟨a, n, ha, hl, hn, _, rfl⟩ := pyramid_rest_eq_ok.mp h
    obtain ⟨m, hm, hext⟩ := hset _ (List.mem_singleton.mpr rfl)
    obtain ⟨b, hb, hkeeps, _⟩ := href.pyramid ha
    obtain ⟨c, hc, _, hformat⟩ := hnext.pyramid hb
    have hmc : m = .pyramid c := by simpa [hc] using hm.symm
    subst hmc
    exact pyramid_rest_eq_ok.mpr ⟨b, n, hb, hkeeps n hl, hn, hformat.not_other (hext.2.2.2 _ rfl), rfl⟩

theorem scalarOutput_eq_ok {type : ScalarType} :
    scalarOutput known slot type = .ok i ↔
      ∃ a, slotMeta known slot = some (.scalar a) ∧ Keeps (some type) a.type ∧ ⟨slot, .scalar (.typed type)⟩ = i := by
  simp only [scalarOutput, bind_eq_ok, scalar_eq_ok]
  refine exists_congr fun a => and_congr_right fun _ => ?_
  cases ht : a.type with
  | none => simp [Keeps.none, pure, Except.pure]
  | some found =>
    by_cases hf : found = type
    · simp [hf, Keeps.refl, pure, Except.pure]
    · have hno : ¬Keeps (some type) (some found) := fun h => hf (by simpa using (h found rfl).symm)
      simp [hf, hno, refuse]

theorem regularAt_scalarOutput (slot : Nat) (type : ScalarType) :
    RegularAt slot fun known => scalarOutput known slot type where
  names known i h := by
    obtain ⟨a, ha, _, rfl⟩ := scalarOutput_eq_ok.mp h
    exact ⟨rfl, rfl, _, ha⟩
  settles known mid next i m href hnext h hm hext := by
    obtain ⟨a, ha, _, rfl⟩ := scalarOutput_eq_ok.mp h
    obtain ⟨b, hb, _, _⟩ := href.scalar ha
    obtain ⟨c, hc, hkeeps, _⟩ := hnext.scalar hb
    have hmc : m = .scalar c := by simpa [hc] using hm.symm
    subst hmc
    have htype : c.type = some type := hext.1 _ rfl
    exact scalarOutput_eq_ok.mpr ⟨b, hb, htype ▸ hkeeps, rfl⟩

/-- The capacity of an array of places. -/
def LocationCapacity (input : ImageShape) (declared : Option UInt32) (c : UInt32) : Prop :=
  declared = some c ∨ declared = none ∧ input.pixels < UInt32.size ∧ c = UInt32.ofNat input.pixels

theorem LocationCapacity.between {a b c : Option UInt32} {n : UInt32} (h : LocationCapacity input a n) (hba : Keeps b a)
    (hcb : Keeps c b) (hc : c = some n) : LocationCapacity input b n := by
  cases b with
  | some m => exact .inl ((hcb m rfl).symm.trans hc)
  | none =>
    rcases h with ha | ⟨_, hpixels⟩
    · cases hba n ha
    · exact .inr ⟨rfl, hpixels⟩

theorem locationOutput_eq_ok :
    locationOutput known input slot = .ok i ↔
      ∃ a c, slotMeta known slot = some (.array a) ∧
        ¬(a.itemType.isSome && a.itemType != some .coordinates2d) = true ∧
        LocationCapacity input a.capacity c ∧ ⟨slot, .array (.known .coordinates2d c)⟩ = i := by
  simp only [locationOutput, bind_eq_ok, array_eq_ok, unless_refused_eq_ok, LocationCapacity]
  refine exists_congr fun a => ?_
  cases a.capacity with
  | some c =>
    simp [bind_eq_ok, pure, Except.pure]
  | none =>
    by_cases hp : input.pixels < UInt32.size <;> simp [hp, bind_eq_ok, pure, Except.pure, refuse]

theorem regularAt_locationOutput (input : ImageShape) (slot : Nat) :
    RegularAt slot fun known => locationOutput known input slot where
  names known i h := by
    obtain ⟨a, c, ha, _, _, rfl⟩ := locationOutput_eq_ok.mp h
    exact ⟨rfl, rfl, _, ha⟩
  settles known mid next i m href hnext h hm hext := by
    obtain ⟨a, n, ha, _, hcapacity, rfl⟩ := locationOutput_eq_ok.mp h
    obtain ⟨b, hb, _, hkeeps⟩ := href.array ha
    obtain ⟨c, hc, htype, hkeeps'⟩ := hnext.array hb
    have hmc : m = .array c := by simpa [hc] using hm.symm
    subst hmc
    refine locationOutput_eq_ok.mpr ⟨b, n, hb, htype.not_other (hext.1 _ rfl), ?_, rfl⟩
    exact hcapacity.between hkeeps hkeeps' (hext.2 _ rfl)

theorem regular_extremaRule : Regular extremaRule := by
  refine .bind (stable_inputImage 0) fun input => .bind (stable_const _) fun format => ?_
  cases ScalarType.ofFormat? format with
  | none => exact .refused 0 _ _
  | some type =>
    refine .bind (stable_const _) fun type => ?_
    have hlo := regularAt_scalarOutput 1 type
    have hhi := regularAt_scalarOutput 2 type
    have hplaces := Regular.overBound (fun slot => regularAt_locationOutput input slot) [3, 4]
    have hcounts := Regular.overBound (fun slot => regularAt_scalarOutput slot .u32) [5, 6]
    constructor
    · intro known infs h
      simp only [bind_eq_ok, pure, Except.pure, Except.ok.injEq] at h
      obtain ⟨lo, h1, hi, h2, places, h3, counts, h4, rfl⟩ := h
      intro i hmem
      simp only [List.cons_append, List.mem_cons, List.mem_append] at hmem
      rcases hmem with rfl | rfl | hmem | hmem
      · exact hlo.bound h1
      · exact hhi.bound h2
      · exact hplaces.names h3 i hmem
      · exact hcounts.names h4 i hmem
    · intro known mid next infs href hnext h hset
      simp only [bind_eq_ok, pure, Except.pure, Except.ok.injEq] at h ⊢
      obtain ⟨lo, h1, hi, h2, places, h3, counts, h4, rfl⟩ := h
      refine ⟨lo, hlo.again href hnext h1 hset (by simp), hi, hhi.again href hnext h2 hset (by simp), places, ?_,
        counts, ?_, rfl⟩
      · exact hplaces.settles href hnext h3 fun i hi => hset i (by simp [hi])
      · exact hcounts.settles href hnext h4 fun i hi => hset i (by simp [hi])

end Kernel

/-- The rule of every standard kernel is regular. -/
theorem Registry.regular_of_mem_standard {k : Kernel} (hk : k ∈ Registry.standard.kernels) :
    Rule.Regular k.rule := by
  simp only [Registry.standard, List.mem_cons, List.not_mem_nil, or_false] at hk
  repeat' rcases hk with rfl | hk
  · exact Kernel.regular_colorConvert
  · exact Kernel.regular_channelExtract
  · exact Kernel.regular_channelCombine
  · exact Kernel.regular_additiveRule
  · exact Kernel.regular_additiveRule
  · exact Kernel.regular_multiply
  · exact Kernel.regular_absdiff
  · exact Kernel.regular_bitwise ..
  · exact Kernel.regular_bitwise ..
  · exact Kernel.regular_bitwise ..
  · exact Kernel.regular_byteRule 1
  · exact Kernel.regular_threshold
  · exact Kernel.regular_gradientRule _
  · exact Kernel.regular_gradientRule _
  · exact Kernel.regular_convertDepth
  · exact Kernel.regular_multiplyScalar
  · exact Kernel.regular_clamp
  · exact Kernel.regular_filter ..
  · exact Kernel.regular_filter ..
  · exact Kernel.regular_filter ..
  · exact Kernel.regular_filter ..
  · exact Kernel.regular_filter ..
  · exact Kernel.regular_sobel3x3
  · exact Kernel.regular_tableLookup
  · exact Kernel.regular_histogram
  · exact Kernel.regular_extremaRule
  · exact Kernel.regular_accumulate
  · exact Kernel.regular_gaussianPyramid

end VisionGraph
