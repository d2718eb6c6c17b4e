import Mathlib.Data.List.Forall2
import Mathlib.Data.List.Perm.Basic

/-! Runs of actions that may fail, one after the other. A run is a fold in `Except`; the lemmas open it
into the single actions and exchange actions that do not depend on each other. -/
namespace VisionGraph

variable {α β σ ε : Type} {x : Except ε α} {f : α → Except ε β} {l : List α} {r : List β} {a : α} {b : β}

theorem bind_eq_ok : x >>= f = .ok b ↔ ∃ a, x = .ok a ∧ f a = .ok b := by
  cases x with
  | error e => simp [bind, Except.bind]
  | ok a => simp [bind, Except.bind]

theorem map_eq_ok {f : α → β} : x.map f = .ok b ↔ ∃ a, x = .ok a ∧ f a = b := by
  cases x with
  | error e => simp [Except.map]
  | ok a => simp [Except.map]

theorem toOption_eq_some : x.toOption = some a ↔ x = .ok a := by
  cases x with
  | error e => simp [Except.toOption]
  | ok b => simp [Except.toOption]

/-- A list is checked when every member is. -/
theorem forM_eq_ok {f : α → Except ε Unit} : l.forM f = .ok () ↔ ∀ a ∈ l, f a = .ok () := by
  induction l with
  | nil => simp [pure, Except.pure]
  | cons a l ih =>
    simp only [List.forM_eq_forM, List.forM_cons, bind_eq_ok, List.forall_mem_cons] at ih ⊢
    constructor
    · rintro ⟨_, ha, hl⟩
      exact ⟨ha, ih.mp hl⟩
    · rintro ⟨ha, hl⟩
      exact ⟨(), ha, ih.mpr hl⟩

theorem mapM_eq_ok : l.mapM f = .ok r ↔ List.Forall₂ (fun a b => f a = .ok b) l r := by
  induction l generalizing r with
  | nil => cases r <;> simp [pure, Except.pure]
  | cons a l ih =>
    simp only [List.mapM_cons, bind_eq_ok, pure, Except.pure, Except.ok.injEq]
    constructor
    · rintro ⟨b, ha, t, hl, rfl⟩
      exact .cons ha (ih.mp hl)
    · intro h
      cases h with
      | cons ha hl => exact ⟨_, ha, _, ih.mpr hl, rfl⟩

/-- What is kept of the results belongs to the members that are kept. -/
theorem mapM_filter {keep : α → Bool} {keep' : β → Bool} (h : ∀ a b, f a = .ok b → keep' b = keep a)
    (hr : l.mapM f = .ok r) : (l.filter keep).mapM f = .ok (r.filter keep') := by
  have hall := mapM_eq_ok.mp hr
  apply mapM_eq_ok.mpr
  clear hr
  induction hall with
  | nil => exact .nil
  | @cons a b l r hab _ ih =>
    rw [List.filter_cons, List.filter_cons, h a b hab]
    split
    · exact .cons hab ih
    · exact ih

/-- Every result comes from a member. -/
theorem exists_of_mem_mapM (h : l.mapM f = .ok r) (hb : b ∈ r) : ∃ a ∈ l, f a = .ok b := by
  have hall := mapM_eq_ok.mp h
  clear h
  induction hall with
  | nil => cases hb
  | cons hab _ ih =>
    cases hb with
    | head => exact ⟨_, List.mem_cons_self, hab⟩
    | tail _ hb =>
      obtain ⟨a, ha, hf⟩ := ih hb
      exact ⟨a, List.mem_cons_of_mem _ ha, hf⟩

/-- Every member has a result. -/
theorem exists_ok_of_mapM (h : l.mapM f = .ok r) (ha : a ∈ l) : ∃ b ∈ r, f a = .ok b := by
  have hall := mapM_eq_ok.mp h
  clear h
  induction hall with
  | nil => cases ha
  | cons hab _ ih =>
    cases ha with
    | head => exact ⟨_, List.mem_cons_self, hab⟩
    | tail _ ha =>
      obtain ⟨b, hb, hf⟩ := ih ha
      exact ⟨b, List.mem_cons_of_mem _ hb, hf⟩

theorem getElem?_of_mapM (h : l.mapM f = .ok r) {i : Nat} : r[i]? = some b ↔ ∃ a, l[i]? = some a ∧ f a = .ok b := by
  have hall := mapM_eq_ok.mp h
  clear h
  induction hall generalizing i with
  | nil => simp
  | cons hf _ ih =>
    cases i with
    | zero => simp [hf]
    | succ i => simpa using ih

theorem map_eq_of_mapM {γ : Type} (h : l.mapM f = .ok r) {g : β → γ} {k : α → γ} (hg : ∀ a b, f a = .ok b → g b = k a) :
    r.map g = l.map k := by
  have hall := mapM_eq_ok.mp h
  clear h
  induction hall with
  | nil => rfl
  | cons hf _ ih => rw [List.map_cons, List.map_cons, hg _ _ hf, ih]

/-- A sequence of actions stops at the first that fails. -/
theorem mapM_eq_error {front back : List α} {e : ε} (hfront : ∀ x ∈ front, ∃ b, f x = .ok b) (ha : f a = .error e) :
    (front ++ a :: back).mapM f = .error e := by
  induction front with
  | nil => simp [ha, bind, Except.bind]
  | cons x front ih =>
    obtain ⟨b, hb⟩ := hfront x List.mem_cons_self
    rw [List.cons_append, List.mapM_cons, hb, ih fun y hy => hfront y (List.mem_cons_of_mem x hy)]
    rfl

/-- Two actions that agree where the first one succeeds map a list alike. -/
theorem mapM_eq_ok_of_imp {f g : α → Except ε β} (h : l.mapM f = .ok r)
    (hfg : ∀ a ∈ l, ∀ b ∈ r, f a = .ok b → g a = .ok b) : l.mapM g = .ok r := by
  have hall := mapM_eq_ok.mp h
  clear h
  refine mapM_eq_ok.mpr ?_
  induction hall with
  | nil => exact .nil
  | cons hab _ ih =>
    refine .cons (hfg _ List.mem_cons_self _ List.mem_cons_self hab) (ih fun a ha b hb => ?_)
    exact hfg a (List.mem_cons_of_mem _ ha) b (List.mem_cons_of_mem _ hb)

/-- A list can be mapped when every member can. -/
theorem exists_mapM_eq_ok (h : ∀ a ∈ l, ∃ b, f a = .ok b) : ∃ r, l.mapM f = .ok r := by
  induction l with
  | nil => exact ⟨[], rfl⟩
  | cons a l ih =>
    obtain ⟨b, hb⟩ := h a List.mem_cons_self
    obtain ⟨r, hr⟩ := ih fun x hx => h x (List.mem_cons_of_mem _ hx)
    exact ⟨b :: r, mapM_eq_ok.mpr (.cons hb (mapM_eq_ok.mp hr))⟩

/-- Mapping a rearranged list gives a rearranged result. -/
theorem mapM_perm {l l' : List α} (hp : l.Perm l') (h : l.mapM f = .ok r) : ∃ r', l'.mapM f = .ok r' ∧ r.Perm r' := by
  induction hp generalizing r with
  | nil => exact ⟨r, h, .refl r⟩
  | cons a _ ih =>
    cases mapM_eq_ok.mp h with
    | cons ha hl =>
      obtain ⟨t', ht', hperm⟩ := ih (mapM_eq_ok.mpr hl)
      exact ⟨_, mapM_eq_ok.mpr (.cons ha (mapM_eq_ok.mp ht')), hperm.cons _⟩
  | swap a b l =>
    cases mapM_eq_ok.mp h with
    | cons hb hl =>
      cases hl with
      | cons ha hl => exact ⟨_, mapM_eq_ok.mpr (.cons ha (.cons hb hl)), .swap ..⟩
  | trans _ _ ih₁ ih₂ =>
    obtain ⟨s, hs, hp₁⟩ := ih₁ h
    obtain ⟨t, ht, hp₂⟩ := ih₂ hs
    exact ⟨t, ht, hp₁.trans hp₂⟩

theorem mapM_eq_some_filterMap {f : α → Option β} {l : List α} {r : List β} :
    l.mapM f = some r ↔ (∀ a ∈ l, ∃ b, f a = some b) ∧ r = l.filterMap f := by
  induction l generalizing r with
  | nil => simp [eq_comm]
  | cons a l ih =>
    rw [List.mapM_cons, List.forall_mem_cons, List.filterMap_cons]
    cases hf : f a with
    | none => simp
    | some b =>
      simp only [Option.bind_eq_bind, Option.bind_some, Option.bind_eq_some_iff, ih, Option.pure_def,
        Option.some.injEq, exists_eq', true_and]
      constructor
      · rintro ⟨r', ⟨hall, rfl⟩, rfl⟩
        exact ⟨hall, rfl⟩
      · rintro ⟨hall, rfl⟩
        exact ⟨_, ⟨hall, rfl⟩, rfl⟩

theorem mapM_congr {m : Type → Type} [Monad m] [LawfulMonad m] {α β : Type} {f g : α → m β} {l : List α}
    (h : ∀ a ∈ l, f a = g a) : l.mapM f = l.mapM g := by
  induction l with
  | nil => rfl
  | cons a l ih =>
    rw [List.mapM_cons, List.mapM_cons, h a List.mem_cons_self, ih fun b hb => h b (List.mem_cons_of_mem _ hb)]

theorem findSome?_congr {f g : α → Option β} {l : List α} (h : ∀ a ∈ l, f a = g a) :
    l.findSome? f = l.findSome? g := by
  induction l with
  | nil => rfl
  | cons a l ih =>
    rw [List.findSome?_cons, List.findSome?_cons, h a List.mem_cons_self,
      ih fun b hb => h b (List.mem_cons_of_mem _ hb)]

/-- Each member is kept once. -/
theorem nodup_eraseDups [BEq α] [LawfulBEq α] (l : List α) : l.eraseDups.Nodup := by
  induction hn : l.length using Nat.strongRecOn generalizing l with
  | _ n ih =>
    cases l with
    | nil => simp
    | cons a l =>
      rw [List.eraseDups_cons, List.nodup_cons]
      have hlt : (l.filter fun b => !b == a).length < n := by
        have := List.length_filter_le (fun b => !b == a) l
        simp only [List.length_cons] at hn
        omega
      exact ⟨by simp, ih _ hlt _ rfl⟩

/-! ### Folds -/

variable {f : σ → α → Except ε σ} {l l' : List α} {l : List α} {s u : σ} {front rest : List α} {c : α}

theorem foldlM_cons_eq_ok {a : α} : (a :: l).foldlM f s = .ok u ↔ ∃ t, f s a = .ok t ∧ l.foldlM f t = .ok u := by
  rw [List.foldlM_cons, bind_eq_ok]

theorem foldlM_append_eq_ok : (l ++ l').foldlM f s = .ok u ↔ ∃ t, l.foldlM f s = .ok t ∧ l'.foldlM f t = .ok u := by
  rw [List.foldlM_append, bind_eq_ok]

theorem foldlM_congr {f g : σ → α → Except ε σ} (h : ∀ a ∈ l, ∀ s, f s a = g s a) (s : σ) :
    l.foldlM f s = l.foldlM g s := by
  induction l generalizing s with
  | nil => rfl
  | cons a l ih =>
    rw [List.foldlM_cons, List.foldlM_cons, h a List.mem_cons_self]
    exact congrArg _ (funext fun t => ih (fun b hb => h b (List.mem_cons_of_mem _ hb)) t)

/-- A run succeeds when every action does in every state. -/
theorem exists_foldlM_eq_ok (h : ∀ a ∈ l, ∀ s, ∃ t, f s a = .ok t) (s : σ) : ∃ u, l.foldlM f s = .ok u := by
  induction l generalizing s with
  | nil => exact ⟨s, rfl⟩
  | cons a l ih =>
    obtain ⟨t, ht⟩ := h a List.mem_cons_self s
    obtain ⟨u, hu⟩ := ih (fun b hb => h b (List.mem_cons_of_mem _ hb)) t
    exact ⟨u, foldlM_cons_eq_ok.mpr ⟨t, ht, hu⟩⟩

/-- What every action keeps, a run keeps. -/
theorem foldlM_induction (P : σ → Prop) (step : ∀ a ∈ l, ∀ s t, P s → f s a = .ok t → P t) (hs : P s)
    (h : l.foldlM f s = .ok u) : P u := by
  induction l generalizing s with
  | nil => cases h; exact hs
  | cons a l ih =>
    obtain ⟨t, ha, hl⟩ := foldlM_cons_eq_ok.mp h
    exact ih (fun b hb => step b (List.mem_cons_of_mem _ hb))
      (step a List.mem_cons_self s t hs ha) hl

/-! ### Exchanging actions -/

/-- Wherever `a` and then `b` can run, `b` and then `a` can, with the same result. -/
def Exchanges (f : σ → α → Except ε σ) (a b : α) : Prop :=
  ∀ s t u, f s a = .ok t → f t b = .ok u → ∃ t', f s b = .ok t' ∧ f t' a = .ok u

/-- An action moves in front of actions that exchange with it. -/
theorem foldlM_move_front (hx : ∀ a ∈ front, Exchanges f a c) (h : (front ++ c :: rest).foldlM f s = .ok u) :
    (c :: (front ++ rest)).foldlM f s = .ok u := by
  induction front generalizing s with
  | nil => exact h
  | cons a front ih =>
    obtain ⟨t, ha, hl⟩ := foldlM_cons_eq_ok.mp h
    have hmoved := ih (fun b hb => hx b (List.mem_cons_of_mem _ hb)) hl
    obtain ⟨v, hc, hv⟩ := foldlM_cons_eq_ok.mp hmoved
    obtain ⟨t', hc', ha'⟩ := hx a List.mem_cons_self s t v ha hc
    exact foldlM_cons_eq_ok.mpr ⟨t', hc', foldlM_cons_eq_ok.mpr ⟨v, ha', hv⟩⟩

/-- An action moves behind actions that exchange with it. -/
theorem foldlM_move_back (hx : ∀ a ∈ front, Exchanges f c a) (h : (c :: (front ++ rest)).foldlM f s = .ok u) :
    (front ++ c :: rest).foldlM f s = .ok u := by
  induction front generalizing s with
  | nil => exact h
  | cons a front ih =>
    obtain ⟨t, hc, hl⟩ := foldlM_cons_eq_ok.mp h
    obtain ⟨v, ha, hv⟩ := foldlM_cons_eq_ok.mp hl
    obtain ⟨t', ha', hc'⟩ := hx a List.mem_cons_self s t v hc ha
    refine foldlM_cons_eq_ok.mpr ⟨t', ha', ih (fun b hb => hx b (List.mem_cons_of_mem _ hb)) ?_⟩
    exact foldlM_cons_eq_ok.mpr ⟨v, hc', hv⟩

/-- Two orders of the same actions have the same run when both respect a relation and any two actions that
may stand either way around exchange. -/
theorem foldlM_perm (before : α → α → Prop) (hp : l.Perm l') (hl : l.Pairwise before) (hl' : l'.Pairwise before)
    (hx : ∀ a ∈ l, ∀ b ∈ l, before a b → before b a → Exchanges f a b) (h : l.foldlM f s = .ok u) :
    l'.foldlM f s = .ok u := by
  induction l' generalizing l s with
  | nil => rwa [List.perm_nil.mp hp] at h
  | cons c rest ih =>
    -- the first action of the new order is found in the old one and moved to its front
    obtain ⟨front, back, rfl⟩ := List.append_of_mem (hp.mem_iff.mpr List.mem_cons_self)
    have hrest : (front ++ back).Perm rest := (List.perm_middle.symm.trans hp).cons_inv
    obtain ⟨hfront, hcb, hacross⟩ := List.pairwise_append.mp hl
    obtain ⟨_, hback⟩ := List.pairwise_cons.mp hcb
    obtain ⟨hcrest, hrestOrder⟩ := List.pairwise_cons.mp hl'
    have hmove : ∀ a ∈ front, Exchanges f a c := by
      intro a ha
      have hac : before a c := hacross a ha c List.mem_cons_self
      have hca : before c a := hcrest a (hrest.mem_iff.mp (List.mem_append_left _ ha))
      exact hx a (List.mem_append_left _ ha) c (by simp) hac hca
    obtain ⟨t, hc, ht⟩ := foldlM_cons_eq_ok.mp (foldlM_move_front hmove h)
    have horder : (front ++ back).Pairwise before := by
      refine List.pairwise_append.mpr ⟨hfront, hback, fun a ha b hb => ?_⟩
      exact hacross a ha b (List.mem_cons_of_mem _ hb)
    have hsub : ∀ a ∈ front ++ back, a ∈ front ++ c :: back := by
      intro a ha
      rcases List.mem_append.mp ha with ha | ha
      · exact List.mem_append_left _ ha
      · exact List.mem_append_right _ (List.mem_cons_of_mem _ ha)
    exact foldlM_cons_eq_ok.mpr ⟨t, hc,
      ih hrest horder hrestOrder (fun a ha b hb => hx a (hsub a ha) b (hsub b hb)) ht⟩

end VisionGraph
