import Mathlib.Data.List.Infix
import VisionGraph.Proofs.UnitWords

/-! The helpers of a unit. Whatever stages a plan has and in whatever order, its source defines each helper at most once,
and names a helper nowhere before the end of its definition but in the definition itself. -/
namespace VisionGraph

theorem Reserved.not_standsAt {r : Reserved} {t : List Char} {i : Nat} (h : Lacks r.word t) : ¬StandsAt r.word t i := by
  intro hat
  rw [← t.append_nil] at hat
  obtain ⟨j, _, hj⟩ := h.behind hat
  rw [StandsAt, List.drop_nil, List.prefix_nil, word_eq_cons] at hj
  cases hj

namespace Helper

/-! ### Lists of helpers -/

section Lists

variable {known more l m : List Helper}

theorem Grounded.mono (h : Grounded known l) (hsub : known ⊆ more) : Grounded more l := by
  induction l generalizing known more with
  | nil => trivial
  | cons x l ih => exact ⟨fun y hy => hsub (h.1 hy), ih h.2 (List.cons_subset_cons x hsub)⟩

theorem Grounded.append (hl : Grounded known l) (hm : Grounded known m) : Grounded known (l ++ m) := by
  induction l generalizing known with
  | nil => exact hm
  | cons x l ih => exact ⟨hl.1, ih hl.2 (hm.mono (List.subset_cons_self x known))⟩

/-- Helpers that are known already can be left out. -/
theorem Grounded.filter {keep : Helper → Bool} (h : Grounded known l) (hkeep : ∀ x, keep x = false → x ∈ known) :
    Grounded known (l.filter keep) := by
  induction l generalizing known with
  | nil => trivial
  | cons x l ih =>
    cases hx : keep x with
    | true =>
      rw [List.filter_cons_of_pos hx]
      exact ⟨h.1, ih h.2 fun y hy => List.mem_cons_of_mem x (hkeep y hy)⟩
    | false =>
      rw [List.filter_cons_of_neg (by simp [hx])]
      exact ih (h.2.mono (List.cons_subset.mpr ⟨hkeep x hx, List.Subset.refl known⟩)) hkeep

theorem Grounded.eraseDups (h : Grounded known l) : Grounded known l.eraseDups := by
  -- the rest is filtered first, so that the induction is on the length
  induction hn : l.length using Nat.strongRecOn generalizing known l with
  | _ n ih =>
    cases l with
    | nil => simpa using h
    | cons x l =>
      have hlt : (l.filter fun y => !y == x).length < n := by
        rw [← hn, List.length_cons]
        exact Nat.lt_succ_of_le (List.length_filter_le _ l)
      rw [List.eraseDups_cons]
      exact ⟨h.1, ih _ hlt (h.2.filter fun y hy => by simp_all) rfl⟩

theorem grounded_helpersOf {fragments : List Fragment} (h : ∀ f ∈ fragments, f.Declared) :
    Grounded [] (CUnit.helpersOf fragments) := by
  refine Grounded.eraseDups ?_
  induction fragments with
  | nil => trivial
  | cons f rest ih =>
    rw [List.forall_mem_cons] at h
    exact h.1.1.append (ih h.2)

end Lists

/-! ### Definitions of helpers -/

/-- What stands before the name of a helper where it is defined. -/
def lead : String := "static inline int32_t "

theorem exists_tail_function {head key args : String} {body : List String} {allowed : List Reserved} {w : List Char}
    (hargs : Spells allowed args) (hhead : head = lead ++ key ++ args) (hw : w <+: (key ++ args).toList)
    (hbody : SpellsAll allowed body) :
    ∃ tail, function head body = lead ++ key ++ tail ∧ Spells allowed tail ∧ w <+: (key ++ tail).toList := by
  refine ⟨args ++ ("\n" ++ String.intercalate "\n" ("\x7b" :: body.map ("    " ++ ·) ++ ["\x7d"])), ?_, ?_, ?_⟩
  · unfold function
    rw [List.append_assoc, List.cons_append, List.cons_append, String.intercalate_cons_cons, hhead]
    simp only [String.append_assoc]
    rfl
  · refine' hargs.append (.behind (SpellsAll.intercalate .literal (.append (.cons .literal hbody.indent)
      (.single .literal)))) <;> rfl
  · rw [← String.append_assoc, String.toList_append]
    exact hw.trans (List.prefix_append _ _)

theorem exists_tail_extremum (key : String) {comparison : String} {w : List Char} (hcomparison : Spells [] comparison)
    (hw : w <+: (key ++ "(const int32_t *v)").toList) :
    ∃ tail, extremum key comparison = lead ++ key ++ tail ∧ Spells [] tail ∧ w <+: (key ++ tail).toList := by
  refine' exists_tail_function .literal rfl hw (.append (.append (.single .literal)
    (.braced .literal (.single hcomparison.between))) (.single .literal)) <;> rfl

/-- The definition of a helper has its mark behind the lead, and behind its name only names of helpers that it calls. -/
theorem exists_tail (h : Helper) : ∃ tail, h.text = lead ++ h.key ++ tail ∧ Spells (h.calls.map .name) tail ∧
    (Reserved.mark h).word <+: (h.key ++ tail).toList := by
  cases h with
  | fetchU8 =>
    have hargs : Spells [] ("(const uint8_t *src, int32_t w, int32_t h, int32_t x, " ++
      "int32_t y, int32_t replicate, int32_t value)") := by refine' .before .literal <;> rfl
    refine exists_tail_function hargs (by decide) (by decide) ?_
    refine' .append (.braced .literal (.append (.braced .literal (.single .literal)) (.cons .literal
      (.single .literal)))) (.single .literal) <;> rfl
  | median9 =>
    have hargs : Spells [] "(int32_t *v)" := .literal (c := rfl)
    refine exists_tail_function hargs (by decide) (by decide) ?_
    refine' .append (.braced .literal (.append (.append (.cons .literal (.single .literal)) (.braced .literal
      (.cons .literal (.single .literal)))) (.single .literal))) (.single .literal) <;> rfl
  | reduceMax9 => exact exists_tail_extremum "vxf_reduce_max9" (.literal (c := rfl)) (by decide)
  | reduceMin9 => exact exists_tail_extremum "vxf_reduce_min9" (.literal (c := rfl)) (by decide)
  | binomial5 =>
    have hargs : Spells [.name .fetchU8] ("(const uint8_t *src, int32_t w, int32_t h, int32_t cx, " ++
      "int32_t cy, int32_t replicate, int32_t value)") := by refine' .before .literal <;> rfl
    refine exists_tail_function hargs (by decide) (by decide) ?_
    refine' .append (.append (.cons .literal (.single .literal)) (.braced .literal (.braced .literal
      (.single (.call List.mem_cons_self))))) (.single .literal) <;> rfl

theorem key_eq (h : Helper) : h.key = String.ofList h.letters := by
  cases h <;> rfl

theorem spells_key (h : Helper) : Spells [.name h, .mark h] h.key := by
  rw [key_eq]
  exact .of_clean (by cases h <;> decide)

theorem standsAt_mark_text (h : Helper) : StandsAt (Reserved.mark h).word h.text.toList lead.toList.length := by
  obtain ⟨tail, htext, _, hmark⟩ := h.exists_tail
  rw [htext, String.append_assoc, String.toList_append, ← Nat.add_zero (List.length _), standsAt_append]
  exact hmark

/-! ### Places of helpers -/

/-- The definition of a helper as a unit has it, with the blank line behind it. -/
def entry (h : Helper) : List Char := (h.text ++ "\n\n").toList

theorem length_text_le (h : Helper) : h.text.length ≤ h.entry.length := by
  rw [entry, String.length_toList, String.length_append]
  exact Nat.le_add_right _ _

section Places

variable {g h : Helper} {r : Reserved} {t rest opening : List Char} {i j k : Nat} {known l a b : List Helper}

/-- In the definition of a helper stand its own words, once and in the head, and the names of the helpers it calls. -/
theorem standsAt_entry (hat : StandsAt r.word (h.entry ++ t) i) :
    (r ∈ h.calls.map .name ∨ r ∈ [.name h, .mark h] ∧ i = lead.toList.length) ∨
      ∃ j, i = h.entry.length + j ∧ StandsAt r.word t j := by
  obtain ⟨tail, htext, htail, _⟩ := h.exists_tail
  by_cases hcall : r ∈ h.calls.map .name
  · exact .inl (.inl hcall)
  have hlead : Lacks r.word lead.toList := Spells.literal (c := rfl) r (List.not_mem_nil : r ∉ [])
  have htail : Lacks r.word (tail ++ "\n\n").toList := htail.before (c := rfl) r hcall
  have hentry : h.entry = lead.toList ++ h.key.toList ++ (tail ++ "\n\n").toList := by
    rw [entry, htext, String.append_assoc, String.toList_append, String.toList_append]
  by_cases hown : r ∈ [.name h, .mark h]
  · -- a word of the helper itself can only begin with the first letter of its name
    have hrest : Lacks r.word (h.key.toList.tail ++ (tail ++ "\n\n").toList) := by
      refine Lacks.append ?_ htail
      rw [key_eq, String.toList_ofList]
      exact Reserved.lacks_of_clean (by cases h <;> decide) List.not_mem_nil
    have hshape : h.entry = lead.toList ++ 'v' :: (h.key.toList.tail ++ (tail ++ "\n\n").toList) := by
      rw [hentry, List.append_assoc, ← List.cons_append]
      cases h <;> rfl
    rw [hshape] at hat ⊢
    exact (standsAt_once hlead hrest hat).imp (fun hi => .inr ⟨hown, hi⟩) id
  · rw [hentry] at hat ⊢
    exact .inr (((hlead.append (h.spells_key r hown)).append htail).behind hat)

/-- A reserved word in the definitions of some helpers stands in the definition of one of them. -/
theorem standsAt_entries (hat : StandsAt r.word (l.flatMap entry ++ rest) i) :
    (∃ a g b, l = a ++ g :: b ∧ (a.flatMap entry).length ≤ i ∧ (r ∈ g.calls.map .name ∨
      r ∈ [.name g, .mark g] ∧ i = (a.flatMap entry).length + lead.toList.length)) ∨
        ∃ j, i = (l.flatMap entry).length + j ∧ StandsAt r.word rest j := by
  induction l generalizing i with
  | nil => exact .inr ⟨i, (Nat.zero_add i).symm, hat⟩
  | cons h l ih =>
    rw [List.flatMap_cons, List.append_assoc] at hat
    obtain hhere | ⟨j, rfl, hj⟩ := standsAt_entry hat
    · refine .inl ⟨[], h, l, rfl, Nat.zero_le i, ?_⟩
      rwa [List.flatMap_nil, List.length_nil, Nat.zero_add]
    · simp only [List.flatMap_cons, List.length_append]
      obtain ⟨a, g, b, rfl, ha, hg⟩ | ⟨k, rfl, hk⟩ := ih hj
      · refine .inl ⟨h :: a, g, b, rfl, ?_, ?_⟩
        all_goals simp only [List.flatMap_cons, List.length_append, Nat.add_assoc, Nat.add_left_cancel_iff]
        · omega
        · exact hg
      · exact .inr ⟨k, by omega, hk⟩

theorem Grounded.mem_of_calls (hl : Grounded known (a ++ g :: b)) (hh : h ∈ g.calls) : h ∈ a ∨ h ∈ known := by
  induction a generalizing known with
  | nil => exact .inr (hl.1 hh)
  | cons x a ih =>
    obtain ha | hknown := ih hl.2
    · exact .inl (List.mem_cons_of_mem x ha)
    · exact (List.mem_cons.mp hknown).imp_left fun hx => by rw [hx]; exact List.mem_cons_self

end Places

end Helper

namespace CUnit

/-- The definition of a helper stands at a place of the source. -/
def DefinesAt (u : CUnit) (h : Helper) (i : Nat) : Prop := StandsAt h.text.toList u.source.toList i

/-- A helper is named at a place of the source, where it is defined or called. -/
def NamesAt (u : CUnit) (h : Helper) (i : Nat) : Prop := StandsAt h.key.toList u.source.toList i

/-- A unit defines each helper at most once, and before it is named by anything else. In particular a helper that is
named in the definition of another one is defined before that one. -/
structure DeclaresHelpers (u : CUnit) : Prop where
  once : ∀ h i j, u.DefinesAt h i → u.DefinesAt h j → i = j
  declared : ∀ h i, u.NamesAt h i →
    ∃ j, u.DefinesAt h j ∧ (i = j + Helper.lead.length ∨ j + h.text.length ≤ i)
  ordered : ∀ g h k i, u.DefinesAt g k → u.NamesAt h i → k ≤ i → i < k + g.text.length → h ≠ g →
    ∃ j, u.DefinesAt h j ∧ j + h.text.length ≤ k

/-- A unit consists of an opening, the definitions of some helpers, and code that names no other helpers. -/
structure Parts (u : CUnit) (opening : List Char) (l : List Helper) (rest : List Char) : Prop where
  source : u.source.toList = opening ++ (l.flatMap Helper.entry ++ rest)
  nodup : l.Nodup
  grounded : Helper.Grounded [] l
  opening_lacks (r : Reserved) : Lacks r.word opening
  rest_lacks (r : Reserved) : r ∉ l.map .name → Lacks r.word rest

namespace Parts

variable {u : CUnit} {opening rest : List Char} {l a b : List Helper} {g h : Helper} {i j k : Nat}

theorem source_split (hu : u.Parts opening (a ++ b) rest) :
    u.source.toList = opening ++ a.flatMap Helper.entry ++ (b.flatMap Helper.entry ++ rest) := by
  rw [hu.source, List.flatMap_append, List.append_assoc, List.append_assoc]

theorem definesAt (hu : u.Parts opening (a ++ h :: b) rest) :
    u.DefinesAt h (opening ++ a.flatMap Helper.entry).length := by
  rw [DefinesAt, hu.source_split, ← Nat.add_zero (List.length _), standsAt_append, List.flatMap_cons, Helper.entry,
    String.toList_append, List.append_assoc, List.append_assoc]
  exact List.prefix_append _ _

/-- The helpers before a place of the list are defined before the place in the source. -/
theorem exists_of_mem (hu : u.Parts opening (a ++ b) rest) (hh : h ∈ a) :
    ∃ j, u.DefinesAt h j ∧ j + h.text.length ≤ (opening ++ a.flatMap Helper.entry).length := by
  obtain ⟨front, back, rfl⟩ := List.append_of_mem hh
  rw [List.append_assoc] at hu
  refine ⟨_, hu.definesAt, ?_⟩
  have htext := h.length_text_le
  simp only [List.flatMap_append, List.flatMap_cons, List.length_append]
  omega

/-- A definition in the source is that of a helper of the list. -/
theorem exists_split (hu : u.Parts opening l rest) (hg : u.DefinesAt g k) :
    ∃ a b, l = a ++ g :: b ∧ k = (opening ++ a.flatMap Helper.entry).length := by
  have hmark : StandsAt (Reserved.mark g).word u.source.toList (k + Helper.lead.toList.length) := by
    rw [StandsAt, ← List.drop_drop]
    exact g.standsAt_mark_text.trans (List.IsPrefix.drop hg _)
  rw [hu.source] at hmark
  obtain ⟨i, hi, hmark⟩ := (hu.opening_lacks (.mark g)).behind hmark
  obtain ⟨a, h, b, rfl, _, hcall | ⟨hown, hplace⟩⟩ | ⟨j, _, hj⟩ := Helper.standsAt_entries hmark
  · simp at hcall
  · have hgh : g = h := by simpa using hown
    refine ⟨a, b, by rw [hgh], ?_⟩
    rw [List.length_append]
    omega
  · exact absurd hj (Reserved.not_standsAt (hu.rest_lacks (.mark g) (by simp)))

theorem declaresHelpers (hu : u.Parts opening l rest) : u.DeclaresHelpers where
  once h i j hi hj := by
    obtain ⟨a, b, rfl, rfl⟩ := hu.exists_split hi
    obtain ⟨a', b', hsplit, rfl⟩ := hu.exists_split hj
    have hnot : h ∉ a ++ b := (List.nodup_cons.mp (List.perm_middle.nodup_iff.mp hu.nodup)).1
    rw [List.mem_append, not_or] at hnot
    rw [((List.append_cons_inj_of_notMem hnot.1 hnot.2).mp hsplit).1]
  declared h i hi := by
    rw [NamesAt, hu.source, Helper.key_eq, String.toList_ofList] at hi
    obtain ⟨i, rfl, hat⟩ := (hu.opening_lacks (.name h)).behind hi
    obtain ⟨a, g, b, rfl, hai, hcall | ⟨hown, rfl⟩⟩ | ⟨j, rfl, hj⟩ := Helper.standsAt_entries hat
    · -- a definition calls helpers that are defined before it
      obtain ha | hnone := hu.grounded.mem_of_calls (h := h) (by simpa using hcall)
      · obtain ⟨j, hj, hle⟩ := hu.exists_of_mem ha
        rw [List.length_append] at hle
        exact ⟨j, hj, .inr (by omega)⟩
      · cases hnone
    · have hgh : h = g := by simpa using hown
      subst hgh
      refine ⟨_, hu.definesAt, .inl ?_⟩
      rw [List.length_append, String.length_toList, Nat.add_assoc]
    · -- all helpers are defined before the code behind them
      have hmem : h ∈ l := by
        by_contra hnot
        exact Reserved.not_standsAt (hu.rest_lacks (.name h) (by simpa using hnot)) hj
      obtain ⟨j', hj', hle⟩ := Parts.exists_of_mem (a := l) (b := []) (by rwa [List.append_nil]) hmem
      rw [List.length_append] at hle
      exact ⟨j', hj', .inr (by omega)⟩
  ordered g h k i hg hi hki hik hne := by
    obtain ⟨a, b, rfl, rfl⟩ := hu.exists_split hg
    obtain ⟨i, rfl⟩ := Nat.exists_eq_add_of_le hki
    rw [NamesAt, hu.source_split, standsAt_append, List.flatMap_cons, List.append_assoc, Helper.key_eq,
      String.toList_ofList] at hi
    obtain (hcall | ⟨hown, _⟩) | ⟨j, rfl, _⟩ := Helper.standsAt_entry (r := .name h) hi
    · obtain ha | hnone := hu.grounded.mem_of_calls (h := h) (by simpa using hcall)
      · exact hu.exists_of_mem ha
      · cases hnone
    · exact absurd (by simpa using hown) hne
    · have := g.length_text_le
      omega

end Parts

end CUnit

namespace Graph

/-- Whatever nodes a graph has, in whatever order, and whatever passes are enabled: a helper is defined at most once in
the unit of its plan, and always before what calls it, be it a stage or another helper. -/
theorem declaresHelpers_of_generate (g : Graph) (hg : g.Built) (p : Plan) (hp : g.verify .standard = .ok p)
    (c : OptimizerConfig) (u : CUnit) (hu : (p.optimize c).1.generate .standard = .ok u) : u.DeclaresHelpers := by
  have hsound := Plan.stable_sound.optimize c (sound_of_verify hg hp)
  obtain ⟨opening, fragments, rest, hdeclared, hsource, hopening, hrest⟩ := hsound.exists_of_generate u hu
  have hparts : u.Parts opening.toList (CUnit.helpersOf fragments) rest.toList := {
    source := by
      rw [hsource, String.toList_append, String.toList_append, String.toList_join, List.flatMap_map, List.append_assoc]
      rfl
    nodup := nodup_eraseDups _
    grounded := Helper.grounded_helpersOf hdeclared
    opening_lacks := fun r => hopening r List.not_mem_nil
    rest_lacks := hrest }
  exact hparts.declaresHelpers

/-- Nodes that ask for all helpers, the last of them first. -/
def mixed : Graph := Graph.empty.edit [.image 4 4 .u8, .virtualImage ⟨none, none, none⟩, .pyramid 2 4 4 .u8,
  .virtualImage ⟨none, none, none⟩, .image 4 4 .u8, .node "vx.gaussian_pyramid" [some ⟨3⟩, some ⟨2⟩],
  .node "vx.erode_3x3" [some ⟨1⟩, some ⟨3⟩], .node "vx.median_3x3" [some ⟨0⟩, some ⟨1⟩],
  .node "vx.dilate_3x3" [some ⟨3⟩, some ⟨4⟩]]

theorem declaresHelpers_mixed : ∃ p u, mixed.verify .standard = .ok p ∧
    (p.optimize .standard).1.generate .standard = .ok u ∧ u.DeclaresHelpers := by
  have hplan : ((mixed.verify .standard).toOption.map fun p => (p.optimize .standard).1.stages.all fun stage =>
      stage.steps.all fun step => !(p.optimize .standard).1.emptyExtrema step) = some true := by decide +kernel
  obtain ⟨p, hp, hpixels⟩ := Option.map_eq_some_iff.mp hplan
  have hverify := toOption_eq_some.mp hp
  have hbuilt : mixed.Built := ⟨_, rfl⟩
  have hsound := Plan.stable_sound.optimize .standard (sound_of_verify hbuilt hverify)
  obtain ⟨u, hu⟩ := hsound.exists_generate_iff.mpr (by simpa using hpixels)
  exact ⟨p, u, hverify, hu, declaresHelpers_of_generate mixed hbuilt p hverify .standard u hu⟩

end Graph

end VisionGraph
