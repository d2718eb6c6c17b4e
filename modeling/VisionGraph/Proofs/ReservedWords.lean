import Mathlib.Data.String.Basic
import VisionGraph.CUnit.Source
import VisionGraph.Proofs.Numerals

/-! Reserved words of generated code. A text lacks a word if no occurrence of the word begins in it, whatever follows the
text; this is kept by joining texts, so that it can be told of a template from its pieces. The reserved words are the
names of the helpers, and the names with the type of the first parameter as only a definition has them. -/
namespace VisionGraph

/-! ### Words in a text -/

section Words

variable {w t a b l r : List Char} {c : Char} {i j : Nat}

/-- A word stands at a place of a text. -/
def StandsAt (w t : List Char) (i : Nat) : Prop := w <+: t.drop i

/-- No occurrence of a word begins in a text, whatever follows the text. -/
def Lacks (w t : List Char) : Prop := ∀ r i, i < t.length → ¬StandsAt w (t ++ r) i

theorem standsAt_append : StandsAt w (a ++ b) (a.length + j) ↔ StandsAt w b j := by
  rw [StandsAt, List.drop_append, List.drop_eq_nil_of_le (Nat.le_add_right _ _), List.nil_append,
    Nat.add_sub_cancel_left, StandsAt]

/-- A word that a text lacks stands behind it. -/
theorem Lacks.behind (ha : Lacks w a) (h : StandsAt w (a ++ b) i) : ∃ j, i = a.length + j ∧ StandsAt w b j := by
  rcases Nat.lt_or_ge i a.length with hi | hi
  · exact absurd h (ha b i hi)
  · obtain ⟨j, rfl⟩ := Nat.exists_eq_add_of_le hi
    exact ⟨j, rfl, standsAt_append.mp h⟩

/-- A word that begins at no place of a text but one stands there or behind the text. -/
theorem standsAt_once (ha : Lacks w a) (hb : Lacks w b) (h : StandsAt w (a ++ c :: b ++ t) i) :
    i = a.length ∨ ∃ j, i = (a ++ c :: b).length + j ∧ StandsAt w t j := by
  rw [List.append_assoc] at h
  obtain ⟨j, rfl, hj⟩ := ha.behind h
  cases j with
  | zero => exact .inl rfl
  | succ j =>
    obtain ⟨k, rfl, hk⟩ := hb.behind (i := j) hj
    refine .inr ⟨k, ?_, hk⟩
    rw [List.length_append, List.length_cons]
    omega

theorem Lacks.append (ha : Lacks w a) (hb : Lacks w b) : Lacks w (a ++ b) := by
  intro r i hi h
  rw [List.append_assoc] at h
  obtain ⟨j, rfl, hj⟩ := ha.behind h
  rw [List.length_append] at hi
  exact hb r j (by omega) hj

theorem lacks_nil (w : List Char) : Lacks w [] := fun _ _ hi => absurd hi (Nat.not_lt_zero _)

theorem lacks_cons (hw : ¬w <+: c :: t) (ht : ¬c :: t <+: w) (h : Lacks w t) : Lacks w (c :: t) := by
  intro r i hi hat
  cases i with
  | zero =>
    -- the word ends in the text or runs on into what follows
    exact (List.prefix_or_prefix_of_prefix hat (List.prefix_append (c :: t) r)).elim hw ht
  | succ i => exact h r i (Nat.lt_of_succ_lt_succ hi) hat

/-- A line of a text with its end lacks what the text lacks. -/
theorem Lacks.line (h : Lacks w (a ++ l ++ c :: r)) (hc : c ∉ w) : Lacks w (l ++ [c]) := by
  intro s i hi hat
  rw [List.length_append, List.length_singleton] at hi
  rw [StandsAt, List.append_assoc, List.drop_append_of_le_length (by omega)] at hat
  -- the word ends before the line does
  have hline : w <+: l.drop i := by
    rcases List.prefix_or_prefix_of_prefix hat (List.prefix_append (l.drop i) ([c] ++ s)) with hw | hw
    · exact hw
    · obtain ⟨x, rfl⟩ := hw
      have hx : x <+: c :: s := (List.prefix_append_right_inj _).mp hat
      cases x with
      | nil => simp
      | cons d x => exact absurd (List.mem_append_right _ ((List.cons_prefix_cons.mp hx).1 ▸ List.mem_cons_self)) hc
  refine h [] (a.length + i) (by simp; omega) ?_
  rw [List.append_nil, List.append_assoc, standsAt_append, StandsAt, List.drop_append_of_le_length (by omega)]
  exact hline.trans (List.prefix_append _ _)

end Words

/-! ### Reserved words -/

/-- The letters of the name of a helper. -/
def Helper.letters : Helper → List Char
  | .fetchU8 => ['v', 'x', 'f', '_', 'f', 'e', 't', 'c', 'h', '_', 'u', '8']
  | .median9 => ['v', 'x', 'f', '_', 'm', 'e', 'd', 'i', 'a', 'n', '9']
  | .reduceMax9 => ['v', 'x', 'f', '_', 'r', 'e', 'd', 'u', 'c', 'e', '_', 'm', 'a', 'x', '9']
  | .reduceMin9 => ['v', 'x', 'f', '_', 'r', 'e', 'd', 'u', 'c', 'e', '_', 'm', 'i', 'n', '9']
  | .binomial5 => ['v', 'x', 'f', '_', 'b', 'i', 'n', 'o', 'm', 'i', 'a', 'l', '5']

/-- What stands only where helpers are used, and where they are defined. -/
inductive Reserved where
  | name (h : Helper)
  | mark (h : Helper)
deriving DecidableEq

namespace Reserved

def word : Reserved → List Char
  | .name h => h.letters
  | .mark .median9 => Helper.median9.letters ++ ['(', 'i']
  | .mark h => h.letters ++ ['(', 'c']

def all : List Reserved :=
  [.fetchU8, .median9, .reduceMax9, .reduceMin9, .binomial5].flatMap fun h => [.name h, .mark h]

theorem mem_all (r : Reserved) : r ∈ all := by
  cases r with
  | name h | mark h => cases h <;> decide

/-- Whether a text lacks the reserved words that it is not allowed to hold, all of which begin with the same letter. -/
def clean (allowed : List Reserved) : List Char → Bool
  | [] => true
  | c :: t =>
    (c != 'v' ||
      all.all fun r => decide (r ∈ allowed) || !r.word.isPrefixOf (c :: t) && !(c :: t).isPrefixOf r.word) &&
    clean allowed t

theorem word_eq_cons (r : Reserved) : r.word = 'v' :: 'x' :: r.word.drop 2 := by
  cases r with
  | name h | mark h => cases h <;> decide

theorem newline_not_mem_word (r : Reserved) : '\n' ∉ r.word := by
  cases r with
  | name h | mark h => cases h <;> decide

theorem lacks_of_clean {allowed : List Reserved} {t : List Char} (h : clean allowed t = true) {r : Reserved}
    (hr : r ∉ allowed) : Lacks r.word t := by
  induction t with
  | nil => exact lacks_nil _
  | cons c t ih =>
    rw [clean, Bool.and_eq_true] at h
    have happart : ¬r.word <+: c :: t ∧ ¬c :: t <+: r.word := by
      by_cases hc : c = 'v'
      · have hall := h.1
        rw [hc, bne_self_eq_false, Bool.false_or, List.all_eq_true] at hall
        simpa [hc, hr, ← List.isPrefixOf_iff_prefix] using hall r r.mem_all
      · rw [r.word_eq_cons]
        simp [List.cons_prefix_cons, hc, Ne.symm hc]
    exact lacks_cons happart.1 happart.2 (ih h.2)

end Reserved

open Reserved

/-- Of the reserved words a text holds none but the allowed ones. -/
def Spells (allowed : List Reserved) (t : String) : Prop := ∀ r ∉ allowed, Lacks r.word t.toList

namespace Spells

variable {allowed more : List Reserved} {s t : String} {l r : List Char}

theorem mono (h : Spells allowed t) (hsub : allowed ⊆ more) : Spells more t := fun r hr => h r fun hmem => hr (hsub hmem)

theorem append (hs : Spells allowed s) (ht : Spells allowed t) : Spells allowed (s ++ t) := by
  intro r hr
  rw [String.toList_append]
  exact (hs r hr).append (ht r hr)

theorem of_clean (h : clean allowed l = true) : Spells allowed (String.ofList l) := by
  intro r hr
  rw [String.toList_ofList]
  exact lacks_of_clean h hr

/-- A piece of a template that holds no reserved word. -/
theorem literal {c : clean [] l = true} : Spells allowed (String.ofList l) := (of_clean c).mono (List.nil_subset _)

/-- A piece of a template that holds one reserved word. -/
theorem call {w : Reserved} (hw : w ∈ allowed) {c : clean [w] l = true} : Spells allowed (String.ofList l) :=
  (of_clean c).mono (List.cons_subset.mpr ⟨hw, List.nil_subset _⟩)

/-- A text behind a piece of a template. -/
theorem behind (h : Spells allowed t) {c : clean [] l = true} : Spells allowed (String.ofList l ++ t) :=
  append (literal (c := c)) h

/-- A text before a piece of a template. -/
theorem before (h : Spells allowed t) {c : clean [] r = true} : Spells allowed (t ++ String.ofList r) :=
  append h (literal (c := c))

/-- A text between two pieces of a template. -/
theorem between (h : Spells allowed t) {c : clean [] l = true} {d : clean [] r = true} :
    Spells allowed (String.ofList l ++ t ++ String.ofList r) :=
  (h.behind (c := c)).before (c := d)

/-- Two texts with a piece of a template between them. -/
theorem joined (hs : Spells allowed s) (ht : Spells allowed t) {c : clean [] l = true} :
    Spells allowed (s ++ String.ofList l ++ t) :=
  append (hs.before (c := c)) ht

theorem digits (h : ∀ c ∈ l, c.isDigit = true) : Spells allowed (String.ofList l) := by
  refine literal (c := ?_)
  induction l with
  | nil => rfl
  | cons c l ih =>
    obtain ⟨hc, h⟩ := List.forall_mem_cons.mp h
    have hne : c ≠ 'v' := fun hv => by rw [hv] at hc; cases hc
    simp [clean, hne, ih h]

theorem nat (n : Nat) : Spells allowed (toString n) := digits (Json.Numeral.whole_toDigits n).digit

theorem int (n : Int) : Spells allowed (toString n) := by
  cases n with
  | ofNat n => exact nat n
  | negSucc n => exact (nat (n + 1)).behind (c := rfl)

/-- A letter before a number begins no reserved word, so that the last letter of the piece is free. -/
theorem label (n : Nat) {c : clean [] l.dropLast = true} : Spells allowed (String.ofList l ++ toString n) := by
  rcases l.eq_nil_or_concat' with rfl | ⟨front, last, rfl⟩
  · exact behind (nat n) (c := rfl)
  · rw [List.dropLast_concat] at c
    intro r hr
    have hnumber := nat n r hr
    obtain ⟨x, digits, hdigits, hx⟩ : ∃ x digits, (toString n).toList = x :: digits ∧ x.isDigit = true := by
      have hwhole := Json.Numeral.whole_toDigits n
      obtain ⟨x, digits, hdigits⟩ := List.exists_cons_of_ne_nil hwhole.nonempty
      rw [Nat.toString_eq_repr, Nat.toList_repr]
      exact ⟨x, digits, hdigits, hwhole.digit x (hdigits ▸ List.mem_cons_self)⟩
    have hne : 'x' ≠ x := fun h => by rw [← h] at hx; cases hx
    rw [String.toList_append, String.toList_ofList, List.append_assoc, hdigits]
    refine (lacks_of_clean c List.not_mem_nil).append (lacks_cons ?_ ?_ (hdigits ▸ hnumber)) <;>
      rw [r.word_eq_cons] <;> simp [List.cons_prefix_cons, hne, hne.symm]

/-- A text with a label behind it. -/
theorem labelled (ht : Spells allowed t) (n : Nat) {c : clean [] l.dropLast = true} :
    Spells allowed (t ++ String.ofList l ++ toString n) := by
  rw [String.append_assoc]
  exact ht.append (label n (c := c))

end Spells

/-- All lines of a list hold none but the allowed reserved words. -/
def SpellsAll (allowed : List Reserved) (lines : List String) : Prop := ∀ l ∈ lines, Spells allowed l

namespace SpellsAll

variable {allowed : List Reserved} {l sep head : String} {lines rest : List String} {α : Type} {xs : List α}

theorem nil : SpellsAll allowed [] := fun _ h => absurd h List.not_mem_nil

theorem cons (h : Spells allowed l) (hlines : SpellsAll allowed lines) : SpellsAll allowed (l :: lines) :=
  List.forall_mem_cons.mpr ⟨h, hlines⟩

theorem single (h : Spells allowed l) : SpellsAll allowed [l] := cons h nil

theorem append (h : SpellsAll allowed lines) (hrest : SpellsAll allowed rest) : SpellsAll allowed (lines ++ rest) :=
  List.forall_mem_append.mpr ⟨h, hrest⟩

theorem map {f : α → String} (h : ∀ x ∈ xs, Spells allowed (f x)) : SpellsAll allowed (xs.map f) :=
  List.forall_mem_map.mpr h

theorem flatMap {f : α → List String} (h : ∀ x ∈ xs, SpellsAll allowed (f x)) : SpellsAll allowed (xs.flatMap f) := by
  intro l hl
  obtain ⟨x, hx, hl⟩ := List.mem_flatMap.mp hl
  exact h x hx l hl

theorem flatten {parts : List (List String)} (h : ∀ lines ∈ parts, SpellsAll allowed lines) :
    SpellsAll allowed parts.flatten := by
  rw [List.flatten_eq_flatMap]
  exact flatMap h

theorem join (h : SpellsAll allowed lines) : Spells allowed (String.join lines) := by
  intro r hr
  rw [String.toList_join]
  induction lines with
  | nil => exact lacks_nil _
  | cons l lines ih =>
    obtain ⟨hl, hlines⟩ := List.forall_mem_cons.mp h
    rw [List.flatMap_cons]
    exact (hl r hr).append (ih hlines)

theorem intercalate (hsep : Spells allowed sep) (h : SpellsAll allowed lines) :
    Spells allowed (sep.intercalate lines) := by
  induction lines with
  | nil => exact .literal (c := rfl)
  | cons l lines ih =>
    obtain ⟨hl, hlines⟩ := List.forall_mem_cons.mp h
    cases lines with
    | nil => rwa [String.intercalate_singleton]
    | cons m lines =>
      rw [String.intercalate_cons_cons]
      exact (hl.append hsep).append (ih hlines)

theorem indent (h : SpellsAll allowed lines) : SpellsAll allowed (lines.map ("    " ++ ·)) :=
  .map fun l hl => (h l hl).behind (c := rfl)

theorem ended (h : SpellsAll allowed lines) : SpellsAll allowed (lines.map (· ++ "\n")) :=
  .map fun l hl => (h l hl).before (c := rfl)

theorem codeLines (h : SpellsAll allowed lines) : Spells allowed (codeLines lines) := h.ended.join

theorem braced (hhead : Spells allowed head) (h : SpellsAll allowed lines) : SpellsAll allowed (braced head lines) :=
  ((single (hhead.before (c := rfl))).append h.indent).append (single (.literal (c := rfl)))

end SpellsAll

end VisionGraph
