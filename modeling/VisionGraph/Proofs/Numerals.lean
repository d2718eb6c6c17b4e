import Mathlib.Data.List.TakeWhile
import VisionGraph.Json.Decode
import VisionGraph.Proofs.JsonText
/-!
Numbers that are written are numerals, and integers are read back.

The decimal of a single never spells a zero before other digits: a coefficient of zero would need a number
that is seventeen digits away from its estimated exponent.
-/

namespace VisionGraph

namespace Json

namespace Numeral

/-- The digits before the point: a zero in front stands alone. -/
structure Whole (cs : List Char) : Prop where
  digit : ∀ c ∈ cs, c.isDigit = true
  nonempty : cs ≠ []
  alone : ∀ c rest, cs ≠ '0' :: c :: rest

theorem Whole.of_single {c : Char} (h : c.isDigit = true) : Whole [c] where
  digit := by simpa using h
  nonempty := List.cons_ne_nil _ _
  alone := by simp

theorem Whole.take {cs : List Char} (h : Whole cs) {n : Nat} (hn : 0 < n) : Whole (cs.take n) where
  digit c hc := h.digit c (List.mem_of_mem_take hc)
  nonempty := by simp [h.nonempty, Nat.ne_of_gt hn]
  alone c rest heq := by
    have hcs : cs = '0' :: c :: (rest ++ cs.drop n) := by
      calc cs = cs.take n ++ cs.drop n := (List.take_append_drop n cs).symm
        _ = '0' :: c :: (rest ++ cs.drop n) := by rw [heq]; rfl
    exact h.alone _ _ hcs

theorem whole_take_one {cs : List Char} (hcs : ∀ c ∈ cs, c.isDigit = true) (hne : cs ≠ []) : Whole (cs.take 1) := by
  obtain ⟨c, rest, rfl⟩ := List.exists_cons_of_ne_nil hne
  exact Whole.of_single (hcs c List.mem_cons_self)

/-- Digits whose first is not zero may be followed by any others. -/
theorem Whole.append {cs ds : List Char} (h : Whole cs) (hzero : cs ≠ ['0']) (hds : ∀ c ∈ ds, c.isDigit = true) :
    Whole (cs ++ ds) where
  digit c hc := (List.mem_append.mp hc).elim (h.digit c) (hds c)
  nonempty := by simp [h.nonempty]
  alone c rest heq := by
    match cs, h, hzero, heq with
    | [], h, _, _ => exact h.nonempty rfl
    | [d], _, hzero, heq =>
      have hd : d = '0' := by simpa using congrArg List.head? heq
      exact hzero (by rw [hd])
    | d :: e :: others, h, _, heq =>
      have hd : d = '0' := by simpa using congrArg List.head? heq
      exact h.alone e others (by rw [hd])

theorem takeWhile_whole {cs rest : List Char} (h : Whole cs) (hrest : rest.takeWhile Char.isDigit = []) :
    (cs ++ rest).takeWhile Char.isDigit = cs := by
  rw [List.takeWhile_append_of_pos h.digit, hrest, List.append_nil]

theorem unsigned?_append {cs rest : List Char} (h : Whole cs) (hrest : rest.takeWhile Char.isDigit = [])
    (negative : Bool) : unsigned? negative (cs ++ rest) = tail? negative cs rest := by
  have hdrop : (cs ++ rest).dropWhile Char.isDigit = rest := by
    have hsplit := List.takeWhile_append_dropWhile (p := Char.isDigit) (l := cs ++ rest)
    rw [takeWhile_whole h hrest] at hsplit
    exact List.append_cancel_left hsplit
  unfold unsigned?
  rw [takeWhile_whole h hrest, hdrop]
  dsimp only
  split
  · exact absurd rfl h.nonempty
  · exact absurd rfl (h.alone _ _)
  · rfl

theorem takeWhile_of_exponent? {cs : List Char} (h : (exponent? cs).isSome) : cs.takeWhile Char.isDigit = [] := by
  cases cs with
  | nil => rfl
  | cons c rest =>
    simp only [exponent?] at h
    split at h
    case isFalse => simp at h
    case isTrue hc =>
      have hdigit : c.isDigit = false := by
        rcases Bool.or_eq_true .. ▸ hc with hc | hc <;> simp only [decide_eq_true_eq] at hc <;> subst hc <;> rfl
      simp [hdigit]

/-- Whole digits and an exponent, which may be left out. -/
theorem isSome_unsigned?_exponent {cs rest : List Char} (h : Whole cs) (hrest : (exponent? rest).isSome)
    (negative : Bool) : (unsigned? negative (cs ++ rest)).isSome := by
  rw [unsigned?_append h (takeWhile_of_exponent? hrest)]
  unfold tail?
  split
  · simp [exponent?] at hrest
  · simpa using hrest

/-- Digits on both sides of a point, and an exponent, which may be left out. -/
theorem isSome_unsigned?_point {cs ds rest : List Char} (h : Whole cs) (hds : ∀ c ∈ ds, c.isDigit = true)
    (hne : ds ≠ []) (hrest : (exponent? rest).isSome) (negative : Bool) :
    (unsigned? negative (cs ++ '.' :: (ds ++ rest))).isSome := by
  have htake : (ds ++ rest).takeWhile Char.isDigit = ds := by
    rw [List.takeWhile_append_of_pos hds, takeWhile_of_exponent? hrest, List.append_nil]
  have hdrop : (ds ++ rest).dropWhile Char.isDigit = rest := by
    have hsplit := List.takeWhile_append_dropWhile (p := Char.isDigit) (l := ds ++ rest)
    rw [htake] at hsplit
    exact List.append_cancel_left hsplit
  rw [unsigned?_append h (by simp)]
  simp only [tail?, htake, hdrop]
  simpa [hne] using hrest

theorem ofLexeme?_of_isDigit {c : Char} (hc : c.isDigit = true) (rest : List Char) :
    ofLexeme? (c :: rest) = unsigned? false (c :: rest) := by
  unfold ofLexeme?
  split
  case h_1 heq =>
    have hminus : c = '-' := by simpa using congrArg List.head? heq
    subst hminus
    exact absurd hc (by decide)
  case h_2 => rfl

/-- A sign may stand before a numeral without one. -/
theorem isSome_ofLexeme?_sign {cs : List Char} (h : ∀ negative, (unsigned? negative cs).isSome) (negative : Bool) :
    (ofLexeme? ((if negative then ['-'] else []) ++ cs)).isSome := by
  cases negative with
  | true => exact h true
  | false =>
    obtain ⟨-, c, rest, rfl, hc⟩ := isNumberChar_of_unsigned? (h false)
    show (ofLexeme? (c :: rest)).isSome
    rw [ofLexeme?_of_isDigit hc]
    exact h false

/-! ### Integers -/

theorem isDigit_digitChar {d : Nat} (h : d < 10) : (Nat.digitChar d).isDigit = true := by
  have hall : ∀ d < 10, (Nat.digitChar d).isDigit = true := by decide
  exact hall d h

theorem whole_toDigits (n : Nat) : Whole (Nat.toDigits 10 n) := by
  induction n using Nat.strongRecOn with
  | ind n ih =>
    by_cases hn : n < 10
    · rw [Nat.toDigits_of_lt_base hn]
      exact Whole.of_single (isDigit_digitChar hn)
    · rw [Nat.toDigits_of_base_le (by decide) (by omega)]
      have hquot := ih (n / 10) (by omega)
      -- the digits of a quotient other than zero are not the zero alone
      have hzero : Nat.toDigits 10 (n / 10) ≠ ['0'] := by
        intro heq
        have hvalue := Nat.ofDigitChars_ten_toDigits (n := n / 10)
        rw [heq] at hvalue
        have : 0 = n / 10 := hvalue
        omega
      apply hquot.append hzero
      simpa using isDigit_digitChar (Nat.mod_lt n (by decide))

theorem unsigned?_toDigits (negative : Bool) (n : Nat) :
    unsigned? negative (Nat.toDigits 10 n) = some ⟨negative, Nat.toDigits 10 n, none, none⟩ := by
  calc unsigned? negative (Nat.toDigits 10 n)
      = unsigned? negative (Nat.toDigits 10 n ++ []) := by rw [List.append_nil]
    _ = tail? negative (Nat.toDigits 10 n) [] := unsigned?_append (whole_toDigits n) List.takeWhile_nil negative
    _ = some ⟨negative, Nat.toDigits 10 n, none, none⟩ := rfl

theorem ofLexeme?_toDigits (n : Nat) :
    ofLexeme? (Nat.toDigits 10 n) = some ⟨false, Nat.toDigits 10 n, none, none⟩ := by
  obtain ⟨c, rest, hcs⟩ := List.exists_cons_of_ne_nil (whole_toDigits n).nonempty
  have hc : c.isDigit = true := (whole_toDigits n).digit c (by simp [hcs])
  calc ofLexeme? (Nat.toDigits 10 n)
      = unsigned? false (Nat.toDigits 10 n) := by rw [hcs, ofLexeme?_of_isDigit hc]
    _ = some ⟨false, Nat.toDigits 10 n, none, none⟩ := unsigned?_toDigits false n

/-- Digits whose number fits 64 bits are all read. -/
theorem accumulate_eq {cs : List Char} {s : Nat} (h : Nat.ofDigitChars 10 cs s < UInt64.size) :
    accumulate s cs = (Nat.ofDigitChars 10 cs s, []) := by
  induction cs generalizing s with
  | nil => rfl
  | cons c rest ih =>
    have hnext : Nat.ofDigitChars 10 (c :: rest) s = Nat.ofDigitChars 10 rest (s * 10 + digit c) := by
      rw [Nat.ofDigitChars_cons, Nat.mul_comm 10 s]
      rfl
    rw [hnext] at h ⊢
    -- what is read so far is at most what all digits give
    have hle : s * 10 + digit c ≤ Nat.ofDigitChars 10 rest (s * 10 + digit c) := by
      rw [Nat.ofDigitChars_eq_ofDigitChars_zero]
      have hpow : 1 * (s * 10 + digit c) ≤ 10 ^ rest.length * (s * 10 + digit c) :=
        Nat.mul_le_mul_right _ (Nat.one_le_pow _ _ (by decide))
      omega
    rw [accumulate, if_pos (Nat.lt_of_le_of_lt hle h)]
    exact ih h

theorem accumulate_toDigits {n : Nat} (h : n < UInt64.size) :
    accumulate 0 (Nat.toDigits 10 n) = (n, []) := by
  have hvalue : Nat.ofDigitChars 10 (Nat.toDigits 10 n) 0 = n := Nat.ofDigitChars_ten_toDigits
  rw [accumulate_eq (by rw [hvalue]; exact h), hvalue]

end Numeral

namespace NumberValue

theorem ofLexeme?_toDigits {n : Nat} (h : n < UInt64.size) :
    ofLexeme? (Nat.toDigits 10 n) = some (.natural n) := by
  simp [ofLexeme?, ofLexeme?.accumulateWhole, Numeral.ofLexeme?_toDigits, Numeral.accumulate_toDigits h,
    Numeral.isInteger]

theorem ofLexeme?_minus_toDigits {n : Nat} (hpos : 0 < n) (h : n ≤ 0x8000000000000000) :
    ofLexeme? ('-' :: Nat.toDigits 10 n) = some (.negative n) := by
  have hsize : n < UInt64.size := by
    have hword : (UInt64.size : Nat) = 0x10000000000000000 := rfl
    omega
  have hnumeral : Numeral.ofLexeme? ('-' :: Nat.toDigits 10 n) = _ := Numeral.unsigned?_toDigits true n
  simp [ofLexeme?, ofLexeme?.accumulateWhole, hnumeral, Numeral.accumulate_toDigits hsize, Numeral.isInteger, hpos, h]

end NumberValue

theorem proper_ofNat (n : Nat) : (ofNat n).Proper := by
  show (Numeral.ofLexeme? (Nat.toDigits 10 n)).isSome
  rw [Numeral.ofLexeme?_toDigits]
  rfl

theorem proper_ofInt (n : Int) : (ofInt n).Proper := by
  unfold ofInt
  split
  · show (Numeral.unsigned? true (Nat.toDigits 10 n.natAbs)).isSome
    rw [Numeral.unsigned?_toDigits]
    rfl
  · exact proper_ofNat _

theorem reread_ofInt (n : Int) : (ofInt n).reread = ofInt n := by
  unfold ofInt
  split <;> rfl

/-- An integer of less than 64 bits is read back. -/
theorem int?_ofInt {lo hi n : Int} (hlo : lo ≤ n) (hhi : n ≤ hi) (hneg : -0x8000000000000000 ≤ n)
    (hpos : n < 0x10000000000000000) : int? lo hi (ofInt n) = some n := by
  by_cases hn : n < 0
  · have hnumber : (ofInt n).number? = some (.negative n.natAbs) := by
      rw [ofInt, if_pos hn]
      exact NumberValue.ofLexeme?_minus_toDigits (by omega) (by omega)
    have habs : -(n.natAbs : Int) = n := by omega
    simp only [int?, hnumber, habs, hlo, hhi, and_self, if_true]
  · have hnumber : (ofInt n).number? = some (.natural n.natAbs) := by
      rw [ofInt, if_neg hn]
      exact NumberValue.ofLexeme?_toDigits (show n.natAbs < 0x10000000000000000 by omega)
    have habs : (n.natAbs : Int) = n := by omega
    simp only [int?, hnumber, habs, hlo, hhi, and_self, if_true]

theorem nat?_ofNat {bound n : Nat} (h : n < bound) (hbound : bound ≤ UInt64.size) :
    nat? bound (ofNat n) = some n := by
  have hint : ofNat n = ofInt n := by
    rw [ofInt, if_neg (by omega)]
    rfl
  have hsize : bound ≤ 0x10000000000000000 := hbound
  rw [nat?, hint, int?_ofInt (by omega) (by omega) (by omega) (by omega)]
  rfl

theorem word?_ofNat (w : UInt32) : word? (ofNat w.toNat) = some w := by
  rw [word?, nat?_ofNat w.toNat_lt_size (by decide)]
  simp

end Json

/-! ### Decimals -/

namespace Decimal

open Json Numeral

theorem whole_digits (d : Decimal) : Whole d.digits := whole_toDigits d.coeff

theorem digits_ne_zero {d : Decimal} (h : d.coeff ≠ 0) : d.digits ≠ ['0'] := by
  intro heq
  have hvalue : Nat.ofDigitChars 10 d.digits 0 = d.coeff := Nat.ofDigitChars_ten_toDigits
  rw [heq] at hvalue
  exact h hvalue.symm

theorem isDigit_of_mem_zeros {n : Nat} {c : Char} (h : c ∈ List.replicate n '0') : c.isDigit = true := by
  rw [List.eq_of_mem_replicate h]
  rfl

/-- A plain layout is a numeral, unless zeros are put after a zero. -/
theorem isSome_positional {d : Decimal} (h : d.coeff ≠ 0 ∨ d.scale ≤ 0) (negative : Bool) :
    (unsigned? negative d.positional.toList).isSome := by
  unfold positional
  dsimp only
  split
  case isTrue hscale =>
    have hwhole : Whole (d.digits ++ List.replicate d.scale.toNat '0') := by
      by_cases hzero : d.coeff = 0
      · have hnone : d.scale.toNat = 0 := by omega
        simpa [hnone] using whole_digits d
      · exact (whole_digits d).append (digits_ne_zero hzero) fun _ hc => isDigit_of_mem_zeros hc
    have hzeros : ∀ c ∈ ['0'], c.isDigit = true := fun c hc => isDigit_of_mem_zeros (n := 1) hc
    have hpoint := isSome_unsigned?_point hwhole hzeros (List.cons_ne_nil _ _)
      (show (exponent? []).isSome from rfl) negative
    simpa using hpoint
  case isFalse hscale =>
    generalize hplaces : (-d.scale).toNat = places
    generalize hpadded : List.replicate (places + 1 - d.digits.length) '0' ++ d.digits = padded
    have hlength : padded.length = places + 1 - d.digits.length + d.digits.length := by
      rw [← hpadded, List.length_append, List.length_replicate]
    have hdigit : ∀ c ∈ padded, c.isDigit = true := by
      intro c hc
      rw [← hpadded, List.mem_append] at hc
      exact hc.elim isDigit_of_mem_zeros ((whole_digits d).digit c)
    have hwhole : Whole (padded.take (padded.length - places)) := by
      -- either zeros fill up to one digit before the point, or there are none to put in
      by_cases hfew : d.digits.length ≤ places
      · have hone : padded.length - places = 1 := by omega
        have hne : padded ≠ [] := List.ne_nil_of_length_pos (by omega)
        rw [hone]
        exact whole_take_one hdigit hne
      · have hfull : places + 1 - d.digits.length = 0 := by omega
        rw [hfull, List.replicate_zero, List.nil_append] at hpadded
        rw [← hpadded]
        exact (whole_digits d).take (by omega)
    have hfraction : padded.drop (padded.length - places) ≠ [] := by
      apply List.ne_nil_of_length_pos
      rw [List.length_drop]
      omega
    have hpoint := isSome_unsigned?_point hwhole (fun c hc => hdigit c (List.mem_of_mem_drop hc)) hfraction
      (show (exponent? []).isSome from rfl) negative
    simpa using hpoint

theorem isSome_exponent?_digits (negative : Bool) (n : Nat) :
    (exponent? ('e' :: (if negative then '-' else '+') :: Nat.toDigits 10 n)).isSome := by
  have hwhole := whole_toDigits n
  have hall : (Nat.toDigits 10 n).all Char.isDigit = true := List.all_eq_true.mpr hwhole.digit
  cases negative <;> simp [exponent?, hwhole.nonempty, hall]

/-- An exponent always has a sign when the plus sign is written. -/
theorem isSome_exponent? (e : Int) :
    (exponent? ("e" ++ (if true && decide (0 ≤ e) then "+" else "") ++ toString e).toList).isSome := by
  cases e with
  | ofNat n =>
    have htext : toString (Int.ofNat n) = String.ofList (Nat.toDigits 10 n) := Nat.toString_eq_ofList_toDigits
    rw [htext]
    simpa using isSome_exponent?_digits false n
  | negSucc n =>
    have htext : toString (Int.negSucc n) = "-" ++ (n + 1).repr := rfl
    rw [htext]
    simpa [Int.negSucc_not_nonneg] using isSome_exponent?_digits true (n + 1)

theorem isSome_scientific (d : Decimal) (negative : Bool) :
    (unsigned? negative (d.scientific true).toList).isSome := by
  have hdigits := whole_digits d
  have hhead : Whole (d.digits.take 1) := whole_take_one hdigits.digit hdigits.nonempty
  have hexponent := isSome_exponent? d.leading
  unfold scientific
  dsimp only
  split
  case isTrue => simpa using isSome_unsigned?_exponent hhead hexponent negative
  case isFalse hrest =>
    have hfraction : d.digits.drop 1 ≠ [] := by simpa using hrest
    simpa using isSome_unsigned?_point hhead (fun c hc => hdigits.digit c (List.mem_of_mem_drop hc)) hfraction
      hexponent negative

/-! ### Shortest decimals -/

theorem trim_go_coeff {coeff : Nat} (h : coeff ≠ 0) (scale : Int) (fuel : Nat) :
    (trim.go coeff scale fuel).coeff ≠ 0 := by
  induction fuel generalizing coeff scale with
  | zero => exact h
  | succ fuel ih =>
    rw [trim.go]
    split
    case isTrue hzero => exact ih (by omega) _
    case isFalse => exact h

theorem trim_spec {d : Decimal} (h : d.coeff ≠ 0 ∨ d.scale ≤ 0) : (trim d).coeff ≠ 0 ∨ (trim d).scale ≤ 0 := by
  by_cases hzero : d.coeff = 0
  · have hsame : trim d = ⟨d.coeff, d.scale⟩ := by rw [trim, hzero, trim.go]
    rw [hsame]
    exact h
  · exact .inl (trim_go_coeff hzero _ _)

namespace Interval

variable {i : Interval}

theorem ne_zero_of_holds (hlow : 0 < i.low) {c : Nat} (h : i.holds c = true) : c ≠ 0 := by
  intro hc
  rw [hc] at h
  unfold holds at h
  split at h
  · simp at h
    omega
  · simp at h

theorem holds_of_nearest? {tie : Tie} {c : Nat} (h : i.nearest? tie = some c) : i.holds c = true := by
  unfold nearest? at h
  dsimp only at h
  split at h
  case h_1 => simp at h
  case h_2 hfst _ => exact Option.some.inj h ▸ hfst
  case h_3 _ hsnd => exact Option.some.inj h ▸ hsnd
  case h_4 hfst hsnd =>
    -- both neighbours lie in the interval, so it does not matter which is nearer
    split at h
    · exact Option.some.inj h ▸ hfst
    · split at h
      · exact Option.some.inj h ▸ hsnd
      · split at h
        · exact Option.some.inj h ▸ hsnd
        · split at h
          · exact Option.some.inj h ▸ hfst
          · exact Option.some.inj h ▸ hsnd

theorem low_shift_pos (hlow : 0 < i.low) (k : Int) : 0 < (i.shift k).low :=
  Nat.mul_pos hlow (Nat.pow_pos (by decide))

end Interval

/-- A grid of which no number lies in the interval is passed over, at most down to the last. -/
theorem search_spec {i : Interval} (hlow : 0 < i.low) (tie : Tie) (top : Int) (n : Nat) :
    (search tie i top n).coeff ≠ 0 ∨
      search tie i top n = ⟨(i.shift (n - top)).value / (i.shift (n - top)).den, top - n⟩ := by
  induction n generalizing top with
  | zero => exact .inr (by simp [search])
  | succ n ih =>
    rw [search]
    split
    case h_1 c hc =>
      have hholds := Interval.holds_of_nearest? hc
      exact .inl (Interval.ne_zero_of_holds (Interval.low_shift_pos hlow _) hholds)
    case h_2 =>
      have hgrid : (n : Int) - (top - 1) = (n + 1 : Nat) - top := by omega
      have hlast : top - 1 - (n : Int) = top - (n + 1 : Nat) := by omega
      rw [← hgrid, ← hlast]
      exact ih (top - 1)

/-- The last grid is so far below the estimated exponent that the number is at least one step of it. -/
theorem last_grid_pos {m : Nat} {q top : Int} (hm : m ≠ 0) (hbits : m < Nat.pow 2 24) (hq : q ≤ 104)
    (htop : top ≤ exponentEstimate m q + 1) (hscale : 0 < top - 17) (l : BinaryLayout) :
    ((Interval.ofBinary l m q).shift (17 - top)).value / ((Interval.ofBinary l m q).shift (17 - top)).den ≠ 0 := by
  have hlog : m.log2 < 24 := (Nat.log2_lt hm).mpr hbits
  -- seventeen digits make up for the exponent of ten being counted as four of two
  have hexp : (-q).toNat + 4 * (top - 17).toNat ≤ m.log2 + q.toNat := by
    unfold exponentEstimate at htop
    omega
  have hstep : 2 ^ (-q).toNat * 10 ^ (top - 17).toNat ≤ m * 2 ^ q.toNat := by
    calc 2 ^ (-q).toNat * 10 ^ (top - 17).toNat
        ≤ 2 ^ (-q).toNat * 16 ^ (top - 17).toNat :=
          Nat.mul_le_mul_left _ (Nat.pow_le_pow_left (by decide) _)
      _ = 2 ^ ((-q).toNat + 4 * (top - 17).toNat) := by rw [Nat.pow_add, Nat.pow_mul]
      _ ≤ 2 ^ (m.log2 + q.toNat) := Nat.pow_le_pow_right (by decide) hexp
      _ = 2 ^ m.log2 * 2 ^ q.toNat := Nat.pow_add ..
      _ ≤ m * 2 ^ q.toNat := Nat.mul_le_mul_right _ (Nat.log2_self_le hm)
  have hvalue : ((Interval.ofBinary l m q).shift (17 - top)).value = 4 * (m * 2 ^ q.toNat) := by
    have hup : (17 - top).toNat = 0 := by omega
    simp [Interval.shift, Interval.ofBinary, hup, Nat.mul_assoc]
  have hden : ((Interval.ofBinary l m q).shift (17 - top)).den = 4 * (2 ^ (-q).toNat * 10 ^ (top - 17).toNat) := by
    have hdown : (-(17 - top)).toNat = (top - 17).toNat := by omega
    simp only [Interval.shift, Interval.ofBinary, hdown, Nat.mul_assoc, Nat.pow_eq]
  rw [hvalue, hden]
  apply Nat.ne_of_gt
  apply Nat.div_pos
  · omega
  · exact Nat.mul_pos (by decide) (Nat.mul_pos (Nat.pow_pos (by decide)) (Nat.pow_pos (by decide)))

theorem exponent_le (i : Interval) (estimate : Int) : exponent i estimate ≤ estimate + 1 := by
  unfold exponent
  dsimp only
  split <;> omega

/-- The coefficient of a single is zero only where no zeros follow it. -/
theorem shortest_spec (l : BinaryLayout) (tie : Tie) {m : Nat} {q : Int} (hbits : m < Nat.pow 2 24) (hq : q ≤ 104) :
    (shortest l tie m q).coeff ≠ 0 ∨ (shortest l tie m q).scale ≤ 0 := by
  unfold shortest
  split
  case isTrue => exact .inr (Int.le_refl 0)
  case isFalse hm =>
    apply trim_spec
    have hlow : 0 < (Interval.ofBinary l m q).low := by
      apply Nat.mul_pos
      · split <;> omega
      · exact Nat.pow_pos (by decide)
    have htop := exponent_le (Interval.ofBinary l m q) (exponentEstimate m q)
    generalize exponent (Interval.ofBinary l m q) (exponentEstimate m q) = top at htop ⊢
    rcases search_spec hlow tie top 17 with hcoeff | hlast
    · exact .inl hcoeff
    · rw [hlast]
      by_cases hscale : 0 < top - 17
      · exact .inl (last_grid_pos hm hbits hq htop hscale l)
      · exact .inr (Int.not_lt.mp hscale)

/-- The significand of a single has 24 bits, and its exponent is at most 104. -/
theorem decode_single_bounds {bits : Nat} {negative : Bool} {m : Nat} {q : Int}
    (h : BinaryLayout.single.decode bits = .finite negative m q) : m < Nat.pow 2 24 ∧ q ≤ 104 := by
  have hlimit : Nat.pow 2 24 = 2 ^ 24 := rfl
  have hmin : BinaryLayout.single.minExponent = -149 := rfl
  have hhidden : Nat.pow 2 BinaryLayout.single.significandBits = 2 ^ 23 := rfl
  have hfraction := Nat.mod_lt bits (show 0 < Nat.pow 2 BinaryLayout.single.significandBits by decide)
  have hfields : Nat.pow 2 BinaryLayout.single.exponentBits = 256 := rfl
  have hfield := Nat.mod_lt (bits / Nat.pow 2 BinaryLayout.single.significandBits)
    (show 0 < Nat.pow 2 BinaryLayout.single.exponentBits by decide)
  unfold BinaryLayout.decode at h
  dsimp only at h
  split at h
  case isTrue => split at h <;> cases h
  case isFalse hfinite =>
    split at h
    · injection h with _ hm hq
      omega
    · injection h with _ hm hq
      omega

/-- A finite single is written as a numeral. -/
theorem isSome_render_single {bits : Nat} {negative : Bool} {m : Nat} {q : Int}
    (h : BinaryLayout.single.decode bits = .finite negative m q) :
    (ofLexeme? ((dataStyle .single).render .single bits).toList).isSome := by
  obtain ⟨hbits, hq⟩ := decode_single_bounds h
  have hsign : (if negative then "-" else "").toList = if negative then ['-'] else [] := by cases negative <;> rfl
  simp only [Style.render, h, String.toList_append, hsign]
  apply isSome_ofLexeme?_sign
  intro negative
  split
  · exact isSome_positional (shortest_spec .single .even hbits hq) negative
  · exact isSome_scientific _ negative

end Decimal

/-- A single of which no decimal is written: it is no number, or infinite. -/
def Single.Special (x : Single) : Prop := x.isNaN = true ∨ x.isInfinite = true

namespace Json

theorem proper_ofSingle (x : Single) : (ofSingle x).Proper := by
  unfold ofSingle ofBits
  split
  case h_1 h => exact Decimal.isSome_render_single h
  case h_2 => exact trivial

theorem ofSingle_eq_null {x : Single} (h : x.Special) : ofSingle x = .null := by
  have hmagnitude : x.magnitude.toNat = x.bits.toNat % 2 ^ 31 := by
    rw [Single.magnitude, UInt32.toNat_and]
    exact Nat.and_two_pow_sub_one_eq_mod _ 31
  have hspecial : 0x7f800000 ≤ x.bits.toNat % 2 ^ 31 := by
    rw [← hmagnitude]
    rcases h with h | h
    · exact Nat.le_of_lt (UInt32.lt_iff_toNat_lt.mp (of_decide_eq_true h))
    · exact Nat.le_of_eq (congrArg UInt32.toNat (eq_of_beq h)).symm
  -- all bits of the exponent are set
  have hfield : x.bits.toNat / Nat.pow 2 BinaryLayout.single.significandBits %
      Nat.pow 2 BinaryLayout.single.exponentBits + 1 = Nat.pow 2 BinaryLayout.single.exponentBits := by
    show x.bits.toNat / 2 ^ 23 % 2 ^ 8 + 1 = 2 ^ 8
    omega
  unfold ofSingle ofBits BinaryLayout.decode
  rw [if_pos hfield]
  split
  case h_1 heq => split at heq <;> cases heq
  case h_2 => rfl

end Json

end VisionGraph
