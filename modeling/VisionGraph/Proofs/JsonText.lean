import Mathlib.Data.List.TakeWhile
import VisionGraph.Json.Basic
/-!
Reading back what was written: the compact text of a value spells its tokens, and its tokens spell the value.

A quote, a backslash and a control character are written as escapes and come back as code units. Apart from
that, a value whose numbers are numerals comes back as it was.
-/

namespace VisionGraph

namespace Json

/-! ### Values as they come back -/

namespace Piece

/-- A code unit has sixteen bits. -/
def Proper : Piece → Prop
  | .plain _ => True
  | .unit u => u < 65536

/-- Whether a character cannot stand for itself between quotes. -/
def isEscaped (c : Char) : Bool := c == '"' || c == '\\' || decide (c.toNat < 32)

/-- A piece as it comes back. -/
def reread : Piece → Piece
  | .plain c => if isEscaped c then .unit c.toNat else .plain c
  | .unit u => .unit u

end Piece

mutual

/-- Numbers are numerals and code units have sixteen bits. -/
def Proper : Json → Prop
  | .null => True
  | .bool _ => True
  | .number lexeme => (Numeral.ofLexeme? lexeme).isSome
  | .text pieces => ∀ p ∈ pieces, p.Proper
  | .array items => ProperItems items
  | .object members => ProperMembers members

def ProperItems : List Json → Prop
  | [] => True
  | j :: rest => j.Proper ∧ ProperItems rest

def ProperMembers : List (List Piece × Json) → Prop
  | [] => True
  | (k, j) :: rest => (∀ p ∈ k, p.Proper) ∧ j.Proper ∧ ProperMembers rest

end

mutual

/-- A value as it comes back. -/
def reread : Json → Json
  | .null => .null
  | .bool b => .bool b
  | .number lexeme => .number lexeme
  | .text pieces => .text (pieces.map Piece.reread)
  | .array items => .array (rereadItems items)
  | .object members => .object (rereadMembers members)

def rereadItems : List Json → List Json
  | [] => []
  | j :: rest => j.reread :: rereadItems rest

def rereadMembers : List (List Piece × Json) → List (List Piece × Json)
  | [] => []
  | (k, j) :: rest => (k.map Piece.reread, j.reread) :: rereadMembers rest

end

theorem properItems_iff {items : List Json} : ProperItems items ↔ ∀ j ∈ items, j.Proper := by
  induction items with
  | nil => simp [ProperItems]
  | cons j rest ih => simp [ProperItems, ih]

theorem properMembers_iff {members : List (List Piece × Json)} :
    ProperMembers members ↔ ∀ m ∈ members, (∀ p ∈ m.1, p.Proper) ∧ m.2.Proper := by
  induction members with
  | nil => simp [ProperMembers]
  | cons m rest ih => simp only [ProperMembers, ih, List.forall_mem_cons, and_assoc]

theorem rereadItems_eq_map (items : List Json) : rereadItems items = items.map reread := by
  induction items with
  | nil => rfl
  | cons j rest ih => simp only [rereadItems, ih, List.map_cons]

theorem rereadMembers_eq_map (members : List (List Piece × Json)) :
    rereadMembers members = members.map fun m => (m.1.map Piece.reread, m.2.reread) := by
  induction members with
  | nil => rfl
  | cons m rest ih => simp only [rereadMembers, ih, List.map_cons]

/-! ### Numerals -/

namespace Numeral

theorem isNumberChar_of_isDigit {c : Char} (h : c.isDigit = true) : isNumberChar c = true := by
  simp [isNumberChar, h]

/-- An exponent consists of characters of numbers. -/
theorem isNumberChar_of_exponent? {cs : List Char} (h : (exponent? cs).isSome) :
    ∀ c ∈ cs, isNumberChar c = true := by
  cases cs with
  | nil => simp
  | cons e rest =>
    simp only [exponent?] at h
    split at h
    case isFalse => simp at h
    case isTrue he =>
      have hhead : isNumberChar e = true := by
        rcases Bool.or_eq_true .. ▸ he with he | he <;> simp_all [isNumberChar]
      -- the sign, if there is one, stands before the digits
      have hdigits {digits : List Char} {sign : Bool}
          (hd : (if !digits.isEmpty && digits.all Char.isDigit then some (some (sign, digits)) else none).isSome) :
          ∀ c ∈ digits, isNumberChar c = true := by
        split at hd
        case isFalse => simp at hd
        case isTrue hall =>
          rw [Bool.and_eq_true, List.all_eq_true] at hall
          exact fun c hc => isNumberChar_of_isDigit (hall.2 c hc)
      have hrest : ∀ c ∈ rest, isNumberChar c = true := by
        split at h
        · simp only [List.mem_cons, forall_eq_or_imp]
          exact ⟨by decide, hdigits h⟩
        · simp only [List.mem_cons, forall_eq_or_imp]
          exact ⟨by decide, hdigits h⟩
        · exact hdigits h
      simp only [List.mem_cons, forall_eq_or_imp]
      exact ⟨hhead, hrest⟩

theorem isNumberChar_of_tail? {negative : Bool} {whole cs : List Char} (h : (tail? negative whole cs).isSome) :
    ∀ c ∈ cs, isNumberChar c = true := by
  unfold tail? at h
  split at h
  case h_1 rest =>
    dsimp only at h
    split at h
    · simp at h
    · have hexp := isNumberChar_of_exponent? (by simpa using h)
      simp only [List.mem_cons, forall_eq_or_imp]
      refine ⟨by decide, fun c hc => ?_⟩
      rw [← List.takeWhile_append_dropWhile (p := Char.isDigit) (l := rest), List.mem_append] at hc
      rcases hc with hc | hc
      · exact isNumberChar_of_isDigit (List.mem_takeWhile_imp hc)
      · exact hexp c hc
  case h_2 => exact isNumberChar_of_exponent? (by simpa using h)

/-- A numeral without its sign starts with a digit and consists of characters of numbers. -/
theorem isNumberChar_of_unsigned? {negative : Bool} {cs : List Char} (h : (unsigned? negative cs).isSome) :
    (∀ c ∈ cs, isNumberChar c = true) ∧ ∃ c rest, cs = c :: rest ∧ c.isDigit = true := by
  have hall : ∀ c ∈ cs, isNumberChar c = true := by
    intro c hc
    unfold unsigned? at h
    have htail : (tail? negative (cs.takeWhile Char.isDigit) (cs.dropWhile Char.isDigit)).isSome := by
      dsimp only at h
      split at h
      · simp at h
      · simp at h
      · exact h
    rw [← List.takeWhile_append_dropWhile (p := Char.isDigit) (l := cs), List.mem_append] at hc
    rcases hc with hc | hc
    · exact isNumberChar_of_isDigit (List.mem_takeWhile_imp hc)
    · exact isNumberChar_of_tail? htail c hc
  refine ⟨hall, ?_⟩
  cases cs with
  | nil => simp [unsigned?] at h
  | cons c rest =>
    refine ⟨c, rest, rfl, ?_⟩
    by_contra hc
    simp [unsigned?, hc] at h

/-- A numeral starts with a digit or a minus sign and consists of characters of numbers. -/
theorem isNumberChar_of_ofLexeme? {cs : List Char} (h : (ofLexeme? cs).isSome) :
    ∃ c rest, cs = c :: rest ∧ (c.isDigit || c == '-') = true ∧ ∀ d ∈ rest, isNumberChar d = true := by
  unfold ofLexeme? at h
  split at h
  case h_1 rest => exact ⟨'-', rest, rfl, rfl, (isNumberChar_of_unsigned? h).1⟩
  case h_2 =>
    obtain ⟨hall, c, rest, rfl, hc⟩ := isNumberChar_of_unsigned? h
    exact ⟨c, rest, rfl, by simp [hc], fun d hd => hall d (List.mem_cons_of_mem _ hd)⟩

end Numeral

/-! ### From characters to tokens -/

/-- Between tokens, with `before` read, the characters lead to the tokens `after` once a number or a word that
they end with is closed. Both lists are in reverse. -/
def Lexes (before : List Token) (text : List Char) (after : List Token) : Prop :=
  ∃ l, text.foldlM Lexer.step ⟨.between, before⟩ = some l ∧ l.flush = some ⟨.between, after⟩

/-- The tokens that are one character each and end whatever stands before them. -/
def Token.isMark : Token → Bool
  | .arrayOpen | .arrayClose | .objectOpen | .objectClose | .comma | .colon => true
  | _ => false

namespace Lexer

theorem step_of_flush {l : Lexer} {ts : List Token} {c : Char} (h : l.flush = some ⟨.between, ts⟩)
    (hnumber : isNumberChar c = false) (hlower : c.isLower = false) : l.step c = start ts c := by
  obtain ⟨mode, tokens⟩ := l
  cases mode with
  | between =>
    simp only [flush, Option.some.injEq, mk.injEq, true_and] at h
    rw [step, h]
  | number lexeme => simp [step, hnumber, h]
  | word letters => simp [step, hlower, h]
  | text pieces => simp [flush] at h
  | escape pieces => simp [flush] at h
  | hex pieces left value => simp [flush] at h

theorem foldlM_mark {l : Lexer} {ts : List Token} {t : Token} (h : l.flush = some ⟨.between, ts⟩)
    (ht : t.isMark = true) : t.spell.foldlM step l = some ⟨.between, t :: ts⟩ := by
  cases t <;> simp only [Token.isMark, Bool.false_eq_true] at ht <;>
    rw [Token.spell, List.foldlM_cons, step_of_flush h (by decide) (by decide)] <;> rfl

theorem hexValue?_hexDigit (k : Nat) : hexValue? (Piece.hexDigit k) = some (k % 16) := by
  have hlt : k % 16 < 16 := Nat.mod_lt _ (by decide)
  have hall : ∀ d < 16, hexValue? (Nat.digitChar d) = some d := by decide
  exact hall _ hlt

/-- The four digits of a code unit give it back. -/
theorem foldlM_hex4 {u : Nat} (hu : u < 65536) (ps : List Piece) (ts : List Token) :
    ('\\' :: 'u' :: Piece.hex4 u).foldlM step ⟨.text ps, ts⟩ = some ⟨.text (.unit u :: ps), ts⟩ := by
  have hvalue : (((u / 4096 % 16) * 16 + u / 256 % 16) * 16 + u / 16 % 16) * 16 + u % 16 = u := by omega
  simp [Piece.hex4, step, hexValue?_hexDigit, hvalue]

theorem foldlM_short {e : Char} {u : Nat} (he : e ≠ 'u') (hu : shortEscape? e = some u) (ps : List Piece)
    (ts : List Token) : ['\\', e].foldlM step ⟨.text ps, ts⟩ = some ⟨.text (.unit u :: ps), ts⟩ := by
  simp [step, he, hu]

/-- A piece between quotes. -/
theorem foldlM_piece {p : Piece} (hp : p.Proper) (ps : List Piece) (ts : List Token) :
    p.spell.foldlM step ⟨.text ps, ts⟩ = some ⟨.text (p.reread :: ps), ts⟩ := by
  cases p with
  | unit u => exact foldlM_hex4 hp ps ts
  | plain c =>
    unfold Piece.spell
    dsimp only
    -- five characters have a short form, and its code unit is the character's own
    split
    · exact foldlM_short (by decide) rfl ps ts
    · exact foldlM_short (by decide) rfl ps ts
    · exact foldlM_short (by decide) rfl ps ts
    · exact foldlM_short (by decide) rfl ps ts
    · exact foldlM_short (by decide) rfl ps ts
    · rename_i hquote hslash _ _ _
      -- of the others the control characters are escaped, two of them in short
      have hescaped : Piece.isEscaped c = decide (c.toNat < 32) := by simp_all [Piece.isEscaped]
      simp only [Piece.reread, hescaped]
      split
      case isTrue h8 =>
        rw [h8]
        exact foldlM_short (by decide) rfl ps ts
      case isFalse =>
        split
        case isTrue h12 =>
          rw [h12]
          exact foldlM_short (by decide) rfl ps ts
        case isFalse =>
          split
          case isTrue hlow => simpa [hlow] using foldlM_hex4 (by omega) ps ts
          case isFalse hhigh => simp_all [step]

theorem foldlM_pieces {ps : List Piece} (hp : ∀ p ∈ ps, p.Proper) (before : List Piece) (ts : List Token) :
    (ps.flatMap Piece.spell).foldlM step ⟨.text before, ts⟩ =
      some ⟨.text ((ps.map Piece.reread).reverse ++ before), ts⟩ := by
  induction ps generalizing before with
  | nil => rfl
  | cons p rest ih =>
    rw [List.forall_mem_cons] at hp
    rw [List.flatMap_cons, List.foldlM_append, foldlM_piece hp.1]
    simpa using ih hp.2 (p.reread :: before)

theorem foldlM_number {cs : List Char} (hcs : ∀ c ∈ cs, isNumberChar c = true) (lexeme : List Char)
    (ts : List Token) : cs.foldlM step ⟨.number lexeme, ts⟩ = some ⟨.number (cs.reverse ++ lexeme), ts⟩ := by
  induction cs generalizing lexeme with
  | nil => rfl
  | cons c rest ih =>
    rw [List.forall_mem_cons] at hcs
    simpa [step, hcs.1] using ih hcs.2 (c :: lexeme)

theorem start_number {c : Char} (hc : (c.isDigit || c == '-') = true) (ts : List Token) :
    start ts c = some ⟨.number [c], ts⟩ := by
  unfold start
  split
  case isTrue hgap =>
    simp only [isGap, Bool.or_eq_true, beq_iff_eq] at hgap
    rcases hgap with ((rfl | rfl) | rfl) | rfl <;> simp at hc
  case isFalse =>
    -- neither a digit nor the minus sign is a mark or a quote
    split
    all_goals first
      | exact absurd hc (by decide)
      | rw [if_pos hc]

end Lexer

namespace Lexes

variable {before between after : List Token}

theorem nil (ts : List Token) : Lexes ts [] ts := ⟨_, rfl, rfl⟩

/-- A mark between two texts ends the first, so the second starts between tokens. -/
theorem mark {t : Token} {first second : List Char} (ht : t.isMark = true) (hfirst : Lexes before first between)
    (hsecond : Lexes (t :: between) second after) : Lexes before (first ++ (t.spell ++ second)) after := by
  obtain ⟨l, hl, hflush⟩ := hfirst
  obtain ⟨l', hl', hflush'⟩ := hsecond
  refine ⟨l', ?_, hflush'⟩
  rw [List.foldlM_append, hl]
  show List.foldlM Lexer.step l (t.spell ++ second) = some l'
  rw [List.foldlM_append, Lexer.foldlM_mark hflush ht]
  exact hl'

theorem quoted {ps : List Piece} (hp : ∀ p ∈ ps, p.Proper) (ts : List Token) :
    Lexes ts (Token.text ps).spell (.text (ps.map Piece.reread) :: ts) := by
  refine ⟨⟨.between, .text (ps.map Piece.reread) :: ts⟩, ?_, rfl⟩
  rw [Token.spell, List.cons_append, List.foldlM_cons]
  show List.foldlM Lexer.step ⟨.text [], ts⟩ (ps.flatMap Piece.spell ++ ['"']) = _
  rw [List.foldlM_append, Lexer.foldlM_pieces hp]
  simp [Lexer.step]

theorem numeral {lexeme : List Char} (h : (Numeral.ofLexeme? lexeme).isSome) (ts : List Token) :
    Lexes ts lexeme (.number lexeme :: ts) := by
  obtain ⟨c, rest, rfl, hc, hrest⟩ := Numeral.isNumberChar_of_ofLexeme? h
  refine ⟨⟨.number (rest.reverse ++ [c]), ts⟩, ?_, ?_⟩
  · rw [List.foldlM_cons]
    show (Lexer.start ts c).bind _ = _
    rw [Lexer.start_number hc]
    exact Lexer.foldlM_number hrest [c] ts
  · obtain ⟨n, hn⟩ := Option.isSome_iff_exists.mp h
    simp [Lexer.flush, hn]

end Lexes

mutual

/-- The text of a value lexes to the tokens of the value that comes back. -/
theorem lexes_tokens : (j : Json) → j.Proper → (ts : List Token) →
    Lexes ts (j.tokens.flatMap Token.spell) (j.reread.tokens.reverse ++ ts)
  | .null, _, _ => ⟨_, rfl, rfl⟩
  | .bool true, _, _ => ⟨_, rfl, rfl⟩
  | .bool false, _, _ => ⟨_, rfl, rfl⟩
  | .number lexeme, h, ts => by simpa [tokens, reread, Token.spell] using Lexes.numeral h ts
  | .text pieces, h, ts => by simpa [tokens, reread] using Lexes.quoted h ts
  | .array items, h, ts => by
    -- the last item may end with an open number or word, which the bracket closes
    have hclosed := (lexes_items items h (.arrayOpen :: ts)).mark (t := .arrayClose) rfl (Lexes.nil _)
    simpa [tokens, reread] using (Lexes.nil ts).mark (t := .arrayOpen) rfl hclosed
  | .object members, h, ts => by
    have hclosed := (lexes_members members h (.objectOpen :: ts)).mark (t := .objectClose) rfl (Lexes.nil _)
    simpa [tokens, reread] using (Lexes.nil ts).mark (t := .objectOpen) rfl hclosed

theorem lexes_items : (items : List Json) → ProperItems items → (ts : List Token) →
    Lexes ts ((itemTokens items).flatMap Token.spell) ((itemTokens (rereadItems items)).reverse ++ ts)
  | [], _, ts => Lexes.nil ts
  | [j], h, ts => by simpa [itemTokens, rereadItems] using lexes_tokens j h.1 ts
  | j :: k :: rest, h, ts => by
    have hrest := lexes_items (k :: rest) h.2 (.comma :: (j.reread.tokens.reverse ++ ts))
    simpa [itemTokens, rereadItems] using (lexes_tokens j h.1 ts).mark (t := .comma) rfl hrest

theorem lexes_members : (members : List (List Piece × Json)) → ProperMembers members → (ts : List Token) →
    Lexes ts ((memberTokens members).flatMap Token.spell) ((memberTokens (rereadMembers members)).reverse ++ ts)
  | [], _, ts => Lexes.nil ts
  | [(k, j)], h, ts => by
    have hvalue := lexes_tokens j h.2.1 (.colon :: .text (k.map Piece.reread) :: ts)
    simpa [memberTokens, rereadMembers] using (Lexes.quoted h.1 ts).mark (t := .colon) rfl hvalue
  | (k, j) :: m :: rest, h, ts => by
    have hvalue := lexes_tokens j h.2.1 (.colon :: .text (k.map Piece.reread) :: ts)
    have hrest := lexes_members (m :: rest) h.2.2
      (.comma :: (j.reread.tokens.reverse ++ .colon :: .text (k.map Piece.reread) :: ts))
    simpa [memberTokens, rereadMembers] using
      (Lexes.quoted h.1 ts).mark (t := .colon) rfl (hvalue.mark (t := .comma) rfl hrest)

end

theorem tokens?_compact {j : Json} (h : j.Proper) : tokens? j.compact.toList = some j.reread.tokens := by
  obtain ⟨l, hl, hflush⟩ := lexes_tokens j h []
  simp [tokens?, compact, hl, hflush]

/-! ### From tokens to values -/

namespace Reader

/-- A value may start here. -/
def Ready (e : Expected) : Prop := e = .value ∨ e = .item

theorem step_begin {e : Expected} {t : Token} (he : Ready e) (ht : t ≠ .arrayClose) (containers : List Open) :
    step ⟨containers, e, none⟩ t = begin containers t := by
  rcases he with rfl | rfl
  · rfl
  · unfold step
    split <;> simp_all

theorem step_name {e : Expected} (he : e = .name ∨ e = .firstName) (done : List (List Piece × Json))
    (name : List Piece) (outer : List Open) :
    step ⟨.object done :: outer, e, none⟩ (.text name) = some ⟨.member done name :: outer, .colon, none⟩ := by
  rcases he with rfl | rfl <;> rfl

end Reader

open Reader in
mutual

/-- The tokens of a value deliver it. -/
theorem read_tokens : (j : Json) → {e : Expected} → Ready e → (outer : List Open) →
    j.tokens.foldlM step ⟨outer, e, none⟩ = deliver j outer
  | .null, _, he, outer => by simp [tokens, step_begin he, begin]
  | .bool b, _, he, outer => by simp [tokens, step_begin he, begin]
  | .number lexeme, _, he, outer => by simp [tokens, step_begin he, begin]
  | .text pieces, _, he, outer => by simp [tokens, step_begin he, begin]
  | .array [], _, he, outer => by
    -- the end is allowed in place of the first item only
    rw [tokens, List.foldlM_cons, step_begin he (by simp)]
    exact bind_pure (deliver (.array []) outer)
  | .array (j :: rest), _, he, outer => by
    have hitems := read_items (j :: rest) (List.cons_ne_nil _ _) [] (.inr rfl) outer
    rw [tokens, List.foldlM_cons, step_begin he (by simp)]
    show List.foldlM step ⟨.array [] :: outer, .item, none⟩ (itemTokens (j :: rest) ++ [.arrayClose]) = _
    rw [List.foldlM_append, hitems]
    show deliver (.array ((j :: rest).reverse ++ []).reverse) outer >>= pure = _
    rw [bind_pure, List.append_nil, List.reverse_reverse]
  | .object [], _, he, outer => by
    rw [tokens, List.foldlM_cons, step_begin he (by simp)]
    exact bind_pure (deliver (.object []) outer)
  | .object (m :: rest), _, he, outer => by
    have hmembers := read_members (m :: rest) (List.cons_ne_nil _ _) [] (.inr rfl) outer
    rw [tokens, List.foldlM_cons, step_begin he (by simp)]
    show List.foldlM step ⟨.object [] :: outer, .firstName, none⟩ (memberTokens (m :: rest) ++ [.objectClose]) = _
    rw [List.foldlM_append, hmembers]
    show deliver (.object ((m :: rest).reverse ++ []).reverse) outer >>= pure = _
    rw [bind_pure, List.append_nil, List.reverse_reverse]

theorem read_items : (items : List Json) → items ≠ [] → (done : List Json) → {e : Expected} → Ready e →
    (outer : List Open) → (itemTokens items).foldlM step ⟨.array done :: outer, e, none⟩ =
      some ⟨.array (items.reverse ++ done) :: outer, .more, none⟩
  | [], h, _, _, _, _ => absurd rfl h
  | [j], _, done, _, he, outer => by
    rw [itemTokens, read_tokens j he]
    rfl
  | j :: k :: rest, _, done, _, he, outer => by
    have hrest := read_items (k :: rest) (List.cons_ne_nil _ _) (j :: done) (.inl rfl) outer
    rw [itemTokens, List.foldlM_append, read_tokens j he]
    · -- a comma, and the next value has to follow
      show List.foldlM step ⟨.array (j :: done) :: outer, .value, none⟩ (itemTokens (k :: rest)) = _
      simpa using hrest
    · simp

theorem read_members : (members : List (List Piece × Json)) → members ≠ [] →
    (done : List (List Piece × Json)) → {e : Expected} → e = .name ∨ e = .firstName → (outer : List Open) →
    (memberTokens members).foldlM step ⟨.object done :: outer, e, none⟩ =
      some ⟨.object (members.reverse ++ done) :: outer, .more, none⟩
  | [], h, _, _, _, _ => absurd rfl h
  | [(k, j)], _, done, _, he, outer => by
    rw [memberTokens, List.foldlM_cons, step_name he]
    show List.foldlM step ⟨.member done k :: outer, .value, none⟩ j.tokens = _
    rw [read_tokens j (.inl rfl)]
    rfl
  | (k, j) :: m :: rest, _, done, _, he, outer => by
    have hrest := read_members (m :: rest) (List.cons_ne_nil _ _) ((k, j) :: done) (.inl rfl) outer
    rw [memberTokens, List.foldlM_cons, step_name he]
    · show List.foldlM step ⟨.member done k :: outer, .value, none⟩
        (j.tokens ++ .comma :: memberTokens (m :: rest)) = _
      rw [List.foldlM_append, read_tokens j (.inl rfl)]
      -- a comma, and the next name has to follow
      show List.foldlM step ⟨.object ((k, j) :: done) :: outer, .name, none⟩ (memberTokens (m :: rest)) = _
      simpa using hrest
    · simp

end

theorem ofTokens?_tokens (j : Json) : ofTokens? j.tokens = some j := by
  rw [ofTokens?, read_tokens j (.inl rfl) []]
  rfl

/-- A written value comes back. -/
theorem parse?_compact {j : Json} (h : j.Proper) : parse? j.compact = some j.reread := by
  rw [parse?, tokens?_compact h, Option.bind_some, ofTokens?_tokens]

end Json

end VisionGraph
