import VisionGraph.Json.Decode
import VisionGraph.Proofs.Numerals
/-!
Texts, lists, alternatives and records that were written, as they are read.
-/

namespace VisionGraph

namespace Json

/-- A reader gives back what was written, from the value as it comes back. -/
def Reads {α : Type} (read : Json → Option α) (write : α → Json) (a : α) : Prop :=
  read (write a).reread = some a

/-! ### Texts -/

namespace Piece

/-- A code unit that is not part of a pair stands for its character, whatever follows. -/
theorem decode_unit_cons {u : Nat} (hu : u < 0xD800) (rest : List Piece) :
    decode (.unit u :: rest) = (decode rest).map (Char.ofNat u :: ·) := by
  have hpair : ¬ (0xD800 ≤ u ∧ u < 0xE000) := by omega
  match rest with
  | [] => simp [decode, hpair]
  | .plain c :: rest => simp [decode, hpair]
  | .unit low :: rest =>
    generalize hrest : decode (.unit low :: rest) = after
    rw [decode, if_neg (by omega), if_neg (by omega), hrest]

theorem toNat_lt_of_isEscaped {c : Char} (h : isEscaped c = true) : c.toNat < 128 := by
  simp only [isEscaped, Bool.or_eq_true, beq_iff_eq, decide_eq_true_eq] at h
  rcases h with (rfl | rfl) | h
  · decide
  · decide
  · omega

theorem isEscaped_of_isDigit {c : Char} (h : c.isDigit = true) : isEscaped c = false := by
  have hlow : 48 ≤ c.toNat := by
    simp only [Char.isDigit, Bool.and_eq_true, decide_eq_true_eq] at h
    exact UInt32.le_iff_toNat_le.mp h.1
  have hquote : c ≠ '"' := by
    intro hc
    rw [hc] at hlow
    exact absurd hlow (by decide)
  have hslash : c ≠ '\\' := by
    intro hc
    rw [hc] at h
    exact absurd h (by decide)
  have hcontrol : ¬ c.toNat < 32 := by omega
  simp [isEscaped, hquote, hslash, hcontrol]

theorem decode_reread (cs : List Char) : decode ((cs.map plain).map reread) = some cs := by
  induction cs with
  | nil => rfl
  | cons c rest ih =>
    simp only [List.map_cons, reread]
    split
    case isTrue hescaped =>
      -- code units of pairs are far above what is escaped
      have hlow := toNat_lt_of_isEscaped hescaped
      rw [decode_unit_cons (by omega), ih, Char.ofNat_toNat]
      rfl
    case isFalse =>
      rw [decode, ih]
      rfl

end Piece

theorem decode_pieces (s : String) : Piece.decode ((pieces s).map Piece.reread) = some s.toList :=
  Piece.decode_reread s.toList

theorem proper_pieces (s : String) : ∀ p ∈ pieces s, p.Proper := by
  intro p hp
  obtain ⟨c, -, rfl⟩ := List.mem_map.mp hp
  exact trivial

@[simp] theorem proper_ofText (s : String) : (ofText s).Proper := proper_pieces s

@[simp] theorem proper_bool (b : Bool) : (bool b).Proper := trivial

@[simp] theorem proper_null : null.Proper := trivial

attribute [simp] proper_ofNat proper_ofInt proper_ofSingle

theorem reads_text (s : String) : Reads text? ofText s := by
  show (Piece.decode ((pieces s).map Piece.reread)).map String.ofList = some s
  rw [decode_pieces]
  simp

/-! ### Lists and alternatives -/

section

variable {α β : Type} {read : Json → Option α} {write : α → Json}

@[simp] theorem proper_ofList {xs : List α} : (ofList write xs).Proper ↔ ∀ a ∈ xs, (write a).Proper := by
  simp [ofList, Proper, properItems_iff]

@[simp] theorem proper_ofOption {x : Option α} : (ofOption write x).Proper ↔ ∀ a, x = some a → (write a).Proper := by
  cases x <;> simp [ofOption]

theorem reread_ofList (write : α → Json) (xs : List α) :
    (ofList write xs).reread = .array (xs.map fun a => (write a).reread) := by
  rw [ofList, reread, rereadItems_eq_map, List.map_map]
  rfl

theorem mapM_eq_some {f : α → Option β} {g : α → β} {xs : List α} (h : ∀ a ∈ xs, f a = some (g a)) :
    xs.mapM f = some (xs.map g) := by
  induction xs with
  | nil => rfl
  | cons a rest ih =>
    rw [List.forall_mem_cons] at h
    simp [h.1, ih h.2]

theorem mapM_eq_none {f : α → Option β} {xs : List α} {a : α} (ha : a ∈ xs) (h : f a = none) : xs.mapM f = none := by
  induction xs with
  | nil => cases ha
  | cons b rest ih =>
    rw [List.mapM_cons]
    rcases List.mem_cons.mp ha with rfl | ha
    · rw [h]
      rfl
    · rw [ih ha]
      cases f b <;> rfl

theorem foldlM_eq_some {f : β → α → Option β} {g : β → α → β} {xs : List α} (h : ∀ a ∈ xs, ∀ b, f b a = some (g b a))
    (b : β) : xs.foldlM f b = some (xs.foldl g b) := by
  induction xs generalizing b with
  | nil => rfl
  | cons a rest ih =>
    rw [List.forall_mem_cons] at h
    simp [h.1, ih h.2]

theorem foldlM_eq_none {f : β → α → Option β} {xs : List α} {a : α} (ha : a ∈ xs) (h : ∀ b, f b a = none) (b : β) :
    xs.foldlM f b = none := by
  induction xs generalizing b with
  | nil => cases ha
  | cons c rest ih =>
    rw [List.foldlM_cons]
    rcases List.mem_cons.mp ha with rfl | ha
    · rw [h]
      rfl
    · cases f b c with
      | none => rfl
      | some next => exact ih ha next

theorem reads_list {xs : List α} (h : ∀ a ∈ xs, Reads read write a) : Reads (list? read) (ofList write) xs := by
  show list? read (ofList write xs).reread = some xs
  rw [reread_ofList, list?, List.mapM_map]
  exact (mapM_eq_some h).trans (by rw [List.map_id'])

/-- A reader that refuses null tells a value from its absence. -/
theorem reads_option (hnull : read .null = none) {x : Option α} (h : ∀ a, x = some a → Reads read write a) :
    Reads (option? read) (ofOption write) x := by
  cases x with
  | none => rfl
  | some a =>
    have hread : read (write a).reread = some a := h a rfl
    show option? read (write a).reread = some (some a)
    unfold option?
    split
    case h_1 heq =>
      -- a value that is written as null would not be read as one
      rw [heq, hnull] at hread
      cases hread
    case h_2 =>
      rw [hread]
      rfl

theorem option?_eq_none {j : Json} (hj : j ≠ .null) (h : read j = none) : option? read j = none := by
  unfold option?
  split
  case h_1 => exact absurd rfl hj
  case h_2 =>
    rw [h]
    rfl

end

theorem variant?_ofText (s : String) : (ofText s).reread.variant? = some (s, none) := by
  show (Piece.decode ((pieces s).map Piece.reread)).map _ = _
  rw [decode_pieces]
  simp

theorem bareVariant?_ofText (s : String) : (ofText s).reread.bareVariant? = some s := by
  rw [bareVariant?, variant?_ofText]

theorem variant?_tagged (name : String) (content : Json) :
    (tagged name content).reread.variant? = some (name, some content.reread) := by
  show (Piece.decode ((pieces name).map Piece.reread)).map _ = _
  rw [decode_pieces]
  simp

/-! ### Records -/

@[simp] theorem proper_record {members : List (String × Json)} :
    (record members).Proper ↔ ∀ m ∈ members, m.2.Proper := by
  simp only [record, Proper, properMembers_iff, List.forall_mem_map]
  exact forall₂_congr fun m _ => and_iff_right (proper_pieces m.1)

@[simp] theorem proper_tagged {name : String} {content : Json} : (tagged name content).Proper ↔ content.Proper := by
  simp [tagged]

/-- The members as a reader sees them. -/
def rereadFields (members : List (String × Json)) : List (String × Json) :=
  members.map fun m => (m.1, m.2.reread)

theorem reread_record (members : List (String × Json)) :
    (record members).reread = .object (members.map fun m => ((pieces m.1).map Piece.reread, m.2.reread)) := by
  rw [record, reread, rereadMembers_eq_map, List.map_map]
  rfl

theorem member?_pieces (name : String) (j : Json) : member? ((pieces name).map Piece.reread, j) = some (name, j) := by
  simp [member?, decode_pieces]

/-- A record in which every name is known and occurs once. -/
theorem fields?_record {names : List String} {members : List (String × Json)} (hnames : members.map (·.1) = names)
    (hnodup : names.Nodup) : (record members).reread.fields? names = some ⟨rereadFields members, false⟩ := by
  have hmembers : (members.map fun m => ((pieces m.1).map Piece.reread, m.2.reread)).mapM member? =
      some (rereadFields members) := by
    rw [List.mapM_map]
    exact mapM_eq_some fun m _ => member?_pieces m.1 m.2.reread
  have hknown : (rereadFields members).filter (fun m => names.contains m.1) = rereadFields members := by
    rw [List.filter_eq_self]
    intro m hm
    obtain ⟨n, hn, rfl⟩ := List.mem_map.mp hm
    rw [List.contains_iff_mem, ← hnames]
    exact List.mem_map.mpr ⟨n, hn, rfl⟩
  have hfirst : (rereadFields members).map (·.1) = names := by
    rw [rereadFields, List.map_map, ← hnames]
    rfl
  rw [reread_record, fields?, hmembers, Option.bind_some]
  dsimp only
  rw [hknown, if_pos (by rw [hfirst]; exact hnodup)]

end Json

end VisionGraph
