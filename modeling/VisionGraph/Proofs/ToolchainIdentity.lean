import VisionGraph.Artifact.Store

/-! What the key of a library tells. The identity of a toolchain is its compiler call with a blank between the words. A blank
inside of a word reads in the same way, so the identity tells the call cut at all blanks and nothing else: calls that are
equal when they are cut share their libraries, and calls whose words hold no blanks are told apart. -/
namespace VisionGraph

section Separator

variable {α : Type} [BEq α] [LawfulBEq α] {x : α}

/-- Parts that are joined by a separator and cut again are each cut by themselves. -/
theorem splitOn_intercalate_eq (x : α) {parts : List (List α)} (h : parts ≠ []) :
    ([x].intercalate parts).splitOn x = parts.flatMap (·.splitOn x) := by
  induction parts with
  | nil => contradiction
  | cons part rest ih =>
    by_cases hrest : rest = []
    · subst hrest
      rw [List.intercalate_singleton, List.flatMap_singleton]
    · have hjoined : [x].intercalate (part :: rest) = part ++ x :: [x].intercalate rest := by
        rw [List.intercalate_cons_of_ne_nil hrest, List.append_assoc, List.singleton_append]
      have hcut : (part ++ x :: [x].intercalate rest).splitOn x =
          part.splitOn x ++ ([x].intercalate rest).splitOn x := by
        simp only [List.splitOn_eq_splitOnP]
        exact List.splitOnP_append_cons _ _ (beq_self_eq_true x)
      rw [hjoined, hcut, ih hrest, List.flatMap_cons]

omit [BEq α] [LawfulBEq α] in
/-- The first separator tells where the front ends. -/
theorem eq_of_append_separator {front front' back back' : List α} (hfront : x ∉ front) (hfront' : x ∉ front')
    (h : front ++ x :: back = front' ++ x :: back') : front = front' ∧ back = back' := by
  -- one front continues the other, and what it has more would begin with the separator
  have hempty {long short more rest rest' : List α} (hlong : x ∉ long) (hmore : long = short ++ more)
      (hrest : x :: rest = more ++ rest') : more = [] := by
    cases more with
    | nil => rfl
    | cons y more =>
      obtain ⟨rfl, _⟩ := List.cons.inj hrest
      exact absurd (hmore ▸ List.mem_append_right short List.mem_cons_self) hlong
  rcases List.append_eq_append_iff.mp h with ⟨more, hmore, hrest⟩ | ⟨more, hmore, hrest⟩
  · obtain rfl : more = [] := hempty hfront' hmore hrest
    exact ⟨(hmore.trans (List.append_nil front)).symm, (List.cons.inj hrest).2⟩
  · obtain rfl : more = [] := hempty hfront hmore hrest
    exact ⟨hmore.trans (List.append_nil front'), (List.cons.inj hrest).2.symm⟩

end Separator

namespace CompilerCall

/-- The call cut at all blanks. -/
def words (c : CompilerCall) : List (List Char) := (c.program :: c.flags).flatMap fun word => word.toList.splitOn ' '

/-- No word of the call holds a blank. -/
def Unbroken (c : CompilerCall) : Prop := ∀ word ∈ c.program :: c.flags, ' ' ∉ word.toList

instance (c : CompilerCall) : Decidable c.Unbroken :=
  inferInstanceAs (Decidable (∀ word ∈ c.program :: c.flags, ' ' ∉ word.toList))

variable {c c' : CompilerCall}

theorem toList_identity (h : c.flags ≠ []) :
    c.identity.toList = [' '].intercalate ((c.program :: c.flags).map String.toList) := by
  have hflags : c.flags.map String.toList ≠ [] := fun hnil => h (List.map_eq_nil_iff.mp hnil)
  have hblank : " ".toList = [' '] := rfl
  rw [identity, String.toList_append, String.toList_append, String.toList_intercalate, List.map_cons,
    List.intercalate_cons_of_ne_nil hflags, hblank]

theorem words_eq (h : c.flags ≠ []) : c.words = c.identity.toList.splitOn ' ' := by
  have hne : (c.program :: c.flags).map String.toList ≠ [] := List.cons_ne_nil _ _
  rw [toList_identity h, splitOn_intercalate_eq ' ' hne, List.flatMap_map]
  rfl

/-- The identity and the words tell each other. -/
theorem identity_eq_iff (h : c.flags ≠ []) (h' : c'.flags ≠ []) : c.identity = c'.identity ↔ c.words = c'.words := by
  rw [words_eq h, words_eq h']
  constructor
  · intro hsame
    rw [hsame]
  · intro hsame
    have hjoined := congrArg [' '].intercalate hsame
    rwa [List.intercalate_splitOn, List.intercalate_splitOn, String.toList_inj] at hjoined

/-- Where no word holds a blank, the words tell the call. -/
theorem Unbroken.eq_of_words (hc : c.Unbroken) (hc' : c'.Unbroken) (h : c.flags ≠ []) (h' : c'.flags ≠ [])
    (hwords : c.words = c'.words) : c = c' := by
  have hwhole {c : CompilerCall} (hc : c.Unbroken) (h : c.flags ≠ []) :
      c.words = (c.program :: c.flags).map String.toList := by
    rw [words_eq h, toList_identity h]
    apply List.splitOn_intercalate
    · intro word hword
      obtain ⟨text, htext, rfl⟩ := List.mem_map.mp hword
      exact hc text htext
    · exact List.cons_ne_nil _ _
  rw [hwhole hc h, hwhole hc' h'] at hwords
  have hsame : c.program :: c.flags = c'.program :: c'.flags :=
    List.map_inj_right (fun _ _ => String.toList_inj.mp) |>.mp hwords
  obtain ⟨hprogram, hflags⟩ := List.cons.inj hsame
  cases c
  cases c'
  cases hprogram
  cases hflags
  rfl

end CompilerCall

/-- Different bytes with one digest. -/
def Blake3.Collision (bytes bytes' : ByteArray) : Prop := bytes ≠ bytes' ∧ hex bytes = hex bytes'

namespace Store

/-- The bytes whose digest is the key of a unit and a toolchain. -/
def keyBytes (u : CUnit) (t : Toolchain) : ByteArray := u.source.toUTF8.push 0 ++ t.identity.toUTF8

/-- The bytes of sources without zeros tell the source and the identity. -/
theorem keyBytes_eq_iff {u u' : CUnit} {t t' : Toolchain} (hu : 0 ∉ u.source.toUTF8.data) (hu' : 0 ∉ u'.source.toUTF8.data) :
    keyBytes u t = keyBytes u' t' ↔ u.source = u'.source ∧ t.identity = t'.identity := by
  have hlist (u : CUnit) (t : Toolchain) : (keyBytes u t).data.toList =
      u.source.toUTF8.data.toList ++ 0 :: t.identity.toUTF8.data.toList := by
    rw [keyBytes, ByteArray.data_append, ByteArray.data_push, Array.toList_append, Array.toList_push, List.append_assoc,
      List.singleton_append]
  have htext {s s' : String} (h : s.toUTF8.data.toList = s'.toUTF8.data.toList) : s = s' :=
    String.toByteArray_inj.mp (ByteArray.ext (Array.toList_inj.mp h))
  constructor
  · intro h
    have hbytes := congrArg (·.data.toList) h
    simp only [hlist] at hbytes
    obtain ⟨hsource, hidentity⟩ := eq_of_append_separator (fun hmem => hu (Array.mem_toList_iff.mp hmem))
      (fun hmem => hu' (Array.mem_toList_iff.mp hmem)) hbytes
    exact ⟨htext hsource, htext hidentity⟩
  · intro h
    rw [keyBytes, keyBytes, h.1, h.2]

/-- Unless the digest collides, a key tells the source and the identity. -/
theorem key_eq_iff {u u' : CUnit} {t t' : Toolchain} (hu : 0 ∉ u.source.toUTF8.data) (hu' : 0 ∉ u'.source.toUTF8.data) :
    key u t = key u' t' ↔
      u.source = u'.source ∧ t.identity = t'.identity ∨ Blake3.Collision (keyBytes u t) (keyBytes u' t') := by
  rw [← keyBytes_eq_iff hu hu']
  constructor
  · intro h
    by_cases hbytes : keyBytes u t = keyBytes u' t'
    · exact .inl hbytes
    · exact .inr ⟨hbytes, h⟩
  · intro h
    rcases h with hbytes | hcollision
    · exact congrArg Blake3.hex hbytes
    · exact hcollision.2

end Store

namespace CompilerCall

theorem flags_ofConfig_ne_nil (config : ToolchainConfig) (env : Environment) : (ofConfig config env).flags ≠ [] :=
  List.cons_ne_nil _ _

/-- What identities and keys tell of compiler calls. The identity tells the words of the call and no more; it tells the call
itself where no word holds a blank. Unless the digest collides, two requests for sources without zero bytes share a key
exactly if they have the same source and the same words. -/
theorem keys_tell_words (config config' : ToolchainConfig) (env env' : Environment) (c c' : CompilerCall)
    (hc : c = ofConfig config env) (hc' : c' = ofConfig config' env') :
    (c.identity = c'.identity ↔ c.words = c'.words) ∧
      (c.Unbroken → c'.Unbroken → (c.identity = c'.identity ↔ c = c')) ∧
      ∀ (programs programs' : Programs) (u u' : CUnit), 0 ∉ u.source.toUTF8.data → 0 ∉ u'.source.toUTF8.data →
        (Store.key u (.ofCall programs c) = Store.key u' (.ofCall programs' c') ↔
          u.source = u'.source ∧ c.words = c'.words ∨
            Blake3.Collision (Store.keyBytes u (.ofCall programs c)) (Store.keyBytes u' (.ofCall programs' c'))) := by
  have hflags : c.flags ≠ [] := hc ▸ flags_ofConfig_ne_nil config env
  have hflags' : c'.flags ≠ [] := hc' ▸ flags_ofConfig_ne_nil config' env'
  have hwords := identity_eq_iff hflags hflags'
  refine ⟨hwords, fun hwhole hwhole' => ⟨fun hsame => ?_, congrArg identity⟩, fun programs programs' u u' hu hu' => ?_⟩
  · exact hwhole.eq_of_words hwhole' hflags hflags' (hwords.mp hsame)
  · rw [← hwords]
    exact Store.key_eq_iff hu hu'

/-- The call of the default compiler with some flags more. -/
def extended (flags : List String) : CompilerCall := ofConfig ⟨some "cc", 2, flags⟩ fun _ => none

/-- Two flags and one flag with a blank are not told apart, an empty flag and none are. -/
theorem keys_tell_words_torn :
    extended ["-DX -DY"] ≠ extended ["-DX", "-DY"] ∧
      Store.key ⟨"int x;", [], []⟩ (.ofCall .plain (extended ["-DX -DY"])) =
        Store.key ⟨"int x;", [], []⟩ (.ofCall .plain (extended ["-DX", "-DY"])) ∧
      (extended ["-DX", ""]).identity ≠ (extended ["-DX"]).identity := by
  have hzero : 0 ∉ "int x;".toUTF8.data := by decide +kernel
  obtain ⟨_, _, hkeys⟩ := keys_tell_words ⟨some "cc", 2, ["-DX -DY"]⟩ ⟨some "cc", 2, ["-DX", "-DY"]⟩ (fun _ => none)
    (fun _ => none) _ _ rfl rfl
  obtain ⟨_, hwhole, _⟩ := keys_tell_words ⟨some "cc", 2, ["-DX", ""]⟩ ⟨some "cc", 2, ["-DX"]⟩ (fun _ => none)
    (fun _ => none) _ _ rfl rfl
  refine ⟨by decide, (hkeys .plain .plain _ _ hzero hzero).mpr (.inl ⟨rfl, by decide +kernel⟩), fun hsame => ?_⟩
  exact absurd ((hwhole (by decide +kernel) (by decide +kernel)).mp hsame) (by decide)

end CompilerCall

end VisionGraph
