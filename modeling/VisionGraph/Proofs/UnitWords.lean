import VisionGraph.Proofs.Generation
import VisionGraph.Proofs.TemplateWords

/-! Reserved words in the text of a unit. What stands before the helpers names none of them, and what stands behind them
names only those that a stage asked for. -/
namespace VisionGraph

variable {allowed : List Reserved}

/-! ### Values -/

namespace Decimal

theorem spells_positional (d : Decimal) : Spells allowed d.positional := by
  have hzeros : ∀ n, ∀ c ∈ List.replicate n '0', c.isDigit = true := fun _ _ => isDigit_of_mem_zeros
  have hdigits := (whole_digits d).digit
  unfold positional
  dsimp only
  split
  · exact .before (.digits (List.forall_mem_append.mpr ⟨hdigits, hzeros _⟩)) (c := rfl)
  · have hpadded := fun n => List.forall_mem_append.mpr ⟨hzeros n, hdigits⟩
    exact .joined (.digits fun c hc => hpadded _ c (List.mem_of_mem_take hc))
      (.digits fun c hc => hpadded _ c (List.mem_of_mem_drop hc)) (c := rfl)

theorem spells_scientific (plus : Bool) (d : Decimal) : Spells allowed (d.scientific plus) := by
  have hdigits := (whole_digits d).digit
  refine' .append (.append (.before (.append (.digits fun c hc => hdigits c (List.mem_of_mem_take hc)) ?_)) ?_) (.int _)
  any_goals rfl
  · split
    · exact .literal (c := rfl)
    · exact .behind (.digits fun c hc => hdigits c (List.mem_of_mem_drop hc)) (c := rfl)
  · split <;> exact .literal (c := rfl)

theorem spells_render (bits : Nat) : Spells allowed (sourceStyle.render .single bits) := by
  have hsign (negative : Bool) : Spells allowed (if negative then "-" else "") := by split <;> exact .literal (c := rfl)
  unfold Style.render
  split
  · exact .literal (c := rfl)
  · exact (hsign _).before (c := rfl)
  · refine .append (hsign _) ?_
    split
    · exact spells_positional _
    · exact spells_scientific _ _

end Decimal

theorem Scalar.spells_cLiteral (v : Scalar) : Spells allowed v.cLiteral := by
  cases v with
  | f32 v =>
    rw [cLiteral]
    split
    · exact .literal (c := rfl)
    · split
      · split <;> exact .literal (c := rfl)
      · refine' .between (Decimal.spells_render _) <;> rfl
  | bool v =>
    rw [cLiteral]
    split <;> exact .literal (c := rfl)
  | s16 v | s32 v => exact .between (.int _) (c := rfl) (d := rfl)
  | u32 v | enum v => exact .before (.nat _) (c := rfl)
  | u8 v | u16 v => exact .between (.nat _) (c := rfl) (d := rfl)

theorem ScalarType.spells_cType (t : ScalarType) : Spells allowed t.cType := by
  cases t <;> exact .literal (c := rfl)

/-! ### Stages -/

namespace Plan

variable {p : Plan} {s : Storage} {stage : Stage} {border : Border} {operands : List (Option Operand)}

theorem spells_objectExpr (o : ObjectId) (info : Meta) (placement : Placement) :
    Ensures (objectExpr o info placement) (Spells allowed) := by
  unfold objectExpr
  extract_lets k typed
  have htyped : ∀ {format text}, (∀ c, Spells allowed c → Spells allowed (text c)) →
      Ensures (typed format text) (Spells allowed) := by
    intro format text h
    cases format with
    | none => exact .error _
    | some f => exact .ok (h _ (spells_cType f))
  clear_value typed
  split
  · exact .ok (Scalar.spells_cLiteral _)
  · exact .ok (.behind (.nat _) (c := rfl))
  · refine htyped fun c hc => ?_
    refine' .before (.joined (.behind hc) (.nat _)) <;> rfl
  · refine htyped fun c hc => ?_
    refine' .before (.joined (.joined (.behind hc) (.nat _)) (.nat _)) <;> rfl
  · exact .ok (.label _ (c := rfl))
  · split
    · refine' .ok (.before (.joined (.behind (ScalarType.spells_cType _)) (.nat _))) <;> rfl
    · exact .error _
  · exact .ok (.behind (.nat _) (c := rfl))
  · refine' .ok (.between (.nat _)) <;> rfl
  · refine' .ok (.between (.nat _)) <;> rfl
  · refine' .ok (.between (.nat _)) <;> rfl
  · exact .ok (.behind (.nat _) (c := rfl))
  · exact .error _

theorem plain_site {params : List (Option ObjectId)} (h : p.operands s params = .ok operands) :
    Site.Plain ⟨border, operands⟩ := by
  intro slot x hx allowed
  obtain ⟨o, _, ho⟩ := (operand_of_operands h).mp hx
  obtain ⟨r, placement, e, _, _, he, rfl⟩ := operand_eq_ok.mp ho
  exact spells_objectExpr o r.info placement e he

theorem plain_lanes (h : Site.Plain ⟨border, operands⟩) : Lanes.Plain (operands.map fun x => x.bind (laneOf s)) := by
  intro slot e he
  have hlane : ∃ x, operands[slot]? = some (some x) ∧ laneOf s x = some e := by
    unfold laneText at he
    rw [List.getElem?_map] at he
    split at he <;> cases he
    rename_i hlane
    cases hx : operands[slot]? with
    | none => simp [hx] at hlane
    | some y => cases y <;> simp_all
  obtain ⟨x, hx, hlane⟩ := hlane
  have hexpr := h slot x (Site.operand_eq_ok.mpr hx) []
  unfold laneOf at hlane
  split at hlane
  · cases hlane
  · split at hlane <;> cases hlane
    · exact hexpr
    · exact hexpr.before (c := rfl)
    · exact hexpr

theorem ensures_inTemplate {α : Type} {node : NodeId} {x : Emit α} {good : α → Prop} (h : Ensures x good) :
    Ensures (inTemplate node x) good := by
  cases x with
  | ok a => exact .ok (h a rfl)
  | error e => exact .error _

theorem discreet_kernelOf (step : Step) : Ensures (kernelOf .standard step) Kernel.Discreet := by
  unfold kernelOf
  split
  · rename_i hk
    exact .ok (Registry.discreet_of_mem_standard (List.mem_of_find?_eq_some hk))
  · exact .error _

theorem declared_kernelBlock : Ensures (kernelBlock .standard p s stage) Fragment.Declared := by
  unfold kernelBlock
  split
  · exact .error _
  · exact .bind fun k hk => .bind fun _ hops => ensures_inTemplate ((discreet_kernelOf _ k hk).block _ (plain_site hops))

theorem spells_stepCode (step : Step) : Ensures (stepCode .standard p s step) fun code =>
    (∀ guard ∈ code.1, Spells [] guard) ∧ Spells [] code.2 := by
  refine .bind fun k hk => .bind fun operands hops => .bind fun guard hguard => .bind fun statement hstatement => .ok ?_
  have hlanes := plain_lanes (s := s) (plain_site hops : Site.Plain ⟨step.border, operands⟩)
  have hkernel := discreet_kernelOf step k hk
  exact ⟨ensures_inTemplate (hkernel.guard _ _ hlanes) guard hguard,
    ensures_inTemplate (hkernel.statement _ _ hlanes) statement hstatement⟩

theorem spells_internalLine (o : ObjectId) : Ensures (p.internalLine stage o) (Spells []) := by
  unfold internalLine
  split
  · refine' .ok (.before (.joined (spells_cType _) (.nat _))) <;> rfl
  · exact .error _

theorem declared_pixelBlock : Ensures (pixelBlock .standard p s stage) Fragment.Declared := by
  unfold pixelBlock
  split
  · exact .error _
  · refine .bind fun locals hlocals => .bind fun code hcode => .ok ⟨trivial, ?_⟩
    have hlines : SpellsAll [] locals := Ensures.mapM (fun o _ => spells_internalLine o) locals hlocals
    have hsteps := Ensures.mapM (fun step _ => spells_stepCode step) code hcode
    refine' SpellsAll.codeLines (.append ?_ (.braced (.between (.nat _))
      (hlines.append (.map fun x hx => (hsteps x hx).2))))
    any_goals rfl
    intro guard hguard
    obtain ⟨x, hx, hguard⟩ := List.mem_filterMap.mp hguard
    exact (hsteps x hx).1 guard hguard

theorem declared_fragment : Ensures (p.fragment .standard s stage) Fragment.Declared := by
  unfold fragment
  split
  · exact declared_pixelBlock
  · exact declared_kernelBlock

end Plan

/-! ### The unit -/

/-- A part that is not the last one is followed by a mark. -/
theorem exists_of_mem_dropLast {c : Char} {l : List Char} {parts : List (List Char)} (h : l ∈ parts.dropLast) :
    ∃ a r, [c].intercalate parts = a ++ l ++ c :: r := by
  induction parts with
  | nil => exact absurd h List.not_mem_nil
  | cons x rest ih =>
    cases rest with
    | nil => exact absurd h List.not_mem_nil
    | cons y rest =>
      rw [List.intercalate_cons_cons, List.append_assoc, List.singleton_append]
      rcases List.mem_cons.mp h with rfl | h
      · exact ⟨[], _, rfl⟩
      · obtain ⟨a, r, hparts⟩ := ih h
        exact ⟨x ++ c :: a, r, by rw [hparts]; simp only [List.append_assoc, List.cons_append]⟩

/-- The lines of a text, with their ends, hold no other reserved words than the text. -/
theorem Spells.line {body l : String} (h : Spells allowed body) (hl : l ∈ (body.splitToList (· == '\n')).dropLast) :
    Spells allowed (l ++ "\n") := by
  rw [String.splitToList_of_valid, ← List.map_dropLast] at hl
  obtain ⟨cs, hcs, rfl⟩ := List.mem_map.mp hl
  obtain ⟨a, r, hbody⟩ := exists_of_mem_dropLast (c := '\n') hcs
  rw [show List.splitOnP (· == '\n') body.toList = body.toList.splitOn '\n' from rfl, List.intercalate_splitOn] at hbody
  intro w hw
  rw [String.toList_append, String.toList_ofList]
  exact (hbody ▸ h w hw).line w.newline_not_mem_word

namespace CUnit

theorem spells_stageBlock (position : Nat) {stage : Stage} (hkernels : SpellsAll allowed stage.kernels) {body : String}
    (h : Spells allowed body) : Spells allowed (stageBlock position stage body) := by
  have horigins : SpellsAll allowed (stage.origins.map NodeId.text) := .map fun n _ => .behind (.nat _) (c := rfl)
  unfold stageBlock codeLines
  dsimp only
  rw [List.map_append, List.map_append, List.map_map]
  refine' SpellsAll.join (.append (.append (.ended (.cons ?_ (.cons .literal (.single (.between (.nat _))))))
    (.map fun l hl => ?_)) (.ended (.cons .literal (.single .literal))))
  any_goals rfl
  · refine' .before (.joined (.joined (.behind (.nat _)) (SpellsAll.intercalate .literal hkernels))
      (SpellsAll.intercalate .literal horigins)) <;> rfl
  · dsimp only [Function.comp_apply]
    split
    · refine' .before .literal <;> rfl
    · rw [String.append_assoc]
      exact (h.line hl).behind (c := rfl)

theorem spellsAll_prelude : SpellsAll [] prelude := by
  have hsaturation : ∀ {type short low high}, Spells [] type → Spells [] short → Spells [] low → Spells [] high →
      Spells [] (saturation type short low high) := by
    intro type short low high htype hshort hlow hhigh
    refine' .before (.joined (.joined (.joined (.joined htype.behind hshort) htype) hlow) hhigh) <;> rfl
  unfold prelude
  repeat' first | exact SpellsAll.nil | refine SpellsAll.cons ?_ ?_
  all_goals first | (with_reducible apply hsaturation) | exact .literal (c := rfl)
  all_goals exact .literal (c := rfl)

theorem spells_declareScratch (o : ObjectId) (info : Meta) : Ensures (declareScratch o info) (Spells allowed) := by
  unfold declareScratch
  split
  · split
    · refine' .ok (.before (.labelled (spells_cType _) _)) <;> rfl
    · exact .error _
  · split
    · refine' .ok (.before (.joined (ScalarType.spells_cType _) (.nat _))) <;> rfl
    · exact .error _
  · refine' .ok (.between (.nat _)) <;> rfl
  · split
    · refine' .ok (.before (.joined (.behind (.nat _)) (.nat _))) <;> rfl
    · exact .error _
  · exact .error _

theorem spellsAll_allocateLevel (o : ObjectId) (m : PyramidMeta) (format : Format) (level : Nat) :
    Ensures (allocateLevel o m format level) (SpellsAll allowed) := by
  have htable : Spells allowed s!"p{o.index}[{level}]" := by
    refine' .before (.joined (.behind (.nat _)) (.nat _)) <;> rfl
  unfold allocateLevel
  split
  · refine' .ok (.cons (.before (.joined (.joined htable (.nat _)) (spells_cType _))) (.single htable.between)) <;> rfl
  · exact .error _

theorem spellsAll_allocateScratch (o : ObjectId) (info : Meta) :
    Ensures (allocateScratch o info) (SpellsAll allowed) := by
  unfold allocateScratch
  split
  · split
    · have hlabel : Spells allowed s!"v{o.index}" := .label _ (c := rfl)
      refine' .ok (.cons (.before (.joined (.joined (.joined hlabel (spells_cType _)) (.nat _)) (spells_cType _)))
        (.single hlabel.between)) <;> rfl
    · exact .error _
  · split
    · rename_i t _ _ _
      have htype : Spells allowed t.cType := by cases t <;> exact .literal (c := rfl)
      refine' .ok (.cons (.before (.joined (.joined (.behind (.nat _)) (.nat _)) htype))
        (.cons (.before (.joined (.behind (.nat _)) (.nat _))) (.single (.between (.between (.nat _)))))) <;> rfl
    · exact .error _
  · split
    · intro lines hlines
      obtain ⟨levels, hlevels, rfl⟩ := map_eq_ok.mp hlines
      exact .flatten (Ensures.mapM (fun level _ => spellsAll_allocateLevel o _ _ level) levels hlevels)
    · exact .error _
  · exact .ok .nil
  · exact .ok .nil

theorem spellsAll_freeScratch (o : ObjectId) (info : Meta) : SpellsAll allowed (freeScratch o info) := by
  cases info with
  | image m => refine' .single (.before (.label _)) <;> rfl
  | array m => refine' .single (.between (.nat _)) <;> rfl
  | pyramid m => refine' .braced (.between (.nat _)) (.single (.between (.nat _))) <;> rfl
  | scalar m | delay m => exact .nil

theorem spellsAll_checkTable (p : Plan) (o : ObjectId) (i : Nat) : SpellsAll allowed (checkTable p o i) := by
  unfold checkTable
  extract_lets length
  clear_value length
  split
  · exact .nil
  · refine' .braced (.between (.nat _)) (.braced (.between (.nat _)) (.single .literal)) <;> rfl

/-- Before the helpers of a unit there is a text that names none of them, and behind them one that names no others than
the stages do. -/
theorem exists_of_assemble {p : Plan} {s : Storage} {helpers : List Helper} {blocks : List String}
    (hblocks : SpellsAll allowed blocks) : Ensures (assemble p s helpers blocks) fun source => ∃ opening rest,
      source = opening ++ String.join (helpers.map fun h => h.text ++ "\n\n") ++ rest ∧
      Spells [] opening ∧ Spells allowed rest := by
  refine .bind fun scratch _ => .bind fun declarations hdeclarations => .bind fun allocations hallocations => .ok ?_
  have hdeclared : SpellsAll allowed declarations :=
    Ensures.mapM (fun x _ => spells_declareScratch x.1 x.2) declarations hdeclarations
  have hallocated : SpellsAll allowed allocations.flatten :=
    .flatten (Ensures.mapM (fun x _ => spellsAll_allocateScratch x.1 x.2) allocations hallocations)
  have htables : SpellsAll allowed (s.entries.zipIdx.flatMap fun x => checkTable p x.1 x.2) :=
    .flatMap fun x _ => spellsAll_checkTable p x.1 x.2
  have hfrees : SpellsAll allowed (scratch.flatMap fun x => freeScratch x.1 x.2) :=
    .flatMap fun x _ => spellsAll_freeScratch x.1 x.2
  refine ⟨_, _, String.append_assoc.trans String.append_assoc, ?_, ?_⟩
  · refine' SpellsAll.codeLines (.append (.append (.single .literal) spellsAll_prelude)
      (.cons .literal (.cons (.between (.nat _)) (.cons (.between (.nat _)) (.single .literal))))) <;> rfl
  · refine' .append (SpellsAll.codeLines (.append (.append ?_ (.indent (.append (.append (.append (.single .literal)
      hdeclared) (.append ?_ htables)) hallocated))) (.single .literal))) (.append hblocks.join (SpellsAll.codeLines ?_))
    any_goals rfl
    · refine' .cons .literal (.cons .literal (.cons .literal (.cons .literal (.single .literal)))) <;> rfl
    · refine' .append (.braced .literal (.single .literal))
        (.braced .literal (.braced .literal (.single .literal))) <;> rfl
    · refine' .append (.append (.cons .literal (.single .literal)) (.indent (hfrees.append (.single .literal))))
        (.single .literal) <;> rfl

end CUnit

theorem Registry.spells_name {k : Kernel} (hk : k ∈ Registry.standard.kernels) : Spells allowed k.name := by
  simp only [Registry.standard, List.mem_cons, List.not_mem_nil, or_false] at hk
  repeat' rcases hk with rfl | hk
  all_goals exact .literal (c := rfl)

/-- The text of a unit with the helpers that its stages asked for. -/
theorem Plan.Sound.exists_of_generate {p : Plan} (h : p.Sound) : Ensures (p.generate .standard) fun u =>
    ∃ opening fragments rest, (∀ f ∈ fragments, f.Declared) ∧
      u.source = opening ++ String.join ((CUnit.helpersOf fragments).map fun h => h.text ++ "\n\n") ++ rest ∧
      Spells [] opening ∧ Spells ((CUnit.helpersOf fragments).map .name) rest := by
  refine .bind fun storage _ => .bind fun fragments hfragments => ?_
  extract_lets blocks
  have hdeclared : ∀ f ∈ fragments, f.Declared := Ensures.mapM (fun _ _ => declared_fragment) fragments hfragments
  have hblocks : SpellsAll ((CUnit.helpersOf fragments).map .name) blocks := by
    refine .map fun x hx => ?_
    obtain ⟨⟨stage, f⟩, i⟩ := x
    have hmem := List.of_mem_zip (List.fst_mem_of_mem_zipIdx hx)
    -- a stage is headed by the names of its kernels, and its fragment names the helpers that it asked for
    refine CUnit.spells_stageBlock i (.map fun step hstep => ?_) ((hdeclared f hmem.2).2.mono (List.map_subset _ ?_))
    · obtain ⟨k, hk, _⟩ := (h.stages stage hmem.1).steps step hstep
      have hname : k.name = step.kernel := by simpa using List.find?_some hk.kernel
      exact hname ▸ Registry.spells_name hk.mem_standard
    · exact fun x hx => List.mem_eraseDups.mpr (List.mem_flatMap.mpr ⟨f, hmem.2, hx⟩)
  refine .bind fun source hsource => .ok ?_
  obtain ⟨opening, rest, hparts⟩ := CUnit.exists_of_assemble hblocks source hsource
  exact ⟨opening, fragments, rest, hdeclared, hparts⟩

end VisionGraph
