import VisionGraph.Proofs.ReservedWords
import VisionGraph.Proofs.Template

/-! Reserved words in the templates of the standard kernels. The block of a kernel names no helper but those it asks for,
the helpers it asks for come after the ones they call themselves, and the statements of pixel-wise kernels name none. -/
namespace VisionGraph

/-- Every result of a computation has a property. -/
def Ensures {ε α : Type} (x : Except ε α) (good : α → Prop) : Prop := ∀ a, x = .ok a → good a

namespace Ensures

variable {ε α β : Type} {good : β → Prop} {f : α → Except ε β}

theorem ok {b : β} (h : good b) : Ensures (.ok b : Except ε β) good := by
  rintro _ ⟨⟩
  exact h

theorem error (e : ε) : Ensures (.error e) good := by
  rintro _ ⟨⟩

theorem error_bind (e : ε) : Ensures (.error e >>= f) good := error e

theorem bind {x : Except ε α} (h : ∀ a, x = .ok a → Ensures (f a) good) : Ensures (x >>= f) good := by
  intro b hb
  obtain ⟨a, ha, hb⟩ := bind_eq_ok.mp hb
  exact h a ha b hb

theorem mapM {l : List α} (h : ∀ a ∈ l, Ensures (f a) good) :
    Ensures (l.mapM f) fun results => ∀ b ∈ results, good b := by
  intro results hresults b hb
  obtain ⟨a, ha, hab⟩ := exists_of_mem_mapM hresults hb
  exact h a ha b hab

end Ensures

/-- Every helper of a list comes after the ones it calls, some of which are known before. -/
def Helper.Grounded (known : List Helper) : List Helper → Prop
  | [] => True
  | h :: rest => h.calls ⊆ known ∧ Grounded (h :: known) rest

/-- A fragment asks for its helpers in order, and its code names no others. -/
def Fragment.Declared (f : Fragment) : Prop := Helper.Grounded [] f.helpers ∧ Spells (f.helpers.map .name) f.body

/-! ### Operands -/

section Operands

variable {allowed : List Reserved} {site : Site} {lanes : Lanes} {slot : Nat} {e : String} {β : Type}
  {f : String → Emit β} {good : β → Prop}

/-- No operand is named by a reserved word. -/
def Site.Plain (site : Site) : Prop := ∀ slot x, site.operand slot = .ok x → ∀ allowed, Spells allowed x.expr

/-- No sample is named by a reserved word. -/
def Lanes.Plain (lanes : Lanes) : Prop := ∀ slot e, laneText lanes slot = .ok e → Spells [] e

theorem Site.Plain.bind (h : site.Plain) (hf : ∀ e, (∀ {allowed}, Spells allowed e) → Ensures (f e) good) :
    Ensures (site.expr slot >>= f) good := by
  refine .bind fun e he => hf e fun {allowed} => ?_
  obtain ⟨x, hx, he⟩ := bind_eq_ok.mp he
  cases he
  exact h slot x hx allowed

theorem Lanes.Plain.bind (h : Lanes.Plain lanes) (hf : ∀ e, Spells [] e → Ensures (f e) good) :
    Ensures (laneText lanes slot >>= f) good :=
  .bind fun e he => hf e (h slot e he)

theorem spells_borderArgs (site : Site) : Spells allowed site.borderArgs := by
  unfold Site.borderArgs
  split
  · exact .literal (c := rfl)
  · exact .behind (.nat _) (c := rfl)

theorem spells_cType (f : Format) : Spells allowed f.cType := by
  cases f <;> exact .literal (c := rfl)

theorem spells_convertExpr (f : Format) (he : Spells allowed e) (saturate : Bool) :
    Spells allowed (convertExpr f e saturate) := by
  unfold convertExpr
  split
  · -- the pieces of a template are checked one by one, as they stand
    refine' he.between <;> rfl
  · split
    · refine' ((spells_cType f).behind.joined he).before <;> rfl
    · refine' .before (.joined ?_ he)
      any_goals rfl
      split <;> refine' .literal <;> rfl

end Operands

namespace Kernel

variable {allowed : List Reserved} {name : String} {number : UInt32} {params : List Param} {rule : Rule}

/-- The code of a kernel holds no reserved words but the names of the helpers that its block asks for. -/
structure Discreet (k : Kernel) : Prop where
  guard : ∀ site lanes, Lanes.Plain lanes → Ensures (k.guard site lanes) fun guard => ∀ line ∈ guard, Spells [] line
  statement : ∀ site lanes, Lanes.Plain lanes → Ensures (k.statement site lanes) (Spells [])
  block : ∀ site, site.Plain → Ensures (k.block site) Fragment.Declared

/-! ### Pixel-wise kernels -/

theorem discreet_ofPixel {statement : Site → Lanes → Emit String} {target : Nat} {value : LaneTypes → (Nat → Int) → Int}
    (h : ∀ site lanes, Lanes.Plain lanes → Ensures (statement site lanes) (Spells [])) :
    (ofPixel name number params rule statement target value).Discreet where
  guard _ _ _ := .ok fun line hline => absurd hline (Option.not_mem_none line)
  statement := h
  block _ _ := .error _

theorem discreet_additive {sign : String} {combine : Int → Int → Int} (hsign : Spells [] sign) :
    (additive name number sign combine).Discreet := by
  refine discreet_ofPixel fun site lanes h => .bind fun _ _ => .bind fun out _ => h.bind fun a ha =>
    h.bind fun b hb => h.bind fun target ht => .ok ?_
  have hsum : Spells [] s!"(int32_t){a} {sign} (int32_t){b}" := by
    refine' (ha.behind.joined hsign).joined hb <;> rfl
  refine' (ht.joined (spells_convertExpr _ hsum _)).before <;> rfl

theorem discreet_multiply : multiply.Discreet := by
  refine discreet_ofPixel fun site lanes h => .bind fun _ _ => .bind fun out _ => h.bind fun a ha =>
    h.bind fun b hb => h.bind fun scale hscale => h.bind fun target ht => .ok ?_
  refine' (ht.joined (spells_convertExpr _ ?_ _)).before
  any_goals rfl
  refine' (ha.behind.joined hb).before.append hscale.between <;> rfl

theorem discreet_absdiff : absdiff.Discreet := by
  refine discreet_ofPixel fun site lanes h => .bind fun out _ => h.bind fun a ha => h.bind fun b hb =>
    h.bind fun target ht => .ok ?_
  refine' (ht.joined (spells_convertExpr _ ?_ _)).before
  any_goals rfl
  refine' ((((ha.behind.joined hb).joined ha).joined hb).joined hb).joined ha <;> rfl

theorem discreet_multiplyScalar : multiplyScalar.Discreet := by
  refine discreet_ofPixel fun site lanes h => .bind fun out _ => h.bind fun a ha => h.bind fun factor hfactor =>
    h.bind fun target ht => .ok ?_
  have hproduct : Spells [] s!"(double){a} * (double){factor}" := by refine' ha.behind.joined hfactor <;> rfl
  refine' (ht.joined ?_).before
  any_goals rfl
  split
  · refine' hproduct.between <;> rfl
  · refine' spells_convertExpr _ hproduct.between _ <;> rfl

theorem discreet_clamp : Kernel.clamp.Discreet := by
  refine discreet_ofPixel fun site lanes h => .bind fun out _ => h.bind fun a ha => h.bind fun low hlow =>
    h.bind fun high hhigh => h.bind fun target ht => .ok ?_
  refine' (ht.joined ?_).before
  any_goals rfl
  split
  · refine' ((ha.behind.joined hlow).joined hhigh).before <;> rfl
  · refine' ((((spells_cType _).behind.joined ha).joined hlow).joined hhigh).before <;> rfl

theorem discreet_bitwise {sign : String} {combine : Nat → Nat → Nat} (hsign : Spells [] sign) :
    (bitwise name number sign combine).Discreet := by
  refine discreet_ofPixel fun _ _ h => h.bind fun _ ht => h.bind fun _ ha => h.bind fun _ hb => .ok ?_
  refine' (((ht.joined ha).joined hsign).joined hb).before <;> rfl

theorem discreet_not : Kernel.not.Discreet := by
  refine discreet_ofPixel fun _ _ h => h.bind fun _ ht => h.bind fun _ ha => .ok ?_
  refine' (ht.joined ha).before <;> rfl

theorem discreet_threshold : threshold.Discreet := by
  refine discreet_ofPixel fun _ _ h => h.bind fun _ ht => h.bind fun _ ha => h.bind fun _ hb => .ok ?_
  refine' ((ht.joined ha).joined hb).before <;> rfl

theorem discreet_magnitude : magnitude.Discreet := by
  refine discreet_ofPixel fun _ _ h => h.bind fun _ hx => h.bind fun _ hy => h.bind fun _ ht => .ok ?_
  refine' ((ht.joined hx).joined hx).before.append (hy.behind.joined hy).before <;> rfl

theorem discreet_phase : phase.Discreet := by
  refine discreet_ofPixel fun _ _ h => h.bind fun _ hx => h.bind fun _ hy => h.bind fun _ ht => .ok ?_
  refine' (hy.behind.joined hx).before.before.append ht.before <;> rfl

theorem discreet_convertDepth : convertDepth.Discreet where
  guard site lanes h := by
    refine .bind fun _ _ => ?_
    split
    · exact .ok fun line hline => absurd hline (Option.not_mem_none line)
    · refine h.bind fun shift hshift => .ok fun line hline => ?_
      cases hline
      refine' (hshift.behind.joined hshift).before <;> rfl
  statement site lanes h := by
    refine .bind fun input _ => .bind fun out _ => .bind fun _ _ => h.bind fun a ha => h.bind fun shift hshift =>
      h.bind fun target ht => .ok ?_
    refine' (ht.joined (spells_convertExpr _ ?_ _)).before
    any_goals rfl
    split
    · refine' (ha.behind.joined hshift).before <;> rfl
    · refine' ha.behind.joined hshift <;> rfl
  block _ _ := .error _

/-! ### Kernels over whole objects -/

theorem discreet_ofBlock {block : Site → Emit Fragment} {effect : Effect}
    (h : ∀ site, site.Plain → Ensures (block site) Fragment.Declared) :
    (ofBlock name number params rule block effect).Discreet where
  guard _ _ _ := .ok fun line hline => absurd hline (Option.not_mem_none line)
  statement _ _ _ := .error _
  block := h

theorem discreet_colorConvert : colorConvert.Discreet := by
  refine discreet_ofBlock fun site h => .bind fun input _ => .bind fun out _ => h.bind fun src hsrc =>
    h.bind fun dst hdst => ?_
  dsimp only
  split <;> refine .bind fun stores hstores => .ok ⟨trivial, ?_⟩ <;> cases hstores <;>
  refine' SpellsAll.codeLines (.append (.cons hsrc.between (.single hdst.between))
    (.braced (.between (.nat _)) (.cons (.between (.nat _)) ?_)))
  any_goals rfl
  · exact .single (.literal (c := rfl))
  · refine' .cons .literal (.cons .literal (.cons .literal (.single .literal))) <;> rfl
  · refine' .cons .literal (.cons .literal (.single .literal)) <;> rfl

theorem discreet_channelExtract : channelExtract.Discreet := by
  refine discreet_ofBlock fun site h => .bind fun input _ => .bind fun _ _ => ?_
  dsimp only
  split <;> refine .bind fun index _ => h.bind fun src hsrc => h.bind fun dst hdst => .ok ⟨trivial, ?_⟩ <;>
  refine' SpellsAll.codeLines (.append (.cons hsrc.between (.single hdst.between))
    (.braced (.between (.nat _)) (.single (.before (.joined (.behind (.nat _)) (.nat _)))))) <;> rfl

theorem discreet_channelCombine : channelCombine.Discreet := by
  refine discreet_ofBlock fun site h => .bind fun out _ => .bind fun planes hplanes => h.bind fun dst hdst =>
    .ok ⟨trivial, ?_⟩
  have hlines : SpellsAll [] planes := by
    refine Ensures.mapM (fun slot _ => h.bind fun e he => .ok ?_) planes hplanes
    refine' ((Spells.behind (.nat slot)).joined he).before <;> rfl
  refine' SpellsAll.codeLines (.append (hlines.append (.single hdst.between))
    (.braced (.between (.nat _)) (.map fun c _ => ?_)))
  any_goals rfl
  split
  · refine' .before (.joined (.joined (.behind (.nat _)) (.nat _)) (.nat _)) <;> rfl
  · refine' .before (.joined (.behind (.nat _)) (.nat _)) <;> rfl

theorem spellsAll_raster (input : ImageShape) {body : List String} (h : SpellsAll allowed body) :
    SpellsAll allowed (rasterLines input body) := by
  refine' .braced (.between (.nat _)) (.braced (.between (.nat _)) h) <;> rfl

/-- The samples around a pixel are fetched by a helper. -/
theorem spellsAll_gather (hfetch : .name .fetchU8 ∈ allowed) (input : ImageShape) (site : Site) :
    SpellsAll allowed (Taps.gatherLines input site.borderArgs) := by
  refine .map fun x hx => ?_
  obtain ⟨⟨dx, dy⟩, k⟩ := x
  have hoffset : Spells allowed dx ∧ Spells allowed dy := by
    have hmem := List.fst_mem_of_mem_zipIdx hx
    simp only [List.mem_cons, Prod.mk.injEq, List.not_mem_nil, or_false] at hmem
    rcases hmem with ⟨rfl, rfl⟩ | ⟨rfl, rfl⟩ | ⟨rfl, rfl⟩ | ⟨rfl, rfl⟩ | ⟨rfl, rfl⟩ | ⟨rfl, rfl⟩ | ⟨rfl, rfl⟩ |
      ⟨rfl, rfl⟩ | ⟨rfl, rfl⟩ <;> exact ⟨.literal (c := rfl), .literal (c := rfl)⟩
  have hcall : Spells allowed "] = vxf_fetch_u8(src, " := .call hfetch (c := rfl)
  refine' .before (.joined (.joined (.joined (.joined (.append (.append (.behind (.nat k)) hcall) (.nat _)) (.nat _))
    hoffset.1) hoffset.2) (spells_borderArgs site)) <;> rfl

theorem discreet_filter {reduction : String} {helpers : List Helper} {reduce : Taps → Int}
    (hreduction : Spells (helpers.map .name) reduction) (hhelpers : Helper.Grounded [.fetchU8] helpers) :
    (filter name number reduction helpers reduce).Discreet := by
  refine discreet_ofBlock fun site h => .bind fun input _ => h.bind fun src hsrc => h.bind fun dst hdst =>
    .ok ⟨⟨List.nil_subset _, hhelpers⟩, ?_⟩
  have hreduced : Spells ((Helper.fetchU8 :: helpers).map .name) reduction := hreduction.mono (List.subset_cons_self _ _)
  refine' SpellsAll.codeLines (.append (.cons hsrc.between (.single hdst.between)) (spellsAll_raster _ ?_))
  any_goals rfl
  refine' .append (.cons .literal (spellsAll_gather List.mem_cons_self _ site))
    (.single (.before (.joined (.behind (.nat _)) hreduced))) <;> rfl

theorem discreet_sobel3x3 : sobel3x3.Discreet := by
  refine discreet_ofBlock fun site h => .bind fun input _ => h.bind fun src hsrc => .bind fun targets htargets =>
    .ok ⟨⟨List.nil_subset _, trivial⟩, ?_⟩
  have hnames : ∀ x ∈ [(1, "dst_x"), (2, "dst_y")], Spells [.name .fetchU8] x.2 :=
    List.forall_mem_cons.mpr ⟨.literal (c := rfl), List.forall_mem_singleton.mpr (.literal (c := rfl))⟩
  have hlines : SpellsAll [.name .fetchU8] targets := by
    refine Ensures.mapM (fun x hx => h.bind fun e he => .ok ?_) targets htargets
    refine' .before (.joined (.behind (hnames x (List.mem_of_mem_filter hx))) he) <;> rfl
  refine' SpellsAll.codeLines (.append (.cons hsrc.between hlines) (spellsAll_raster _ ?_))
  any_goals rfl
  refine' .append (.append (.cons .literal (spellsAll_gather List.mem_cons_self _ site)) (.single (.between (.nat _))))
    (.map fun x hx => ?_)
  any_goals rfl
  have hname := hnames x (List.mem_of_mem_filter hx)
  dsimp only
  split <;> refine' hname.before <;> rfl

theorem discreet_tableLookup : tableLookup.Discreet := by
  refine discreet_ofBlock fun site h => .bind fun input _ => h.bind fun src hsrc => h.bind fun table htable =>
    h.bind fun dst hdst => .ok ⟨trivial, ?_⟩
  refine' SpellsAll.codeLines (.append (.cons hsrc.between (.cons htable.between (.cons .literal (.single hdst.between))))
    (.braced (.between (.nat _)) (.cons .literal (.single .literal)))) <;> rfl

theorem discreet_histogram : histogram.Discreet := by
  refine' discreet_ofBlock fun site h => .bind fun input _ => h.bind fun src hsrc => h.bind fun bins hbins =>
    .ok ⟨trivial, SpellsAll.codeLines (.append (.append (.append ?_ ?_) ?_) (.single (.between (.nat _))))⟩
  any_goals (intros; rfl)
  · refine' .cons hsrc.between (.cons hbins.between (.single .literal)) <;> rfl
  · refine' .braced (.between (.nat _)) (.single .literal) <;> rfl
  · refine' .braced (.between (.nat _)) (.single .literal) <;> rfl

theorem discreet_accumulate : accumulate.Discreet := by
  refine discreet_ofBlock fun site h => .bind fun input _ => h.bind fun src hsrc => h.bind fun dst hdst =>
    .ok ⟨trivial, ?_⟩
  refine' SpellsAll.codeLines (.append (.cons hsrc.between (.single hdst.between))
    (.braced (.between (.nat _)) (.single .literal))) <;> rfl

theorem spellsAll_extremeLines (bound : Bool) {extreme : String} (h : Spells allowed extreme) :
    SpellsAll allowed (extremeLines bound extreme) := by
  have harray : Spells allowed (extreme ++ "_loc") := h.before (c := rfl)
  refine' .braced h.between (.append ?_ (.single h.before))
  any_goals rfl
  split
  · refine' .braced (harray.behind.joined harray).before (.cons (harray.behind.joined harray).before
      (.cons .literal (.cons .literal (.single harray.before)))) <;> rfl
  · exact .nil

theorem discreet_minMaxLoc : minMaxLoc.Discreet := by
  refine discreet_ofBlock fun site h => .bind fun input _ => ?_
  extract_lets type places raster emit
  have htype : Spells [] type := spells_cType input.format
  have hnames : ∀ {i j : Nat}, ∀ x ∈ [(i, "lo"), (j, "hi")], Spells [] x.2 :=
    List.forall_mem_cons.mpr ⟨.literal (c := rfl), List.forall_mem_singleton.mpr (.literal (c := rfl))⟩
  split
  · exact .error_bind _
  · refine h.bind fun src hsrc => h.bind fun lo hlo => h.bind fun hi hhi => ?_
    extract_lets extremes
    have hextremes : SpellsAll [] extremes := by
      refine' .append (.append (.cons (htype.behind.joined hsrc).before (.cons htype.before (.single htype.before)))
        (.braced (.between (.nat _)) (.cons .literal (.single .literal)))) (.cons hlo.before (.single hhi.before)) <;> rfl
    split
    · exact .ok ⟨trivial, hextremes.codeLines⟩
    · -- the places and their numbers, for those of the extremes that ask for them
      refine .bind fun headers hheaders => .bind fun counts hcounts => .ok ⟨trivial, ?_⟩
      have hheaders : ∀ lines ∈ headers, SpellsAll [] lines := by
        refine Ensures.mapM (fun x hx => h.bind fun e he => .ok ?_) headers hheaders
        have hname := hnames x (List.mem_of_mem_filter hx)
        refine' .cons (hname.behind.joined he).before (.single hname.before) <;> rfl
      have hcounts : SpellsAll [] counts := by
        refine Ensures.mapM (fun x hx => h.bind fun e he => .ok ?_) counts hcounts
        refine' (he.joined (hnames x (List.mem_of_mem_filter hx))).before <;> rfl
      have hraster : SpellsAll [] raster := by
        refine' spellsAll_raster input (.append (.append (.single (.before (.joined htype.behind (.nat _))))
          (spellsAll_extremeLines _ .literal)) (spellsAll_extremeLines _ .literal)) <;> rfl
      clear_value extremes raster
      refine' SpellsAll.codeLines (.append (.append (.append (hextremes.append (.cons .literal (.single .literal)))
        (.flatten hheaders)) hraster) hcounts) <;> rfl

theorem spellsAll_level {info : PyramidMeta} {border : String} (hborder : Spells [.name .fetchU8, .name .binomial5] border)
    (level : Nat) : Ensures (levelLines info border level) (SpellsAll [.name .fetchU8, .name .binomial5]) := by
  have hcall : Spells [.name .fetchU8, .name .binomial5] "const int32_t acc = vxf_binomial5(src, " :=
    .call (List.mem_cons_of_mem _ List.mem_cons_self) (c := rfl)
  unfold levelLines
  dsimp only
  split
  · refine .bind fun above _ => ?_
    split
    · refine' .bind fun dims _ => .ok (.append (.append (.single .literal) (.indent (.append (.cons (.between (.nat _))
        (.single (.between (.nat _)))) (spellsAll_raster _ (.cons ?_ (.single (.between (.nat _)))))))) (.single .literal))
      any_goals (intros; rfl)
      refine' .before (.joined (.joined (.append hcall (.nat _)) (.nat _)) hborder) <;> rfl
    · exact .error_bind _
  · exact .error_bind _

theorem discreet_gaussianPyramid : gaussianPyramid.Discreet := by
  refine discreet_ofBlock fun site h => .bind fun input _ => .bind fun target _ => ?_
  dsimp only
  split
  · refine .bind fun levels _ => h.bind fun table htable => h.bind fun src hsrc => .bind fun smoothed hsmoothed =>
      .ok ⟨⟨List.nil_subset _, List.Subset.refl _, trivial⟩, ?_⟩
    have hlevels : ∀ lines ∈ smoothed, SpellsAll [.name .fetchU8, .name .binomial5] lines :=
      Ensures.mapM (fun level _ => spellsAll_level (spells_borderArgs site) level) smoothed hsmoothed
    refine' SpellsAll.codeLines (.append (.cons htable.between (.single (hsrc.behind.joined (.nat _)).before))
      (.flatten hlevels)) <;> rfl
  · exact .error_bind _

end Kernel

open Kernel in
/-- All standard kernels keep to the helpers they ask for. -/
theorem Registry.discreet_of_mem_standard {k : Kernel} (hk : k ∈ Registry.standard.kernels) : k.Discreet := by
  simp only [Registry.standard, List.mem_cons, List.not_mem_nil, or_false] at hk
  repeat' rcases hk with rfl | hk
  exacts [discreet_colorConvert, discreet_channelExtract, discreet_channelCombine, discreet_additive (.literal (c := rfl)),
    discreet_additive (.literal (c := rfl)), discreet_multiply, discreet_absdiff, discreet_bitwise (.literal (c := rfl)),
    discreet_bitwise (.literal (c := rfl)), discreet_bitwise (.literal (c := rfl)), discreet_not, discreet_threshold,
    discreet_magnitude, discreet_phase, discreet_convertDepth, discreet_multiplyScalar, discreet_clamp,
    discreet_filter (.literal (c := rfl)) trivial, discreet_filter (.literal (c := rfl)) trivial,
    discreet_filter (.call List.mem_cons_self (c := rfl)) ⟨List.nil_subset _, trivial⟩,
    discreet_filter (.call List.mem_cons_self (c := rfl)) ⟨List.nil_subset _, trivial⟩,
    discreet_filter (.call List.mem_cons_self (c := rfl)) ⟨List.nil_subset _, trivial⟩,
    discreet_sobel3x3, discreet_tableLookup, discreet_histogram, discreet_minMaxLoc, discreet_accumulate,
    discreet_gaussianPyramid]

end VisionGraph
