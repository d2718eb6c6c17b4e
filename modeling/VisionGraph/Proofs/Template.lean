import VisionGraph.Proofs.Inference

/-! Templates of the standard kernels. A site whose operands have complete metadata that the rule of the kernel
accepts gets its code; only the extrema of an image without pixels have none. -/
namespace VisionGraph

/-- A computation that gives a result. -/
def Emits {ε α : Type} (x : Except ε α) : Prop := ∃ a, x = .ok a

namespace Emits

variable {ε α β : Type}

theorem ok (a : α) : Emits (.ok a : Except ε α) := ⟨a, rfl⟩

theorem bind {x : Except ε α} {f : α → Except ε β} (hx : Emits x) (hf : ∀ a, x = .ok a → Emits (f a)) :
    Emits (x >>= f) := by
  obtain ⟨a, ha⟩ := hx
  obtain ⟨b, hb⟩ := hf a ha
  exact ⟨b, bind_eq_ok.mpr ⟨a, ha, hb⟩⟩

theorem mapM {f : α → Except ε β} {l : List α} (h : ∀ a ∈ l, Emits (f a)) : Emits (l.mapM f) := exists_mapM_eq_ok h

end Emits

namespace Site

/-- What is known of the operands. -/
def known (site : Site) : Known := site.operands.map fun x => x.map (·.info)

variable {site : Site} {k : Kernel}

theorem operand_eq_ok {slot : Nat} {x : Operand} :
    site.operand slot = .ok x ↔ site.operands[slot]? = some (some x) := by
  unfold operand
  cases h : site.operands[slot]? with
  | none => simp
  | some y => cases y <;> simp

theorem slotMeta_known {slot : Nat} {m : Meta} :
    Rule.slotMeta site.known slot = some m ↔ ∃ x, site.operand slot = .ok x ∧ x.info = m := by
  simp only [operand_eq_ok, Rule.slotMeta, known, List.getElem?_map]
  cases h : site.operands[slot]? with
  | none => simp
  | some y => cases y <;> simp

theorem isBound_iff {slot : Nat} : site.isBound slot = true ↔ ∃ x, site.operand slot = .ok x := by
  simp only [operand_eq_ok, isBound]
  cases h : site.operands[slot]? with
  | none => simp
  | some y => cases y <;> simp

/-- What a template of a kernel can rely on. -/
structure Ready (site : Site) (k : Kernel) : Prop where
  required : ∀ (slot : Nat) (spec : Param), k.signature.params[slot]? = some spec → spec.optional = false →
    ∃ x, site.operand slot = .ok x ∧ x.info.kind = spec.kind
  complete : ∀ (slot : Nat) (x : Operand), site.operand slot = .ok x →
    x.info.isResolved = true ∧ x.constant = x.info.value?
  accepted : Emits (k.rule site.known)

namespace Ready

theorem expr (h : site.Ready k) (slot : Nat) {spec : Param} (hspec : k.signature.params[slot]? = some spec)
    (hreq : spec.optional = false) : Emits (site.expr slot) := by
  obtain ⟨x, hx, _⟩ := h.required slot spec hspec hreq
  exact Emits.bind ⟨x, hx⟩ fun _ _ => .ok _

/-- The shape of an image that has to be bound. -/
theorem shape (h : site.Ready k) (slot : Nat) {spec : Param} (hspec : k.signature.params[slot]? = some spec)
    (hreq : spec.optional = false) (hkind : spec.kind = .image) :
    ∃ s, site.image slot = .ok s ∧ Rule.slotMeta site.known slot = some (.image (Rule.shapeMeta s)) := by
  obtain ⟨x, hx, hxk⟩ := h.required slot spec hspec hreq
  have hres := (h.complete slot x hx).1
  cases hm : x.info with
  | image m =>
    obtain ⟨w, ht, f⟩ := m
    rw [hm] at hres
    cases w <;> cases ht <;> cases f <;> simp [Meta.isResolved, ImageMeta.isResolved] at hres
    rename_i w ht f
    refine ⟨⟨w, ht, f⟩, bind_eq_ok.mpr ⟨x, hx, by rw [hm]; rfl⟩, ?_⟩
    exact slotMeta_known.mpr ⟨x, hx, hm⟩
  | _ => simp [hm, Meta.kind, hkind] at hxk

theorem image (h : site.Ready k) (slot : Nat) {spec : Param} (hspec : k.signature.params[slot]? = some spec)
    (hreq : spec.optional = false) (hkind : spec.kind = .image) : Emits (site.image slot) := by
  obtain ⟨s, hs, _⟩ := h.shape slot hspec hreq hkind
  exact ⟨s, hs⟩

/-- A constant of the graph is the value of its metadata. -/
theorem constantEnum (h : site.Ready k) {slot : Nat} {a : ScalarMeta} {v : UInt32}
    (ha : Rule.slotMeta site.known slot = some (.scalar a)) (hv : a.value = some (.enum v)) :
    site.constantEnum slot = .ok v := by
  obtain ⟨x, hx, hm⟩ := slotMeta_known.mp ha
  refine bind_eq_ok.mpr ⟨x, hx, ?_⟩
  have hconst : x.constant = some (.enum v) := by
    rw [(h.complete slot x hx).2, hm]
    exact hv
  rw [hconst]
  rfl

/-- The policy that the rule accepted. -/
theorem saturates (h : site.Ready k) {slot : Nat} {saturate : Bool}
    (hp : Rule.policy site.known slot = .ok saturate) : Emits (site.saturates slot) := by
  obtain ⟨a, v, ha, hv, hnumber⟩ := Rule.policy_eq_ok.mp hp
  refine Emits.bind ⟨v, h.constantEnum ha hv⟩ fun w hw => ?_
  have hwv : w = v := by simpa [h.constantEnum ha hv] using hw.symm
  rcases hnumber with ⟨rfl, _⟩ | ⟨rfl, _⟩ <;> subst hwv
  · exact ⟨false, by simp⟩
  · exact ⟨true, by simp [wrapPolicy, saturatePolicy]⟩

end Ready

/-- Every image and every scalar has the expression of a sample. -/
def LanesReady (site : Site) (lanes : Lanes) : Prop :=
  ∀ (slot : Nat) (x : Operand), site.operand slot = .ok x → x.info.kind = .image ∨ x.info.kind = .scalar →
    Emits (laneText lanes slot)

/-- The sample of a parameter that has to be bound. -/
theorem LanesReady.lane {lanes : Lanes} (hl : site.LanesReady lanes) (h : site.Ready k) (slot : Nat) {spec : Param}
    (hspec : k.signature.params[slot]? = some spec) (hreq : spec.optional = false)
    (hkind : spec.kind = .image ∨ spec.kind = .scalar) : Emits (laneText lanes slot) := by
  obtain ⟨x, hx, hxk⟩ := h.required slot spec hspec hreq
  exact hl slot x hx (hxk ▸ hkind)

end Site

namespace Kernel

/-! ### Pixel-wise kernels -/

/-- A pixel-wise kernel has a statement and knows its guard on every site that is ready. -/
def WritesStatement (k : Kernel) : Prop :=
  ∀ site lanes, site.Ready k → site.LanesReady lanes → Emits (k.guard site lanes) ∧ Emits (k.statement site lanes)

theorem writes_additive (name : String) (number : UInt32) (sign : String) (combine : Int → Int → Int) :
    (additive name number sign combine).WritesStatement := by
  intro site lanes h hl
  obtain ⟨_, hrule⟩ := h.accepted
  obtain ⟨_, _, hrule⟩ := bind_eq_ok.mp hrule
  obtain ⟨_, hpolicy, _⟩ := bind_eq_ok.mp hrule
  refine ⟨.ok _, (h.saturates hpolicy).bind fun _ _ => (h.image 3 rfl rfl rfl).bind fun _ _ => ?_⟩
  refine (hl.lane h 0 rfl rfl (.inl rfl)).bind fun _ _ => (hl.lane h 1 rfl rfl (.inl rfl)).bind fun _ _ => ?_
  exact (hl.lane h 3 rfl rfl (.inl rfl)).bind fun _ _ => .ok _

theorem writes_multiply : multiply.WritesStatement := by
  intro site lanes h hl
  obtain ⟨_, hrule⟩ := h.accepted
  obtain ⟨_, _, hrule⟩ := bind_eq_ok.mp hrule
  obtain ⟨_, _, hrule⟩ := bind_eq_ok.mp hrule
  obtain ⟨_, hpolicy, _⟩ := bind_eq_ok.mp hrule
  refine ⟨.ok _, (h.saturates hpolicy).bind fun _ _ => (h.image 4 rfl rfl rfl).bind fun _ _ => ?_⟩
  refine (hl.lane h 0 rfl rfl (.inl rfl)).bind fun _ _ => (hl.lane h 1 rfl rfl (.inl rfl)).bind fun _ _ => ?_
  refine (hl.lane h 2 rfl rfl (.inr rfl)).bind fun _ _ => ?_
  exact (hl.lane h 4 rfl rfl (.inl rfl)).bind fun _ _ => .ok _

theorem writes_absdiff : absdiff.WritesStatement := by
  intro site lanes h hl
  refine ⟨.ok _, (h.image 2 rfl rfl rfl).bind fun _ _ => ?_⟩
  refine (hl.lane h 0 rfl rfl (.inl rfl)).bind fun _ _ => (hl.lane h 1 rfl rfl (.inl rfl)).bind fun _ _ => ?_
  exact (hl.lane h 2 rfl rfl (.inl rfl)).bind fun _ _ => .ok _

theorem writes_multiplyScalar : multiplyScalar.WritesStatement := by
  intro site lanes h hl
  refine ⟨.ok _, (h.image 2 rfl rfl rfl).bind fun _ _ => ?_⟩
  refine (hl.lane h 0 rfl rfl (.inl rfl)).bind fun _ _ => (hl.lane h 1 rfl rfl (.inr rfl)).bind fun _ _ => ?_
  exact (hl.lane h 2 rfl rfl (.inl rfl)).bind fun _ _ => .ok _

theorem writes_clamp : Kernel.clamp.WritesStatement := by
  intro site lanes h hl
  refine ⟨.ok _, (h.image 3 rfl rfl rfl).bind fun _ _ => ?_⟩
  refine (hl.lane h 0 rfl rfl (.inl rfl)).bind fun _ _ => (hl.lane h 1 rfl rfl (.inr rfl)).bind fun _ _ => ?_
  refine (hl.lane h 2 rfl rfl (.inr rfl)).bind fun _ _ => ?_
  exact (hl.lane h 3 rfl rfl (.inl rfl)).bind fun _ _ => .ok _

theorem writes_bitwise (name : String) (number : UInt32) (sign : String) (combine : Nat → Nat → Nat) :
    (bitwise name number sign combine).WritesStatement := by
  intro site lanes h hl
  refine ⟨.ok _, (hl.lane h 2 rfl rfl (.inl rfl)).bind fun _ _ => ?_⟩
  refine (hl.lane h 0 rfl rfl (.inl rfl)).bind fun _ _ => ?_
  exact (hl.lane h 1 rfl rfl (.inl rfl)).bind fun _ _ => .ok _

theorem writes_not : Kernel.not.WritesStatement := by
  intro site lanes h hl
  refine ⟨.ok _, (hl.lane h 1 rfl rfl (.inl rfl)).bind fun _ _ => ?_⟩
  exact (hl.lane h 0 rfl rfl (.inl rfl)).bind fun _ _ => .ok _

theorem writes_threshold : threshold.WritesStatement := by
  intro site lanes h hl
  refine ⟨.ok _, (hl.lane h 2 rfl rfl (.inl rfl)).bind fun _ _ => ?_⟩
  refine (hl.lane h 0 rfl rfl (.inl rfl)).bind fun _ _ => ?_
  exact (hl.lane h 1 rfl rfl (.inr rfl)).bind fun _ _ => .ok _

theorem writes_magnitude : magnitude.WritesStatement := by
  intro site lanes h hl
  refine ⟨.ok _, (hl.lane h 0 rfl rfl (.inl rfl)).bind fun _ _ => ?_⟩
  refine (hl.lane h 1 rfl rfl (.inl rfl)).bind fun _ _ => ?_
  exact (hl.lane h 2 rfl rfl (.inl rfl)).bind fun _ _ => .ok _

theorem writes_phase : phase.WritesStatement := by
  intro site lanes h hl
  refine ⟨.ok _, (hl.lane h 0 rfl rfl (.inl rfl)).bind fun _ _ => ?_⟩
  refine (hl.lane h 1 rfl rfl (.inl rfl)).bind fun _ _ => ?_
  exact (hl.lane h 2 rfl rfl (.inl rfl)).bind fun _ _ => .ok _

theorem writes_convertDepth : convertDepth.WritesStatement := by
  intro site lanes h hl
  have hpolicy : ∃ saturate, Rule.policy site.known 2 = .ok saturate := by
    obtain ⟨_, hrule⟩ := h.accepted
    obtain ⟨_, _, hrule⟩ := bind_eq_ok.mp hrule
    dsimp only at hrule
    split at hrule
    · obtain ⟨_, _, hrule⟩ := bind_eq_ok.mp hrule
      obtain ⟨saturate, hpolicy, _⟩ := bind_eq_ok.mp hrule
      exact ⟨saturate, hpolicy⟩
    · cases hrule
  obtain ⟨_, hpolicy⟩ := hpolicy
  obtain ⟨shift, hshift, _⟩ := h.required 3 _ rfl rfl
  have hlane := hl.lane h 3 rfl rfl (.inr rfl)
  refine ⟨Emits.bind ⟨shift, hshift⟩ fun _ _ => ?_, ?_⟩
  · split
    · exact .ok _
    · exact hlane.bind fun _ _ => .ok _
  · refine (h.image 0 rfl rfl rfl).bind fun _ _ => (h.image 1 rfl rfl rfl).bind fun _ _ => ?_
    refine (h.saturates hpolicy).bind fun _ _ => (hl.lane h 0 rfl rfl (.inl rfl)).bind fun _ _ => ?_
    refine hlane.bind fun _ _ => ?_
    exact (hl.lane h 1 rfl rfl (.inl rfl)).bind fun _ _ => .ok _

/-! ### Kernels over whole objects -/

/-- A kernel over whole objects has a block on every site that is ready. -/
def WritesBlock (k : Kernel) : Prop := ∀ site, site.Ready k → Emits (k.block site)

/-- The expressions of parameters that may be unbound are asked for only where they are bound. -/
theorem emits_bound {site : Site} {α β : Type} {l : List α} {slot : α → Nat} {f : α → Emit β}
    (h : ∀ a ∈ l, ∀ x, site.operand (slot a) = .ok x → Emits (f a)) :
    Emits ((l.filter fun a => site.isBound (slot a)).mapM f) := by
  refine Emits.mapM fun a ha => ?_
  obtain ⟨hmem, hbound⟩ := List.mem_filter.mp ha
  obtain ⟨x, hx⟩ := Site.isBound_iff.mp hbound
  exact h a hmem x hx

theorem emits_expr {site : Site} {slot : Nat} {x : Operand} (hx : site.operand slot = .ok x) :
    Emits (site.expr slot) :=
  Emits.bind ⟨x, hx⟩ fun _ _ => .ok _

/-- A declared output has one of the formats that the rule allows. -/
theorem format_mem_allowed {known : Known} {slot : Nat} {s : ImageShape} {out : ImageMeta} {default f : Format}
    {allowed : List Format} (hs : Rule.slotMeta known slot = some (.image (Rule.shapeMeta s)))
    (hout : Rule.image known slot = .ok out) (hf : Rule.chooseFormat slot out.format default allowed = .ok f) :
    s.format ∈ allowed := by
  rw [Rule.image_eq_ok, hs] at hout
  cases hout
  obtain ⟨hmem, hdeclared⟩ := Rule.chooseFormat_eq_ok.mp hf
  have hfs : s.format = f := hdeclared
  exact hfs ▸ hmem

theorem writes_colorConvert : colorConvert.WritesBlock := by
  intro site h
  obtain ⟨input, hinput, _⟩ := h.shape 0 rfl rfl rfl
  obtain ⟨out, hout, hknown⟩ := h.shape 1 rfl rfl rfl
  have hformat : out.format = .u8 ∨ out.format = .rgbx ∨ out.format = .rgb := by
    obtain ⟨_, hrule⟩ := h.accepted
    obtain ⟨_, _, hrule⟩ := bind_eq_ok.mp hrule
    obtain ⟨source, _, hrule⟩ := bind_eq_ok.mp hrule
    obtain ⟨_, himage, hrule⟩ := bind_eq_ok.mp hrule
    obtain ⟨_, hchoose, _⟩ := bind_eq_ok.mp hrule
    have hmem := format_mem_allowed hknown himage hchoose
    split at hmem <;> simp at hmem <;> tauto
  refine Emits.bind ⟨input, hinput⟩ fun _ _ => Emits.bind ⟨out, hout⟩ fun o ho => ?_
  have hoo : o = out := by simpa [hout] using ho.symm
  refine (h.expr 0 rfl rfl).bind fun _ _ => (h.expr 1 rfl rfl).bind fun _ _ => ?_
  subst hoo
  rcases hformat with hf | hf | hf <;> rw [hf] <;> exact .ok _

theorem writes_channelExtract : channelExtract.WritesBlock := by
  intro site h
  have hchannel : ∃ a v, Rule.slotMeta site.known 1 = some (.scalar a) ∧ a.value = some (.enum v) ∧
      ∃ index, channelIndex? v = some index := by
    obtain ⟨_, hrule⟩ := h.accepted
    obtain ⟨_, _, hrule⟩ := bind_eq_ok.mp hrule
    obtain ⟨format, _, hrule⟩ := bind_eq_ok.mp hrule
    obtain ⟨a, ha, hrule⟩ := bind_eq_ok.mp hrule
    dsimp only at hrule
    split at hrule
    · rename_i v hv
      refine ⟨a, v, Rule.scalar_eq_ok.mp ha, hv, ?_⟩
      obtain ⟨_, hv', hrule⟩ := bind_eq_ok.mp hrule
      cases hv'
      cases hindex : channelIndex? v with
      | some index => exact ⟨index, rfl⟩
      | none => simp [hindex, Rule.refuse, Bind.bind, Except.bind] at hrule
    · cases hrule
  obtain ⟨a, v, ha, hv, index, hindex⟩ := hchannel
  have henum := h.constantEnum ha hv
  refine (h.image 0 rfl rfl rfl).bind fun _ _ => Emits.bind ⟨v, henum⟩ fun w hw => ?_
  have hwv : w = v := by simpa [henum] using hw.symm
  subst hwv
  rw [hindex]
  exact (h.expr 0 rfl rfl).bind fun _ _ => (h.expr 2 rfl rfl).bind fun _ _ => .ok _

theorem writes_channelCombine : channelCombine.WritesBlock := by
  intro site h
  refine (h.image 4 rfl rfl rfl).bind fun _ _ => Emits.bind ?_ fun _ _ => ?_
  · exact emits_bound fun _ _ x hx => (emits_expr hx).bind fun _ _ => .ok _
  · exact (h.expr 4 rfl rfl).bind fun _ _ => .ok _

theorem writes_filter (name : String) (number : UInt32) (reduction : String) (helpers : List Helper)
    (reduce : Taps → Int) : (filter name number reduction helpers reduce).WritesBlock := by
  intro site h
  refine (h.image 0 rfl rfl rfl).bind fun _ _ => (h.expr 0 rfl rfl).bind fun _ _ => ?_
  exact (h.expr 1 rfl rfl).bind fun _ _ => .ok _

theorem writes_sobel3x3 : sobel3x3.WritesBlock := by
  intro site h
  refine (h.image 0 rfl rfl rfl).bind fun _ _ => (h.expr 0 rfl rfl).bind fun _ _ => Emits.bind ?_ fun _ _ => .ok _
  exact emits_bound fun _ _ x hx => (emits_expr hx).bind fun _ _ => .ok _

theorem writes_tableLookup : tableLookup.WritesBlock := by
  intro site h
  refine (h.image 0 rfl rfl rfl).bind fun _ _ => (h.expr 0 rfl rfl).bind fun _ _ => ?_
  exact (h.expr 1 rfl rfl).bind fun _ _ => (h.expr 2 rfl rfl).bind fun _ _ => .ok _

theorem writes_histogram : histogram.WritesBlock := by
  intro site h
  refine (h.image 0 rfl rfl rfl).bind fun _ _ => (h.expr 0 rfl rfl).bind fun _ _ => ?_
  exact (h.expr 1 rfl rfl).bind fun _ _ => .ok _

theorem writes_accumulate : accumulate.WritesBlock := by
  intro site h
  refine (h.image 0 rfl rfl rfl).bind fun _ _ => (h.expr 0 rfl rfl).bind fun _ _ => ?_
  exact (h.expr 1 rfl rfl).bind fun _ _ => .ok _

theorem writes_gaussianPyramid : gaussianPyramid.WritesBlock := by
  intro site h
  obtain ⟨x, hx, hkind⟩ := h.required 1 _ rfl rfl
  have hres := (h.complete 1 x hx).1
  cases hm : x.info with
  | pyramid m =>
    obtain ⟨levels, width, height, format⟩ := m
    rw [hm] at hres
    cases levels <;> cases width <;> cases height <;> cases format <;>
      simp [Meta.isResolved, PyramidMeta.isResolved] at hres
    rename_i n w ht f
    have hpyramid : site.pyramid 1 = .ok ⟨some n, some w, some ht, some f⟩ :=
      bind_eq_ok.mpr ⟨x, hx, by rw [hm]; rfl⟩
    refine (h.image 0 rfl rfl rfl).bind fun _ _ => Emits.bind ⟨_, hpyramid⟩ fun t htarget => ?_
    rw [hpyramid] at htarget
    cases htarget
    refine (h.expr 1 rfl rfl).bind fun _ _ => (h.expr 0 rfl rfl).bind fun _ _ => Emits.bind ?_ fun _ _ => .ok _
    exact Emits.mapM fun _ _ => .ok _
  | _ => simp [hm, Meta.kind, Param.output] at hkind

/-- The extrema have a block unless the image has no pixels. -/
theorem block_minMaxLoc {site : Site} (h : site.Ready minMaxLoc) {input : ImageShape}
    (hinput : site.image 0 = .ok input) :
    if input.pixels = 0 then minMaxLoc.block site = .error .emptyExtrema else Emits (minMaxLoc.block site) := by
  have hblock : minMaxLoc.block site = extremaBlock site := rfl
  rw [hblock]
  split
  · rename_i hzero
    unfold extremaBlock
    rw [hinput]
    simp [Bind.bind, Except.bind, ImageShape.isEmpty, hzero]
    rfl
  · rename_i hpixels
    refine Emits.bind ⟨input, hinput⟩ fun i hi => ?_
    have hii : i = input := by simpa [hinput] using hi.symm
    subst hii
    dsimp only
    have hempty : i.isEmpty = false := by simpa [ImageShape.isEmpty] using hpixels
    rw [hempty]
    refine (h.expr 0 rfl rfl).bind fun _ _ => (h.expr 1 rfl rfl).bind fun _ _ => (h.expr 2 rfl rfl).bind fun _ _ => ?_
    split
    · exact .ok _
    · refine Emits.bind (emits_bound fun _ _ x hx => ?_) fun _ _ => ?_
      · exact (emits_expr hx).bind fun _ _ => .ok _
      · refine Emits.bind (emits_bound fun _ _ x hx => ?_) fun _ _ => .ok _
        exact (emits_expr hx).bind fun _ _ => .ok _

end Kernel

/-- Every standard kernel has its code on every site that is ready, but for the extrema of an image without
pixels. -/
theorem Registry.writes_of_mem_standard {k : Kernel} (hk : k ∈ Registry.standard.kernels) :
    k.isPixelwise = true ∧ k.WritesStatement ∨ k.isPixelwise = false ∧ (k = Kernel.minMaxLoc ∨ k.WritesBlock) := by
  simp only [Registry.standard, List.mem_cons, List.not_mem_nil, or_false] at hk
  repeat' rcases hk with rfl | hk
  · exact .inr ⟨rfl, .inr Kernel.writes_colorConvert⟩
  · exact .inr ⟨rfl, .inr Kernel.writes_channelExtract⟩
  · exact .inr ⟨rfl, .inr Kernel.writes_channelCombine⟩
  · exact .inl ⟨rfl, Kernel.writes_additive _ _ _ _⟩
  · exact .inl ⟨rfl, Kernel.writes_additive _ _ _ _⟩
  · exact .inl ⟨rfl, Kernel.writes_multiply⟩
  · exact .inl ⟨rfl, Kernel.writes_absdiff⟩
  · exact .inl ⟨rfl, Kernel.writes_bitwise _ _ _ _⟩
  · exact .inl ⟨rfl, Kernel.writes_bitwise _ _ _ _⟩
  · exact .inl ⟨rfl, Kernel.writes_bitwise _ _ _ _⟩
  · exact .inl ⟨rfl, Kernel.writes_not⟩
  · exact .inl ⟨rfl, Kernel.writes_threshold⟩
  · exact .inl ⟨rfl, Kernel.writes_magnitude⟩
  · exact .inl ⟨rfl, Kernel.writes_phase⟩
  · exact .inl ⟨rfl, Kernel.writes_convertDepth⟩
  · exact .inl ⟨rfl, Kernel.writes_multiplyScalar⟩
  · exact .inl ⟨rfl, Kernel.writes_clamp⟩
  · exact .inr ⟨rfl, .inr (Kernel.writes_filter _ _ _ _ _)⟩
  · exact .inr ⟨rfl, .inr (Kernel.writes_filter _ _ _ _ _)⟩
  · exact .inr ⟨rfl, .inr (Kernel.writes_filter _ _ _ _ _)⟩
  · exact .inr ⟨rfl, .inr (Kernel.writes_filter _ _ _ _ _)⟩
  · exact .inr ⟨rfl, .inr (Kernel.writes_filter _ _ _ _ _)⟩
  · exact .inr ⟨rfl, .inr Kernel.writes_sobel3x3⟩
  · exact .inr ⟨rfl, .inr Kernel.writes_tableLookup⟩
  · exact .inr ⟨rfl, .inr Kernel.writes_histogram⟩
  · exact .inr ⟨rfl, .inl rfl⟩
  · exact .inr ⟨rfl, .inr Kernel.writes_accumulate⟩
  · exact .inr ⟨rfl, .inr Kernel.writes_gaussianPyramid⟩

end VisionGraph
