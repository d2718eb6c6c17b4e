import VisionGraph.Proofs.Certificate
import VisionGraph.Proofs.Numbering

/-! A constant in the place of a scalar. Where the caller binds a scalar that nodes only take as a number, the graph may as
well have a constant: construction goes the same way, and where the graph with the constant is accepted, the graph with the
scalar is, with the same order of the nodes and the same metadata of all other objects. -/
namespace VisionGraph

/-- The parameters of the standard kernels that are plain numbers. -/
def numericSlots : List (String × Nat) :=
  [("vx.threshold", 1), ("vx.multiply", 2), ("vxf.multiply_scalar", 1), ("vxf.clamp", 1), ("vxf.clamp", 2),
    ("vx.convert_depth", 3)]

theorem setIfInBounds_push {α : Type} {xs : Array α} {i : Nat} (hi : i < xs.size) (a b : α) :
    (xs.setIfInBounds i a).push b = (xs.push b).setIfInBounds i a := by
  apply Array.ext_getElem?
  intro j
  grind

/-- A scalar that the caller binds. -/
def freeScalar (s : ObjectId) (T : ScalarType) : DataObject := ⟨s, .scalar (.typed T), false, false, none⟩

def fixedScalar (s : ObjectId) (v : Scalar) : DataObject := ⟨s, .scalar (.constant v), true, false, none⟩

namespace Graph

variable {g : Graph} {s o : ObjectId} {v : Scalar}

/-- The graph with a constant in the place of an object. -/
def fix (g : Graph) (s : ObjectId) (v : Scalar) : Graph :=
  { g with objects := g.objects.setIfInBounds s.index (fixedScalar s v) }

theorem object?_fix_of_ne (ho : o ≠ s) : (g.fix s v).object? o = g.object? o := by
  have hne : s.index ≠ o.index := by
    intro he
    exact ho (IdMap.object_ext he.symm)
  exact Array.getElem?_setIfInBounds_ne hne

theorem object?_fix_self (hs : s.index < g.objects.size) : (g.fix s v).object? s = some (fixedScalar s v) :=
  Array.getElem?_setIfInBounds_self_of_lt hs

theorem isSome_object?_fix (g : Graph) (s : ObjectId) (v : Scalar) (o : ObjectId) :
    ((g.fix s v).object? o).isSome = (g.object? o).isSome := by
  unfold object? fix
  grind

/-! ### Construction -/

theorem fix_register (hs : s.index < g.objects.size) (info : Meta) (isVirtual : Bool) (slot : Option DelaySlot) :
    ((g.fix s v).register info isVirtual slot).2 = (g.register info isVirtual slot).2.fix s v := by
  simp only [register, fix, Array.size_setIfInBounds, setIfInBounds_push hs]

theorem fix_registerSlots (delay : ObjectId) (template : ImageMeta) (left age : Nat) (hs : s.index < g.objects.size) :
    registerSlots delay template left age (g.fix s v) = (registerSlots delay template left age g).fix s v := by
  induction left generalizing g age with
  | zero => rfl
  | succ left ih =>
    have hsize : s.index < (g.register (.image template) false (some ⟨delay, UInt32.ofNat age⟩)).2.objects.size := by
      simp only [register, Array.size_push]
      omega
    rw [registerSlots, registerSlots, fix_register hs, ih (age + 1) hsize]

theorem fix_createDelay (hs : s.index < g.objects.size) (slots : UInt32) (template : ImageMeta) :
    ((g.fix s v).createDelay slots template).map (·.2) = ((g.createDelay slots template).map (·.2)).map (·.fix s v) := by
  unfold createDelay
  split
  · rfl
  split
  · rfl
  have hsize : s.index < (g.register (.delay ⟨slots, template⟩) false none).2.objects.size := by
    simp only [register, Array.size_push]
    omega
  have hfirst : ((g.fix s v).register (.delay ⟨slots, template⟩) false none).1 =
      (g.register (.delay ⟨slots, template⟩) false none).1 := by
    simp only [register, fix, Array.size_setIfInBounds]
  have hrest := fix_registerSlots (v := v) (g.register (.delay ⟨slots, template⟩) false none).1 template slots.toNat 0 hsize
  rw [← fix_register hs] at hrest
  simp only [Except.map, ← hrest, hfirst]

/-- An object is known to both graphs or to neither. -/
theorem checkObject_fix (g : Graph) (s : ObjectId) (v : Scalar) (o : ObjectId) :
    (∃ e, g.checkObject o = .error e ∧ (g.fix s v).checkObject o = .error e) ∨
      ∃ x y, g.checkObject o = .ok x ∧ (g.fix s v).checkObject o = .ok y := by
  have hsame := isSome_object?_fix g s v o
  unfold checkObject
  cases hx : g.object? o with
  | none =>
    rw [hx, Option.isSome_none, Option.isSome_eq_false_iff, Option.isNone_iff_eq_none] at hsame
    rw [hsame]
    exact .inl ⟨_, rfl, rfl⟩
  | some x =>
    rw [hx, Option.isSome_some] at hsame
    obtain ⟨y, hy⟩ := Option.isSome_iff_exists.mp hsame
    rw [hy]
    exact .inr ⟨_, _, rfl, rfl⟩

theorem fix_bind (id : NodeId) (slot : Nat) (object : Option ObjectId) :
    (g.fix s v).bind id slot object = (g.bind id slot object).map (·.fix s v) := by
  have hnode : (g.fix s v).checkNode id = g.checkNode id := rfl
  -- once the object is known, only the nodes matter
  have hlast : (do
        let n ← (g.fix s v).checkNode id
        if slot < n.params.length then
          return { g.fix s v with
            nodes := updateNode id (fun n => { n with params := n.params.set slot object }) (g.fix s v).nodes }
        else throw (.parameter id slot (.noSlot n.params.length)) : Except Error Graph) =
      (do
        let n ← g.checkNode id
        if slot < n.params.length then
          return { g with nodes := updateNode id (fun n => { n with params := n.params.set slot object }) g.nodes }
        else throw (.parameter id slot (.noSlot n.params.length)) : Except Error Graph).map (·.fix s v) := by
    rw [hnode]
    cases g.checkNode id with
    | error e => rfl
    | ok n =>
      simp only [Bind.bind, Except.bind]
      split <;> rfl
  cases object with
  | none => exact hlast
  | some o =>
    obtain ⟨e, hx, hy⟩ | ⟨x, y, hx, hy⟩ := checkObject_fix g s v o
    · simp only [bind, hx, hy]
      rfl
    · simp only [bind, hx, hy]
      exact hlast

theorem fix_markOutput (ho : o ≠ s) : (g.fix s v).markOutput o = (g.markOutput o).map (·.fix s v) := by
  have hcheck : (g.fix s v).checkObject o = g.checkObject o := by
    unfold checkObject
    rw [object?_fix_of_ne ho]
  have hne : s.index ≠ o.index := by
    intro he
    exact ho (IdMap.object_ext he.symm)
  have hmodify : (g.objects.setIfInBounds s.index (fixedScalar s v)).modify o.index
        (fun x => { x with markedOutput := true }) =
      (g.objects.modify o.index fun x => { x with markedOutput := true }).setIfInBounds s.index (fixedScalar s v) := by
    apply Array.ext_getElem?
    intro j
    grind
  unfold markOutput
  rw [hcheck]
  cases g.checkObject o with
  | error e => rfl
  | ok x =>
    simp only [Bind.bind, Except.bind]
    split
    · rfl
    · exact congrArg (fun xs => Except.ok { g with objects := xs }) hmodify

/-- An operation does the same to the graph with the constant, unless it marks the scalar. -/
theorem apply_fix (hs : s.index < g.objects.size) {e : Edit} (he : e ≠ .output s) :
    (g.fix s v).apply e = (g.apply e).map (·.fix s v) := by
  cases e with
  | image | virtualImage | array | virtualArray | scalar | virtualScalar | constant | pyramid | virtualPyramid =>
    exact congrArg Except.ok (fix_register hs _ _ _)
  | delay slots template => exact fix_createDelay hs slots template
  | node kernel params => rfl
  | border id border =>
    have hnode : (g.fix s v).checkNode id = g.checkNode id := rfl
    simp only [apply, setBorder, hnode]
    cases g.checkNode id <;> rfl
  | bind id slot object => exact fix_bind id slot object
  | remove id =>
    have hnode : (g.fix s v).checkNode id = g.checkNode id := rfl
    simp only [apply, removeNode, hnode]
    cases g.checkNode id <;> rfl
  | output o =>
    apply fix_markOutput
    intro h
    exact he (h ▸ rfl)

/-- A constant cannot be marked, and the mark of the scalar is forgotten with it. -/
theorem fix_output (hs : s.index < g.objects.size) : (g.fix s v).edit [.output s] = (g.edit [.output s]).fix s v := by
  have hfixed : (g.fix s v).apply (.output s) = .error (.state (.constantOutput s)) := by
    simp only [apply, markOutput, checkObject, object?_fix_self hs]
    rfl
  have hforget : (g.objects.modify s.index fun x => { x with markedOutput := true }).setIfInBounds s.index (fixedScalar s v) =
      g.objects.setIfInBounds s.index (fixedScalar s v) := by
    apply Array.ext_getElem?
    intro j
    grind
  obtain ⟨x, hx⟩ : ∃ x, g.checkObject s = .ok x := by
    unfold checkObject object?
    rw [Array.getElem?_eq_getElem hs]
    exact ⟨_, rfl⟩
  simp only [edit, List.foldl_cons, List.foldl_nil, hfixed, Except.toOption, Option.getD_none]
  simp only [apply, markOutput, hx, Bind.bind, Except.bind]
  by_cases hc : x.isConstant = true
  · rw [if_pos hc]
    rfl
  · rw [if_neg hc]
    exact congrArg (fun xs => { g with objects := xs }) hforget.symm

theorem edit_one_fix (hs : s.index < g.objects.size) (e : Edit) : (g.fix s v).edit [e] = (g.edit [e]).fix s v := by
  by_cases he : e = .output s
  · rw [he]
    exact fix_output hs
  simp only [edit, List.foldl_cons, List.foldl_nil, apply_fix hs he]
  cases g.apply e <;> rfl

theorem edit_fix (hs : s.index < g.objects.size) (edits : List Edit) :
    (g.fix s v).edit edits = (g.edit edits).fix s v := by
  induction edits generalizing g with
  | nil => rfl
  | cons e rest ih =>
    -- objects are added and marked, never taken away
    have hget : g.objects[s.index]? = some g.objects[s.index] := Array.getElem?_eq_getElem hs
    obtain ⟨x, hx, _⟩ := sameButMarks_edit g [e] s.index _ hget
    have hsize : s.index < (g.edit [e]).objects.size := (Array.getElem?_eq_some_iff.mp hx).1
    calc (g.fix s v).edit (e :: rest) = ((g.fix s v).edit [e]).edit rest := edit_cons ..
      _ = ((g.edit [e]).fix s v).edit rest := by rw [edit_one_fix hs]
      _ = (g.edit (e :: rest)).fix s v := ih hsize

theorem edit_append (g : Graph) (front back : List Edit) : g.edit (front ++ back) = (g.edit front).edit back :=
  List.foldl_append

/-- A constant takes the place of a scalar that was created at the same point. -/
theorem edit_constant (front back : List Edit) (T : ScalarType) (v : Scalar) :
    Graph.empty.edit (front ++ .constant v :: back) =
      (Graph.empty.edit (front ++ .scalar T :: back)).fix ⟨(Graph.empty.edit front).objects.size⟩ v := by
  have hsize : (Graph.empty.edit front).objects.size < ((Graph.empty.edit front).edit [.scalar T]).objects.size := by
    have hpush : ((Graph.empty.edit front).edit [.scalar T]).objects.size = (Graph.empty.edit front).objects.size + 1 :=
      size_register ..
    omega
  have hfirst : (Graph.empty.edit front).edit [.constant v] =
      ((Graph.empty.edit front).edit [.scalar T]).fix ⟨(Graph.empty.edit front).objects.size⟩ v := by
    have hobjects (objects : Array DataObject) (x y : DataObject) :
        objects.push y = (objects.push x).setIfInBounds objects.size y := by
      apply Array.ext_getElem?
      intro i
      grind
    refine congrArg (fun objects => { Graph.empty.edit front with objects := objects }) ?_
    exact hobjects _ _ _
  calc Graph.empty.edit (front ++ .constant v :: back)
      = ((Graph.empty.edit front).edit [.constant v]).edit back := edit_append ..
    _ = (((Graph.empty.edit front).edit [.scalar T]).fix ⟨(Graph.empty.edit front).objects.size⟩ v).edit back := by
      rw [hfirst]
    _ = (((Graph.empty.edit front).edit [.scalar T]).edit back).fix ⟨(Graph.empty.edit front).objects.size⟩ v :=
      edit_fix hsize back
    _ = _ := by
      rw [edit_append]
      rfl

/-- The scalar that was created is an object of the graph; at most it was marked. -/
theorem object?_scalar (front back : List Edit) (T : ScalarType) :
    ∃ x, (Graph.empty.edit (front ++ .scalar T :: back)).object? ⟨(Graph.empty.edit front).objects.size⟩ = some x ∧
      x = { freeScalar ⟨(Graph.empty.edit front).objects.size⟩ T with markedOutput := x.markedOutput } := by
  have hbuilt : (Graph.empty.edit (front ++ .scalar T :: back)).Built := ⟨_, rfl⟩
  have hnew : ((Graph.empty.edit front).edit [.scalar T]).objects[(Graph.empty.edit front).objects.size]? =
      some (freeScalar ⟨(Graph.empty.edit front).objects.size⟩ T) := Array.getElem?_push_size
  obtain ⟨x, hx, hinfo, hvirtual, hslot⟩ := sameButMarks_edit ((Graph.empty.edit front).edit [.scalar T]) back _ _ hnew
  have hget : (Graph.empty.edit (front ++ .scalar T :: back)).object? ⟨(Graph.empty.edit front).objects.size⟩ = some x := by
    rw [edit_append]
    exact hx
  have hid := (hbuilt.wellFormed.objects _ x hget).id
  refine ⟨x, hget, ?_⟩
  cases x
  cases hid
  cases hinfo
  cases hvirtual
  cases hslot
  rfl

end Graph

/-! ### Rules -/

namespace Rule

/-- The same is known of all parameters, but some are constants on one side and only have a type on the other. -/
structure Looser (numbers : List Nat) (known fixed : Known) : Prop where
  others : ∀ slot, slot ∉ numbers → slotMeta known slot = slotMeta fixed slot
  number : ∀ slot ∈ numbers, slotMeta known slot = slotMeta fixed slot ∨
    ∃ v : Scalar, slotMeta known slot = some (.scalar (.typed v.type)) ∧ slotMeta fixed slot = some (.scalar (.constant v))

/-- What is accepted with constants is accepted with scalars of their types. -/
def Tolerant {α : Type} (numbers : List Nat) (a : Known → Except Rejection α) : Prop :=
  ∀ ⦃known fixed x⦄, Looser numbers known fixed → a fixed = .ok x → a known = .ok x

variable {numbers : List Nat} {α β : Type}

theorem tolerant_const (a : Except Rejection α) : Tolerant numbers fun _ => a := fun _ _ _ _ h => h

theorem tolerant_inputImage {slot : Nat} (hslot : slot ∉ numbers) : Tolerant numbers fun known => inputImage known slot := by
  intro known fixed x h hx
  rw [inputImage_eq_ok] at hx ⊢
  rw [h.others slot hslot, hx]

theorem tolerant_imagePair {allowed : List Format} (hfirst : 0 ∉ numbers) (hsecond : 1 ∉ numbers) :
    Tolerant numbers fun known => imagePair known allowed := by
  rintro known fixed ⟨first, second⟩ h hx
  rw [imagePair_eq_ok] at hx ⊢
  rw [h.others 0 hfirst, h.others 1 hsecond]
  exact hx

theorem tolerant_policy {slot : Nat} (hslot : slot ∉ numbers) : Tolerant numbers fun known => policy known slot := by
  intro known fixed x h hx
  rw [policy_eq_ok] at hx ⊢
  rw [h.others slot hslot]
  exact hx

theorem tolerant_output {slot : Nat} (hslot : slot ∉ numbers) (like : ImageShape) (default : Format) (allowed : List Format) :
    Tolerant numbers fun known => do
      let out ← image known slot
      let format ← chooseFormat slot out.format default allowed
      return [inferImage slot like format] := by
  intro known fixed x h hx
  simp only [bind_eq_ok, image_eq_ok] at hx ⊢
  rw [h.others slot hslot]
  exact hx

namespace Tolerant

theorem bind {a : Known → Except Rejection α} {f : α → Known → Except Rejection β} (ha : Tolerant numbers a)
    (hf : ∀ x, Tolerant numbers (f x)) : Tolerant numbers fun known => a known >>= fun x => f x known := by
  intro known fixed y h hy
  obtain ⟨x, hx, hy⟩ := bind_eq_ok.mp hy
  exact bind_eq_ok.mpr ⟨x, ha h hx, hf x h hy⟩

/-- A rule may take a scalar as long as it demands no more of its type than of a constant. -/
theorem bindScalar {slot : Nat} {allowed : List ScalarType} {f : ScalarMeta → Known → Except Rejection β}
    (hf : ∀ m, Tolerant numbers (f m))
    (hloose : ∀ (v : Scalar) known x, f (.constant v) known = .ok x → f (.typed v.type) known = .ok x) :
    Tolerant numbers fun known => scalarOf known slot allowed >>= fun m => f m known := by
  intro known fixed y h hy
  obtain ⟨m, hm, hy⟩ := bind_eq_ok.mp hy
  obtain ⟨hslot, t, ht, htype⟩ := scalarOf_eq_ok.mp hm
  have hsame (he : slotMeta known slot = slotMeta fixed slot) : (scalarOf known slot allowed >>= fun m => f m known) = .ok y :=
    bind_eq_ok.mpr ⟨m, scalarOf_eq_ok.mpr ⟨he.trans hslot, t, ht, htype⟩, hf m h hy⟩
  by_cases hn : slot ∈ numbers
  · rcases h.number slot hn with he | ⟨v, hknown, hfixed⟩
    · exact hsame he
    -- the parameter is the constant, and only its type was looked at
    have hmv : m = .constant v := by simpa [hfixed] using hslot.symm
    subst hmv
    exact bind_eq_ok.mpr ⟨.typed v.type, scalarOf_eq_ok.mpr ⟨hknown, t, ht, htype⟩, hloose v known y (hf _ h hy)⟩
  · exact hsame (h.others slot hn)

end Tolerant

end Rule

namespace Kernel

open Rule

theorem tolerant_threshold : Tolerant [1] threshold.rule :=
  .bind (tolerant_inputImage (by decide)) fun _ => .bind (tolerant_const _) fun _ =>
    .bindScalar (fun _ => tolerant_output (by decide) _ _ _) fun _ _ _ h => h

theorem tolerant_multiply : Tolerant [2] multiply.rule :=
  .bind (tolerant_imagePair (by decide) (by decide)) fun _ =>
    .bindScalar (fun _ => .bind (tolerant_policy (by decide)) fun _ => tolerant_output (by decide) _ _ _) fun _ _ _ h => h

theorem tolerant_multiplyScalar : Tolerant [1] multiplyScalar.rule :=
  .bind (tolerant_inputImage (by decide)) fun _ => .bind (tolerant_const _) fun _ =>
    .bindScalar (fun _ => tolerant_output (by decide) _ _ _) fun _ _ _ h => h

theorem tolerant_clamp : Tolerant [1, 2] Kernel.clamp.rule :=
  .bind (tolerant_inputImage (by decide)) fun _ => .bind (tolerant_const _) fun _ =>
    .bindScalar (fun _ => .bindScalar (fun _ => tolerant_output (by decide) _ _ _) fun _ _ _ h => h) fun _ _ _ h => h

theorem tolerant_convertDepth : Tolerant [3] convertDepth.rule := by
  refine .bind (tolerant_inputImage (by decide)) fun input => ?_
  cases depthFormats? input.format with
  | none => exact fun _ _ _ _ hx => nomatch hx
  | some formats =>
    refine .bind (tolerant_const _) fun _ => .bind (tolerant_policy (by decide)) fun _ => .bindScalar ?_ ?_
    · intro shift
      split
      · split
        · exact .bind (tolerant_const _) fun _ => tolerant_output (by decide) _ _ _
        · exact tolerant_output (by decide) _ _ _
      · exact tolerant_output (by decide) _ _ _
    · -- a shift that is not known is not refused
      intro v known x hx
      cases v with
      | s32 i =>
        simp only [ScalarMeta.constant, unless_refused_eq_ok] at hx
        exact hx.2
      | _ => exact hx

/-- The kernels that have numbers, with the names that they are registered under. -/
theorem cases_of_numeric {name : String} {slot : Nat} {k : Kernel} (hk : Registry.standard.find? name = some k)
    (hslot : (name, slot) ∈ numericSlots) :
    (name = "vx.threshold" ∧ k = threshold ∧ slot = 1) ∨ (name = "vx.multiply" ∧ k = multiply ∧ slot = 2) ∨
      (name = "vxf.multiply_scalar" ∧ k = multiplyScalar ∧ slot = 1) ∨
      (name = "vxf.clamp" ∧ k = Kernel.clamp ∧ (slot = 1 ∨ slot = 2)) ∨
      (name = "vx.convert_depth" ∧ k = convertDepth ∧ slot = 3) := by
  have hkernel {other : String} {kernel : Kernel} (hname : name = other)
      (hother : Registry.standard.find? other = some kernel) : k = kernel :=
    Option.some.inj (hk.symm.trans (hname ▸ hother))
  simp only [numericSlots, List.mem_cons, Prod.mk.injEq, List.not_mem_nil, or_false] at hslot
  rcases hslot with ⟨hname, hs⟩ | ⟨hname, hs⟩ | ⟨hname, hs⟩ | ⟨hname, hs⟩ | ⟨hname, hs⟩ | ⟨hname, hs⟩
  · exact .inl ⟨hname, hkernel hname rfl, hs⟩
  · exact .inr (.inl ⟨hname, hkernel hname rfl, hs⟩)
  · exact .inr (.inr (.inl ⟨hname, hkernel hname rfl, hs⟩))
  · exact .inr (.inr (.inr (.inl ⟨hname, hkernel hname rfl, .inl hs⟩)))
  · exact .inr (.inr (.inr (.inl ⟨hname, hkernel hname rfl, .inr hs⟩)))
  · exact .inr (.inr (.inr (.inr ⟨hname, hkernel hname rfl, hs⟩)))

/-- Each of them tolerates that its numbers are not known. -/
theorem tolerant_of_numeric {name : String} {slot : Nat} {k : Kernel} (hk : Registry.standard.find? name = some k)
    (hslot : (name, slot) ∈ numericSlots) :
    ∃ numbers, Tolerant numbers k.rule ∧ ∀ other, (name, other) ∈ numericSlots → other ∈ numbers := by
  rcases cases_of_numeric hk hslot with ⟨rfl, rfl, _⟩ | ⟨rfl, rfl, _⟩ | ⟨rfl, rfl, _⟩ | ⟨rfl, rfl, _⟩ | ⟨rfl, rfl, _⟩
  · exact ⟨[1], tolerant_threshold, by simp [numericSlots]⟩
  · exact ⟨[2], tolerant_multiply, by simp [numericSlots]⟩
  · exact ⟨[1], tolerant_multiplyScalar, by simp [numericSlots]⟩
  · exact ⟨[1, 2], tolerant_clamp, by simp [numericSlots]⟩
  · exact ⟨[3], tolerant_convertDepth, by simp [numericSlots]⟩

/-- The parameters that are numbers are read. -/
theorem input_of_numeric {name : String} {slot : Nat} {k : Kernel} (hk : Registry.standard.find? name = some k)
    (hslot : (name, slot) ∈ numericSlots) : k.signature.directions[slot]? = some .input := by
  rcases cases_of_numeric hk hslot with
    ⟨_, rfl, rfl⟩ | ⟨_, rfl, rfl⟩ | ⟨_, rfl, rfl⟩ | ⟨_, rfl, rfl | rfl⟩ | ⟨_, rfl, rfl⟩ <;> rfl

end Kernel

namespace Graph

/-! ### Verification -/

/-- A scalar that the caller binds and that nodes only take as a number. -/
structure Numeric (g : Graph) (s : ObjectId) (T : ScalarType) : Prop where
  object : g.object? s = some (freeScalar s T)
  numbers : ∀ n ∈ g.nodes, ∀ slot, n.params[slot]? = some (some s) → (n.kernel, slot) ∈ numericSlots

/-- What is known, but of an object only a type. -/
def loosen (s : ObjectId) (T : ScalarType) (known : Array Meta) : Array Meta :=
  known.setIfInBounds s.index (.scalar (.typed T))

variable {g : Graph} {s o : ObjectId} {T : ScalarType} {v : Scalar} {c : Checked} {known next last : Array Meta}

theorem getElem?_loosen_of_ne (ho : o ≠ s) : (loosen s T known)[o.index]? = known[o.index]? := by
  apply Array.getElem?_setIfInBounds_ne
  intro he
  exact ho (IdMap.object_ext he.symm)

theorem lookUp_fix (r : Registry) (n : Node) : (g.fix s v).lookUp r n = g.lookUp r n := by
  have hnone (o : ObjectId) : ((g.fix s v).object? o).isNone = (g.object? o).isNone := by
    simp only [← Option.not_isSome, isSome_object?_fix]
  simp only [lookUp, hnone]

/-- A scalar of the caller may be bound where its constant may. -/
theorem fits_of_fix (hs : g.object? s = some (freeScalar s v.type)) {written : ObjectId → Prop} {spec : Param}
    {param : Option ObjectId} (h : (g.fix s v).Fits written spec param) : g.Fits written spec param := by
  cases param with
  | none => exact h
  | some o =>
    by_cases ho : o = s
    · subst ho
      obtain ⟨x, hx, hkind, _⟩ := h
      have hlt : o.index < g.objects.size := (Array.getElem?_eq_some_iff.mp hs).1
      rw [object?_fix_self hlt] at hx
      cases hx
      exact ⟨_, hs, hkind, fun _ => rfl, fun _ => rfl, fun _ hvirtual => nomatch hvirtual⟩
    · obtain ⟨x, hx, hrest⟩ := h
      exact ⟨x, (object?_fix_of_ne ho).symm.trans hx, hrest⟩

theorem slotMeta_view_eq (c : Checked) (known : Array Meta) (slot : Nat) :
    Rule.slotMeta (c.view known) slot = ((c.node.params[slot]?).getD none).bind fun o => known[o.index]? := by
  simp only [Rule.slotMeta, Checked.view, List.getElem?_map]
  cases c.node.params[slot]? <;> rfl

/-- A parameter is the scalar, or the same is known of it. -/
theorem slotMeta_loosen (hs : known[s.index]? = some (.scalar (.constant v))) (slot : Nat) :
    Rule.slotMeta (c.view (loosen s v.type known)) slot = Rule.slotMeta (c.view known) slot ∨
      (c.node.params[slot]? = some (some s) ∧
        Rule.slotMeta (c.view (loosen s v.type known)) slot = some (.scalar (.typed v.type)) ∧
        Rule.slotMeta (c.view known) slot = some (.scalar (.constant v))) := by
  rw [slotMeta_view_eq, slotMeta_view_eq]
  cases hslot : c.node.params[slot]? with
  | none => exact .inl rfl
  | some param =>
    cases param with
    | none => exact .inl rfl
    | some o =>
      by_cases ho : o = s
      · subst ho
        have hlt : o.index < known.size := (Array.getElem?_eq_some_iff.mp hs).1
        exact .inr ⟨rfl, Array.getElem?_setIfInBounds_self_of_lt hlt, hs⟩
      · exact .inl (getElem?_loosen_of_ne ho)

/-- The rule of a node that accepts the constant accepts the scalar. -/
theorem rule_loosen (hk : Registry.standard.find? c.node.kernel = some c.kernel)
    (hnumbers : ∀ slot, c.node.params[slot]? = some (some s) → (c.node.kernel, slot) ∈ numericSlots)
    (hs : known[s.index]? = some (.scalar (.constant v))) {inferences : List Inference}
    (h : c.kernel.rule (c.view known) = .ok inferences) :
    c.kernel.rule (c.view (loosen s v.type known)) = .ok inferences := by
  by_cases hbound : s ∈ c.node.bound
  · obtain ⟨slot, hslot⟩ := Node.mem_bound.mp hbound
    obtain ⟨numbers, htolerant, hmem⟩ := Kernel.tolerant_of_numeric hk (hnumbers slot hslot)
    refine htolerant ⟨?_, ?_⟩ h
    · intro i hi
      rcases slotMeta_loosen hs i with he | ⟨hparam, _⟩
      · exact he
      · exact absurd (hmem i (hnumbers i hparam)) hi
    · intro i _
      rcases slotMeta_loosen hs i with he | ⟨_, hloose, hfixed⟩
      · exact .inl he
      · exact .inr ⟨v, hloose, hfixed⟩
  · have hagree : AgreeOn c.node.bound (loosen s v.type known) known := by
      intro o ho
      apply getElem?_loosen_of_ne
      intro he
      exact hbound (he ▸ ho)
    rw [view_congr hagree]
    exact h

/-- What is inferred for written objects does not touch the scalar. -/
theorem absorb_loosen (hs : s ∉ c.access.writes) (known : Array Meta) (i : Inference) :
    g.absorb c (loosen s T known) i = ((g.fix s v).absorb c known i).map (loosen s T) := by
  unfold absorb
  split
  · rfl
  rename_i hdir
  obtain ⟨d, hd, hwrites⟩ : ∃ d, c.directions[i.slot]? = some d ∧ d.writes = true := by
    simpa [Option.any_eq_true] using hdir
  cases hparam : c.node.params[i.slot]? with
  | none => rfl
  | some param =>
    cases param with
    | none => rfl
    | some o =>
      -- what is inferred is inferred for an object that the node writes
      have ho : o ≠ s := by
        intro he
        exact hs (he ▸ Checked.mem_writes.mpr ⟨_, d, hparam, hd, hwrites⟩)
      have hcomm (m : Meta) : (loosen s T known).setIfInBounds o.index m = loosen s T (known.setIfInBounds o.index m) := by
        have hne : s.index ≠ o.index := by
          intro he
          exact ho (IdMap.object_ext he.symm)
        exact Array.setIfInBounds_comm _ _ hne
      simp only [Option.getD_some, object?_fix_of_ne ho, getElem?_loosen_of_ne ho]
      cases g.object? o with
      | none => rfl
      | some x =>
        cases known[o.index]? with
        | none => rfl
        | some current =>
          dsimp only
          cases (current.merge i.info).outcome with
          | ok changed => exact congrArg Except.ok (hcomm _)
          | error conflict =>
            dsimp only
            split <;> rfl

theorem absorbAll_loosen (hs : s ∉ c.access.writes) (inferences : List Inference) (known : Array Meta) :
    inferences.foldlM (g.absorb c) (loosen s T known) =
      (inferences.foldlM ((g.fix s v).absorb c) known).map (loosen s T) := by
  induction inferences generalizing known with
  | nil => rfl
  | cons i rest ih =>
    simp only [List.foldlM_cons, absorb_loosen (v := v) hs]
    cases (g.fix s v).absorb c known i with
    | error e => rfl
    | ok next => exact ih next

theorem infer_loosen (hk : Registry.standard.find? c.node.kernel = some c.kernel)
    (hnumbers : ∀ slot, c.node.params[slot]? = some (some s) → (c.node.kernel, slot) ∈ numericSlots)
    (hwrites : s ∉ c.access.writes) (hs : known[s.index]? = some (.scalar (.constant v)))
    (h : (g.fix s v).infer known c = .ok next) :
    g.infer (loosen s v.type known) c = .ok (loosen s v.type next) ∧ next[s.index]? = some (.scalar (.constant v)) := by
  have hregular := Registry.regular_of_mem_standard (List.mem_of_find?_eq_some hk)
  constructor
  · obtain ⟨inferences, hrule, hall⟩ := infer_eq_ok.mp h
    refine infer_eq_ok.mpr ⟨inferences, rule_loosen hk hnumbers hs hrule, ?_⟩
    rw [absorbAll_loosen (v := v) hwrites, hall]
    rfl
  · rw [(infer_grows hregular h).frame s hwrites]
    exact hs

/-- A node writes no number. -/
theorem not_writes_of_numbers (hk : Registry.standard.find? c.node.kernel = some c.kernel)
    (hnumbers : ∀ slot, c.node.params[slot]? = some (some s) → (c.node.kernel, slot) ∈ numericSlots) :
    s ∉ c.access.writes := by
  intro hs
  obtain ⟨slot, d, hslot, hd, hwrites⟩ := Checked.mem_writes.mp hs
  have hinput := Kernel.input_of_numeric hk (hnumbers slot hslot)
  cases hd.symm.trans hinput
  contradiction

/-- Inference along a schedule. -/
theorem inferAll_loosen {l : List Checked} (hfound : ∀ c ∈ l, Registry.standard.find? c.node.kernel = some c.kernel)
    (hnumbers : ∀ c ∈ l, ∀ slot, c.node.params[slot]? = some (some s) → (c.node.kernel, slot) ∈ numericSlots)
    (hs : known[s.index]? = some (.scalar (.constant v))) (h : l.foldlM (g.fix s v).infer known = .ok last) :
    l.foldlM g.infer (loosen s v.type known) = .ok (loosen s v.type last) ∧
      last[s.index]? = some (.scalar (.constant v)) := by
  induction l generalizing known with
  | nil =>
    cases h
    exact ⟨rfl, hs⟩
  | cons c rest ih =>
    obtain ⟨next, hfirst, hrest⟩ := foldlM_cons_eq_ok.mp h
    have hk := hfound c List.mem_cons_self
    have hc := hnumbers c List.mem_cons_self
    obtain ⟨hloose, hnext⟩ := infer_loosen hk hc (not_writes_of_numbers hk hc) hs hfirst
    obtain ⟨hall, hlast⟩ := ih (fun d hd => hfound d (List.mem_cons_of_mem _ hd))
      (fun d hd => hnumbers d (List.mem_cons_of_mem _ hd)) hnext hrest
    exact ⟨foldlM_cons_eq_ok.mpr ⟨_, hloose, hall⟩, hlast⟩

theorem firstUnresolved_loosen {n : Node} (hs : known[s.index]? = some (.scalar (.constant v)))
    (h : firstUnresolved known n = none) : firstUnresolved (loosen s v.type known) n = none := by
  have hlt : s.index < known.size := (Array.getElem?_eq_some_iff.mp hs).1
  apply List.find?_eq_none.mpr
  intro o ho
  by_cases he : o = s
  · -- a scalar is resolved as soon as it has a type
    subst he
    have hloose : (loosen o v.type known)[o.index]? = some (.scalar (.typed v.type)) :=
      Array.getElem?_setIfInBounds_self_of_lt hlt
    rw [hloose]
    exact Bool.false_ne_true
  · rw [getElem?_loosen_of_ne he]
    exact List.find?_eq_none.mp h o ho

/-- At the start the scalar has its type, and the constant its value. -/
theorem start_fix (hs : g.object? s = some (freeScalar s v.type)) :
    ((g.fix s v).objects.map (·.info))[s.index]? = some (.scalar (.constant v)) ∧
      loosen s v.type ((g.fix s v).objects.map (·.info)) = g.objects.map (·.info) := by
  have hlt : s.index < g.objects.size := (Array.getElem?_eq_some_iff.mp hs).1
  have hget : g.objects[s.index]? = some (freeScalar s v.type) := hs
  constructor
  · have hfixed : (g.fix s v).objects[s.index]? = some (fixedScalar s v) := object?_fix_self hlt
    rw [Array.getElem?_map, hfixed]
    rfl
  · apply Array.ext_getElem?
    intro i
    by_cases hi : s.index = i
    · subst hi
      have hsize : s.index < ((g.fix s v).objects.map (·.info)).size := by
        simpa [fix] using hlt
      rw [Array.getElem?_map, hget]
      exact Array.getElem?_setIfInBounds_self_of_lt hsize
    · unfold loosen
      rw [Array.getElem?_setIfInBounds_ne hi, Array.getElem?_map, Array.getElem?_map]
      exact congrArg _ (Array.getElem?_setIfInBounds_ne hi)

/-- Where the graph with the constant is accepted, the graph with the scalar is: with the same schedule, and knowing the
same but for the scalar. -/
theorem exists_verify_of_fix (hs : g.Numeric s v.type) {q : Plan} (hq : (g.fix s v).verify .standard = .ok q) :
    ∃ l known, g.verify .standard = .ok (g.planOf l (loosen s v.type known)) ∧ q = (g.fix s v).planOf l known ∧
      known[s.index]? = some (.scalar (.constant v)) ∧ ∀ c ∈ l, c.node ∈ g.nodes := by
  obtain ⟨l, known, hl, hplan, hverify⟩ := exists_resolves_along hq
  have hnode : ∀ c ∈ l, c.node ∈ g.nodes := by
    intro c hc
    exact hl.nodes.mem_iff.mp (List.mem_map.mpr ⟨c, hc, rfl⟩)
  obtain ⟨hstart, hloose⟩ := start_fix hs.object
  obtain ⟨hall, hlast⟩ := inferAll_loosen (fun c hc => hl.find_kernel hc)
    (fun c hc => hs.numbers c.node (hnode c hc)) hstart hl.run
  rw [hloose] at hall
  refine ⟨l, known, ?_, hplan, hlast, hnode⟩
  refine hverify g rfl (fun n => (lookUp_fix _ n).symm) (fun _ _ _ h => fits_of_fix hs.object h) _ hall ?_
  intro c hc
  exact firstUnresolved_loosen hlast (hl.resolved c hc)

end Graph

/-- Two plans that differ in one object. One has a scalar that the caller binds, which steps only take as a number; the
other has a constant, or nothing any more. -/
structure Plan.Twins (s : ObjectId) (v : Scalar) (p q : Plan) : Prop where
  sound : p.Sound
  fixedSound : q.Sound
  stages : p.stages = q.stages
  others : ∀ o, o ≠ s → p.object? o = q.object? o
  free : p.object? s = some ⟨freeScalar s v.type, .scalar (.typed v.type)⟩
  fixed : ∀ r, q.object? s = some r → r = ⟨fixedScalar s v, .scalar (.constant v)⟩
  numbers : ∀ stage ∈ p.stages, ∀ step ∈ stage.steps, ∀ slot, step.params[slot]? = some (some s) →
    (step.kernel, slot) ∈ numericSlots

namespace Graph

variable {g : Graph} {s : ObjectId} {v : Scalar}

/-- The objects of the plans of a graph with the scalar and of the graph with the constant. -/
theorem object?_planOf_fix (hg : g.WellFormed) (hfix : (g.fix s v).WellFormed) {l : List Checked} {known : Array Meta}
    {o : ObjectId} (ho : o ≠ s) :
    (g.planOf l (loosen s v.type known)).object? o = ((g.fix s v).planOf l known).object? o := by
  apply Option.ext
  intro r
  rw [object?_planOf hg, object?_planOf hfix, object?_fix_of_ne ho, getElem?_loosen_of_ne ho]
  rfl

/-- The plans of the graph with the scalar and of the graph with the constant. -/
theorem twins_of_verify (hg : g.Built) (hfix : (g.fix s v).Built) (hs : g.Numeric s v.type) {q : Plan}
    (hq : (g.fix s v).verify .standard = .ok q) : ∃ p, g.verify .standard = .ok p ∧ Plan.Twins s v p q := by
  have hsound := sound_of_verify hfix hq
  obtain ⟨l, known, hp, rfl, hlast, hnodes⟩ := exists_verify_of_fix hs hq
  have hlt : s.index < g.objects.size := (Array.getElem?_eq_some_iff.mp hs.object).1
  have hklt : s.index < known.size := (Array.getElem?_eq_some_iff.mp hlast).1
  refine ⟨_, hp, ?_⟩
  exact {
    sound := sound_of_verify hg hp
    fixedSound := hsound
    stages := rfl
    others := fun o ho => object?_planOf_fix hg.wellFormed hfix.wellFormed ho
    free := (object?_planOf hg.wellFormed).mpr
      ⟨hs.object, Array.getElem?_setIfInBounds_self_of_lt hklt, fun hvirtual => nomatch hvirtual⟩
    fixed := by
      intro r hr
      obtain ⟨hx, hm, _⟩ := (object?_planOf hfix.wellFormed).mp hr
      rw [object?_fix_self hlt, Option.some.injEq] at hx
      rw [hlast, Option.some.injEq] at hm
      rw [hx, hm]
    numbers := by
      intro stage hstage step hstep slot hslot
      obtain ⟨c, hc, rfl⟩ := List.mem_map.mp hstage
      cases List.mem_singleton.mp hstep
      exact hs.numbers c.node (hnodes c hc) slot hslot }

end Graph

end VisionGraph
