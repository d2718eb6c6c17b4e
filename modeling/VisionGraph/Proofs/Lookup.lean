import VisionGraph.Proofs.KernelSafety

/-! The table lookup, the one kernel over whole objects that can fail. It replaces sample after sample and stops at the
first one that the table has no item for; what was written by then stays. -/
namespace VisionGraph

/-- A loop whose states are known goes on up to the first number that stops it. -/
theorem loop_eq_find {σ ε : Type} {step : Nat → σ → Except ε σ} {state : Nat → σ} (stops : Nat → Bool) (fault : Nat → ε)
    {left i : Nat} (hstep : ∀ j, i ≤ j → j < i + left →
      step j (state j) = if stops j then .error (fault j) else .ok (state (j + 1))) :
    loop step left i (state i) =
      match (List.range' i left).find? stops with
      | none => .ok (state (i + left))
      | some j => .error (fault j) := by
  induction left generalizing i with
  | zero => rfl
  | succ left ih =>
    have hfirst := hstep i (Nat.le_refl i) (by omega)
    have hrest : ∀ j, i + 1 ≤ j → j < i + 1 + left →
        step j (state j) = if stops j then .error (fault j) else .ok (state (j + 1)) := by
      intro j hij hj
      exact hstep j (by omega) (by omega)
    rw [List.range'_succ, List.find?_cons]
    cases hstop : stops i with
    | true => simp [loop, hfirst, hstop]
    | false =>
      have hend : i + (left + 1) = i + 1 + left := by omega
      simp only [loop, hfirst, hstop, Bool.false_eq_true, if_false, ih hrest, hend]

namespace ImageBuffer

theorem eq_of_samples {b c : ImageBuffer} (hw : b.width = c.width) (hh : b.height = c.height) (hf : b.format = c.format)
    (hs : b.samples = c.samples) : b = c := by
  cases b
  cases c
  cases hw
  cases hh
  cases hf
  cases hs
  rfl

/-- The image with its first samples replaced. -/
def overwrite (b : ImageBuffer) (count : Nat) (value : Nat → Int) : ImageBuffer :=
  generate b.width b.height b.format fun i => if i < count then value i else b.samples.getD i 0

variable {b : ImageBuffer} {value : Nat → Int} {count i : Nat}

theorem size_overwrite : (b.overwrite count value).samples.size = b.samples.size := by
  rw [b.size_eq]
  simp [overwrite, generate]

/-- The samples from the first that is not replaced on are the old ones. -/
theorem getElem?_overwrite : (b.overwrite count value).samples[i]? =
    if i < count then (b.samples[i]?).map fun _ => b.format.element.wrap (value i) else b.samples[i]? := by
  by_cases hi : i < b.samples.size
  · have hi' : i < b.width.toNat * b.height.toNat * b.format.channels := by rwa [← b.size_eq]
    have hold : b.format.element.wrap b.samples[i] = b.samples[i] := b.fits _ (Array.getElem_mem hi)
    by_cases hc : i < count
    · simp [overwrite, generate, hi, hi', hc]
    · simp [overwrite, generate, hi, hi', hc, hold]
  · have hnone : (b.overwrite count value).samples[i]? = none :=
      Array.getElem?_eq_none (by rw [size_overwrite]; omega)
    have hnone' : b.samples[i]? = none := Array.getElem?_eq_none (by omega)
    simp [hnone, hnone']

theorem overwrite_zero : b.overwrite 0 value = b := by
  refine eq_of_samples rfl rfl rfl (Array.ext_getElem? fun i => ?_)
  rw [getElem?_overwrite, if_neg (Nat.not_lt_zero i)]

theorem set_overwrite : (b.overwrite i value).set i (value i) = b.overwrite (i + 1) value := by
  refine eq_of_samples rfl rfl rfl (Array.ext_getElem? fun j => ?_)
  have hset : ((b.overwrite i value).set i (value i)).samples =
      (b.overwrite i value).samples.setIfInBounds i (b.format.element.wrap (value i)) := rfl
  rw [hset, Array.getElem?_setIfInBounds, getElem?_overwrite, getElem?_overwrite, size_overwrite]
  by_cases hij : i = j
  · subst hij
    by_cases hi : i < b.samples.size
    · simp [hi]
    · simp [hi]
  · have hlt : j < i + 1 ↔ j < i := by omega
    simp only [hij, if_false, hlt]

end ImageBuffer

namespace Frame

variable {f : Frame} {slot other : Nat} {change : Host → Host} {x y : Host}

theorem modify_eq {k : Nat} (hhandle : f.handles[slot]? = some (.object k)) :
    f.modify slot change = ⟨f.handles, f.objects.modify k change⟩ := by
  simp only [modify, hhandle, modifyObject]

theorem host_modify (hx : f.host slot = .ok x) : (f.modify slot change).host slot = .ok (change x) := by
  obtain ⟨k, hhandle, hk⟩ := host_eq_ok.mp hx
  rw [modify_eq hhandle]
  exact host_eq_ok.mpr ⟨k, hhandle, by simp only [Array.getElem?_modify, if_true, hk, Option.map_some]⟩

/-- Another parameter sees its own object, unless it is bound to the one that changed. -/
theorem host_modify_other (change : Host → Host) (hx : f.host slot = .ok x) (hy : f.host other = .ok y) :
    (f.modify slot change).host other = .ok y ∨ y = x ∧ (f.modify slot change).host other = .ok (change x) := by
  obtain ⟨k, hhandle, hk⟩ := host_eq_ok.mp hx
  obtain ⟨j, hother, hj⟩ := host_eq_ok.mp hy
  rw [modify_eq hhandle]
  by_cases hkj : k = j
  · subst hkj
    refine .inr ⟨Option.some.inj (hj.symm.trans hk), host_eq_ok.mpr ⟨k, hother, ?_⟩⟩
    simp only [Array.getElem?_modify, if_true, hk, Option.map_some]
  · refine .inl (host_eq_ok.mpr ⟨j, hother, ?_⟩)
    simp only [Array.getElem?_modify, hkj, if_false, hj]

theorem modify_modify (hx : f.host slot = .ok x) (change' : Host → Host) :
    (f.modify slot change).modify slot change' = f.modify slot fun x => change' (change x) := by
  obtain ⟨k, hhandle, _⟩ := host_eq_ok.mp hx
  have hhandle' : (f.modify slot change).handles[slot]? = some (.object k) := by rwa [modify_eq hhandle]
  rw [modify_eq hhandle', modify_eq hhandle, modify_eq hhandle]
  refine congrArg (Frame.mk f.handles) (Array.ext_getElem? fun j => ?_)
  simp only [Array.getElem?_modify]
  split <;> simp [Option.map_map, Function.comp_def]

/-- Changes that do the same to the object behind a parameter are the same. -/
theorem modify_congr {change' : Host → Host} (hx : f.host slot = .ok x) (h : change x = change' x) :
    f.modify slot change = f.modify slot change' := by
  obtain ⟨k, hhandle, hk⟩ := host_eq_ok.mp hx
  rw [modify_eq hhandle, modify_eq hhandle]
  refine congrArg (Frame.mk f.handles) (Array.ext_getElem? fun j => ?_)
  rw [Array.getElem?_modify, Array.getElem?_modify]
  split
  · rename_i hkj
    subst hkj
    rw [hk, Option.map_some, Option.map_some, h]
  · rfl

theorem modify_eq_self (hx : f.host slot = .ok x) (hchange : change x = x) : f.modify slot change = f := by
  obtain ⟨k, hhandle, _⟩ := host_eq_ok.mp hx
  have hid : f.modify slot id = f := by
    rw [modify_eq hhandle]
    refine congrArg (Frame.mk f.handles) (Array.ext_getElem? fun j => ?_)
    rw [Array.getElem?_modify]
    split <;> simp
  have hsame : change x = id x := hchange
  rw [modify_congr hx hsame, hid]

/-- The next sample of an image is written when those before it have been. -/
theorem write_overwrite {dst : ImageBuffer} {value : Nat → Int} {i : Nat} (hdst : f.host slot = .ok (.image dst))
    (hi : i < dst.samples.size) : (f.modify slot fun _ => .image (dst.overwrite i value)).write slot i (value i) =
      .ok (f.modify slot fun _ => .image (dst.overwrite (i + 1) value)) := by
  have himage : (f.modify slot fun _ => .image (dst.overwrite i value)).image slot = .ok (dst.overwrite i value) :=
    image_eq_ok.mpr (host_modify hdst)
  have hlt : i < (dst.overwrite i value).samples.size := by rwa [ImageBuffer.size_overwrite]
  simp only [write, himage, hlt, if_true, Except.ok.injEq]
  rw [modify_modify hdst]
  refine modify_congr hdst ?_
  simp only [ImageBuffer.set_overwrite]

end Frame

namespace Kernel

/-- The item that a table has for a sample. -/
def lookedUp (src : ImageBuffer) (table : ArrayBuffer) (i : Nat) : Int :=
  table.slots.getD (src.samples.getD i 0).toNat 0

/-- The first sample that a table has no item for. -/
def firstPast (src : ImageBuffer) (table : ArrayBuffer) : Option Nat :=
  (List.range src.samples.size).find? fun i => table.len ≤ (src.samples.getD i 0).toNat

/-- The lookup of one sample. -/
def lookUpAt (table : ArrayBuffer) (i : Nat) (f : Frame) : Except Halt Frame := do
  let v ← f.sample 0 i
  if table.len ≤ v.toNat then
    throw (.failed f)
  match table.get? v.toNat with
  | some item => f.write 2 i item
  | none => throw .astray

variable {f : Frame} {known : Known}

/-- What the rule of the lookup knows: two byte images of one extent and a table. -/
theorem tableLookup_known (h : f.Ready tableLookup known) : ∃ src table dst, f.host 0 = .ok (.image src) ∧
    f.host 1 = .ok (.array table) ∧ f.host 2 = .ok (.image dst) ∧
      src.samples.size = src.width.toNat * src.height.toNat ∧ dst.samples.size = src.samples.size := by
  obtain ⟨_, hrule, hset⟩ := h.accepted
  obtain ⟨input, hinput, hrule⟩ := bind_eq_ok.mp hrule
  obtain ⟨_, hsource, hrule⟩ := bind_eq_ok.mp hrule
  obtain ⟨declared, hdeclared, hrule⟩ := bind_eq_ok.mp hrule
  obtain ⟨_, hrule⟩ := Rule.unless_refused_eq_ok.mp hrule
  obtain ⟨_, _, hrule⟩ := bind_eq_ok.mp hrule
  obtain ⟨format, hchoose, hrule⟩ := bind_eq_ok.mp hrule
  cases hrule
  have hbyte : input.format = .u8 := by simpa using (Rule.requireFormat_eq_ok.mp hsource).1
  have htarget : format = .u8 := by simpa using (Rule.chooseFormat_eq_ok.mp hchoose).1
  obtain ⟨src, hsrc, hsinfo⟩ := h.suits.image (Rule.inputImage_eq_ok.mp hinput)
  obtain ⟨table, htable, _⟩ := h.suits.array (Rule.array_eq_ok.mp hdeclared)
  obtain ⟨dst, hdst, hdinfo⟩ := h.suits.image (hset.image (List.mem_singleton.mpr rfl))
  obtain ⟨hw, hh, hf⟩ := ImageBuffer.fields_of_info hsinfo
  refine ⟨src, table, dst, hsrc, htable, hdst, ?_, ?_⟩
  · rw [src.size_eq, hf, hbyte]
    exact Nat.mul_one _
  · rw [ImageBuffer.size_of_info hdinfo, ImageBuffer.size_of_info hsinfo, htarget, hbyte]
    rfl

/-- The frame before a sample is looked up: the samples before it have been replaced. -/
def partway (f : Frame) (src dst : ImageBuffer) (table : ArrayBuffer) (i : Nat) : Frame :=
  f.modify 2 fun _ => .image (dst.overwrite i (lookedUp src table))

variable {src dst : ImageBuffer} {table : ArrayBuffer} {i : Nat}

theorem sample_partway (hsrc : f.host 0 = .ok (.image src)) (hdst : f.host 2 = .ok (.image dst))
    (hi : i < src.samples.size) : (partway f src dst table i).sample 0 i = .ok (src.samples.getD i 0) := by
  have hv : src.samples[i]? = some (src.samples.getD i 0) := by simp [hi]
  rcases Frame.host_modify_other (fun _ => .image (dst.overwrite i (lookedUp src table))) hdst hsrc with
    hkept | ⟨hboth, hchanged⟩
  · exact Frame.sample_of_host hkept hv
  · -- the image is looked up in place, and this sample has not been written yet
    cases hboth
    refine Frame.sample_of_host hchanged ?_
    rw [ImageBuffer.getElem?_overwrite, if_neg (Nat.lt_irrefl i), hv]

theorem write_partway (hdst : f.host 2 = .ok (.image dst)) (hi : i < dst.samples.size) :
    (partway f src dst table i).write 2 i (lookedUp src table i) = .ok (partway f src dst table (i + 1)) :=
  Frame.write_overwrite hdst hi

/-- One lookup stops if the sample is past the table, and else it replaces the sample. -/
theorem lookUpAt_partway (hsrc : f.host 0 = .ok (.image src)) (hdst : f.host 2 = .ok (.image dst))
    (hsize : dst.samples.size = src.samples.size) (hi : i < src.samples.size) :
    lookUpAt table i (partway f src dst table i) =
      if table.len ≤ (src.samples.getD i 0).toNat then .error (.failed (partway f src dst table i))
      else .ok (partway f src dst table (i + 1)) := by
  rw [lookUpAt, sample_partway hsrc hdst hi]
  generalize hv : (src.samples.getD i 0).toNat = v
  by_cases hpast : table.len ≤ v
  · simp only [hpast, if_true, Bind.bind, Except.bind, hv]
    rfl
  · have hslot : v < table.slots.size := by
      rw [table.size_eq]
      exact Nat.lt_of_lt_of_le (Nat.not_le.mp hpast) table.len_le
    have hitem : table.get? v = some (lookedUp src table i) := by
      rw [lookedUp, hv]
      simp [ArrayBuffer.get?, hslot]
    simp only [hpast, if_false, Bind.bind, Except.bind, hv, hitem]
    exact write_partway hdst (hsize ▸ hi)

/-- The lookup writes the items of all samples before the first that is past the table. -/
theorem tableLookup_eq (border : Border) (hsrc : f.host 0 = .ok (.image src)) (htable : f.host 1 = .ok (.array table))
    (hdst : f.host 2 = .ok (.image dst)) (hcount : src.samples.size = src.width.toNat * src.height.toNat)
    (hsame : dst.samples.size = src.samples.size) : tableLookup.effect border f =
      match firstPast src table with
      | none => .ok (partway f src dst table src.samples.size)
      | some i => .error (.failed (partway f src dst table i)) := by
  have hstart : partway f src dst table 0 = f := Frame.modify_eq_self hdst (by rw [ImageBuffer.overwrite_zero])
  have heffect : tableLookup.effect border f =
      loop (lookUpAt table) src.samples.size 0 (partway f src dst table 0) := by
    rw [hstart, hcount]
    show (f.image 0 >>= _) = _
    rw [Frame.image_eq_ok.mpr hsrc]
    show (f.array 1 >>= _) = _
    rw [Frame.array_eq_ok.mpr htable]
    rfl
  rw [heffect, loop_eq_find (fun i => table.len ≤ (src.samples.getD i 0).toNat)
    (fun i => .failed (partway f src dst table i)), List.range_eq_range'.symm, Nat.zero_add]
  · rfl
  · intro i _ hi
    rw [Nat.zero_add] at hi
    simp only [lookUpAt_partway hsrc hdst hsame hi, decide_eq_true_eq]

theorem effect_tableLookup (border : Border) (h : f.Ready tableLookup known) : ∃ src table dst,
    f.host 0 = .ok (.image src) ∧ f.host 1 = .ok (.array table) ∧ f.host 2 = .ok (.image dst) ∧
      tableLookup.effect border f =
        match firstPast src table with
        | none => .ok (partway f src dst table src.samples.size)
        | some i => .error (.failed (partway f src dst table i)) := by
  obtain ⟨src, table, dst, hsrc, htable, hdst, hcount, hsame⟩ := tableLookup_known h
  exact ⟨src, table, dst, hsrc, htable, hdst, tableLookup_eq border hsrc htable hdst hcount hsame⟩

end Kernel

end VisionGraph
