import VisionGraph.Proofs.Outline

/-! Frames whose objects fit what is known of the parameters. On such a frame every access that stays inside of the
metadata succeeds, and leaves a frame of the same outlines. -/
namespace VisionGraph

/-- A loop comes to its end when every step does, and keeps what every step keeps. -/
theorem exists_loop {σ ε : Type} {step : Nat → σ → Except ε σ} {P : σ → Prop} {left i : Nat} {s : σ}
    (hstep : ∀ j s, i ≤ j → j < i + left → P s → ∃ t, step j s = .ok t ∧ P t) (hs : P s) :
    ∃ t, loop step left i s = .ok t ∧ P t := by
  induction left generalizing i s with
  | zero => exact ⟨s, rfl, hs⟩
  | succ left ih =>
    obtain ⟨t, ht, hpt⟩ := hstep i s (Nat.le_refl i) (by omega) hs
    have hrest : ∀ j s, i + 1 ≤ j → j < i + 1 + left → P s → ∃ t, step j s = .ok t ∧ P t := by
      intro j s hij hj
      exact hstep j s (by omega) (by omega)
    obtain ⟨u, hu, hpu⟩ := ih hrest hpt
    refine ⟨u, ?_, hpu⟩
    simp only [loop, ht]
    exact hu

namespace Frame

variable {f g : Frame} {slot : Nat}

/-! ### What an access gives -/

theorem host_eq_ok {x : Host} :
    f.host slot = .ok x ↔ ∃ k : Nat, f.handles[slot]? = some (.object k) ∧ f.objects[k]? = some x := by
  unfold host
  cases f.handles[slot]? with
  | none => simp
  | some handle =>
    cases handle with
    | object k => cases hk : f.objects[k]? <;> simp [hk]
    | _ => simp

theorem image_eq_ok {b : ImageBuffer} : f.image slot = .ok b ↔ f.host slot = .ok (.image b) := by
  unfold image
  cases f.host slot with
  | error e => simp
  | ok x => cases x <;> simp

theorem array_eq_ok {a : ArrayBuffer} : f.array slot = .ok a ↔ f.host slot = .ok (.array a) := by
  unfold array
  cases f.host slot with
  | error e => simp
  | ok x => cases x <;> simp

theorem pyramid_eq_ok {p : PyramidBuffer} : f.pyramid slot = .ok p ↔ f.host slot = .ok (.pyramid p) := by
  unfold pyramid
  cases f.host slot with
  | error e => simp
  | ok x => cases x <;> simp

theorem scalar_of_host {v : Scalar} (h : f.host slot = .ok (.scalar v)) : f.scalar slot = .ok v := by
  obtain ⟨k, hhandle, hk⟩ := host_eq_ok.mp h
  simp [scalar, hhandle, hk]

theorem scalar_of_constant {v : Scalar} (h : f.handles[slot]? = some (.constant v)) : f.scalar slot = .ok v := by
  simp [scalar, h]

theorem sample_of_host {b : ImageBuffer} (h : f.host slot = .ok (.image b)) {i : Nat} {v : Int}
    (hv : b.samples[i]? = some v) : f.sample slot i = .ok v := by
  simp [sample, image_eq_ok.mpr h, hv]

/-! ### Frames of the same outlines -/

/-- The same parameters, and objects that differ in their contents only. -/
structure Keeps (f g : Frame) : Prop where
  handles : g.handles = f.handles
  outlines : ∀ k : Nat, (g.objects[k]?).map Host.outline = (f.objects[k]?).map Host.outline

theorem Keeps.refl (f : Frame) : f.Keeps f := ⟨rfl, fun _ => rfl⟩

theorem Keeps.trans {h : Frame} (hfg : f.Keeps g) (hgh : g.Keeps h) : f.Keeps h :=
  ⟨hgh.handles.trans hfg.handles, fun k => (hgh.outlines k).trans (hfg.outlines k)⟩

theorem Keeps.isBound_eq (h : f.Keeps g) (slot : Nat) : g.isBound slot = f.isBound slot := by
  unfold isBound
  rw [h.handles]

theorem Keeps.exists_host (h : f.Keeps g) {x : Host} (hx : f.host slot = .ok x) :
    ∃ y, g.host slot = .ok y ∧ y.outline = x.outline := by
  obtain ⟨k, hhandle, hk⟩ := host_eq_ok.mp hx
  have hmap := h.outlines k
  rw [hk, Option.map_some] at hmap
  obtain ⟨y, hy, hout⟩ := Option.map_eq_some_iff.mp hmap
  exact ⟨y, host_eq_ok.mpr ⟨k, h.handles ▸ hhandle, hy⟩, hout⟩

/-- A change that leaves the outline of the object behind a parameter as it is. -/
theorem keeps_modify {change : Host → Host} (h : ∀ x, f.host slot = .ok x → (change x).outline = x.outline) :
    f.Keeps (f.modify slot change) := by
  unfold modify
  split
  · rename_i k hhandle
    refine ⟨rfl, fun j => ?_⟩
    dsimp only [modifyObject]
    rw [Array.getElem?_modify]
    split
    · rename_i hkj
      subst hkj
      cases hx : f.objects[k]? with
      | none => rfl
      | some x => simpa using h x (host_eq_ok.mpr ⟨k, hhandle, hx⟩)
    · rfl
  · exact .refl f

/-- A computation that comes to its end with a frame of the same outlines. -/
def Reaches (f : Frame) (x : Except Halt Frame) : Prop := ∃ g, x = .ok g ∧ f.Keeps g

theorem Reaches.ok (f : Frame) : f.Reaches (.ok f) := ⟨f, rfl, .refl f⟩

theorem Reaches.bind {x : Except Halt Frame} {next : Frame → Except Halt Frame} (hx : f.Reaches x)
    (hnext : ∀ g, f.Keeps g → g.Reaches (next g)) : f.Reaches (x >>= next) := by
  obtain ⟨g, rfl, hg⟩ := hx
  obtain ⟨h, hh, hkeeps⟩ := hnext g hg
  exact ⟨h, hh, hg.trans hkeeps⟩

/-- A part of a computation that is left out where its condition does not hold. -/
theorem Reaches.bindIf {c : Prop} [Decidable c] {x : Except Halt Frame} {next : Frame → Except Halt Frame}
    (hx : c → f.Reaches x) (hnext : ∀ g, f.Keeps g → g.Reaches (next g)) :
    f.Reaches (if c then x >>= next else .ok f >>= next) := by
  split
  · rename_i hc
    exact (hx hc).bind hnext
  · exact (Reaches.ok f).bind hnext

theorem Reaches.ifOk {c : Prop} [Decidable c] {x : Except Halt Frame} (hx : c → f.Reaches x) :
    f.Reaches (if c then x else .ok f) := by
  split
  · rename_i hc
    exact hx hc
  · exact .ok f

/-- What is read before a computation that comes to its end. -/
theorem Reaches.after {α : Type} {x : Except Halt α} {a : α} {next : α → Except Halt Frame} (hx : x = .ok a)
    (hnext : f.Reaches (next a)) : f.Reaches (x >>= next) := by
  rw [hx]
  exact hnext

theorem reaches_modify {change : Host → Host} (h : ∀ x, f.host slot = .ok x → (change x).outline = x.outline) :
    f.Reaches (.ok (f.modify slot change)) :=
  ⟨_, rfl, keeps_modify h⟩

theorem Reaches.loop {step : Nat → Frame → Except Halt Frame} {count : Nat}
    (hstep : ∀ j g, j < count → f.Keeps g → g.Reaches (step j g)) : f.Reaches (loop step count 0 f) := by
  refine exists_loop (P := f.Keeps) (fun j g _ hj hg => ?_) (.refl f)
  obtain ⟨h, hh, hkeeps⟩ := hstep j g (by omega) hg
  exact ⟨h, hh, hg.trans hkeeps⟩

/-- A loop over something else before a computation that comes to its end. -/
theorem Reaches.afterLoop {σ : Type} {step : Nat → σ → Except Halt σ} {count : Nat} {s : σ}
    {next : σ → Except Halt Frame} (P : σ → Prop) (hstep : ∀ j s, j < count → P s → ∃ t, step j s = .ok t ∧ P t)
    (hs : P s) (hnext : ∀ t, P t → f.Reaches (next t)) : f.Reaches (VisionGraph.loop step count 0 s >>= next) := by
  have hround : ∀ j s, 0 ≤ j → j < 0 + count → P s → ∃ t, step j s = .ok t ∧ P t := by
    intro j s _ hj
    exact hstep j s (by omega)
  obtain ⟨t, ht, hpt⟩ := exists_loop hround hs
  exact .after ht (hnext t hpt)

/-! ### Frames that suit what is known -/

/-- Every bound parameter has an object that fits, or the constant that is known of it. -/
structure Suits (f : Frame) (known : Known) : Prop where
  object : ∀ (slot : Nat) (m : Meta), Rule.slotMeta known slot = some m → m.value? = none →
    ∃ x, f.host slot = .ok x ∧ x.Fits m
  constant : ∀ (slot : Nat) (m : Meta) (v : Scalar), Rule.slotMeta known slot = some m → m.value? = some v →
    f.handles[slot]? = some (.constant v)
  unbound : ∀ slot : Nat, Rule.slotMeta known slot = none → f.isBound slot = false

namespace Suits

variable {known : Known}

variable (h : f.Suits known)

include h

theorem keeps (hk : f.Keeps g) : g.Suits known where
  object slot m hm hv := by
    obtain ⟨x, hx, hfits⟩ := h.object slot m hm hv
    obtain ⟨y, hy, hout⟩ := hk.exists_host hx
    exact ⟨y, hy, hfits.of_outline hout⟩
  constant slot m v hm hv := by
    rw [hk.handles]
    exact h.constant slot m v hm hv
  unbound slot hnone := by
    rw [hk.isBound_eq]
    exact h.unbound slot hnone

/-- What a bound parameter is known to be. -/
theorem exists_meta (hbound : f.isBound slot = true) : ∃ m, Rule.slotMeta known slot = some m := by
  cases hm : Rule.slotMeta known slot with
  | none =>
    rw [h.unbound slot hm] at hbound
    contradiction
  | some m => exact ⟨m, rfl⟩

theorem image {s : ImageShape} (hs : Rule.slotMeta known slot = some (.image (Rule.shapeMeta s))) :
    ∃ b, f.host slot = .ok (.image b) ∧ b.info = Rule.shapeMeta s := by
  obtain ⟨x, hx, hfits⟩ := h.object slot _ hs rfl
  obtain ⟨b, rfl, hb⟩ := hfits.image
  exact ⟨b, hx, hb⟩

theorem sample {s : ImageShape} (hs : Rule.slotMeta known slot = some (.image (Rule.shapeMeta s))) {i : Nat}
    (hi : i < s.pixels * s.format.channels) : ∃ v, f.sample slot i = .ok v := by
  obtain ⟨b, hb, hinfo⟩ := h.image hs
  have hlt : i < b.samples.size := by rwa [ImageBuffer.size_of_info hinfo]
  exact ⟨_, sample_of_host hb (Array.getElem?_eq_getElem hlt)⟩

theorem write {s : ImageShape} (hs : Rule.slotMeta known slot = some (.image (Rule.shapeMeta s))) {i : Nat}
    (hi : i < s.pixels * s.format.channels) (v : Int) : f.Reaches (f.write slot i v) := by
  obtain ⟨b, hb, hinfo⟩ := h.image hs
  have hlt : i < b.samples.size := by rwa [ImageBuffer.size_of_info hinfo]
  simp only [Frame.write, image_eq_ok.mpr hb, hlt, if_true]
  refine reaches_modify fun x hx => ?_
  rw [hb] at hx
  cases hx
  rfl

theorem writeScalar {m : ScalarMeta} (hm : Rule.slotMeta known slot = some (.scalar m)) (hv : m.value = none)
    (v : Int) : f.Reaches (f.writeScalar slot v) := by
  obtain ⟨x, hx, hfits⟩ := h.object slot _ hm hv
  obtain ⟨held, rfl, _⟩ := hfits.scalar
  simp only [Frame.writeScalar, scalar_of_host hx]
  refine reaches_modify fun y hy => ?_
  rw [hx] at hy
  cases hy
  exact congrArg Outline.scalar (Scalar.type_ofElement _ _)

theorem array {m : ArrayMeta} (hm : Rule.slotMeta known slot = some (.array m)) :
    ∃ a, f.host slot = .ok (.array a) ∧ a.info = m := by
  obtain ⟨x, hx, hfits⟩ := h.object slot _ hm rfl
  obtain ⟨a, rfl, ha⟩ := hfits.array
  exact ⟨a, hx, ha⟩

theorem changeArray {m : ArrayMeta} (hm : Rule.slotMeta known slot = some (.array m))
    {change : ArrayBuffer → ArrayBuffer}
    (hchange : ∀ a, (change a).itemType = a.itemType ∧ (change a).capacity = a.capacity) :
    f.Reaches (f.changeArray slot change) := by
  obtain ⟨a, ha, _⟩ := h.array hm
  simp only [Frame.changeArray, array_eq_ok.mpr ha]
  refine reaches_modify fun x hx => ?_
  rw [ha] at hx
  cases hx
  simp only [Host.outline, hchange a]

end Suits

end Frame

end VisionGraph
