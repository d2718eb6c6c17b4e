import VisionGraph.Kernel.Neighbourhood
import VisionGraph.Proofs.KernelSafety

/-! What a kernel over neighbourhoods makes of an image. The samples around a pixel are named by their places, with
the border's answer for places outside; a run then leaves in every pixel of the output what the samples around the
same pixel of the input reduce to. -/
namespace VisionGraph

/-- A loop comes to its end with what holds after its last round. -/
theorem loop_invariant {σ ε : Type} {step : Nat → σ → Except ε σ} (P : Nat → σ → Prop) {count : Nat} {s : σ}
    (hstep : ∀ j s, j < count → P j s → ∃ t, step j s = .ok t ∧ P (j + 1) t) (hs : P 0 s) :
    ∃ t, loop step count 0 s = .ok t ∧ P count t := by
  -- the rounds that are left are those from a number on
  have hrounds (left i : Nat) (s : σ) (hi : i + left = count) (hs : P i s) :
      ∃ t, loop step left i s = .ok t ∧ P count t := by
    induction left generalizing i s with
    | zero =>
      rw [Nat.add_zero] at hi
      exact ⟨s, rfl, hi ▸ hs⟩
    | succ left ih =>
      obtain ⟨t, ht, hpt⟩ := hstep i s (by omega) hs
      obtain ⟨u, hu, hpu⟩ := ih (i + 1) t (by omega) hpt
      refine ⟨u, ?_, hpu⟩
      simp only [loop, ht]
      exact hu
  exact hrounds count 0 s (Nat.zero_add count) hs

/-- A step that is taken or not, and what follows it. -/
theorem bind_ite_eq_ok {ε α β : Type} {c : Prop} [Decidable c] {x : Except ε α} {a b : α} {next : α → Except ε β}
    {r : β} (hstep : (if c then x else .ok a) = .ok b) (hnext : next b = .ok r) :
    (if c then x >>= next else .ok a >>= next) = .ok r := by
  by_cases hc : c
  · rw [if_pos hc] at hstep ⊢
    exact bind_eq_ok.mpr ⟨b, hstep, hnext⟩
  · rw [if_neg hc] at hstep ⊢
    exact bind_eq_ok.mpr ⟨b, hstep, hnext⟩

/-- A step that ends with what the rest needs, and the rest. -/
theorem exists_bind {ε α β : Type} {x : Except ε α} {next : α → Except ε β} {P : α → Prop} {Q : β → Prop}
    (hx : ∃ a, x = .ok a ∧ P a) (hnext : ∀ a, P a → ∃ b, next a = .ok b ∧ Q b) : ∃ b, x >>= next = .ok b ∧ Q b := by
  obtain ⟨a, rfl, ha⟩ := hx
  exact hnext a ha

/-- A step whose result is known, and the rest. -/
theorem exists_bind_ok {ε α β : Type} {x : Except ε α} {a : α} {next : α → Except ε β} {Q : β → Prop} (hx : x = .ok a)
    (hnext : ∃ b, next a = .ok b ∧ Q b) : ∃ b, x >>= next = .ok b ∧ Q b := by
  subst hx
  exact hnext

/-! ### Pixels -/

theorem column_of_flat {w x y : Nat} (hx : x < w) : (y * w + x) % w = x := by
  rw [Nat.mul_comm, Nat.mul_add_mod, Nat.mod_eq_of_lt hx]

theorem row_of_flat {w x y : Nat} (hx : x < w) : (y * w + x) / w = y := by
  rw [Nat.mul_comm, Nat.mul_add_div (by omega), Nat.div_eq_of_lt hx, Nat.add_zero]

namespace ImageBuffer

variable {b c : ImageBuffer} {border : Border} {width height : UInt32} {format : Format} {x y : Nat} {n : Nat}

/-- The sample in a column and a row of a one-channel image. -/
def pixel (b : ImageBuffer) (x y : Nat) : Int := b.samples.getD (y * b.width.toNat + x) 0

theorem samples_getElem? {i : Nat} (hone : b.format.channels = 1) (hi : i < b.width.toNat * b.height.toNat) :
    b.samples[i]? = some (b.pixel (i % b.width.toNat) (i / b.width.toNat)) := by
  have hlt : i < b.samples.size := by rwa [b.size_eq, hone, Nat.mul_one]
  have hflat : i / b.width.toNat * b.width.toNat + i % b.width.toNat = i := Nat.div_add_mod' i _
  rw [pixel, hflat, Array.getElem?_eq_getElem hlt, Array.getD_eq_getD_getElem?, Array.getElem?_eq_getElem hlt,
    Option.getD_some]

theorem extent_of_info (h : b.info = .known width height format) :
    b.width = width ∧ b.height = height ∧ b.format = format :=
  @fields_of_info b ⟨width, height, format⟩ h

/-- Images of one shape whose samples agree are equal. -/
theorem ext_sample (hinfo : b.info = c.info) (h : ∀ i < b.samples.size, b.samples.getD i 0 = c.samples.getD i 0) :
    b = c := by
  obtain ⟨width, height, format, samples, size_eq, fits⟩ := b
  obtain ⟨width', height', format', samples', size_eq', fits'⟩ := c
  obtain ⟨rfl, rfl, rfl⟩ := extent_of_info hinfo
  have hsame : samples = samples' := by
    refine Array.ext (size_eq.trans size_eq'.symm) fun i hi hi' => ?_
    simpa [hi, hi'] using h i hi
  subst hsame
  rfl

/-- Images of one shape whose pixels agree are equal. -/
theorem ext_pixel (hinfo : b.info = c.info) (hone : b.format.channels = 1)
    (h : ∀ x y, x < b.width.toNat → y < b.height.toNat → b.pixel x y = c.pixel x y) : b = c := by
  refine ext_sample hinfo fun i hi => ?_
  rw [b.size_eq, hone, Nat.mul_one] at hi
  have hw : 0 < b.width.toNat := Nat.pos_of_ne_zero fun hzero => by simp [hzero] at hi
  have hflat : i / b.width.toNat * b.width.toNat + i % b.width.toNat = i := Nat.div_add_mod' i _
  have hpixel := h (i % b.width.toNat) (i / b.width.toNat) (Nat.mod_lt i hw) (Nat.div_lt_of_lt_mul hi)
  rw [pixel, pixel, ← (extent_of_info hinfo).1, hflat] at hpixel
  exact hpixel

/-- The one-channel image with given pixels. -/
def ofPixels (width height : UInt32) (format : Format) (value : Nat → Nat → Int) : ImageBuffer :=
  generate width height format fun i => value (i % width.toNat) (i / width.toNat)

theorem pixel_ofPixels (hone : format.channels = 1) (value : Nat → Nat → Int) (hx : x < width.toNat)
    (hy : y < height.toNat) : (ofPixels width height format value).pixel x y = format.element.wrap (value x y) := by
  have hlt : y * width.toNat + x < width.toNat * height.toNat := flat_lt hy hx
  simp [pixel, ofPixels, generate, Array.getD_eq_getD_getElem?, hone, hlt, column_of_flat hx, row_of_flat hx]

/-- A sample of an image is a stored number. -/
theorem holds_sample (b : ImageBuffer) (i : Nat) : b.format.element.Holds (b.samples.getD i 0) := by
  rw [Array.getD_eq_getD_getElem?]
  cases hv : b.samples[i]? with
  | none => exact b.format.element.holds_zero
  | some v => exact b.fits v (Array.mem_of_getElem? hv)

theorem holds_pixel (b : ImageBuffer) (x y : Nat) : b.format.element.Holds (b.pixel x y) := b.holds_sample _

/-! ### Samples around a pixel -/

/-- The pixel of an axis of `n` pixels that is nearest to a coordinate. -/
def nearest (n : Nat) (i : Int) : Nat := (min i (n - 1)).toNat

theorem nearest_lt (hn : 0 < n) (i : Int) : nearest n i < n := by
  unfold nearest
  omega

/-- The sample at a place; outside of the image it is the nearest sample or the constant of the border. -/
def around (b : ImageBuffer) (border : Border) (x y : Int) : Int :=
  match border with
  | .replicate => b.pixel (nearest b.width.toNat x) (nearest b.height.toNat y)
  | .constant v =>
    if 0 ≤ x ∧ x < b.width.toNat ∧ 0 ≤ y ∧ y < b.height.toNat then b.pixel x.toNat y.toNat else v.toNat

/-- The nine samples around a place. -/
def window (b : ImageBuffer) (border : Border) (x y : Int) : Taps where
  p0 := b.around border (x - 1) (y - 1)
  p1 := b.around border x (y - 1)
  p2 := b.around border (x + 1) (y - 1)
  p3 := b.around border (x - 1) y
  p4 := b.around border x y
  p5 := b.around border (x + 1) y
  p6 := b.around border (x - 1) (y + 1)
  p7 := b.around border x (y + 1)
  p8 := b.around border (x + 1) (y + 1)

/-- Every pixel replaced by what the samples around it reduce to. -/
def filtered (b : ImageBuffer) (border : Border) (format : Format) (reduce : Taps → Int) : ImageBuffer :=
  ofPixels b.width b.height format fun x y => reduce (b.window border x y)

theorem pixel_filtered (hone : format.channels = 1) (reduce : Taps → Int) (hx : x < b.width.toNat)
    (hy : y < b.height.toNat) :
    (b.filtered border format reduce).pixel x y = format.element.wrap (reduce (b.window border x y)) :=
  pixel_ofPixels hone _ hx hy

theorem pick_of_lt (hone : b.format.channels = 1) (hx : x < b.width.toNat) (hy : y < b.height.toNat) :
    b.pick border x y = some (b.pixel x y) := by
  have hlt : y * b.width.toNat + x < b.samples.size := by
    rw [b.size_eq, hone, Nat.mul_one]
    exact flat_lt hy hx
  unfold pick
  rw [if_pos ⟨hx, hy⟩, pixel, Array.getD_eq_getD_getElem?, Array.getElem?_eq_getElem hlt, Option.getD_some]

theorem along_replicate (hn : 0 < n) (i : Int) : Border.replicate.along n i = nearest n i := by
  simp only [Border.along, nearest]
  split
  · omega
  · split <;> omega

theorem along_constant (v : UInt8) (n : Nat) (i : Int) :
    (Border.constant v).along n i = if 0 ≤ i ∧ i < n then i.toNat else n := by
  simp only [Border.along]
  split
  · rw [if_neg (by omega)]
  · split
    · rw [if_pos (by omega)]
    · rw [if_neg (by omega)]

theorem pick_constant {v : UInt8} (h : ¬(x < b.width.toNat ∧ y < b.height.toNat)) :
    b.pick (.constant v) x y = some (v.toNat : Int) := by
  unfold pick
  rw [if_neg h]

/-- The sample that is fetched for a place is the one that the border tells. -/
theorem fetch_eq (hone : b.format.channels = 1) (hw : 0 < b.width.toNat) (hh : 0 < b.height.toNat) (x y : Int) :
    b.fetch border x y = some (b.around border x y) := by
  cases border with
  | replicate =>
    rw [fetch, along_replicate hw, along_replicate hh]
    exact pick_of_lt hone (nearest_lt hw x) (nearest_lt hh y)
  | constant v =>
    rw [fetch, along_constant, along_constant, around]
    by_cases hx : 0 ≤ x ∧ x < b.width.toNat
    · by_cases hy : 0 ≤ y ∧ y < b.height.toNat
      · rw [if_pos hx, if_pos hy, if_pos ⟨hx.1, hx.2, hy⟩]
        exact pick_of_lt hone (by omega) (by omega)
      · rw [if_pos hx, if_neg hy, if_neg fun h => hy h.2.2]
        exact pick_constant (by omega)
    · rw [if_neg hx, pick_constant (by omega), if_neg fun h => hx ⟨h.1, h.2.1⟩]

theorem gather_eq (hone : b.format.channels = 1) (hw : 0 < b.width.toNat) (hh : 0 < b.height.toNat) (x y : Int) :
    Taps.gather b border x y = some (b.window border x y) := by
  have hpick (x y : Int) := @fetch_eq b border hone hw hh x y
  unfold fetch at hpick
  simp only [Taps.gather, hpick]
  rfl

end ImageBuffer

/-! ### Writing through parameters -/

namespace Frame

variable {f g : Frame} {s t : Nat} {width height : UInt32} {format : Format} {value : Nat → Int} {x : Host}
  {change : Host → Host}

/-- Two parameters that are not bound to one object. -/
def Apart (f : Frame) (s t : Nat) : Prop :=
  ∀ k, f.handles[s]? = some (.object k) → f.handles[t]? ≠ some (.object k)

theorem Apart.symm (h : f.Apart s t) : f.Apart t s := fun k ht hs => h k hs ht

theorem Apart.of_handles (h : f.Apart s t) (hsame : g.handles = f.handles) : g.Apart s t := by
  unfold Apart
  rwa [hsame]

theorem handles_modify (f : Frame) (s : Nat) (change : Host → Host) : (f.modify s change).handles = f.handles := by
  unfold modify
  split <;> rfl

theorem isBound_of_handles (h : g.handles = f.handles) (slot : Nat) : g.isBound slot = f.isBound slot := by
  rw [isBound, h, isBound]

theorem isBound_of_host (h : f.host s = .ok x) : f.isBound s = true := by
  obtain ⟨k, hhandle, _⟩ := host_eq_ok.mp h
  rw [isBound, hhandle]

theorem host_modify_self (h : f.host s = .ok x) : (f.modify s change).host s = .ok (change x) := by
  obtain ⟨k, hhandle, hk⟩ := host_eq_ok.mp h
  refine host_eq_ok.mpr ⟨k, by rw [handles_modify, hhandle], ?_⟩
  simp [modify, hhandle, modifyObject, Array.getElem?_modify, hk]

theorem host_modify_of_apart (h : f.Apart s t) : (f.modify s change).host t = f.host t := by
  unfold modify
  split
  · rename_i k hhandle
    unfold host
    cases ht : f.handles[t]? with
    | none => rfl
    | some handle =>
      cases handle with
      | object j =>
        have hne : k ≠ j := by
          rintro rfl
          exact h k hhandle ht
        simp [modifyObject, Array.getElem?_modify, hne]
      | _ => rfl
  · rfl

/-- The frame in which every parameter has an object of its own. -/
def ofObjects (objects : Array Host) : Frame := ⟨(Array.range objects.size).map .object, objects⟩

theorem host_ofObjects {objects : Array Host} (h : objects[s]? = some x) : (ofObjects objects).host s = .ok x := by
  obtain ⟨hlt, _⟩ := Array.getElem?_eq_some_iff.mp h
  exact host_eq_ok.mpr ⟨s, by simp [ofObjects, hlt], h⟩

theorem isBound_ofObjects (objects : Array Host) (s : Nat) :
    (ofObjects objects).isBound s = decide (s < objects.size) := by
  by_cases hlt : s < objects.size <;> simp [isBound, ofObjects, hlt]

theorem apart_ofObjects (objects : Array Host) (hne : s ≠ t) : (ofObjects objects).Apart s t := by
  have hslot {s k : Nat} (h : (ofObjects objects).handles[s]? = some (.object k)) : s = k := by
    simp only [ofObjects, Array.getElem?_map, Option.map_eq_some_iff] at h
    obtain ⟨j, hj, hjk⟩ := h
    rw [Array.getElem?_range] at hj
    grind
  exact fun k hs ht => hne ((hslot hs).trans (hslot ht).symm)

/-- The first `n` samples behind a parameter are those of a function of the place. -/
def Painted (f : Frame) (slot n : Nat) (info : ImageMeta) (value : Nat → Int) : Prop :=
  ∃ out, f.host slot = .ok (.image out) ∧ out.info = info ∧
    ∀ j < n, out.samples[j]? = some (out.format.element.wrap (value j))

theorem Painted.of_host {n : Nat} {info : ImageMeta} (h : f.Painted s n info value) (hsame : g.host s = f.host s) :
    g.Painted s n info value := by
  obtain ⟨out, hout, hrest⟩ := h
  exact ⟨out, hsame.trans hout, hrest⟩

/-- One more sample is written; nothing behind the other parameters changes. -/
theorem Painted.write {i : Nat} (h : f.Painted s i (.known width height format) value)
    (hi : i < width.toNat * height.toNat * format.channels) :
    ∃ g, f.write s i (value i) = .ok g ∧ g.handles = f.handles ∧
      g.Painted s (i + 1) (.known width height format) value ∧ ∀ t, f.Apart s t → g.host t = f.host t := by
  obtain ⟨out, hout, hinfo, hdone⟩ := h
  have hsize : out.samples.size = width.toNat * height.toNat * format.channels := by
    obtain ⟨rfl, rfl, rfl⟩ := ImageBuffer.extent_of_info hinfo
    exact out.size_eq
  have hlt : i < out.samples.size := by rwa [hsize]
  unfold Frame.write
  simp only [image_eq_ok.mpr hout, if_pos hlt]
  refine ⟨_, rfl, handles_modify .., ?_, fun t ht => host_modify_of_apart ht⟩
  refine ⟨out.set i (value i), host_modify_self hout, hinfo, fun j hj => ?_⟩
  show (out.samples.setIfInBounds i _)[j]? = _
  by_cases hij : i = j
  · subst hij
    exact Array.getElem?_setIfInBounds_self_of_lt hlt
  · rw [Array.getElem?_setIfInBounds_ne hij]
    exact hdone j (by omega)

/-- When all samples are written, the image is the one of the function. -/
theorem Painted.host_generate
    (h : f.Painted s (width.toNat * height.toNat * format.channels) (.known width height format) value) :
    f.host s = .ok (.image (.generate width height format value)) := by
  obtain ⟨out, hout, hinfo, hall⟩ := h
  have hsame : out = .generate width height format value := by
    obtain ⟨hw, hh, hf⟩ := ImageBuffer.extent_of_info hinfo
    refine ImageBuffer.ext_sample hinfo fun i hi => ?_
    rw [out.size_eq, hw, hh, hf] at hi
    simp [Array.getD_eq_getD_getElem?, hall i hi, ImageBuffer.generate, hi, hf]
  rw [hout, hsame]

/-- When all samples are written, the image is the filtered one. -/
theorem Painted.host_eq {b : ImageBuffer} {border : Border} {reduce : Taps → Int} (hone : format.channels = 1)
    (h : f.Painted s (b.width.toNat * b.height.toNat) (.known b.width b.height format) fun i => reduce (b.window border
      (i % b.width.toNat : Nat) (i / b.width.toNat : Nat))) :
    f.host s = .ok (.image (b.filtered border format reduce)) := by
  apply Painted.host_generate
  rwa [hone, Nat.mul_one]

end Frame

/-- So far as the parameter is bound, its first `n` pixels are what the samples around them reduce to. -/
def Frame.PaintedIfBound (f : Frame) (slot n : Nat) (src : ImageBuffer) (border : Border) (reduce : Taps → Int) :
    Prop :=
  f.isBound slot = true → f.Painted slot n (.known src.width src.height .s16) fun i =>
    reduce (src.window border (i % src.width.toNat : Nat) (i / src.width.toNat : Nat))

/-- A pixel is written if the parameter is bound. -/
theorem Frame.PaintedIfBound.write {f : Frame} {slot i : Nat} {src : ImageBuffer} {border : Border}
    {reduce : Taps → Int} (h : f.PaintedIfBound slot i src border reduce)
    (hi : i < src.width.toNat * src.height.toNat) :
    ∃ g, (if f.isBound slot then f.write slot i
        (reduce (src.window border (i % src.width.toNat : Nat) (i / src.width.toNat : Nat))) else .ok f) = .ok g ∧
      g.handles = f.handles ∧ g.PaintedIfBound slot (i + 1) src border reduce ∧
      ∀ t, f.Apart slot t → g.host t = f.host t := by
  by_cases hbound : f.isBound slot = true
  · obtain ⟨g, hwrite, hsame, hnext, hothers⟩ := (h hbound).write (by simpa [Format.channels] using hi)
    exact ⟨g, by rw [if_pos hbound]; exact hwrite, hsame, fun _ => hnext, hothers⟩
  · exact ⟨f, if_neg hbound, rfl, fun hyes => absurd hyes hbound, fun _ _ => rfl⟩

theorem Frame.PaintedIfBound.of_host {f g : Frame} {slot n : Nat} {src : ImageBuffer} {border : Border}
    {reduce : Taps → Int} (h : f.PaintedIfBound slot n src border reduce) (hhandles : g.handles = f.handles)
    (hsame : g.host slot = f.host slot) : g.PaintedIfBound slot n src border reduce := by
  intro hbound
  rw [isBound_of_handles hhandles] at hbound
  exact (h hbound).of_host hsame

namespace Kernel

variable {f : Frame} {src : ImageBuffer} {border : Border}

/-- The loop over all neighbourhoods keeps what each round keeps, as long as no round touches the input. -/
theorem overTaps_invariant (border : Border) (store : Nat → Taps → Frame → Except Halt Frame) (P : Nat → Frame → Prop)
    (hbytes : src.format = .u8) (hinput : ∀ i g, P i g → g.host 0 = .ok (.image src)) (hstart : P 0 f)
    (hround : ∀ i g, i < src.width.toNat * src.height.toNat → P i g →
      ∃ g', store i (src.window border (i % src.width.toNat : Nat) (i / src.width.toNat : Nat)) g = .ok g' ∧
        P (i + 1) g') :
    ∃ g, overTaps store border f = .ok g ∧ P (src.width.toNat * src.height.toNat) g := by
  have hone : src.format.channels = 1 := by rw [hbytes]; rfl
  unfold overTaps
  rw [Frame.image_eq_ok.mpr (hinput 0 f hstart)]
  refine loop_invariant P (fun i g hlt hg => ?_) hstart
  have hw : 0 < src.width.toNat := Nat.pos_of_ne_zero fun hzero => by simp [hzero] at hlt
  have hh : 0 < src.height.toNat := Nat.pos_of_ne_zero fun hzero => by simp [hzero] at hlt
  rw [Frame.image_eq_ok.mpr (hinput i g hg)]
  simp only [bind, Except.bind, ImageBuffer.gather_eq hone hw hh]
  exact hround i g hlt hg

/-- The input and the output of a filter: byte images of one extent, in different objects. -/
structure Filters (f : Frame) (src : ImageBuffer) : Prop where
  input : f.host 0 = .ok (.image src)
  bytes : src.format = .u8
  output : ∃ dst, f.host 1 = .ok (.image dst) ∧ dst.info = src.info
  apart : f.Apart 1 0

/-- The frame in which a filter finds an image and a blank output. -/
def filterFrame (src : ImageBuffer) : Frame :=
  .ofObjects #[.image src, .image (.zero src.width src.height .u8)]

theorem filters_filterFrame (hbytes : src.format = .u8) : Filters (filterFrame src) src where
  input := Frame.host_ofObjects rfl
  bytes := hbytes
  output := ⟨_, Frame.host_ofObjects rfl, by simp [ImageBuffer.info, ImageBuffer.zero, hbytes]⟩
  apart := Frame.apart_ofObjects _ (by decide)

/-- A filter leaves the filtered image in its output. -/
theorem Filters.run (h : Filters f src) (border : Border) (name : String) (number : UInt32) (reduction : String)
    (helpers : List Helper) (reduce : Taps → Int) :
    ∃ g, (filter name number reduction helpers reduce).effect border f = .ok g ∧ g.host 0 = .ok (.image src) ∧
      g.host 1 = .ok (.image (src.filtered border .u8 reduce)) := by
  obtain ⟨dst, hdst, hinfo⟩ := h.output
  have hinfo : dst.info = .known src.width src.height .u8 := by rw [hinfo, ImageBuffer.info, h.bytes]
  let P (i : Nat) (g : Frame) : Prop := g.handles = f.handles ∧ g.host 0 = .ok (.image src) ∧
    g.Painted 1 i (.known src.width src.height .u8) fun i =>
      reduce (src.window border (i % src.width.toNat : Nat) (i / src.width.toNat : Nat))
  have hstart : P 0 f := ⟨rfl, h.input, dst, hdst, hinfo, fun j hj => absurd hj (Nat.not_lt_zero j)⟩
  have hround (i : Nat) (g : Frame) (hi : i < src.width.toNat * src.height.toNat) (hg : P i g) : ∃ g',
      g.write 1 i (reduce (src.window border (i % src.width.toNat : Nat) (i / src.width.toNat : Nat))) = .ok g' ∧
        P (i + 1) g' := by
    obtain ⟨hhandles, hinput, hpainted⟩ := hg
    obtain ⟨g', hwrite, hsame, hnext, hothers⟩ := hpainted.write (by simpa [Format.channels] using hi)
    exact ⟨g', hwrite, hsame.trans hhandles, (hothers 0 (h.apart.of_handles hhandles)).trans hinput, hnext⟩
  obtain ⟨g, hg, _, hinput, hpainted⟩ := overTaps_invariant border (fun i taps f => f.write 1 i (reduce taps)) P h.bytes
    (fun _ _ hg => hg.2.1) hstart hround
  exact ⟨g, hg, hinput, hpainted.host_eq rfl⟩

/-- The filters that reduce a neighbourhood to one byte. -/
inductive Filter where
  | gaussian | box | median | dilate | erode
deriving DecidableEq, Repr

namespace Filter

def kernel : Filter → Kernel
  | .gaussian => gaussian3x3
  | .box => box3x3
  | .median => median3x3
  | .dilate => dilate3x3
  | .erode => erode3x3

def reduce : Filter → Taps → Int
  | .gaussian => Taps.gaussian
  | .box => Taps.mean
  | .median => Taps.median
  | .dilate => Taps.largest
  | .erode => Taps.smallest

theorem run (op : Filter) (border : Border) (h : Filters f src) :
    ∃ g, op.kernel.effect border f = .ok g ∧ g.host 0 = .ok (.image src) ∧
      g.host 1 = .ok (.image (src.filtered border .u8 op.reduce)) := by
  cases op <;> exact h.run border _ _ _ _ _

end Filter

/-- The input and the outputs of the gradients: a byte image and signed images of its extent, in different objects. -/
structure Differentiates (f : Frame) (src : ImageBuffer) : Prop where
  input : f.host 0 = .ok (.image src)
  bytes : src.format = .u8
  output : ∀ slot, slot = 1 ∨ slot = 2 → f.isBound slot = true →
    ∃ dst, f.host slot = .ok (.image dst) ∧ dst.info = .known src.width src.height .s16
  apart : f.Apart 1 0 ∧ f.Apart 2 0 ∧ f.Apart 1 2

/-- The frame in which both gradients are bound. -/
def gradientFrame (src : ImageBuffer) : Frame :=
  .ofObjects #[.image src, .image (.zero src.width src.height .s16), .image (.zero src.width src.height .s16)]

theorem differentiates_gradientFrame (hbytes : src.format = .u8) : Differentiates (gradientFrame src) src where
  input := Frame.host_ofObjects rfl
  bytes := hbytes
  output slot hslot _ := by
    rcases hslot with rfl | rfl <;> exact ⟨_, Frame.host_ofObjects rfl, rfl⟩
  apart := ⟨Frame.apart_ofObjects _ (by decide), Frame.apart_ofObjects _ (by decide),
    Frame.apart_ofObjects _ (by decide)⟩

/-- Writes the gradients that are bound. -/
def storeGradients (i : Nat) (taps : Taps) (f : Frame) : Except Halt Frame := do
  let f ← if f.isBound 1 then f.write 1 i taps.sobelX else .ok f
  if f.isBound 2 then f.write 2 i taps.sobelY else .ok f

/-- The gradients that are bound are left in their outputs. -/
theorem Differentiates.run (h : Differentiates f src) (border : Border) :
    ∃ g, sobel3x3.effect border f = .ok g ∧ g.host 0 = .ok (.image src) ∧
      (f.isBound 1 = true → g.host 1 = .ok (.image (src.filtered border .s16 Taps.sobelX))) ∧
      (f.isBound 2 = true → g.host 2 = .ok (.image (src.filtered border .s16 Taps.sobelY))) := by
  obtain ⟨hx0, hy0, hxy⟩ := h.apart
  let P (i : Nat) (g : Frame) : Prop := g.handles = f.handles ∧ g.host 0 = .ok (.image src) ∧
    g.PaintedIfBound 1 i src border Taps.sobelX ∧ g.PaintedIfBound 2 i src border Taps.sobelY
  have hblank (slot : Nat) (hslot : slot = 1 ∨ slot = 2) (reduce : Taps → Int) :
      f.PaintedIfBound slot 0 src border reduce := by
    intro hbound
    obtain ⟨dst, hdst, hinfo⟩ := h.output slot hslot hbound
    exact ⟨dst, hdst, hinfo, fun j hj => absurd hj (Nat.not_lt_zero j)⟩
  have hstart : P 0 f := ⟨rfl, h.input, hblank 1 (.inl rfl) _, hblank 2 (.inr rfl) _⟩
  have hround (i : Nat) (g : Frame) (hi : i < src.width.toNat * src.height.toNat) (hg : P i g) : ∃ g',
      storeGradients i (src.window border (i % src.width.toNat : Nat) (i / src.width.toNat : Nat)) g = .ok g' ∧
        P (i + 1) g' := by
    obtain ⟨hhandles, hinput, hpaintedX, hpaintedY⟩ := hg
    obtain ⟨mid, hmid, hsame, hnextX, hothers⟩ := hpaintedX.write hi
    have hmidHandles := hsame.trans hhandles
    obtain ⟨last, hlast, hsame', hnextY, hothers'⟩ :=
      (hpaintedY.of_host hsame (hothers 2 (hxy.of_handles hhandles))).write hi
    refine ⟨last, ?_, hsame'.trans hmidHandles, ?_, ?_, hnextY⟩
    · exact bind_ite_eq_ok hmid hlast
    · rw [hothers' 0 (hy0.of_handles hmidHandles), hothers 0 (hx0.of_handles hhandles), hinput]
    · exact hnextX.of_host hsame' (hothers' 1 (hxy.symm.of_handles hmidHandles))
  obtain ⟨g, hg, hhandles, hinput, hpaintedX, hpaintedY⟩ :=
    overTaps_invariant border storeGradients P h.bytes (fun _ _ hg => hg.2.1) hstart hround
  have hbound := Frame.isBound_of_handles hhandles
  exact ⟨g, hg, hinput, fun hx => (hpaintedX (hbound 1 ▸ hx)).host_eq rfl,
    fun hy => (hpaintedY (hbound 2 ▸ hy)).host_eq rfl⟩

end Kernel

end VisionGraph
