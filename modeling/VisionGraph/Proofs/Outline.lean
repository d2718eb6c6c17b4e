import VisionGraph.Buffer.Host
import VisionGraph.Proofs.Inference

/-! Outlines of host objects. A run changes the contents of an object and never its outline, and the outline alone
decides whether an object can be bound and which elements it has. -/
namespace VisionGraph

theorem Scalar.type_ofElement (t : ScalarType) (n : Int) : (Scalar.ofElement t n).type = t := by
  cases t <;> rfl

namespace ImageBuffer

variable {b : ImageBuffer} {s : ImageShape}

/-- The metadata of an image names its shape. -/
theorem fields_of_info (hb : b.info = Rule.shapeMeta s) :
    b.width = s.width ∧ b.height = s.height ∧ b.format = s.format := by
  simpa [info, Rule.shapeMeta, ImageMeta.known] using hb

theorem size_of_info (hb : b.info = Rule.shapeMeta s) : b.samples.size = s.pixels * s.format.channels := by
  obtain ⟨hw, hh, hf⟩ := fields_of_info hb
  rw [b.size_eq, hw, hh, hf, ImageShape.pixels]

@[simp] theorem info_set (b : ImageBuffer) (i : Nat) (v : Int) : (b.set i v).info = b.info := rfl

/-- A byte is an index below 256. -/
theorem toNat_lt_of_bytes (hb : b.format = .u8) {i : Nat} {v : Int} (hv : b.samples[i]? = some v) : v.toNat < 256 := by
  have hholds : b.format.element.Holds v := b.fits v (Array.mem_of_getElem? hv)
  have hrange : 0 ≤ v ∧ v ≤ 255 := by
    rw [hb, Element.holds_iff] at hholds
    exact hholds
  omega

end ImageBuffer

/-- An array may be larger than its metadata says, since the capacity is compared as a word. -/
theorem ArrayBuffer.le_capacity_of_info {a : ArrayBuffer} {t : ItemType} {c : UInt32} (h : a.info = .known t c) :
    c.toNat ≤ a.capacity := by
  have hc : UInt32.ofNat a.capacity = c := (by simpa [info, ArrayMeta.known] using h : _ ∧ _).2
  rw [← hc, UInt32.toNat_ofNat']
  exact Nat.mod_le _ _

/-- So may a delay. -/
theorem DelayBuffer.le_size_of_info {d : DelayBuffer} {m : DelayMeta} (h : d.info = m) : m.slots.toNat ≤ d.size := by
  rw [← h, info, UInt32.toNat_ofNat']
  exact Nat.mod_le _ _

/-! ### Objects that are laid out as they say -/

/-- The levels of a pyramid have the extents that its metadata gives them. -/
structure PyramidBuffer.Sound (p : PyramidBuffer) : Prop where
  count : ∀ n, p.info.levels = some n → p.levels.size = n.toNat
  level : ∀ (k : Nat) (b : ImageBuffer), p.levels[k]? = some b → p.info.levelMeta (UInt32.ofNat k) = some b.info

/-- The images of a delay are like its template. -/
def DelayBuffer.Sound (d : DelayBuffer) : Prop := ∀ b ∈ d.ring, b.info = d.template

/-- Whether an object is laid out as its metadata says; only the images inside of an object could differ. -/
def Host.Sound : Host → Prop
  | .pyramid p => p.Sound
  | .delay d => d.Sound
  | _ => True

def Bindings.Sound (b : Bindings) : Prop := ∀ (o : ObjectId) (x : Host), b.get? o = some x → x.Sound

/-- Whether an object is laid out as it says and can stand for an object with the given metadata. -/
def Host.Fits (x : Host) (info : Meta) : Prop := x.mismatch info = none ∧ x.Sound

/-! ### Fresh buffers -/

theorem ImageBuffer.info_of_ofMeta {m : ImageMeta} {b : ImageBuffer} (h : ofMeta m = .ok b) : b.info = m := by
  unfold ofMeta at h
  split at h
  · rename_i w ht f hw hh hf
    cases h
    obtain ⟨_, _, _⟩ := m
    cases hw
    cases hh
    cases hf
    rfl
  · cases h

theorem ArrayBuffer.info_of_ofMeta {m : ArrayMeta} {a : ArrayBuffer} (h : ofMeta m = .ok a) : a.info = m := by
  unfold ofMeta at h
  split at h
  · rename_i t c ht hc
    cases h
    obtain ⟨_, _⟩ := m
    cases ht
    cases hc
    simp [info, empty, ArrayMeta.known]
  · cases h

theorem PyramidBuffer.sound_zero (levels width height : UInt32) (format : Format) :
    (zero levels width height format).Sound where
  count n hn := by
    cases hn
    simp [zero]
  level k b hb := by
    obtain ⟨j, hj, rfl⟩ := Option.map_eq_some_iff.mp ((Array.getElem?_map ..).symm.trans hb)
    have hjk : j = k := by
      obtain ⟨_, hjk⟩ := Array.getElem?_eq_some_iff.mp hj
      simpa using hjk.symm
    subst hjk
    rfl

theorem PyramidBuffer.sound_of_ofMeta {m : PyramidMeta} {p : PyramidBuffer} (h : ofMeta m = .ok p) :
    p.info = m ∧ p.Sound := by
  unfold ofMeta at h
  split at h
  · rename_i n w ht f hn hw hh hf
    cases h
    obtain ⟨_, _, _, _⟩ := m
    cases hn
    cases hw
    cases hh
    cases hf
    exact ⟨rfl, sound_zero n w ht f⟩
  · cases h

theorem DelayBuffer.sound_of_ofMeta {m : DelayMeta} {d : DelayBuffer} (h : ofMeta m = .ok d) :
    d.info = m ∧ d.Sound := by
  unfold ofMeta make at h
  split at h
  · obtain ⟨slot, hslot, h⟩ := bind_eq_ok.mp h
    cases h
    refine ⟨by simp [info, size], fun b hb => ?_⟩
    obtain ⟨_, rfl⟩ := Array.mem_replicate.mp hb
    exact ImageBuffer.info_of_ofMeta hslot
  · cases h

/-! ### Outlines -/

/-- A host object without its contents. -/
inductive Outline where
  | image (info : ImageMeta)
  | scalar (type : ScalarType)
  | array (itemType : ItemType) (capacity : Nat)
  | pyramid (info : PyramidMeta) (levels : Array ImageMeta)
  | delay (template : ImageMeta) (ring : Array ImageMeta)
deriving DecidableEq

namespace Host

def outline : Host → Outline
  | .image b => .image b.info
  | .scalar v => .scalar v.type
  | .array a => .array a.itemType a.capacity
  | .pyramid p => .pyramid p.info (p.levels.map (·.info))
  | .delay d => .delay d.template (d.ring.map (·.info))

variable {x y : Host}

theorem Sound.of_outline (h : x.Sound) (hxy : y.outline = x.outline) : y.Sound := by
  cases x <;> cases y <;> simp only [outline, reduceCtorEq] at hxy
  case pyramid.pyramid p q =>
    obtain ⟨hinfo, hlevels⟩ := Outline.pyramid.inj hxy
    have hsize : q.levels.size = p.levels.size := by simpa using congrArg Array.size hlevels
    refine ⟨fun n hn => hsize.trans (h.count n (hinfo ▸ hn)), fun k b hb => ?_⟩
    -- the level of the other pyramid at this place has the same metadata
    have hget : (q.levels.map (·.info))[k]? = (p.levels.map (·.info))[k]? := by rw [hlevels]
    rw [Array.getElem?_map, Array.getElem?_map, hb] at hget
    obtain ⟨c, hc, hcb⟩ := Option.map_eq_some_iff.mp hget.symm
    have hlevel := h.level k c hc
    rwa [hcb, ← hinfo] at hlevel
  case delay.delay d e =>
    obtain ⟨htemplate, hring⟩ := Outline.delay.inj hxy
    intro b hb
    have hmem : b.info ∈ d.ring.map (·.info) := hring ▸ Array.mem_map_of_mem hb
    obtain ⟨c, hc, hcb⟩ := Array.mem_map.mp hmem
    rw [htemplate, ← hcb]
    exact h c hc
  all_goals trivial

/-- Whether an object can be bound depends on its outline only. -/
theorem mismatch_of_outline {info : Meta} (hxy : y.outline = x.outline) (h : x.mismatch info = none) :
    y.mismatch info = none := by
  cases x <;> cases y <;> simp only [outline, reduceCtorEq] at hxy <;> cases info <;> simp only [mismatch] at h ⊢
  case image.image.image => simp_all
  case scalar.scalar.scalar => simp_all
  case array.array.array a c m =>
    obtain ⟨htype, hcapacity⟩ := Outline.array.inj hxy
    have hinfo : c.info = a.info := by simp [ArrayBuffer.info, htype, hcapacity]
    simpa [hinfo] using h
  case pyramid.pyramid.pyramid => simp_all
  case delay.delay.delay d e m =>
    obtain ⟨htemplate, hring⟩ := Outline.delay.inj hxy
    have hsize : e.ring.size = d.ring.size := by simpa using congrArg Array.size hring
    have hinfo : e.info = d.info := by simp [DelayBuffer.info, DelayBuffer.size, htemplate, hsize]
    simpa [hinfo] using h
  all_goals cases h

theorem Fits.of_outline {info : Meta} (h : x.Fits info) (hxy : y.outline = x.outline) : y.Fits info :=
  ⟨mismatch_of_outline hxy h.1, h.2.of_outline hxy⟩

/-! ### What fits complete metadata -/

theorem Fits.image {m : ImageMeta} (h : x.Fits (.image m)) : ∃ b, x = .image b ∧ b.info = m := by
  have hx := h.1
  cases x <;> simp [mismatch] at hx
  case image b => exact ⟨b, rfl, hx⟩

theorem Fits.scalar {m : ScalarMeta} (h : x.Fits (.scalar m)) : ∃ v, x = .scalar v ∧ m.type = some v.type := by
  have hx := h.1
  cases x <;> simp [mismatch] at hx
  case scalar v => exact ⟨v, rfl, hx.symm⟩

theorem Fits.array {m : ArrayMeta} (h : x.Fits (.array m)) : ∃ a, x = .array a ∧ a.info = m := by
  have hx := h.1
  cases x <;> simp [mismatch] at hx
  case array a => exact ⟨a, rfl, hx⟩

theorem Fits.pyramid {m : PyramidMeta} (h : x.Fits (.pyramid m)) : ∃ p, x = .pyramid p ∧ p.info = m ∧ p.Sound := by
  obtain ⟨hx, hsound⟩ := h
  cases x <;> simp [mismatch] at hx
  case pyramid p => exact ⟨p, rfl, hx, hsound⟩

theorem Fits.delay {m : DelayMeta} (h : x.Fits (.delay m)) :
    ∃ d, x = .delay d ∧ d.template = m.template ∧ m.slots.toNat ≤ d.ring.size ∧ d.Sound := by
  obtain ⟨hx, hsound⟩ := h
  cases x <;> simp [mismatch] at hx
  case delay d =>
    subst hx
    refine ⟨d, rfl, rfl, ?_, hsound⟩
    simp only [DelayBuffer.info, DelayBuffer.size, UInt32.toNat_ofNat']
    exact Nat.mod_le _ _

/-! ### Fresh objects -/

/-- Fresh storage can be bound for the object that it was made for. -/
theorem fits_of_ofMeta {info : Meta} (hv : info.value? = none) (h : ofMeta info = .ok x) : x.Fits info := by
  cases info with
  | image m =>
    obtain ⟨b, hb, rfl⟩ := map_eq_ok.mp h
    exact ⟨if_pos (ImageBuffer.info_of_ofMeta hb), trivial⟩
  | scalar m =>
    simp only [ofMeta] at h
    split at h
    · cases h
    · rename_i t ht
      have hvalue : m.value = none := hv
      cases h
      refine ⟨if_pos ?_, trivial⟩
      rw [hvalue, Option.getD_none, Scalar.zero, Scalar.type_ofElement, ht]
  | array m =>
    obtain ⟨a, ha, rfl⟩ := map_eq_ok.mp h
    exact ⟨if_pos (ArrayBuffer.info_of_ofMeta ha), trivial⟩
  | pyramid m =>
    obtain ⟨p, hp, rfl⟩ := map_eq_ok.mp h
    obtain ⟨hinfo, hsound⟩ := PyramidBuffer.sound_of_ofMeta hp
    exact ⟨if_pos hinfo, hsound⟩
  | delay m =>
    obtain ⟨d, hd, rfl⟩ := map_eq_ok.mp h
    obtain ⟨hinfo, hsound⟩ := DelayBuffer.sound_of_ofMeta hd
    exact ⟨if_pos hinfo, hsound⟩

/-- Complete metadata of anything but a delay has fresh contents. -/
theorem exists_ofMeta {info : Meta} (hres : info.isResolved = true) (hkind : info.kind ≠ .delay) :
    ∃ x, ofMeta info = .ok x := by
  cases info with
  | image m =>
    obtain ⟨w, ht, f⟩ := m
    cases w <;> cases ht <;> cases f <;> simp [Meta.isResolved, ImageMeta.isResolved] at hres
    exact ⟨_, rfl⟩
  | scalar m =>
    obtain ⟨t, ht⟩ := Option.isSome_iff_exists.mp hres
    simp [ofMeta, ht]
  | array m =>
    obtain ⟨t, c⟩ := m
    cases t <;> cases c <;> simp [Meta.isResolved, ArrayMeta.isResolved] at hres
    exact ⟨_, rfl⟩
  | pyramid m =>
    obtain ⟨levels, w, ht, f⟩ := m
    cases levels <;> cases w <;> cases ht <;> cases f <;> simp [Meta.isResolved, PyramidMeta.isResolved] at hres
    exact ⟨_, rfl⟩
  | delay m => exact absurd rfl hkind

end Host

end VisionGraph
