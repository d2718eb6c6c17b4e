import Mathlib.Algebra.BigOperators.Ring.Finset
import VisionGraph.Proofs.Extrema
import VisionGraph.Proofs.Lookup

/-! Lookup tables and histograms. A lookup succeeds exactly when the table has an item for every pixel, and then it
replaces every pixel by its item. A histogram counts every byte, whatever the order of the pixels; so a lookup in a table
that maps the bytes one to one permutes the bins. -/
namespace VisionGraph

/-- Every member of a list is counted once among all bytes. -/
theorem sum_count_bytes {l : List Int} (h : ∀ v ∈ l, 0 ≤ v ∧ v < 256) :
    ((List.range 256).map fun v : Nat => l.count (v : Int)).sum = l.length := by
  have hcount (v : Nat) : l.count (v : Int) = (l.map Int.toNat).count v := by
    rw [List.count_eq_countP, List.count_eq_countP, List.countP_map]
    apply List.countP_congr
    intro a ha
    have hbyte := h a ha
    simp only [Function.comp_apply, beq_iff_eq]
    omega
  have hmem : ∀ v ∈ (l.map Int.toNat : Multiset Nat), v ∈ Finset.range 256 := by
    intro v hv
    obtain ⟨a, ha, rfl⟩ := List.mem_map.mp (Multiset.mem_coe.mp hv)
    have hbyte := h a ha
    exact Finset.mem_range.mpr (by omega)
  calc ((List.range 256).map fun v : Nat => l.count (v : Int)).sum
      = ((List.range 256).map fun v => (l.map Int.toNat).count v).sum := by simp only [hcount]
    _ = ∑ v ∈ Finset.range 256, (l.map Int.toNat : Multiset Nat).count v := by
        simp only [Multiset.coe_count]
        rfl
    _ = (l.map Int.toNat).length := Multiset.sum_count_eq_card hmem
    _ = l.length := List.length_map _

/-! ### Bins -/

namespace ArrayBuffer

open Kernel

variable {a a' old : ArrayBuffer} {tally : Nat → Nat}

/-- The bins of an array hold the given numbers, as far as a stored number goes; the rest of its storage is that of
another array. -/
structure Tallies (a old : ArrayBuffer) (tally : Nat → Nat) : Prop where
  itemType : a.itemType = old.itemType
  capacity : a.capacity = old.capacity
  bin : ∀ v < binCount, a.get? v = some ((tally v : Int) % 4294967296)
  beyond : ∀ i, binCount ≤ i → a.get? i = old.get? i

theorem Tallies.congr {tally' : Nat → Nat} (h : a.Tallies old tally) (hsame : ∀ v < binCount, tally v = tally' v) :
    a.Tallies old tally' where
  itemType := h.itemType
  capacity := h.capacity
  bin v hv := hsame v hv ▸ h.bin v hv
  beyond := h.beyond

/-- One more is counted in a bin. -/
theorem Tallies.count (h : a.Tallies old tally) (hitems : old.itemType = .u32) {v : Nat} (hv : v < binCount) :
    ∃ n b, a.get? v = some n ∧ a.set? v (n + 1) = some b ∧
      b.Tallies old fun u => if u = v then tally u + 1 else tally u := by
  have hbin := h.bin v hv
  obtain ⟨hlt, _⟩ := Array.getElem?_eq_some_iff.mp hbin
  refine ⟨_, a.set v _, hbin, if_pos hlt, h.itemType, h.capacity, fun u hu => ?_, fun i hi => ?_⟩
  · show (a.slots.setIfInBounds v _)[u]? = _
    by_cases huv : u = v
    · subst huv
      rw [Array.getElem?_setIfInBounds_self_of_lt hlt, if_pos rfl, h.itemType, hitems]
      show some (((tally u : Int) % 4294967296 + 1) % 4294967296) = _
      rw [Option.some.injEq, Int.emod_add_emod]
      rfl
    · rw [Array.getElem?_setIfInBounds_ne (Ne.symm huv), if_neg huv]
      exact h.bin u hu
  · show (a.slots.setIfInBounds v _)[i]? = _
    rw [Array.getElem?_setIfInBounds_ne (by omega)]
    exact h.beyond i hi

/-- The first `k` places of the storage are zero, the rest is that of another array. -/
structure Cleared (old : ArrayBuffer) (k : Nat) (a : ArrayBuffer) : Prop where
  itemType : a.itemType = old.itemType
  capacity : a.capacity = old.capacity
  zero : ∀ i < k, a.get? i = some 0
  beyond : ∀ i, k ≤ i → a.get? i = old.get? i

theorem cleared_zero (old : ArrayBuffer) : Cleared old 0 old where
  itemType := rfl
  capacity := rfl
  zero i hi := absurd hi (Nat.not_lt_zero i)
  beyond _ _ := rfl

/-- One more place is cleared. -/
theorem Cleared.set? {k : Nat} (h : Cleared old k a) (hk : k < old.capacity) :
    ∃ b, a.set? k 0 = some b ∧ Cleared old (k + 1) b := by
  have hlt : k < a.slots.size := by rwa [a.size_eq, h.capacity]
  have hwrap : a.itemType.element.wrap 0 = 0 := a.itemType.element.holds_zero
  refine ⟨a.set k 0, if_pos hlt, h.itemType, h.capacity, fun i hi => ?_, fun i hi => ?_⟩
  · show (a.slots.setIfInBounds k _)[i]? = _
    by_cases hik : i = k
    · subst hik
      rw [Array.getElem?_setIfInBounds_self_of_lt hlt, hwrap]
    · rw [Array.getElem?_setIfInBounds_ne (Ne.symm hik)]
      exact h.zero i (by omega)
  · show (a.slots.setIfInBounds k _)[i]? = _
    rw [Array.getElem?_setIfInBounds_ne (by omega)]
    exact h.beyond i (by omega)

theorem Cleared.tallies (h : Cleared old binCount a) : a.Tallies old fun _ => 0 where
  itemType := h.itemType
  capacity := h.capacity
  bin v hv := h.zero v hv
  beyond := h.beyond

/-- What is counted and the storage before it determine the bins. -/
theorem Tallies.setLen_eq (h : a.Tallies old tally) (h' : a'.Tallies old tally) (n : Nat) :
    a.setLen n = a'.setLen n := by
  have hslots : a.slots = a'.slots := by
    apply Array.ext_getElem?
    intro i
    rcases Nat.lt_or_ge i binCount with hi | hi
    · exact (h.bin i hi).trans (h'.bin i hi).symm
    · exact (h.beyond i hi).trans (h'.beyond i hi).symm
  have hitem : a.itemType = a'.itemType := h.itemType.trans h'.itemType.symm
  have hcapacity : a.capacity = a'.capacity := h.capacity.trans h'.capacity.symm
  cases a
  cases a'
  cases hslots
  cases hitem
  cases hcapacity
  rfl

/-- The items that are read from the bins. -/
theorem Tallies.items_eq (h : a.Tallies old tally) (hitems : old.itemType = .u32) (hcapacity : binCount ≤ old.capacity) :
    (a.setLen binCount).items .u32 = .ok ((List.range binCount).map fun v => (tally v : Int) % 4294967296) := by
  have htype : a.itemType = .u32 := h.itemType.trans hitems
  have hlen : min binCount a.capacity = binCount := by rw [h.capacity]; omega
  have hview : (a.setLen binCount).checkView Element.u32.bytes = .ok () := by
    apply if_pos
    show Element.u32.bytes = a.itemType.size
    rw [htype]
    rfl
  refine bind_eq_ok.mpr ⟨_, bind_eq_ok.mpr ⟨(), hview, rfl⟩, congrArg Except.ok ?_⟩
  show (((a.slots.toList.take (min binCount a.capacity)).map fun v => Element.u32.view.ofBits (.ofInt _ v)).map
    fun v => v.val) = _
  rw [hlen, List.map_map]
  apply List.ext_getElem?
  intro v
  rw [List.getElem?_map, List.getElem?_map, List.getElem?_take, Array.getElem?_toList]
  by_cases hv : v < binCount
  · have hbin : a.slots[v]? = some ((tally v : Int) % 4294967296) := h.bin v hv
    rw [if_pos hv, hbin, List.getElem?_range hv, Option.map_some, Option.map_some, Option.some.injEq]
    show ((BitVec.ofInt 32 ((tally v : Int) % 4294967296)).toNat : Int) % 4294967296 = _
    rw [BitVec.toNat_ofInt]
    omega
  · rw [if_neg hv, List.getElem?_eq_none (by simpa using hv)]
    rfl

end ArrayBuffer

/-! ### Counting -/

namespace Kernel

variable {f : Frame} {src : ImageBuffer} {bins : ArrayBuffer}

/-- The input and the output of a histogram: a byte image and an array with a bin for every byte. -/
structure Counts (f : Frame) (src : ImageBuffer) (bins : ArrayBuffer) : Prop where
  input : f.host 0 = .ok (.image src)
  bytes : src.format = .u8
  output : f.host 1 = .ok (.array bins)
  items : bins.itemType = .u32
  capacity : binCount ≤ bins.capacity

/-- One more sample counts for one byte. -/
theorem count_take_succ (hbytes : src.format = .u8) {i : Nat} (hi : i < src.samples.size) (v : Nat) :
    (src.samples.toList.take (i + 1)).count (v : Int) =
      if v = (src.samples[i]).toNat then (src.samples.toList.take i).count (v : Int) + 1
      else (src.samples.toList.take i).count (v : Int) := by
  have hbyte := src.fits _ (Array.getElem_mem hi)
  rw [hbytes] at hbyte
  obtain ⟨hnonneg, _⟩ := (Element.u8.holds_iff _).mp hbyte
  have hlast : src.samples.toList[i]? = some src.samples[i] := by
    rw [Array.getElem?_toList, Array.getElem?_eq_getElem hi]
  rw [List.take_add_one, hlast, List.count_append, Option.toList_some, List.count_singleton]
  by_cases hv : v = (src.samples[i]).toNat
  · rw [if_pos hv, if_pos (by simp only [beq_iff_eq]; change 0 ≤ _ at hnonneg; omega)]
  · rw [if_neg hv, if_neg (by simp only [beq_iff_eq]; change 0 ≤ _ at hnonneg; omega), Nat.add_zero]

/-- The first round of a histogram clears its bins, the second one counts the samples. -/
theorem Counts.run (h : Counts f src bins) (border : Border) :
    ∃ g, histogram.effect border f = .ok g ∧ ∃ counted : ArrayBuffer,
      g = f.modify 1 (fun _ => .array (counted.setLen binCount)) ∧
        counted.Tallies bins fun v => src.samples.toList.count (v : Int) := by
  have hsize : src.samples.size = src.width.toNat * src.height.toNat := by
    rw [src.size_eq, h.bytes]
    exact Nat.mul_one _
  refine exists_bind ⟨src, Frame.image_eq_ok.mpr h.input, rfl⟩ ?_
  rintro _ rfl
  refine exists_bind ⟨bins, Frame.array_eq_ok.mpr h.output, rfl⟩ ?_
  rintro _ rfl
  refine exists_bind (loop_invariant bins.Cleared (fun k a hk ha => ?_) (bins.cleared_zero)) fun cleared hcleared => ?_
  · obtain ⟨b, hset, hb⟩ := ha.set? (hk.trans_le h.capacity)
    exact ⟨b, by rw [hset], hb⟩
  let counted (i : Nat) (a : ArrayBuffer) : Prop :=
    a.Tallies bins fun v => (src.samples.toList.take i).count (v : Int)
  refine exists_bind (loop_invariant counted (fun i a hi ha => ?_) hcleared.tallies) fun a ha => ?_
  · rw [← hsize] at hi
    have hsample : src.samples[i]? = some src.samples[i] := Array.getElem?_eq_getElem hi
    have hbyte := ImageBuffer.toNat_lt_of_bytes h.bytes hsample
    obtain ⟨n, b, hget, hset, hb⟩ := ha.count h.items hbyte
    refine ⟨b, ?_, hb.congr fun u _ => (count_take_succ h.bytes hi u).symm⟩
    simp only [ImageBuffer.get?, hsample, hget, hset]
  · have hall : src.samples.toList.take (src.width.toNat * src.height.toNat) = src.samples.toList :=
      List.take_of_length_le (by rw [Array.length_toList]; omega)
    refine ⟨_, rfl, a, rfl, ?_⟩
    rwa [← hall]

/-- What is promised of the bins of an image. -/
structure Tallied (out bins : ArrayBuffer) (src : ImageBuffer) : Prop where
  itemType : out.itemType = bins.itemType
  capacity : out.capacity = bins.capacity
  len : out.len = binCount
  bin : ∀ v < binCount, out.get? v = some (((src.occurrences v).length : Int) % 4294967296)
  beyond : ∀ i, binCount ≤ i → out.get? i = bins.get? i
  total : ∃ items, out.items .u32 = .ok items ∧ items.length = binCount ∧
    items.sum % 4294967296 = (src.width.toNat * src.height.toNat : Int) % 4294967296

/-- Every byte has its bin, so all bins together count every pixel. -/
theorem sum_occurrences (hbytes : src.format = .u8) :
    ((List.range binCount).map fun v : Nat => (src.occurrences v).length).sum = src.width.toNat * src.height.toNat := by
  have hone : src.format.channels = 1 := by rw [hbytes]; rfl
  have hbyte : ∀ v ∈ src.samples.toList, 0 ≤ v ∧ v < 256 := by
    intro v hv
    have hholds := src.fits v (Array.mem_toList_iff.mp hv)
    rw [hbytes] at hholds
    have hbounds := (Element.u8.holds_iff v).mp hholds
    simp only [Element.lo, Element.hi] at hbounds
    omega
  calc ((List.range binCount).map fun v : Nat => (src.occurrences v).length).sum
      = ((List.range 256).map fun v : Nat => src.samples.toList.count (v : Int)).sum := by
        simp only [ImageBuffer.length_occurrences hone, Array.count_toList]
        rfl
    _ = src.samples.size := (sum_count_bytes hbyte).trans (Array.length_toList)
    _ = src.width.toNat * src.height.toNat := by rw [src.size_eq, hone, Nat.mul_one]

theorem tallied_of_tallies {counted : ArrayBuffer} (h : Counts f src bins)
    (hcounted : counted.Tallies bins fun v => src.samples.toList.count (v : Int)) :
    Tallied (counted.setLen binCount) bins src := by
  have hone : src.format.channels = 1 := by rw [h.bytes]; rfl
  have hoccurs (v : Nat) : src.samples.toList.count (v : Int) = (src.occurrences v).length := by
    rw [ImageBuffer.length_occurrences hone, Array.count_toList]
  simp only [hoccurs] at hcounted
  refine ⟨hcounted.itemType, hcounted.capacity, ?_, hcounted.bin, hcounted.beyond, _,
    hcounted.items_eq h.items h.capacity, by simp, ?_⟩
  · have hcapacity := h.capacity
    show min binCount counted.capacity = binCount
    rw [hcounted.capacity]
    omega
  · have hcast : ((List.range binCount).map fun v : Nat => ((src.occurrences v).length : Int)).sum =
        (src.width.toNat * src.height.toNat : Int) := by
      rw [← Int.natCast_mul, ← sum_occurrences h.bytes, Nat.cast_list_sum, List.map_map]
      rfl
    rw [← hcast, List.sum_int_mod, List.sum_int_mod (List.map (fun v : Nat => ((src.occurrences v).length : Int)) _)]
    simp [Function.comp_def]

/-- A histogram leaves the counts of its image and the image itself. -/
theorem Counts.tallied (h : Counts f src bins) (border : Border) : ∃ g out, histogram.effect border f = .ok g ∧
    g.host 0 = .ok (.image src) ∧ g.host 1 = .ok (.array out) ∧ Tallied out bins src := by
  obtain ⟨g, hrun, counted, rfl, hcounted⟩ := h.run border
  refine ⟨_, _, hrun, ?_, Frame.host_modify_self h.output, tallied_of_tallies h hcounted⟩
  rcases Frame.host_modify_other (fun _ => .array (counted.setLen binCount)) h.output h.input with hkept | ⟨hboth, _⟩
  · exact hkept
  · cases hboth

/-! ### Looking up -/

variable {table : ArrayBuffer}

/-- The parameters of a lookup: a byte image, a table of bytes, and an image like the input, which may be the input. -/
structure Looks (f : Frame) (src : ImageBuffer) (table : ArrayBuffer) : Prop where
  input : f.host 0 = .ok (.image src)
  bytes : src.format = .u8
  lut : f.host 1 = .ok (.array table)
  items : table.itemType = .u8
  output : ∃ dst, f.host 2 = .ok (.image dst) ∧ dst.info = src.info

/-- A table has an item for every pixel of an image. -/
def Covers (table : ArrayBuffer) (src : ImageBuffer) : Prop :=
  ∀ x y, x < src.width.toNat → y < src.height.toNat → (src.pixel x y).toNat < table.len

/-- Every pixel is the item that a table has for the pixel of another image. -/
structure LookedUp (out src : ImageBuffer) (table : ArrayBuffer) : Prop where
  info : out.info = src.info
  pixel : ∀ x y, x < src.width.toNat → y < src.height.toNat →
    table.get? (src.pixel x y).toNat = some (out.pixel x y)

theorem firstPast_eq_none (hbytes : src.format = .u8) : firstPast src table = none ↔ Covers table src := by
  have hsize : src.samples.size = src.width.toNat * src.height.toNat := by
    rw [src.size_eq, hbytes]
    exact Nat.mul_one _
  simp only [firstPast, List.find?_eq_none, List.mem_range, decide_eq_true_eq, Nat.not_le]
  constructor
  · intro h x y hx hy
    exact h (y * src.width.toNat + x) (hsize ▸ flat_lt hy hx)
  · intro h i hi
    have hw : 0 < src.width.toNat := Nat.pos_of_ne_zero fun hzero => by simp [hsize, hzero] at hi
    have hpixel := h (i % src.width.toNat) (i / src.width.toNat) (Nat.mod_lt i hw) (Nat.div_lt_of_lt_mul (hsize ▸ hi))
    rwa [ImageBuffer.pixel, Nat.div_add_mod'] at hpixel

/-- When all samples are overwritten, every pixel is looked up. -/
theorem lookedUp_overwrite {dst : ImageBuffer} (h : Looks f src table) (hinfo : dst.info = src.info)
    (hcovers : Covers table src) : LookedUp (dst.overwrite src.samples.size (lookedUp src table)) src table := by
  obtain ⟨hw, hh, hf⟩ := ImageBuffer.extent_of_info hinfo
  refine ⟨hinfo, fun x y hx hy => ?_⟩
  have hsize : src.samples.size = src.width.toNat * src.height.toNat := by
    rw [src.size_eq, h.bytes]
    exact Nat.mul_one _
  have hlt : y * src.width.toNat + x < src.samples.size := hsize ▸ flat_lt hy hx
  have hold : dst.samples[y * src.width.toNat + x]? = some (dst.samples.getD (y * src.width.toNat + x) 0) := by
    have hlt' : y * src.width.toNat + x < dst.samples.size := by rwa [dst.size_eq, hw, hh, hf, ← src.size_eq]
    simp [hlt']
  -- the item is there, and it is stored as it is
  have hitem : table.get? (src.pixel x y).toNat = some (table.slots.getD (src.pixel x y).toNat 0) := by
    have hslot : (src.pixel x y).toNat < table.slots.size := by
      rw [table.size_eq]
      exact Nat.lt_of_lt_of_le (hcovers x y hx hy) table.len_le
    simp [ArrayBuffer.get?, hslot]
  have hstored : dst.format.element.wrap (lookedUp src table (y * src.width.toNat + x)) =
      table.slots.getD (src.pixel x y).toNat 0 := by
    have hfits := table.fits _ (Array.mem_of_getElem? hitem)
    rw [h.items] at hfits
    rw [hf, h.bytes]
    exact hfits
  have hwidth : (dst.overwrite src.samples.size (lookedUp src table)).width = src.width := hw
  rw [hitem, ← hstored]
  rw [ImageBuffer.pixel, hwidth, Array.getD_eq_getD_getElem?, ImageBuffer.getElem?_overwrite, if_pos hlt, hold,
    Option.map_some, Option.getD_some]

/-- A lookup succeeds with every pixel looked up, or it fails at a pixel that the table has no item for. -/
theorem Looks.run (h : Looks f src table) (border : Border) :
    (Covers table src ∧ ∃ g out, tableLookup.effect border f = .ok g ∧ g.host 2 = .ok (.image out) ∧
      LookedUp out src table) ∨ (¬Covers table src ∧ ∃ g, tableLookup.effect border f = .error (.failed g)) := by
  obtain ⟨dst, hdst, hinfo⟩ := h.output
  obtain ⟨hw, hh, hf⟩ := ImageBuffer.extent_of_info hinfo
  have hcount : src.samples.size = src.width.toNat * src.height.toNat := by
    rw [src.size_eq, h.bytes]
    exact Nat.mul_one _
  have hsame : dst.samples.size = src.samples.size := by rw [dst.size_eq, hw, hh, hf, ← src.size_eq]
  have heffect := tableLookup_eq border h.input h.lut hdst hcount hsame
  cases hfirst : firstPast src table with
  | none =>
    have hcovers := (firstPast_eq_none h.bytes).mp hfirst
    rw [hfirst] at heffect
    exact .inl ⟨hcovers, _, _, heffect, Frame.host_modify_self hdst, lookedUp_overwrite h hinfo hcovers⟩
  | some i =>
    rw [hfirst] at heffect
    refine .inr ⟨fun hcovers => ?_, _, heffect⟩
    rw [(firstPast_eq_none h.bytes).mpr hcovers] at hfirst
    cases hfirst

/-! ### Both in turn -/

/-- A table that has an item for every byte, and no item twice. -/
structure OneToOne (table : ArrayBuffer) : Prop where
  full : table.len = binCount
  injective : ∀ v w, v < binCount → w < binCount → table.get? v = table.get? w → v = w

theorem pixel_byte (hbytes : src.format = .u8) (x y : Nat) : 0 ≤ src.pixel x y ∧ (src.pixel x y).toNat < binCount := by
  have hholds := src.holds_pixel x y
  rw [hbytes] at hholds
  have hbounds := (Element.u8.holds_iff _).mp hholds
  simp only [Element.lo, Element.hi] at hbounds
  simp only [binCount]
  omega

theorem OneToOne.covers (h : OneToOne table) (hbytes : src.format = .u8) : Covers table src := by
  intro x y _ _
  rw [h.full]
  exact (pixel_byte hbytes x y).2

/-- The pixels that hold an item are those that held the byte with that item. -/
theorem LookedUp.occurrences_eq {out : ImageBuffer} (h : LookedUp out src table) (htable : OneToOne table)
    (hbytes : src.format = .u8) {v : Nat} (hv : v < binCount) {t : Int} (ht : table.get? v = some t) :
    out.occurrences t = src.occurrences v := by
  obtain ⟨hw, hh, _⟩ := ImageBuffer.extent_of_info h.info
  have hraster : out.raster = src.raster := by rw [ImageBuffer.raster, ImageBuffer.raster, hw, hh]
  rw [ImageBuffer.occurrences, ImageBuffer.occurrences, hraster]
  apply List.filter_congr
  intro p hp
  obtain ⟨hx, hy⟩ := ImageBuffer.mem_raster.mp hp
  have hitem := h.pixel p.1 p.2 hx hy
  obtain ⟨hnonneg, hbyte⟩ := pixel_byte hbytes p.1 p.2
  apply decide_eq_decide.mpr
  constructor
  · intro hout
    have hsame := htable.injective _ v hbyte hv (by rw [hitem, hout, ht])
    omega
  · intro hsrc
    rw [hsrc, Int.toNat_natCast, ht] at hitem
    exact (Option.some.inj hitem).symm

/-- An item of a table of bytes is a byte. -/
theorem toNat_item_lt (hitems : table.itemType = .u8) {v : Nat} {t : Int} (ht : table.get? v = some t) :
    0 ≤ t ∧ t.toNat < binCount := by
  have hfits := table.fits t (Array.mem_of_getElem? ht)
  rw [hitems] at hfits
  have hbounds := (Element.u8.holds_iff t).mp hfits
  simp only [Element.lo, Element.hi] at hbounds
  simp only [binCount]
  omega

/-- A lookup succeeds exactly when the table has an item for every pixel, and then every pixel is its item. A histogram
always succeeds and counts every byte, whatever the order of the pixels, without touching the storage past its bins.
Looked up in a table that maps the bytes one to one, an image has the same bins in the order of the items. -/
theorem lookup_and_histogram :
    (∀ (border : Border) (f : Frame) (src : ImageBuffer) (table : ArrayBuffer), Looks f src table →
      ((∃ g, tableLookup.effect border f = .ok g) ↔ Covers table src) ∧
      ∀ g, tableLookup.effect border f = .ok g → ∃ out, g.host 2 = .ok (.image out) ∧ LookedUp out src table) ∧
    (∀ (border : Border) (f : Frame) (src : ImageBuffer) (bins : ArrayBuffer), Counts f src bins →
      ∃ g out, histogram.effect border f = .ok g ∧ g.host 0 = .ok (.image src) ∧ g.host 1 = .ok (.array out) ∧
        Tallied out bins src) ∧
    (∀ (border border' : Border) (f f' : Frame) (src src' : ImageBuffer) (bins : ArrayBuffer), Counts f src bins →
      Counts f' src' bins → src.samples.toList.Perm src'.samples.toList →
      ∃ g g' out, histogram.effect border f = .ok g ∧ histogram.effect border' f' = .ok g' ∧
        g.host 1 = .ok (.array out) ∧ g'.host 1 = .ok (.array out)) ∧
    (∀ (border : Border) (f : Frame) (src : ImageBuffer) (table : ArrayBuffer), Looks f src table → OneToOne table →
      ∃ g looked, tableLookup.effect border f = .ok g ∧ g.host 2 = .ok (.image looked) ∧
        ∀ (before after : Border) (f₁ f₂ : Frame) (bins₁ bins₂ : ArrayBuffer), Counts f₁ src bins₁ →
          Counts f₂ looked bins₂ → ∃ g₁ g₂ out₁ out₂, histogram.effect before f₁ = .ok g₁ ∧
            histogram.effect after f₂ = .ok g₂ ∧ g₁.host 1 = .ok (.array out₁) ∧ g₂.host 1 = .ok (.array out₂) ∧
            ∀ v < binCount, ∀ t, table.get? v = some t → out₂.get? t.toNat = out₁.get? v) := by
  refine ⟨fun border f src table h => ?_, fun border f src bins h => h.tallied border,
    fun border border' f f' src src' bins h h' hperm => ?_, fun border f src table h htable => ?_⟩
  · rcases h.run border with ⟨hcovers, g, out, hrun, hout, hlooked⟩ | ⟨hcovers, g, hrun⟩
    · refine ⟨⟨fun _ => hcovers, fun _ => ⟨g, hrun⟩⟩, fun g' hrun' => ?_⟩
      rw [hrun] at hrun'
      cases hrun'
      exact ⟨out, hout, hlooked⟩
    · rw [hrun]
      exact ⟨⟨fun hok => absurd hok (by simp), fun hyes => absurd hyes hcovers⟩, fun g' hrun' => by cases hrun'⟩
  · obtain ⟨g, hrun, counted, rfl, hcounted⟩ := h.run border
    obtain ⟨g', hrun', counted', rfl, hcounted'⟩ := h'.run border'
    have hsame : counted.setLen binCount = counted'.setLen binCount :=
      hcounted.setLen_eq (hcounted'.congr fun v _ => (hperm.count_eq _).symm) binCount
    refine ⟨_, _, _, hrun, hrun', Frame.host_modify_self h.output, ?_⟩
    rw [Frame.host_modify_self h'.output, hsame]
  · rcases h.run border with ⟨_, g, looked, hrun, hout, hlooked⟩ | ⟨hcovers, _⟩
    · refine ⟨g, looked, hrun, hout, fun before after f₁ f₂ bins₁ bins₂ h₁ h₂ => ?_⟩
      obtain ⟨g₁, out₁, hrun₁, _, hout₁, htallied₁⟩ := h₁.tallied before
      obtain ⟨g₂, out₂, hrun₂, _, hout₂, htallied₂⟩ := h₂.tallied after
      refine ⟨g₁, g₂, out₁, out₂, hrun₁, hrun₂, hout₁, hout₂, fun v hv t ht => ?_⟩
      obtain ⟨hnonneg, hlt⟩ := toNat_item_lt h.items ht
      rw [htallied₁.bin v hv, htallied₂.bin t.toNat hlt, Int.toNat_of_nonneg hnonneg,
        hlooked.occurrences_eq htable h.bytes hv ht]
    · exact absurd (htable.covers h.bytes) hcovers

/-- What every byte becomes in its negative. -/
def negativeItems : Array Int := (Array.range binCount).map fun v : Nat => 255 - (v : Int)

theorem size_negativeItems : negativeItems.size = binCount := by
  simp [negativeItems]

theorem holds_negativeItems : ∀ v ∈ negativeItems, ItemType.u8.element.Holds v := by
  intro v hv
  obtain ⟨n, hn, rfl⟩ := Array.mem_map.mp hv
  have hlt : n < 256 := Array.mem_range.mp hn
  exact (Element.u8.holds_iff _).mpr ⟨by simp only [Element.lo]; omega, by simp only [Element.hi]; omega⟩

/-- The table that turns bytes into their negatives. -/
def negatives : ArrayBuffer where
  itemType := .u8
  capacity := binCount
  len := binCount
  slots := negativeItems
  size_eq := size_negativeItems
  len_le := Nat.le_refl _
  fits := holds_negativeItems

theorem get?_negatives {v : Nat} (hv : v < binCount) : negatives.get? v = some (255 - (v : Int)) := by
  simp [negatives, negativeItems, ArrayBuffer.get?, hv]

theorem oneToOne_negatives : OneToOne negatives where
  full := rfl
  injective v w hv hw hsame := by
    rw [get?_negatives hv, get?_negatives hw, Option.some.injEq] at hsame
    omega

/-- An image of which some bytes occur more than once. -/
def mottled : ImageBuffer := .ofPixels 4 3 .u8 fun x y => 90 * x * y

/-- The negative of an image has its bins in reverse. -/
theorem lookup_and_histogram_negative : ∃ g looked g₁ g₂ out₁ out₂,
    tableLookup.effect .replicate (.ofObjects #[.image mottled, .array negatives, .image mottled]) = .ok g ∧
    g.host 2 = .ok (.image looked) ∧ LookedUp looked mottled negatives ∧
    histogram.effect .replicate (.ofObjects #[.image mottled, .array (.empty .u32 300)]) = .ok g₁ ∧
    histogram.effect .replicate (.ofObjects #[.image looked, .array (.empty .u32 256)]) = .ok g₂ ∧
    g₁.host 1 = .ok (.array out₁) ∧ g₂.host 1 = .ok (.array out₂) ∧
    ∀ v : Nat, v < binCount → out₂.get? (255 - v) = out₁.get? v := by
  obtain ⟨hlookup, _, _, hboth⟩ := lookup_and_histogram
  have hlooks : Looks (.ofObjects #[.image mottled, .array negatives, .image mottled]) mottled negatives :=
    ⟨Frame.host_ofObjects rfl, rfl, Frame.host_ofObjects rfl, rfl, _, Frame.host_ofObjects rfl, rfl⟩
  obtain ⟨g, looked, hrun, hout, hbins⟩ := hboth .replicate _ _ _ hlooks oneToOne_negatives
  obtain ⟨out, hout', hlooked⟩ := (hlookup .replicate _ _ _ hlooks).2 g hrun
  have hsame : out = looked := by
    rw [hout] at hout'
    cases hout'
    rfl
  subst hsame
  obtain ⟨_, _, hbytes⟩ := ImageBuffer.extent_of_info hlooked.info
  obtain ⟨g₁, g₂, out₁, out₂, hrun₁, hrun₂, hout₁, hout₂, hitems⟩ := hbins .replicate .replicate
    (.ofObjects #[.image mottled, .array (.empty .u32 300)]) (.ofObjects #[.image out, .array (.empty .u32 256)]) _ _
    ⟨Frame.host_ofObjects rfl, rfl, Frame.host_ofObjects rfl, rfl, by decide⟩
    ⟨Frame.host_ofObjects rfl, hbytes, Frame.host_ofObjects rfl, rfl, by decide⟩
  refine ⟨g, out, g₁, g₂, out₁, out₂, hrun, hout, hlooked, hrun₁, hrun₂, hout₁, hout₂, fun v hv => ?_⟩
  have hitem := hitems v hv _ (get?_negatives hv)
  rwa [show ((255 : Int) - v).toNat = 255 - v by omega] at hitem

end Kernel

end VisionGraph
