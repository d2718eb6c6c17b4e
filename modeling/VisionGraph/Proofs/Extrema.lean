import VisionGraph.Kernel.Statistics
import VisionGraph.Proofs.Reduction

/-! The search for the extremes of an image. A run leaves the smallest and the largest pixel, how often each occurs,
and the first places, row by row, where it does; the rest of the storage for places stays as it was. -/
namespace VisionGraph

/-! ### Pixels row by row -/

namespace ImageBuffer

variable {b : ImageBuffer}

/-- All places of an image, row by row. -/
def raster (b : ImageBuffer) : List (Nat × Nat) :=
  (List.range b.height.toNat).flatMap fun y => (List.range b.width.toNat).map fun x => (x, y)

/-- The places of the pixels that hold a number, row by row. -/
def occurrences (b : ImageBuffer) (v : Int) : List (Nat × Nat) := b.raster.filter fun p => b.pixel p.1 p.2 = v

theorem mem_raster {x y : Nat} : (x, y) ∈ b.raster ↔ x < b.width.toNat ∧ y < b.height.toNat := by
  simp [raster, and_comm]

/-- Counting the samples goes through the places row by row. -/
theorem raster_eq (b : ImageBuffer) :
    b.raster = (List.range (b.width.toNat * b.height.toNat)).map fun i => (i % b.width.toNat, i / b.width.toNat) := by
  unfold raster
  generalize b.width.toNat = w
  induction b.height.toNat with
  | zero => rfl
  | succ n ih =>
    have hrow : ((List.range w).map (w * n + ·)).map (fun i => (i % w, i / w)) =
        (List.range w).map fun x => (x, n) := by
      rw [List.map_map]
      refine List.map_congr_left fun x hx => ?_
      have hx : x < w := List.mem_range.mp hx
      rw [Function.comp_apply, Nat.mul_comm w n, column_of_flat hx, row_of_flat hx]
    rw [List.range_succ, List.flatMap_append, ih, Nat.mul_succ, List.range_add, List.map_append, hrow]
    simp

theorem samples_toList (hone : b.format.channels = 1) :
    b.samples.toList = b.raster.map fun p => b.pixel p.1 p.2 := by
  refine List.ext_getElem? fun i => ?_
  rw [raster_eq, List.map_map, List.getElem?_map, Array.getElem?_toList]
  by_cases hi : i < b.width.toNat * b.height.toNat
  · rw [samples_getElem? hone hi, List.getElem?_range hi]
    rfl
  · have hsize : b.samples.size = b.width.toNat * b.height.toNat := by rw [b.size_eq, hone, Nat.mul_one]
    rw [Array.getElem?_eq_none (by omega), List.getElem?_eq_none (by simpa using hi)]
    rfl

/-- A number occurs as often as it is counted among the samples. -/
theorem length_occurrences (hone : b.format.channels = 1) (v : Int) :
    (b.occurrences v).length = b.samples.count v := by
  rw [← Array.count_toList, samples_toList hone, List.count_eq_countP, List.countP_map, occurrences,
    ← List.countP_eq_length_filter]
  refine List.countP_congr fun p _ => ?_
  simp

/-- The occurrences among the first places. -/
def occurrencesBefore (b : ImageBuffer) (v : Int) (i : Nat) : List (Nat × Nat) :=
  (b.raster.take i).filter fun p => b.pixel p.1 p.2 = v

theorem occurrencesBefore_succ (v : Int) {i : Nat} (hi : i < b.width.toNat * b.height.toNat) :
    b.occurrencesBefore v (i + 1) = b.occurrencesBefore v i ++
      if b.pixel (i % b.width.toNat) (i / b.width.toNat) = v then [(i % b.width.toNat, i / b.width.toNat)] else [] := by
  have hplace : b.raster[i]? = some (i % b.width.toNat, i / b.width.toNat) := by
    rw [raster_eq, List.getElem?_map, List.getElem?_range hi]
    rfl
  rw [occurrencesBefore, occurrencesBefore, List.take_add_one, hplace, List.filter_append]
  by_cases hv : b.pixel (i % b.width.toNat) (i / b.width.toNat) = v <;> simp [hv]

theorem occurrencesBefore_all (v : Int) :
    b.occurrencesBefore v (b.width.toNat * b.height.toNat) = b.occurrences v := by
  have hlength : b.raster.length = b.width.toNat * b.height.toNat := by simp [raster_eq]
  rw [occurrencesBefore, ← hlength, List.take_length, occurrences]

/-- The folds over the samples end with numbers that bound all pixels and occur. -/
theorem extremes_spec (hone : b.format.channels = 1) {first : Int} (hfirst : b.samples[0]? = some first) :
    (∀ p ∈ b.raster, b.samples.foldl min first ≤ b.pixel p.1 p.2 ∧ b.pixel p.1 p.2 ≤ b.samples.foldl max first) ∧
      b.occurrences (b.samples.foldl min first) ≠ [] ∧ b.occurrences (b.samples.foldl max first) ≠ [] := by
  have hmem : first ∈ b.samples.toList := Array.mem_toList_iff.mpr (Array.mem_of_getElem? hfirst)
  have hoccurs (v : Int) (hv : v ∈ b.samples.toList) : b.occurrences v ≠ [] := by
    rw [samples_toList hone] at hv
    obtain ⟨p, hp, hpv⟩ := List.mem_map.mp hv
    exact List.ne_nil_of_mem (List.mem_filter.mpr ⟨hp, decide_eq_true hpv⟩)
  rw [← Array.foldl_toList, ← Array.foldl_toList]
  obtain ⟨hleast, hlow⟩ := foldl_min_spec hmem
  obtain ⟨hgreatest, hhigh⟩ := foldl_max_spec hmem
  refine ⟨fun p hp => ?_, hoccurs _ hleast, hoccurs _ hgreatest⟩
  have hsample : b.pixel p.1 p.2 ∈ b.samples.toList := by
    rw [samples_toList hone]
    exact List.mem_map_of_mem hp
  exact ⟨hlow _ hsample, hhigh _ hsample⟩

end ImageBuffer

/-! ### Places in an array -/

theorem Point.unpack_pack {x y : Nat} (hx : x < 2147483648) (hy : y < 2147483648) :
    Element.pair.Holds (pack ⟨x, y⟩) ∧ unpack (pack ⟨x, y⟩) = ⟨x, y⟩ := by
  simp only [Element.holds_iff, Element.lo, Element.hi, pack, unpack, Element.wrap, Point.mk.injEq]
  omega

/-- The array lists the first of some places, as many as it has storage for; the rest of its storage is that of
another array. -/
structure ArrayBuffer.Lists (a old : ArrayBuffer) (places : List (Nat × Nat)) : Prop where
  itemType : a.itemType = old.itemType
  capacity : a.capacity = old.capacity
  len : a.len = min old.capacity places.length
  listed : ∀ i p, i < a.len → places[i]? = some p → ∃ v, a.get? i = some v ∧ Point.unpack v = ⟨p.1, p.2⟩
  beyond : ∀ i, a.len ≤ i → a.get? i = old.get? i

namespace ArrayBuffer

variable {a old : ArrayBuffer} {places : List (Nat × Nat)}

theorem lists_clear (a : ArrayBuffer) : a.clear.Lists a [] where
  itemType := rfl
  capacity := rfl
  len := by simp [clear, setLen]
  listed i p hi _ := by simp [clear, setLen] at hi
  beyond _ _ := rfl

/-- One more place is listed, or there is no storage left for it. -/
theorem Lists.push (h : a.Lists old places) (hitems : old.itemType = .coordinates2d) {x y : Nat}
    (hx : x < 2147483648) (hy : y < 2147483648) : (a.push (Point.pack ⟨x, y⟩)).Lists old (places ++ [(x, y)]) := by
  obtain ⟨hitem, hcapacity, hlen, hlisted, hbeyond⟩ := h
  obtain ⟨hholds, hunpack⟩ := Point.unpack_pack hx hy
  by_cases hroom : a.len < a.capacity
  · rw [ArrayBuffer.push, if_pos hroom]
    have hstored : a.itemType.element.wrap (Point.pack ⟨x, y⟩) = Point.pack ⟨x, y⟩ := by
      rw [hitem, hitems]
      exact hholds
    have hend : a.len = places.length := by omega
    have hsize : a.len < a.slots.size := by rwa [a.size_eq]
    refine ⟨hitem, hcapacity, ?_, fun i p hi hp => ?_, fun i hi => ?_⟩
    · show min (a.len + 1) a.capacity = _
      rw [List.length_append, List.length_singleton]
      omega
    · change i < min (a.len + 1) a.capacity at hi
      change ∃ v, (a.slots.setIfInBounds a.len _)[i]? = some v ∧ _
      by_cases hlast : i = a.len
      · subst hlast
        rw [hend, List.getElem?_concat_length, Option.some.injEq] at hp
        subst hp
        exact ⟨_, Array.getElem?_setIfInBounds_self_of_lt hsize, by rw [hstored, hunpack]⟩
      · rw [List.getElem?_append_left (by omega)] at hp
        rw [Array.getElem?_setIfInBounds_ne (Ne.symm hlast)]
        exact hlisted i p (by omega) hp
    · change min (a.len + 1) a.capacity ≤ i at hi
      show (a.slots.setIfInBounds a.len _)[i]? = _
      rw [Array.getElem?_setIfInBounds_ne (by omega)]
      exact hbeyond i (by omega)
  · rw [ArrayBuffer.push, if_neg hroom]
    have hfull : old.capacity ≤ places.length := by omega
    refine ⟨hitem, hcapacity, ?_, fun i p hi hp => ?_, hbeyond⟩
    · rw [List.length_append, hlen]
      omega
    · rw [List.getElem?_append_left (by omega)] at hp
      exact hlisted i p hi hp

end ArrayBuffer

/-! ### Steps on one parameter -/

namespace Frame

variable {f g : Frame} {slot : Nat}

/-- Different parameters are bound to different objects. -/
def Distinct (f : Frame) : Prop := ∀ s t, s ≠ t → f.Apart s t

/-- At most what is behind one parameter has changed. -/
structure OnlyAt (f : Frame) (slot : Nat) (g : Frame) : Prop where
  handles : g.handles = f.handles
  host : ∀ t, t ≠ slot → g.host t = f.host t

theorem OnlyAt.refl (f : Frame) (slot : Nat) : f.OnlyAt slot f := ⟨rfl, fun _ _ => rfl⟩

theorem Distinct.of_handles (h : f.Distinct) (hsame : g.handles = f.handles) : g.Distinct :=
  fun s t hne => (h s t hne).of_handles hsame

theorem Distinct.modify (h : f.Distinct) (slot : Nat) (change : Host → Host) :
    f.OnlyAt slot (f.modify slot change) where
  handles := handles_modify ..
  host t hne := host_modify_of_apart (h slot t hne.symm)

theorem Distinct.writeScalar (h : f.Distinct) {v : Scalar} (hv : f.host slot = .ok (.scalar v)) (n : Int) :
    ∃ g, f.writeScalar slot n = .ok g ∧ f.OnlyAt slot g ∧ g.host slot = .ok (.scalar (.ofElement v.type n)) := by
  unfold Frame.writeScalar
  simp only [scalar_of_host hv]
  exact ⟨_, rfl, h.modify slot _, host_modify_self hv⟩

theorem Distinct.changeArray (h : f.Distinct) {a : ArrayBuffer} (ha : f.host slot = .ok (.array a))
    (change : ArrayBuffer → ArrayBuffer) :
    ∃ g, f.changeArray slot change = .ok g ∧ f.OnlyAt slot g ∧ g.host slot = .ok (.array (change a)) := by
  unfold Frame.changeArray
  simp only [array_eq_ok.mpr ha]
  exact ⟨_, rfl, h.modify slot _, host_modify_self ha⟩

/-- If the parameter is bound, it lists places in what was an array of places. -/
def Lists (g f : Frame) (slot : Nat) (places : List (Nat × Nat)) : Prop :=
  f.isBound slot = true → ∃ old a, f.host slot = .ok (.array old) ∧ old.itemType = .coordinates2d ∧
    g.host slot = .ok (.array a) ∧ a.Lists old places

theorem Lists.of_host {g' : Frame} {places : List (Nat × Nat)} (h : g.Lists f slot places)
    (hsame : g'.host slot = g.host slot) : g'.Lists f slot places := by
  intro hbound
  obtain ⟨old, a, hold, hitems, ha, hlists⟩ := h hbound
  exact ⟨old, a, hold, hitems, hsame.trans ha, hlists⟩

end Frame

namespace Kernel

variable {f g : Frame} {src : ImageBuffer} {slot : Nat}

/-- An array that is bound is emptied. -/
theorem exists_resetArray (hd : f.Distinct) (hhandles : g.handles = f.handles) (hhost : g.host slot = f.host slot)
    (harray : f.isBound slot = true → ∃ a, f.host slot = .ok (.array a) ∧ a.itemType = .coordinates2d) :
    ∃ g', resetArray slot g = .ok g' ∧ g.OnlyAt slot g' ∧ g'.Lists f slot [] := by
  unfold resetArray
  rw [Frame.isBound_of_handles hhandles]
  by_cases hbound : f.isBound slot = true
  · obtain ⟨a, ha, hitems⟩ := harray hbound
    obtain ⟨g', hg', honly, hcleared⟩ := (hd.of_handles hhandles).changeArray (hhost.trans ha) (·.clear)
    exact ⟨g', (if_pos hbound).trans hg', honly, fun _ => ⟨a, _, ha, hitems, hcleared, a.lists_clear⟩⟩
  · exact ⟨g, if_neg hbound, .refl g slot, fun hyes => absurd hyes hbound⟩

/-- A round of the search records its place if the pixel there holds the number. -/
theorem exists_recordExtreme (hd : f.Distinct) (hhandles : g.handles = f.handles)
    (hwidth : src.width.toNat < 2147483648) (hheight : src.height.toNat < 2147483648) {v : Int} {i : Nat}
    (hi : i < src.width.toNat * src.height.toNat) (h : g.Lists f slot (src.occurrencesBefore v i)) :
    ∃ g', (if src.pixel (i % src.width.toNat) (i / src.width.toNat) = v then recordExtreme slot src.width.toNat i g
        else .ok g) = .ok g' ∧ g.OnlyAt slot g' ∧ g'.Lists f slot (src.occurrencesBefore v (i + 1)) := by
  rw [src.occurrencesBefore_succ v hi]
  by_cases hv : src.pixel (i % src.width.toNat) (i / src.width.toNat) = v
  · rw [if_pos hv, if_pos hv]
    unfold recordExtreme
    rw [Frame.isBound_of_handles hhandles]
    by_cases hbound : f.isBound slot = true
    · obtain ⟨old, a, hold, hitems, ha, hlists⟩ := h hbound
      obtain ⟨g', hg', honly, hpushed⟩ := (hd.of_handles hhandles).changeArray ha
        (·.push (Point.pack ⟨(i % src.width.toNat : Nat), (i / src.width.toNat : Nat)⟩))
      have hw : 0 < src.width.toNat := Nat.pos_of_ne_zero fun hzero => by simp [hzero] at hi
      have hcolumn : i % src.width.toNat < 2147483648 := (Nat.mod_lt i hw).trans hwidth
      have hrow : i / src.width.toNat < 2147483648 := (Nat.div_lt_of_lt_mul hi).trans hheight
      exact ⟨g', (if_pos hbound).trans hg', honly,
        fun _ => ⟨old, _, hold, hitems, hpushed, hlists.push hitems hcolumn hrow⟩⟩
    · exact ⟨g, if_neg hbound, .refl g slot, fun hyes => absurd hyes hbound⟩
  · rw [if_neg hv, if_neg hv, List.append_nil]
    exact ⟨g, rfl, .refl g slot, h⟩

/-- A count that is bound is written. -/
theorem exists_writeBound (hd : f.Distinct) (hhandles : g.handles = f.handles) (hhost : g.host slot = f.host slot)
    (hscalar : f.isBound slot = true → ∃ v, f.host slot = .ok (.scalar v) ∧ v.type = .u32) (n : Nat) :
    ∃ g', writeBound slot n g = .ok g' ∧ g.OnlyAt slot g' ∧
      (f.isBound slot = true → g'.host slot = .ok (.scalar (.u32 (UInt32.ofNat n)))) := by
  unfold writeBound
  rw [Frame.isBound_of_handles hhandles]
  by_cases hbound : f.isBound slot = true
  · obtain ⟨v, hv, htype⟩ := hscalar hbound
    obtain ⟨g', hg', honly, hwritten⟩ := (hd.of_handles hhandles).writeScalar (hhost.trans hv) n
    have hcount : Scalar.ofElement v.type n = .u32 (UInt32.ofNat n) := by
      rw [htype, Scalar.ofElement, Element.pattern]
      congr 1
      apply UInt32.toNat.inj
      simp [Element.modulus]
      omega
    exact ⟨g', (if_pos hbound).trans hg', honly, fun _ => hcount ▸ hwritten⟩
  · exact ⟨g, if_neg hbound, .refl g slot, fun hyes => absurd hyes hbound⟩

/-- What a search for the extremes finds: an image with pixels, scalars of their type, and, as far as they are bound,
arrays of places and counts, all in different objects. -/
structure Searches (f : Frame) (src : ImageBuffer) : Prop where
  input : f.host 0 = .ok (.image src)
  format : src.format = .u8 ∨ src.format = .s16
  width : 0 < src.width.toNat ∧ src.width.toNat < 2147483648
  height : 0 < src.height.toNat ∧ src.height.toNat < 2147483648
  extremes : ∀ slot, slot = 1 ∨ slot = 2 →
    ∃ v, f.host slot = .ok (.scalar v) ∧ ScalarType.ofFormat? src.format = some v.type
  places : ∀ slot, slot = 3 ∨ slot = 4 → f.isBound slot = true →
    ∃ a, f.host slot = .ok (.array a) ∧ a.itemType = .coordinates2d
  counts : ∀ slot, slot = 5 ∨ slot = 6 → f.isBound slot = true →
    ∃ v, f.host slot = .ok (.scalar v) ∧ v.type = .u32
  distinct : f.Distinct

/-- A frame reports a number of the image: its value, its first places and how often it occurs. -/
structure Reports (g f : Frame) (src : ImageBuffer) (v : Int) (value places count : Nat) : Prop where
  value : ∃ s, g.host value = .ok (.scalar s) ∧ s.toElement = v ∧ ScalarType.ofFormat? src.format = some s.type
  places : f.isBound places = true → ∃ old a, f.host places = .ok (.array old) ∧ g.host places = .ok (.array a) ∧
    a.Lists old (src.occurrences v)
  count : f.isBound count = true →
    g.host count = .ok (.scalar (.u32 (UInt32.ofNat (src.occurrences v).length)))

/-- A pixel is written to a scalar of its type as it is. -/
theorem toElement_ofElement {format : Format} {type : ScalarType} {v : Int} (hformat : format = .u8 ∨ format = .s16)
    (htype : ScalarType.ofFormat? format = some type) (hv : format.element.Holds v) :
    (Scalar.ofElement type v).toElement = v := by
  rcases hformat with rfl | rfl
  · cases htype
    have hrange := (Element.u8.holds_iff v).mp hv
    simp only [Element.lo, Element.hi] at hrange
    simp only [Scalar.ofElement, Scalar.toElement, Element.pattern, Element.modulus]
    simp
    omega
  · cases htype
    have hrange := (Element.s16.holds_iff v).mp hv
    simp only [Element.lo, Element.hi] at hrange
    exact Int16.toInt_ofInt_of_le (by simpa using hrange.1) (by simp; omega)

/-- One round of the search. -/
def searchRound (src : ImageBuffer) (lo hi : Int) (i : Nat) (f : Frame) : Except Halt Frame :=
  match src.get? i with
  | some v => do
    let f ← if v = lo then recordExtreme 3 src.width.toNat i f else .ok f
    if v = hi then recordExtreme 4 src.width.toNat i f else .ok f
  | none => .error .astray

namespace Searches

theorem channels (h : Searches f src) : src.format.channels = 1 := by
  rcases h.format with hf | hf <;> rw [hf] <;> rfl

/-- What is written for a number that occurs reports it. -/
theorem reports (h : Searches f src) {v : Int} {value places count : Nat} {held : Scalar}
    (hoccurs : src.occurrences v ≠ []) (htype : ScalarType.ofFormat? src.format = some held.type)
    (hvalue : g.host value = .ok (.scalar (.ofElement held.type v))) (hplaces : g.Lists f places (src.occurrences v))
    (hcount : f.isBound count = true →
      g.host count = .ok (.scalar (.u32 (UInt32.ofNat (src.samples.count v))))) :
    Reports g f src v value places count := by
  obtain ⟨p, hp⟩ := List.exists_mem_of_ne_nil _ hoccurs
  have hpixel : src.pixel p.1 p.2 = v := of_decide_eq_true (List.mem_filter.mp hp).2
  have hholds : src.format.element.Holds v := hpixel ▸ src.holds_pixel p.1 p.2
  refine ⟨⟨_, hvalue, toElement_ofElement h.format htype hholds, ?_⟩, fun hbound => ?_, fun hbound => ?_⟩
  · rw [htype, Scalar.type_ofElement]
  · obtain ⟨old, a, hold, _, ha, hlists⟩ := hplaces hbound
    exact ⟨old, a, hold, ha, hlists⟩
  · rw [ImageBuffer.length_occurrences h.channels]
    exact hcount hbound

/-- The rounds list the occurrences of both extremes and change nothing else. -/
theorem exists_loop (h : Searches f src) (lo hi : Int) (hhandles : g.handles = f.handles) (hlo : g.Lists f 3 [])
    (hhi : g.Lists f 4 []) :
    ∃ g', loop (searchRound src lo hi) src.size 0 g = .ok g' ∧
      g'.handles = f.handles ∧ (∀ t, t ≠ 3 → t ≠ 4 → g'.host t = g.host t) ∧
      g'.Lists f 3 (src.occurrences lo) ∧ g'.Lists f 4 (src.occurrences hi) := by
  have hsize : src.size = src.width.toNat * src.height.toNat := by
    rw [ImageBuffer.size, src.size_eq, h.channels, Nat.mul_one]
  let P (i : Nat) (g' : Frame) : Prop := g'.handles = f.handles ∧ (∀ t, t ≠ 3 → t ≠ 4 → g'.host t = g.host t) ∧
    g'.Lists f 3 (src.occurrencesBefore lo i) ∧ g'.Lists f 4 (src.occurrencesBefore hi i)
  have hstart : P 0 g := ⟨hhandles, fun _ _ _ => rfl, hlo, hhi⟩
  have hround (i : Nat) (s : Frame) (hlt : i < src.size) (hs : P i s) :
      ∃ t, searchRound src lo hi i s = .ok t ∧ P (i + 1) t := by
    rw [hsize] at hlt
    obtain ⟨hsame, hothers, hlow, hhigh⟩ := hs
    obtain ⟨mid, hrecord, honly, hlow'⟩ :=
      exists_recordExtreme h.distinct hsame h.width.2 h.height.2 hlt hlow
    have hmid := honly.handles.trans hsame
    obtain ⟨last, hrecord', honly', hhigh'⟩ :=
      exists_recordExtreme h.distinct hmid h.width.2 h.height.2 hlt (hhigh.of_host (honly.host 4 (by decide)))
    refine ⟨last, ?_, honly'.handles.trans hmid, fun t hthree hfour => ?_,
      hlow'.of_host (honly'.host 3 (by decide)), hhigh'⟩
    · simp only [searchRound, ImageBuffer.get?, ImageBuffer.samples_getElem? h.channels hlt]
      exact bind_ite_eq_ok hrecord hrecord'
    · rw [honly'.host t hfour, honly.host t hthree, hothers t hthree hfour]
  obtain ⟨g', hrun, hsame, hothers, hlow, hhigh⟩ := loop_invariant P hround hstart
  rw [hsize, ImageBuffer.occurrencesBefore_all] at hlow hhigh
  exact ⟨g', hrun, hsame, hothers, hlow, hhigh⟩

/-- The smallest and the largest pixel are found with their places and their numbers. -/
theorem run (h : Searches f src) (border : Border) {first : Int} (hfirst : src.samples[0]? = some first) :
    ∃ g, minMaxLoc.effect border f = .ok g ∧ g.host 0 = .ok (.image src) ∧
      Reports g f src (src.samples.foldl min first) 1 3 5 ∧ Reports g f src (src.samples.foldl max first) 2 4 6 := by
  let lo := src.samples.foldl min first
  let hi := src.samples.foldl max first
  obtain ⟨v₁, hv₁, htype₁⟩ := h.extremes 1 (.inl rfl)
  obtain ⟨v₂, hv₂, htype₂⟩ := h.extremes 2 (.inr rfl)
  -- the frames after each step, and what each step leaves alone
  obtain ⟨f₁, hstep₁, honly₁, hmin⟩ := h.distinct.writeScalar hv₁ lo
  obtain ⟨f₂, hstep₂, honly₂, hmax⟩ :=
    (h.distinct.of_handles honly₁.handles).writeScalar ((honly₁.host 2 (by decide)).trans hv₂) hi
  have hsame₂ := honly₂.handles.trans honly₁.handles
  have hhost₂ (t : Nat) (hone : t ≠ 1) (htwo : t ≠ 2) : f₂.host t = f.host t :=
    (honly₂.host t htwo).trans (honly₁.host t hone)
  obtain ⟨f₃, hstep₃, honly₃, hlow₃⟩ :=
    exists_resetArray h.distinct hsame₂ (hhost₂ 3 (by decide) (by decide)) (h.places 3 (.inl rfl))
  have hsame₃ := honly₃.handles.trans hsame₂
  obtain ⟨f₄, hstep₄, honly₄, hhigh₄⟩ := exists_resetArray h.distinct hsame₃
    ((honly₃.host 4 (by decide)).trans (hhost₂ 4 (by decide) (by decide))) (h.places 4 (.inr rfl))
  obtain ⟨f₅, hstep₅, hsame₅, hothers₅, hlow₅, hhigh₅⟩ := h.exists_loop lo hi (honly₄.handles.trans hsame₃)
    (hlow₃.of_host (honly₄.host 3 (by decide))) hhigh₄
  have hhost₅ (t : Nat) (hthree : t ≠ 3) (hfour : t ≠ 4) : f₅.host t = f₂.host t := by
    rw [hothers₅ t hthree hfour, honly₄.host t hfour, honly₃.host t hthree]
  obtain ⟨f₆, hstep₆, honly₆, hcount₆⟩ := exists_writeBound h.distinct hsame₅
    ((hhost₅ 5 (by decide) (by decide)).trans (hhost₂ 5 (by decide) (by decide))) (h.counts 5 (.inl rfl))
    (src.samples.count lo)
  have hsame₆ := honly₆.handles.trans hsame₅
  obtain ⟨f₇, hstep₇, honly₇, hcount₇⟩ := exists_writeBound h.distinct hsame₆
    ((honly₆.host 6 (by decide)).trans ((hhost₅ 6 (by decide) (by decide)).trans (hhost₂ 6 (by decide) (by decide))))
    (h.counts 6 (.inr rfl)) (src.samples.count hi)
  have hhost₇ (t : Nat) (hfive : t ≠ 5) (hsix : t ≠ 6) : f₇.host t = f₅.host t :=
    (honly₇.host t hsix).trans (honly₆.host t hfive)
  have hmin₇ : f₇.host 1 = .ok (.scalar (.ofElement v₁.type lo)) := by
    rw [hhost₇ 1 (by decide) (by decide), hhost₅ 1 (by decide) (by decide), honly₂.host 1 (by decide), hmin]
  have hmax₇ : f₇.host 2 = .ok (.scalar (.ofElement v₂.type hi)) := by
    rw [hhost₇ 2 (by decide) (by decide), hhost₅ 2 (by decide) (by decide), hmax]
  obtain ⟨_, hlowest, hhighest⟩ := ImageBuffer.extremes_spec h.channels hfirst
  refine ⟨f₇, ?_, ?_, ?_, ?_⟩
  · refine bind_eq_ok.mpr ⟨src, Frame.image_eq_ok.mpr h.input, ?_⟩
    have hget : src.get? 0 = some first := hfirst
    simp only [hget]
    exact bind_eq_ok.mpr ⟨f₁, hstep₁, bind_eq_ok.mpr ⟨f₂, hstep₂, bind_eq_ok.mpr ⟨f₃, hstep₃, bind_eq_ok.mpr
      ⟨f₄, hstep₄, bind_eq_ok.mpr ⟨f₅, hstep₅, bind_eq_ok.mpr ⟨f₆, hstep₆, hstep₇⟩⟩⟩⟩⟩⟩
  · rw [hhost₇ 0 (by decide) (by decide), hhost₅ 0 (by decide) (by decide), hhost₂ 0 (by decide) (by decide), h.input]
  · exact h.reports hlowest htype₁ hmin₇ (hlow₅.of_host (hhost₇ 3 (by decide) (by decide)))
      fun hbound => (honly₇.host 5 (by decide)).trans (hcount₆ hbound)
  · exact h.reports hhighest htype₂ hmax₇ (hhigh₅.of_host (hhost₇ 4 (by decide) (by decide))) hcount₇

end Searches

/-- Four darkest pixels and one brightest. -/
def speckled : ImageBuffer := .ofPixels 3 2 .s16 fun x y => if x = 1 then 40 * y else -7

/-- Storage for some places, which held something else before. -/
def notepad (capacity : Nat) : ArrayBuffer := ((ArrayBuffer.empty .coordinates2d capacity).push 5).push 6

/-- There is not enough storage for the darkest places, and more than enough for the brightest. -/
def searchFrame : Frame :=
  .ofObjects #[.image speckled, .scalar (.s16 0), .scalar (.s16 0), .array (notepad 2), .array (notepad 3),
    .scalar (.u32 9), .scalar (.u32 9)]

theorem searches_speckled : Searches searchFrame speckled where
  input := Frame.host_ofObjects rfl
  format := .inr rfl
  width := by decide
  height := by decide
  extremes slot hslot := by
    rcases hslot with rfl | rfl <;> exact ⟨_, Frame.host_ofObjects rfl, rfl⟩
  places slot hslot _ := by
    rcases hslot with rfl | rfl <;> exact ⟨_, Frame.host_ofObjects rfl, rfl⟩
  counts slot hslot _ := by
    rcases hslot with rfl | rfl <;> exact ⟨_, Frame.host_ofObjects rfl, rfl⟩
  distinct _ _ hne := Frame.apart_ofObjects _ hne

end Kernel

end VisionGraph
