import VisionGraph.Proofs.UniformExtent
import VisionGraph.Proofs.PixelStage
import VisionGraph.Proofs.Process
import VisionGraph.Proofs.Lookup

/-! Memories that conform to a plan: whatever a stage has at a place is laid out as the plan says. A run starts with such
a memory when the bound objects pass the check, and it stays one as long as no outline changes. -/
namespace VisionGraph

namespace Host

variable {x y : Host}

theorem kind_of_outline (h : y.outline = x.outline) : y.kind = x.kind := by
  cases x <;> cases y <;> simp only [outline, reduceCtorEq] at h <;> rfl

theorem Fits.kind_eq {info : Meta} (h : x.Fits info) : x.kind = info.kind := by
  have hx := h.1
  cases x <;> cases info <;> simp only [mismatch, reduceCtorEq] at hx <;> rfl

theorem outline_refill (f : Nat → Int) (x : Host) : (x.refill f).outline = x.outline := by
  cases x <;> rfl

end Host

namespace DelayBuffer

variable (d : DelayBuffer) {age : Nat} {b c : ImageBuffer}

/-- With another image of the same shape at an age, the ring has the same images up to their samples. -/
theorem info_ring_setSlot (hb : d.slot? age = some b) (hinfo : c.info = b.info) (i : Nat) :
    ((d.setSlot age c).ring[i]?).map (·.info) = (d.ring[i]?).map (·.info) := by
  have hlt : age < d.ring.size := by
    by_contra hno
    rw [slot?, if_neg hno] at hb
    contradiction
  have hat : d.ring[d.index age]? = some b := by rwa [slot?, if_pos hlt] at hb
  rw [ring_setSlot, if_pos hlt, Array.getElem?_setIfInBounds]
  split
  · rename_i hi
    have hsize : d.index age < d.ring.size := (Array.getElem?_eq_some_iff.mp hat).1
    rw [if_pos hsize, ← hi, hat, Option.map_some, Option.map_some, hinfo]
  · rfl

theorem info_slot?_setSlot (hb : d.slot? age = some b) (hinfo : c.info = b.info) (k : Nat) :
    ((d.setSlot age c).slot? k).map (·.info) = (d.slot? k).map (·.info) := by
  rw [slot?, slot?, size_ring_setSlot, index_setSlot]
  split
  · exact d.info_ring_setSlot hb hinfo _
  · rfl

theorem outline_setSlot (hb : d.slot? age = some b) (hinfo : c.info = b.info) :
    (Host.delay (d.setSlot age c)).outline = (Host.delay d).outline := by
  simp only [Host.outline, template_setSlot, Outline.delay.injEq, true_and]
  apply Array.ext_getElem?
  intro i
  simpa using d.info_ring_setSlot hb hinfo i

end DelayBuffer

namespace Memory

variable {m n : Memory}

/-- The same outlines everywhere. -/
def Keeps (m n : Memory) : Prop := ∀ a : Place, (n.get? a).map Host.outline = (m.get? a).map Host.outline

theorem Keeps.refl (m : Memory) : m.Keeps m := fun _ => rfl

theorem Keeps.trans {l : Memory} (hmn : m.Keeps n) (hnl : n.Keeps l) : m.Keeps l := fun a => (hnl a).trans (hmn a)

theorem Keeps.exists_get? (h : m.Keeps n) {a : Place} {x : Host} (hx : m.get? a = some x) :
    ∃ y, n.get? a = some y ∧ y.outline = x.outline := by
  have hmap := h a
  rw [hx, Option.map_some] at hmap
  obtain ⟨y, hy, hout⟩ := Option.map_eq_some_iff.mp hmap
  exact ⟨y, hy, hout⟩

theorem keeps_set_host {o : ObjectId} {x y : Host} (hx : m.get? (.host o) = some x) (hkind : x.kind ≠ .delay)
    (hout : y.outline = x.outline) : m.Keeps (m.set (.host o) y) := by
  have hheld : m.host.get? o = some x := hx
  intro b
  cases b with
  | host p =>
    show ((m.set (.host o) y).host.get? p).map _ = (m.host.get? p).map _
    rw [host_set_host]
    split
    · rename_i hp
      rw [hp, hheld, Option.map_some, Option.map_some, hout]
    · rfl
  | scratch p => rfl
  | slot d age =>
    -- neither the old object nor the new one has images of an age
    rw [get?_slot, get?_slot, host_set_host]
    split
    · rename_i hd
      have hykind : y.kind ≠ .delay := Host.kind_of_outline hout ▸ hkind
      rw [hd, hheld]
      cases x <;> cases y <;> first | rfl | contradiction
    · rfl

theorem keeps_set_slot {d : ObjectId} {age : Nat} {x y : Host} (hx : m.get? (.slot d age) = some x)
    (hout : y.outline = x.outline) : m.Keeps (m.set (.slot d age) y) := by
  rw [get?_slot] at hx
  obtain ⟨held, hheld, hx⟩ := Option.bind_eq_some_iff.mp hx
  cases held with
  | delay buffer =>
    obtain ⟨b, hb, rfl⟩ := Option.map_eq_some_iff.mp hx
    cases y with
    | image c =>
      have hinfo : c.info = b.info := Outline.image.inj hout
      intro a
      cases a with
      | host p =>
        show ((m.set (.slot d age) (.image c)).host.get? p).map _ = (m.host.get? p).map _
        rw [host_set_slot]
        split
        · rename_i hp
          rw [hp, hheld, Memory.replaceSlot, Option.map_some, Option.map_some, buffer.outline_setSlot hb hinfo]
        · rfl
      | scratch p => rw [get?, get?, scratch_set_slot]
      | slot e k =>
        rw [get?_slot, get?_slot, host_set_slot]
        split
        · rename_i he
          have hmap := congrArg (Option.map Outline.image) (buffer.info_slot?_setSlot hb hinfo k)
          simp only [Option.map_map] at hmap
          rw [he, hheld, Memory.replaceSlot, Option.bind_some, Option.bind_some, Option.map_map, Option.map_map]
          exact hmap
        · rfl
    | _ => simp [Host.outline] at hout
  | _ => contradiction

theorem keeps_set {a : Place} {x y : Host} (hx : m.get? a = some x) (hkind : x.kind ≠ .delay)
    (hout : y.outline = x.outline) : m.Keeps (m.set a y) := by
  cases a with
  | host o => exact keeps_set_host hx hkind hout
  | slot d age => exact keeps_set_slot hx hout
  | scratch o =>
    intro b
    cases b with
    | scratch p =>
      show ((m.set (.scratch o) y).scratch.get? p).map _ = (m.scratch.get? p).map _
      have hheld : m.scratch.get? o = some x := hx
      rw [scratch_set_scratch]
      split
      · rename_i hp
        rw [hp, hheld, Option.map_some, Option.map_some, hout]
      · rfl
    | _ => rfl

theorem keeps_setAll {updates : List (Place × Host)} (h : ∀ u ∈ updates, ∃ x, m.get? u.1 = some x ∧ x.kind ≠ .delay ∧
    u.2.outline = x.outline) : m.Keeps (m.setAll updates) := by
  induction updates generalizing m with
  | nil => exact .refl m
  | cons u updates ih =>
    obtain ⟨x, hx, hkind, hout⟩ := h u List.mem_cons_self
    have hset := keeps_set hx hkind hout
    refine hset.trans (ih fun v hv => ?_)
    obtain ⟨z, hz, hzkind, hzout⟩ := h v (List.mem_cons_of_mem u hv)
    obtain ⟨z', hz', hsame⟩ := hset.exists_get? hz
    exact ⟨z', hz', Host.kind_of_outline hsame ▸ hzkind, hzout.trans hsame.symm⟩

/-- The host objects keep their outlines too. -/
theorem Keeps.host (h : m.Keeps n) (o : ObjectId) : (n.host.get? o).map Host.outline = (m.host.get? o).map Host.outline :=
  h (.host o)

end Memory

namespace Plan

variable {p : Plan} {s : Storage} {m n : Memory} {stage : Stage} {o : ObjectId}

/-- Whatever a stage has at a place is laid out as the plan says. -/
def Conforms (p : Plan) (s : Storage) (m : Memory) : Prop :=
  ∀ stage ∈ p.stages, ∀ o ∈ stage.referenced, ∀ a, s.place? o = some a →
    ∃ x info, m.get? a = some x ∧ p.info? o = some info ∧ x.Fits info

theorem Conforms.keeps (h : p.Conforms s m) (hk : m.Keeps n) : p.Conforms s n := by
  intro stage hstage o ho a ha
  obtain ⟨x, info, hx, hinfo, hfits⟩ := h stage hstage o ho a ha
  obtain ⟨y, hy, hout⟩ := hk.exists_get? hx
  exact ⟨y, info, hy, hinfo, hfits.of_outline hout⟩

/-- No stage has a delay as a whole at a place. -/
theorem Conforms.kind_ne (hp : p.Sound) (h : p.Conforms s m) (hstage : stage ∈ p.stages) (ho : o ∈ stage.referenced)
    {a : Place} (ha : s.place? o = some a) {x : Host} (hx : m.get? a = some x) : x.kind ≠ .delay := by
  obtain ⟨y, info, hy, hinfo, hfits⟩ := h stage hstage o ho a ha
  obtain ⟨r, hr, hsound, _, hkind⟩ := hp.exists_object hstage ho
  have hxy : x = y := Option.some.inj (hx.symm.trans hy)
  rw [hxy, hfits.kind_eq, ← info_eq hr hinfo, hsound.kind_eq]
  exact hkind

theorem Conforms.exists_load (h : p.Conforms s m) (hstage : stage ∈ p.stages) :
    ∃ objects, m.load (stage.touched s) = some objects := by
  refine ⟨_, Memory.load_eq_some.mpr ⟨fun a ha => ?_, rfl⟩⟩
  obtain ⟨o, ho, hplace⟩ := Stage.mem_touched.mp ha
  obtain ⟨x, _, hx, _⟩ := h stage hstage o ho a hplace
  exact ⟨x, hx⟩

/-! ### The start of a run -/

/-- The host objects that a plan asks for are there and laid out as it says. -/
def Hosts (p : Plan) (b : Bindings) : Prop :=
  ∀ o ∈ p.entries, ∃ x info, b.get? o = some x ∧ p.info? o = some info ∧ x.Fits info

theorem Hosts.slot (hp : p.Sound) {b : Bindings} (hb : p.Hosts b) {r : Resolved} (hr : p.object? o = some r)
    {slot : DelaySlot} (hslot : r.object.slot = some slot) {scratch : IdMap Host} :
    ∃ x, (Memory.mk b scratch).get? (.slot slot.delay slot.age.toNat) = some x ∧ x.Fits r.info := by
  obtain ⟨d, delay, hd, hdelay, himage, hage⟩ := (hp.objects o r hr).template slot hslot
  obtain ⟨x, info, hx, hinfo, hfits⟩ := hb _ (hp.delay_mem_entries hr hslot)
  have hsame : info = .delay delay := (info_eq hd hinfo).symm.trans hdelay
  rw [hsame] at hfits
  obtain ⟨buffer, rfl, htemplate, hsize, hsound⟩ := hfits.delay
  have hlt : slot.age.toNat < buffer.ring.size := Nat.lt_of_lt_of_le hage hsize
  obtain ⟨image, hmem, hat⟩ := buffer.exists_slot? hlt
  refine ⟨.image image, ?_, ?_⟩
  · rw [Memory.get?_slot, hx, Option.bind_some]
    exact congrArg (Option.map Host.image) hat
  · rw [himage]
    exact ⟨if_pos ((hsound image hmem).trans htemplate), trivial⟩

theorem Sound.exists_fresh (hp : p.Sound) (hs : Storage.ofPlan p = .ok s) (ho : s.placement? o = some .scratch) :
    ∃ x, p.fresh o = some x := by
  obtain ⟨info, hinfo, hres, hkind⟩ := hp.info_of_scratch hs (Storage.mem_scratch.mpr ho)
  obtain ⟨x, hx⟩ := Host.exists_ofMeta hres hkind
  exact ⟨x, by simp [fresh, hinfo, hx, Except.toOption]⟩

theorem Sound.fits_fresh (hp : p.Sound) {r : Resolved} (hr : p.object? o = some r)
    (hconst : r.object.isConstant = false) {x : Host} (hx : p.fresh o = some x) : x.Fits r.info := by
  have hvalue : r.info.value? = none := by
    have hnone : r.object.constant = none := by simpa [DataObject.isConstant] using hconst
    rw [← hp.constant_eq hr, hnone]
  have hof : Host.ofMeta r.info = .ok x := by
    rw [fresh, info?_of_object? hr, Option.bind_some] at hx
    exact toOption_eq_some.mp hx
  exact Host.fits_of_ofMeta hvalue hof

/-- A run starts, with a memory that conforms to the plan. -/
theorem Hosts.start (hp : p.Sound) (hs : Storage.ofPlan p = .ok s) {b : Bindings} (hb : p.Hosts b) :
    Memory.start p s b = some ⟨b, p.freshScratch s⟩ ∧ p.Conforms s ⟨b, p.freshScratch s⟩ := by
  refine ⟨Memory.start_eq_some.mpr ⟨fun o => hp.exists_fresh hs, rfl⟩, fun stage hstage o ho a ha => ?_⟩
  have hi : o ∉ stage.internal := by
    intro hi
    rw [place?_internal hs hstage hi] at ha
    contradiction
  obtain ⟨r, hr, _⟩ := hp.exists_object hstage ho
  have hinfo := info?_of_object? hr
  have hhome : p.home o = some a := (hp.place?_eq_home hs hstage ho hi).symm.trans ha
  have hconst : r.object.isConstant = false := by
    by_contra hc
    simp [home, hr, hc] at hhome
  simp only [home, hr, Option.bind_some, hconst, Bool.false_eq_true, if_false] at hhome
  cases hslot : r.object.slot with
  | some slot =>
    simp only [hslot, Option.some.injEq] at hhome
    obtain ⟨x, hx, hfits⟩ := hb.slot hp hr hslot
    exact ⟨x, r.info, hhome ▸ hx, hinfo, hfits⟩
  | none =>
    simp only [hslot, Option.some.injEq] at hhome
    by_cases hentry : r.object.isEntry = true
    · obtain ⟨x, info, hx, hinfo', hfits⟩ := hb o ((mem_entries hp.ids).mpr ⟨r, hr, hentry⟩)
      rw [if_pos hentry] at hhome
      exact ⟨x, info, hhome ▸ hx, hinfo', hfits⟩
    · -- what is neither bound by the caller nor an image of a delay starts fresh
      rw [if_neg hentry] at hhome
      subst hhome
      have hplacement : s.placement? o = some .scratch := by
        unfold Storage.place? at ha
        split at ha <;> simp_all
      obtain ⟨x, hx⟩ := hp.exists_fresh hs hplacement
      refine ⟨x, r.info, ?_, hinfo, hp.fits_fresh hr hconst hx⟩
      exact (p.get?_freshScratch s o).trans (by rw [if_pos hplacement, hx])

end Plan

namespace Program

variable {P : Program} {b : Bindings}

theorem check_eq_ok : P.check b = .ok () ↔
    ∀ entry ∈ P.entries, ∃ x, b.get? entry.1 = some x ∧ x.mismatch entry.2 = none := by
  unfold check
  rw [forM_eq_ok]
  refine forall₂_congr fun entry _ => ?_
  unfold checkEntry
  cases b.get? entry.1 with
  | none => simp
  | some x => cases hx : x.mismatch entry.2 <;> simp [hx]

end Program

namespace Plan.LoadedAs

variable {p : Plan} {P : Program} {b : Bindings}

theorem fields (h : p.LoadedAs P) : P.registry = .standard ∧ P.plan = p ∧ P.module.entry = .schedule ∧
    Storage.ofPlan p = .ok P.storage ∧ p.entries.mapM (Program.entryOf p) = .ok P.entries := by
  obtain ⟨u, _, hu, hentry, hmake⟩ := h
  obtain ⟨entries, s, hentries, _, hs, rfl⟩ := Program.make_eq_ok.mp hmake
  exact ⟨rfl, rfl, hentry, hs, entries_of_generate hu ▸ hentries⟩

/-- A program asks for the objects that its plan does, in the same order. -/
theorem map_entries (h : p.LoadedAs P) : P.entries.map (·.1) = p.entries := by
  obtain ⟨_, _, _, _, hentries⟩ := h.fields
  revert hentries
  generalize P.entries = entries
  generalize p.entries = objects
  intro hentries
  have hall := mapM_eq_ok.mp hentries
  clear hentries
  induction hall with
  | nil => rfl
  | cons hentry _ ih =>
    rw [List.map_cons, ih]
    unfold Program.entryOf at hentry
    split at hentry
    · cases hentry
      rfl
    · contradiction

/-- The bound objects that pass the check are those that the plan asks for. -/
theorem hosts (h : p.LoadedAs P) (hb : b.Sound) (hcheck : P.check b = .ok ()) : p.Hosts b := by
  intro o ho
  obtain ⟨_, _, _, _, hentries⟩ := h.fields
  obtain ⟨⟨q, info⟩, hmem, hentry⟩ := exists_ok_of_mapM hentries ho
  obtain ⟨x, hx, hfit⟩ := Program.check_eq_ok.mp hcheck _ hmem
  unfold Program.entryOf at hentry
  split at hentry
  · rename_i found hfound
    cases hentry
    exact ⟨x, info, hx, hfound, hfit, hb o x hx⟩
  · contradiction

end Plan.LoadedAs

end VisionGraph
