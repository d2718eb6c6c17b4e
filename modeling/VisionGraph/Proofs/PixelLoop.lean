import VisionGraph.Run.Stage

/-! The loop of a pixel-wise stage seen at one sample: there it is a fold of the steps, and what it leaves depends on
nothing but the numbers that the lanes held at this sample. -/
namespace VisionGraph

namespace Host

/-- An object without its samples. -/
def blank : Host → Host
  | .image b => .image (.zero b.width b.height b.format)
  | h => h

/-- As what the samples of an image are stored. -/
def element? : Host → Option Element
  | .image b => some b.format.element
  | _ => none

/-- How many samples an image has. -/
def sampleCount? : Host → Option Nat
  | .image b => some b.samples.size
  | _ => none

/-- Stores one sample of an image. -/
def setSample (i : Nat) (v : Int) : Host → Host
  | .image b => .image (b.set i v)
  | h => h

/-- The number of an object at a sample; a scalar is the same at all of them. -/
def sample (i : Nat) : Host → Int
  | .image b => b.samples.getD i 0
  | .scalar v => v.toElement
  | _ => 0

@[simp] theorem element?_blank (h : Host) : h.blank.element? = h.element? := by
  cases h <;> rfl

@[simp] theorem sampleCount?_blank (h : Host) : h.blank.sampleCount? = h.sampleCount? := by
  cases h with
  | image b => simp [blank, sampleCount?, ImageBuffer.zero, b.size_eq]
  | _ => rfl

end Host

/-- Whether a lane is a variable, which keeps its number from one sample to the next. -/
def Lane.isTemp : Lane → Bool
  | .temp _ => true
  | _ => false

namespace PixelState

variable {st st' : PixelState} {i j : Nat} {e : Element} {v : Int} {l l' : Lane}

/-- As what a number is stored through a lane; through some lanes nothing is. -/
def sink (st : PixelState) (e : Element) : Lane → Option Element
  | .plane k => (st.objects[k]?).bind Host.element?
  | .temp k => if k < st.temps.size then some e else none
  | .absent | .fixed _ => none

/-- Whether a sample lies inside the image of a lane. -/
def InRange (st : PixelState) (i : Nat) : Lane → Prop
  | .plane k => ∀ n, (st.objects[k]?).bind Host.sampleCount? = some n → i < n
  | _ => True

/-- The same objects up to their samples, and as many variables. -/
structure SameShape (st st' : PixelState) : Prop where
  objects : ∀ k : Nat, (st'.objects[k]?).map Host.blank = (st.objects[k]?).map Host.blank
  temps : st'.temps.size = st.temps.size

namespace SameShape

theorem refl (st : PixelState) : SameShape st st := ⟨fun _ => rfl, rfl⟩

theorem trans {st'' : PixelState} (h : SameShape st st') (h' : SameShape st' st'') : SameShape st st'' :=
  ⟨fun k => (h'.objects k).trans (h.objects k), h'.temps.trans h.temps⟩

/-- What can be told from an object without its samples stays. -/
theorem bind_eq {α : Type} {f : Host → Option α} (h : SameShape st st') (hf : ∀ x : Host, f x.blank = f x) (k : Nat) :
    (st'.objects[k]?).bind f = (st.objects[k]?).bind f := by
  have hblank : ∀ o : Option Host, o.bind f = (o.map Host.blank).bind f := by
    intro o
    cases o with
    | none => rfl
    | some x => exact (hf x).symm
  rw [hblank, h.objects k, ← hblank]

theorem sink_eq (h : SameShape st st') (e : Element) (l : Lane) : st'.sink e l = st.sink e l := by
  cases l with
  | plane k => exact h.bind_eq Host.element?_blank k
  | temp k => simp only [sink, h.temps]
  | _ => rfl

theorem inRange (h : SameShape st st') (hl : st.InRange i l) : st'.InRange i l := by
  cases l with
  | plane k =>
    intro n hn
    rw [h.bind_eq Host.sampleCount?_blank] at hn
    exact hl n hn
  | _ => trivial

end SameShape

theorem getElem?_write_plane (st : PixelState) (i : Nat) (e : Element) (v : Int) (k n : Nat) :
    (st.write i e v (.plane k)).objects[n]? =
      if n = k then (st.objects[k]?).map (Host.setSample i v) else st.objects[n]? := by
  simp only [write, modifyObject, Array.getElem?_modify]
  by_cases hn : n = k
  · subst hn
    simp only [if_true]
    rfl
  · simp [hn, Ne.symm hn]

/-- Storing a number changes samples and variables only. -/
theorem sameShape_write (st : PixelState) (i : Nat) (e : Element) (v : Int) (l : Lane) :
    SameShape st (st.write i e v l) := by
  cases l with
  | plane k =>
    refine ⟨fun n => ?_, rfl⟩
    rw [getElem?_write_plane]
    split
    · rename_i hn
      rw [hn]
      cases st.objects[k]? with
      | none => rfl
      | some x => cases x <;> rfl
    · rfl
  | temp k => exact ⟨fun _ => rfl, by simp [write]⟩
  | absent => exact .refl st
  | fixed _ => exact .refl st

/-- What a lane holds at a sample after a number was stored there. -/
theorem read_write (hin : st.InRange i l) :
    (st.write i e v l).read i l' = if l' = l then ((st.sink e l).map (·.wrap v)).getD (st.read i l) else st.read i l' := by
  cases l with
  | plane k =>
    cases l' with
    | plane n =>
      simp only [read, getElem?_write_plane, Lane.plane.injEq]
      by_cases hn : n = k
      · simp only [hn, if_true]
        cases hk : st.objects[k]? with
        | none => simp [sink, hk]
        | some x =>
          cases x with
          | image b =>
            -- outside of the image the sample would not be stored
            have hlt : i < b.samples.size := hin _ (by rw [hk]; rfl)
            simp [sink, hk, Host.element?, Host.setSample, ImageBuffer.set, hlt]
          | _ => simp [sink, hk, Host.element?, Host.setSample]
      · simp only [hn, if_false]
    | _ => simp [read, write]
  | temp k =>
    cases l' with
    | temp n =>
      simp only [read, write, Lane.temp.injEq, sink]
      by_cases hn : n = k
      · subst hn
        by_cases hk : n < st.temps.size
        · simp [hk]
        · simp [hk]
      · simp [hn, Ne.symm hn]
    | _ => simp [read, write]
  | absent =>
    split
    · rename_i hl
      simp [hl, write, sink]
    · rfl
  | fixed w =>
    split
    · rename_i hl
      simp [hl, write, sink]
    · rfl

/-- Storing a number at a sample changes no other sample of an image. -/
theorem read_write_of_ne (hij : i ≠ j) (hl : l'.isTemp = false) : (st.write i e v l).read j l' = st.read j l' := by
  cases l with
  | plane k =>
    cases l' with
    | plane n =>
      simp only [read, getElem?_write_plane]
      by_cases hn : n = k
      · simp only [hn, if_true]
        cases st.objects[k]? with
        | none => rfl
        | some x =>
          cases x with
          | image b => simp [Host.setSample, ImageBuffer.set, hij]
          | _ => rfl
      · simp only [hn, if_false]
    | _ => rfl
  | temp k =>
    cases l' with
    | temp n => simp [Lane.isTemp] at hl
    | _ => rfl
  | _ => rfl

end PixelState

namespace PixelStep

variable {st st' : PixelState} {i j : Nat} {l : Lane}

/-- Runs steps in turn at one sample. -/
def runAll (steps : List PixelStep) (i : Nat) (st : PixelState) : PixelState := steps.foldl (fun st s => s.run i st) st

theorem sameShape_runAll (steps : List PixelStep) (i : Nat) (st : PixelState) :
    PixelState.SameShape st (runAll steps i st) := by
  induction steps generalizing st with
  | nil => exact .refl st
  | cons s steps ih => exact (st.sameShape_write ..).trans (ih _)

theorem read_runAll_of_ne (steps : List PixelStep) (hij : i ≠ j) (hl : l.isTemp = false) (st : PixelState) :
    (runAll steps i st).read j l = st.read j l := by
  induction steps generalizing st with
  | nil => rfl
  | cons s steps ih => exact (ih _).trans (PixelState.read_write_of_ne hij hl)

end PixelStep

open PixelStep in
theorem sameShape_pixelLoop (steps : List PixelStep) (left i : Nat) (st : PixelState) :
    PixelState.SameShape st (pixelLoop steps left i st) := by
  induction left generalizing i st with
  | zero => exact .refl st
  | succ left ih => exact (sameShape_runAll steps i st).trans (ih _ _)

open PixelStep in
/-- Samples outside of the range of a loop stay. -/
theorem read_pixelLoop_of_lt {steps : List PixelStep} {left i j : Nat} (hj : j < i) {l : Lane} (hl : l.isTemp = false)
    (st : PixelState) : (pixelLoop steps left i st).read j l = st.read j l := by
  induction left generalizing i st with
  | zero => rfl
  | succ left ih =>
    exact (ih (by omega) _).trans (read_runAll_of_ne steps (by omega) hl st)

open PixelStep in
/-- At a sample of its range a loop is one run of the steps, from a state that has the contents of the start at this
sample; only variables may hold other numbers there. -/
theorem read_pixelLoop (steps : List PixelStep) {left i j : Nat} (hi : i ≤ j) (hj : j < i + left) (st : PixelState) :
    ∃ at_j, PixelState.SameShape st at_j ∧ (∀ l : Lane, l.isTemp = false → at_j.read j l = st.read j l) ∧
      ∀ l : Lane, l.isTemp = false → (pixelLoop steps left i st).read j l = (runAll steps j at_j).read j l := by
  -- before the loop reaches the sample only variables change, after it nothing of the sample does
  induction left generalizing i st with
  | zero => omega
  | succ left ih =>
    by_cases hij : i = j
    · subst hij
      exact ⟨st, .refl st, fun _ _ => rfl, fun l hl => read_pixelLoop_of_lt (Nat.lt_succ_self i) hl _⟩
    · obtain ⟨at_j, hshape, hread, hrun⟩ := ih (i := i + 1) (by omega) (by omega) (runAll steps i st)
      refine ⟨at_j, (sameShape_runAll steps i st).trans hshape, fun l hl => ?_, hrun⟩
      rw [hread l hl, read_runAll_of_ne steps hij hl]

end VisionGraph
