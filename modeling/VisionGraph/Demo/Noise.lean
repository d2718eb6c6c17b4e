import VisionGraph.Demo.Basic
import VisionGraph.Failure
/-!
A stream of noise: every seed gives one sequence of 64-bit words, and images are filled from it.
-/

namespace VisionGraph

/-- A stream of words. -/
structure Noise where
  state : UInt64
deriving DecidableEq, Repr

namespace Noise

def ofSeed (seed : UInt64) : Noise := ⟨seed⟩

/-- The next word: the two halves of a product of the advanced state with a mask of it. -/
def next (n : Noise) : UInt64 × Noise :=
  let s := n.state + 0x2d358dccaa6c78a5
  let t := s.toNat * (s ^^^ 0x8bb84b93962eacc9).toNat
  (UInt64.ofNat t ^^^ UInt64.ofNat (t / UInt64.size), ⟨s⟩)

/-- Appends the lowest bytes of a word, the lowest first. -/
def pushBytes (bytes : Array UInt8) (word : UInt64) : (count : Nat) → Array UInt8
  | 0 => bytes
  | count + 1 => pushBytes (bytes.push word.toUInt8) (word >>> 8) count

/-- Appends bytes; a word gives eight of them, the last one as many as are left. -/
def fill (n : Noise) (bytes : Array UInt8) (count : Nat) : Array UInt8 × Noise :=
  if _h : count = 0 then (bytes, n)
  else
    let (word, n) := n.next
    fill n (pushBytes bytes word (min count 8)) (count - 8)
termination_by count

/-- Numbers from zero up to 255, from the upper bits of half words. -/
def singles (n : Noise) (values : Array Int) : (count : Nat) → Array Int × Noise
  | 0 => (values, n)
  | count + 1 =>
    let (word, n) := n.next
    let fraction := Float.ofNat (word.toUInt32 >>> 9).toNat / 8388608.0
    singles n (values.push (Single.ofFloat (fraction * 255.0)).bits.toNat) count

/-- Fills an image with noise. -/
def fillImage (n : Noise) (b : ImageBuffer) : ImageBuffer × Noise :=
  if b.format = .f32 then
    let (values, n) := n.singles #[] b.size
    (b.refill values, n)
  else
    let (bytes, n) := n.fill #[] b.byteSize
    (b.setBytes bytes, n)

end Noise

namespace DemoGraph

/-- Fills the inputs of a demo with noise, one after the other. -/
def fill (d : DemoGraph) (b : Bindings) (n : Noise) : Except Failure (Bindings × Noise) :=
  d.inputs.foldlM (fun (b, n) o =>
    match b.image? o with
    | some x =>
      let (x, n) := n.fillImage x
      .ok (b.insert o (.image x), n)
    | none => .error (.inputNotImage o)) (b, n)

end DemoGraph

end VisionGraph
