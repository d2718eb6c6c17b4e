import VisionGraph.Buffer.Fault
/-!
Image storage: all samples of an image, row by row, the channels of a pixel side by side.

The number of samples follows from the extent and the format, and every sample is a stored number of
the format; both are part of the type.
-/

namespace VisionGraph

structure ImageBuffer where
  width : UInt32
  height : UInt32
  format : Format
  samples : Array Int
  size_eq : samples.size = width.toNat * height.toNat * format.channels
  fits : ∀ v ∈ samples, format.element.Holds v
deriving DecidableEq

namespace ImageBuffer

/-- Number of samples, not of pixels. -/
def size (b : ImageBuffer) : Nat := b.samples.size

def isEmpty (b : ImageBuffer) : Bool := b.size == 0

def element (b : ImageBuffer) : Element := b.format.element

def byteSize (b : ImageBuffer) : Nat := b.size * b.format.elementSize

def info (b : ImageBuffer) : ImageMeta := .known b.width b.height b.format

/-- An image whose sample `i` is the stored number of `f i`. -/
def generate (width height : UInt32) (format : Format) (f : Nat → Int) : ImageBuffer where
  width := width
  height := height
  format := format
  samples := (Array.range (width.toNat * height.toNat * format.channels)).map fun i => format.element.wrap (f i)
  size_eq := by simp
  fits := by
    intro v hv
    obtain ⟨i, _, rfl⟩ := Array.mem_map.1 hv
    exact format.element.holds_wrap _

/-- An image of zeros. -/
def zero (width height : UInt32) (format : Format) : ImageBuffer where
  width := width
  height := height
  format := format
  samples := Array.replicate (width.toNat * height.toNat * format.channels) 0
  size_eq := by simp
  fits := by
    intro v hv
    rw [(Array.mem_replicate.1 hv).2]
    exact format.element.holds_zero

def ofMeta (m : ImageMeta) : Except BufferFault ImageBuffer :=
  match m.width, m.height, m.format with
  | some w, some h, some f => .ok (zero w h f)
  | _, _, _ => .error (.unresolved .image)

def get? (b : ImageBuffer) (i : Nat) : Option Int := b.samples[i]?

/-- Replaces one sample; outside the image nothing changes. -/
@[inline] def set (b : ImageBuffer) (i : Nat) (v : Int) : ImageBuffer where
  width := b.width
  height := b.height
  format := b.format
  samples := b.samples.setIfInBounds i (b.format.element.wrap v)
  size_eq := by rw [Array.size_setIfInBounds]; exact b.size_eq
  fits := by
    intro w hw
    rcases Array.mem_or_eq_of_mem_setIfInBounds hw with h | h
    · exact b.fits w h
    · exact h ▸ b.format.element.holds_wrap v

/-- Replaces one sample of the image. -/
@[inline] def set? (b : ImageBuffer) (i : Nat) (v : Int) : Option ImageBuffer :=
  if i < b.samples.size then some (b.set i v) else none

/-- Replaces all samples; missing ones become zero. -/
def refill (b : ImageBuffer) (values : Array Int) : ImageBuffer :=
  generate b.width b.height b.format fun i => values.getD i 0

/-- Views of the samples as another element of the same size. -/
def checkView (b : ImageBuffer) (e : Element) : Except BufferFault Unit :=
  if e.bytes = b.format.elementSize then .ok () else .error (.imageView e.bytes b.format)

def view (b : ImageBuffer) (e : Element) : Except BufferFault (Array Int) := do
  b.checkView e
  return b.samples.map fun v => e.ofPattern (b.element.pattern v)

/-- Sets every sample to one value seen as another element of the same size. -/
def fill (b : ImageBuffer) (e : Element) (v : Int) : Except BufferFault ImageBuffer := do
  b.checkView e
  return generate b.width b.height b.format fun _ => e.pattern v

/-- An image from a grid of numbers, one row of the grid a row of the image. -/
def ofGrid (format : Format) (e : Element) (rows columns : Nat) (cell : Nat → Nat → Int) :
    Except BufferFault ImageBuffer := do
  if columns % format.channels ≠ 0 then
    throw (.columns columns format.channels)
  let b := zero (UInt32.ofNat (columns / format.channels)) (UInt32.ofNat rows) format
  b.checkView e
  return generate b.width b.height format fun i => e.pattern (cell (i / columns) (i % columns))

/-- The samples of each row. -/
def rows (b : ImageBuffer) : List (List Int) :=
  let columns := b.width.toNat * b.format.channels
  (List.range b.height.toNat).map fun y =>
    (b.samples.extract (y * columns) (y * columns + columns)).toList

/-- The bytes of a bit pattern, the lowest first. -/
def littleEndian (bytes : Nat) (bits : Nat) : List UInt8 :=
  (List.range bytes).map fun k => UInt8.ofNat (bits / Nat.pow 256 k)

/-- All bytes of the image. -/
def bytes (b : ImageBuffer) : List UInt8 :=
  b.samples.toList.flatMap fun v => littleEndian b.element.bytes (b.element.pattern v)

/-- The number in some bytes from a place on, the lowest first; missing bytes are zero. -/
def ofLittleEndian (bytes : Array UInt8) (start : Nat) : (count : Nat) → Nat
  | 0 => 0
  | count + 1 => (bytes.getD start 0).toNat + 256 * ofLittleEndian bytes (start + 1) count

/-- Replaces the contents by bytes. -/
def setBytes (b : ImageBuffer) (bytes : Array UInt8) : ImageBuffer :=
  let width := b.element.bytes
  generate b.width b.height b.format fun i => (ofLittleEndian bytes (i * width) width : Nat)

/-- Every sample as a number. -/
def reals (b : ImageBuffer) : Array Float :=
  if b.format = .f32 then
    b.samples.map fun v => Single.toFloat ⟨UInt32.ofNat (Element.f32.pattern v)⟩
  else b.samples.map Float.ofInt

end ImageBuffer

end VisionGraph
