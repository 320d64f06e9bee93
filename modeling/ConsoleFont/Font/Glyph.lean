import ConsoleFont.Bytes.Basic

/-! # Glyph bitmaps

A glyph stores its rows from top to bottom. A row starts at a new byte, and in a byte the leftmost
pixel is the highest bit. Bytes behind the last row are padding.
-/

namespace ConsoleFont

/-- The bytes that a row of `width` pixels takes. -/
def pitch (width : Nat) : Nat := (width + 7) / 8

structure Glyph where
  data : Bytes
  width : Nat
  height : Nat
  deriving DecidableEq, Repr

namespace Glyph

def row? (glyph : Glyph) (y : Nat) : Option Bytes :=
  if y < glyph.height then glyph.data.slice? (y * pitch glyph.width) (pitch glyph.width) else none

/-- Whether the pixel at `(x, y)` is set. Outside of the glyph no pixel is. -/
def pixel (glyph : Glyph) (x y : Nat) : Bool :=
  if x < glyph.width then
    match glyph.row? y with
    | some row => (row.getD (x / 8) 0).toNat.testBit (7 - x % 8)
    | none => false
  else false

def isEmpty (glyph : Glyph) : Bool := glyph.data.all (· == 0)

end Glyph

end ConsoleFont
