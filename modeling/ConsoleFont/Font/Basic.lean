import ConsoleFont.Font.Format
import ConsoleFont.Font.Glyph
import ConsoleFont.UnicodeTable.Entry

/-! # Fonts

A font is a table of bitmaps of one size, with a map that says which characters they show.
-/

namespace ConsoleFont

structure Metrics where
  width : Nat
  height : Nat
  /-- Bytes in a glyph, padding included. -/
  glyphSize : Nat
  deriving DecidableEq, Repr

structure Font extends Metrics where
  format : Format
  glyphCount : Nat
  bitmaps : Bytes
  /-- Which characters the glyphs show, in the order of the file. -/
  unicodeMap : List Entry
  deriving DecidableEq, Repr

namespace Font

def rowSize (font : Font) : Nat := pitch font.width

def bitmap? (font : Font) (position : Nat) : Option Bytes :=
  if position < font.glyphCount then
    font.bitmaps.slice? (position * font.glyphSize) font.glyphSize
  else none

def glyph? (font : Font) (position : Nat) : Option Glyph :=
  (font.bitmap? position).map fun data => ⟨data, font.width, font.height⟩

/-- Cuts `count` pieces of `size` bytes off, newest first, and stops where none is complete. -/
def piecesBehind (size : Nat) : (count : Nat) → List Bytes → Bytes → List Bytes
  | 0, pieces, _ => pieces
  | count + 1, pieces, data =>
    let piece := data.take size
    if piece.length = size then piecesBehind size count (piece :: pieces) (data.drop size)
    else pieces

def allBitmaps (font : Font) : List Bytes :=
  (piecesBehind font.glyphSize font.glyphCount [] font.bitmaps).reverse

def hasUnicodeMap (font : Font) : Bool := !font.unicodeMap.isEmpty

/-- The font position of the first entry that is this one character. -/
def positionOf? (font : Font) (character : Char) : Option Nat :=
  (font.unicodeMap.find? fun entry => entry.characters == [character]).map Entry.position

end Font

end ConsoleFont
