import ConsoleFont.Font.Basic
import ConsoleFont.UnicodeTable.Decode
import ConsoleFont.UnicodeTable.Encode

/-! # PSF version 1

A signature of two bytes, a mode and the height. The mode chooses between 256 and 512 glyphs, which
are eight pixels wide, and says whether a unicode table in 16-bit units follows and ends the file.
-/

namespace ConsoleFont.Psf1

def magic : Nat := 0x0436

def maxMode : Nat := 5

def glyphCount (mode : UInt8) : Nat := if mode.toNat.testBit 0 then 512 else 256

/-- A table is there if the mode asks for one, or for one with sequences. -/
def hasTable (mode : UInt8) : Bool := mode.toNat.testBit 1 || mode.toNat.testBit 2

def header : Reader (UInt8 × UInt8)
  | mode :: height :: rest => .ok ((mode, height), rest)
  | _ => .error (.badHeader .psf1)

/-- The first thing that is wrong with a header that has `size` bytes behind it. -/
def fault? (mode height : UInt8) (size : Nat) : Option Error :=
  if maxMode < mode.toNat then some (.unsupportedMode mode)
  else if height = 0 then some .glyphSizeZero
  else if size < height.toNat * glyphCount mode then some .lengthTooBig
  else none

def check (mode height : UInt8) (size : Nat) : Except Error Unit :=
  match fault? mode height size with
  | some error => .error error
  | none => .ok ()

def decode (data : Bytes) : Except Error Font := do
  let (_, behind) ← Reader.signature (Bytes.ofUnit magic) data
  let ((mode, height), body) ← header behind
  check mode height body.length
  let (bitmaps, table) ← Reader.take (height.toNat * glyphCount mode) body
  let unicodeMap ← UnicodeTable.decodeIf (hasTable mode) .units (glyphCount mode) table
  return {
    width := 8
    height := height.toNat
    glyphSize := height.toNat
    format := .psf1
    glyphCount := glyphCount mode
    bitmaps
    unicodeMap }

def modeOf (font : Font) : UInt8 :=
  (if font.glyphCount = 512 then 1 else 0) + (if font.hasUnicodeMap then 2 else 0)

/-- Writes a font of 256 or 512 glyphs that are eight pixels wide. -/
def encode (font : Font) : Bytes :=
  Bytes.ofUnit magic ++ [modeOf font, UInt8.ofNat font.glyphSize] ++ font.bitmaps
    ++ UnicodeTable.encodeIf font.hasUnicodeMap .units font.glyphCount font.unicodeMap

end ConsoleFont.Psf1
