import ConsoleFont.Font.Basic
import ConsoleFont.UnicodeTable.Decode
import ConsoleFont.UnicodeTable.Encode

/-! # PSF version 2

A header of eight words: the signature, the version, the header's size, the flags, the number of
glyphs, the bytes of a glyph, its height and its width. The bitmaps follow where the header ends by
its own account. If the flags say so, a unicode table in UTF-8 follows right behind and ends the
file.
-/

namespace ConsoleFont.Psf2

def magic : Nat := 0x864AB572

structure Header where
  version : Nat
  headerSize : Nat
  flags : Nat
  glyphCount : Nat
  glyphSize : Nat
  height : Nat
  width : Nat
  deriving DecidableEq, Repr

namespace Header

def read (data : Bytes) : Except Error Header := do
  let (version, data) ← Reader.word data
  let (headerSize, data) ← Reader.word data
  let (flags, data) ← Reader.word data
  let (glyphCount, data) ← Reader.word data
  let (glyphSize, data) ← Reader.word data
  let (height, data) ← Reader.word data
  let (width, _) ← Reader.word data
  return { version, headerSize, flags, glyphCount, glyphSize, height, width }

def hasTable (header : Header) : Bool := header.flags.testBit 0

/-- The first thing that is wrong with a header in a file of `size` bytes. The file has to hold the
header, one glyph at least, and all glyphs, and the height has to be what the bytes of a glyph hold
in whole rows. -/
def fault? (header : Header) (size : Nat) : Option Error :=
  if header.version ≠ 0 then some (.unsupportedVersion header.version)
  else if size < header.headerSize then some .offsetTooBig
  else if header.glyphSize = 0 then some .glyphSizeZero
  else if size - header.headerSize < header.glyphSize then some .glyphSizeTooBig
  else if (size - header.headerSize) / header.glyphSize < header.glyphCount then
    some .lengthTooBig
  else if header.width = 0 then some .glyphSizeZero
  else if header.height ≠ header.glyphSize / pitch header.width then some .glyphSizeTooBig
  else none

def check (header : Header) (size : Nat) : Except Error Unit :=
  match header.fault? size with
  | some error => .error error
  | none => .ok ()

def encode (header : Header) : Bytes :=
  [header.version, header.headerSize, header.flags, header.glyphCount, header.glyphSize,
    header.height, header.width].flatMap Bytes.ofWord

end Header

def decode (data : Bytes) : Except Error Font := do
  let (_, behind) ← Reader.signature (Bytes.ofWord magic) data
  let header ← (Header.read behind).mapError fun _ => .badHeader .psf2
  header.check data.length
  let (_, body) ← Reader.skip header.headerSize data
  let (bitmaps, table) ← Reader.take (header.glyphSize * header.glyphCount) body
  let unicodeMap ← UnicodeTable.decodeIf header.hasTable .utf8 header.glyphCount table
  return {
    width := header.width
    height := header.height
    glyphSize := header.glyphSize
    format := .psf2
    glyphCount := header.glyphCount
    bitmaps
    unicodeMap }

def headerSize : Nat := 32

def headerOf (font : Font) : Header where
  version := 0
  headerSize := headerSize
  flags := if font.hasUnicodeMap then 1 else 0
  glyphCount := font.glyphCount
  glyphSize := font.glyphSize
  height := font.height
  width := font.width

/-- Writes a font. A font without glyphs is written with room for one, as reading wants it. -/
def encode (font : Font) : Bytes :=
  Bytes.ofWord magic ++ (headerOf font).encode
    ++ (if font.glyphCount = 0 then List.replicate font.glyphSize 0 else font.bitmaps)
    ++ UnicodeTable.encodeIf font.hasUnicodeMap .utf8 font.glyphCount font.unicodeMap

end ConsoleFont.Psf2
