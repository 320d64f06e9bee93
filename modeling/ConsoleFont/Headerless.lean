import ConsoleFont.Bytes.Reader
import ConsoleFont.Font.Basic

/-! # Fonts without a header

Bare glyphs, eight pixels wide, are recognised by the length of the file alone:

* 9780 bytes hold the fonts of a code page, of heights 16, 14 and 8, behind a header;
* 32768 bytes hold two fonts of 512 glyphs of height 32, and the first is taken;
* `256 * n` bytes hold 256 glyphs of height `n`;
* `256 * n + 40` bytes hold the same behind a header of a code page.
-/

namespace ConsoleFont.Headerless

def codePageLength : Nat := 9780

def codePageHeader : Nat := 40

def twoFontsLength : Nat := 32768

/-- Where the glyphs stand in the file. -/
structure Block where
  height : Nat
  glyphCount : Nat
  offset : Nat
  deriving DecidableEq, Repr

def Block.size (block : Block) : Nat := block.height * block.glyphCount

def codePageBlocks : List Block := [⟨16, 256, 40⟩, ⟨14, 256, 4142⟩, ⟨8, 256, 7732⟩]

def codePageBlock (targetHeight : Option Nat) : Except Error Block :=
  match targetHeight with
  | none => .error .heightRequired
  | some height =>
    match codePageBlocks.find? fun block => block.height == height with
    | some block => .ok block
    | none => .error (.unsupportedHeight height)

/-- 256 glyphs that fill `size` bytes behind `offset`. -/
def bareBlock (size offset : Nat) : Except Error Block :=
  if size / 256 < wordLimit then .ok ⟨size / 256, 256, offset⟩ else .error .lengthTooBig

def block (targetHeight : Option Nat) (length : Nat) : Except Error Block :=
  if length = codePageLength then codePageBlock targetHeight
  -- this length is a multiple of 256 too, so that it has to be asked for first
  else if length = twoFontsLength then .ok ⟨32, 512, 0⟩
  else if 0 < length ∧ length % 256 = 0 then bareBlock length 0
  else if codePageHeader < length ∧ length % 256 = codePageHeader then
    bareBlock (length - codePageHeader) codePageHeader
  else .error .badMagic

def decode (targetHeight : Option Nat) (data : Bytes) : Except Error Font := do
  let place ← block targetHeight data.length
  let (_, body) ← Reader.skip place.offset data
  let (bitmaps, _) ← Reader.take place.size body
  return {
    width := 8
    height := place.height
    glyphSize := place.height
    format := .raw
    glyphCount := place.glyphCount
    bitmaps
    unicodeMap := [] }

end ConsoleFont.Headerless
