/-! # Font formats

Two formats have a header: `psf2` for glyphs of any size with a unicode table in UTF-8, `psf1` for
glyphs eight pixels wide with a unicode table of 16-bit units. A `combined` font is a text that
lists partial fonts, and `raw` glyphs stand there bare, known by their length alone.
-/

namespace ConsoleFont

inductive Format
  | psf2
  | psf1
  | combined
  | raw
  deriving DecidableEq, Repr

namespace Format

def detectionOrder : List Format := [.psf2, .psf1, .combined, .raw]

def name : Format → String
  | psf2 => "PSF2"
  | psf1 => "PSF1"
  | combined => "combined font"
  | raw => "raw font"

end Format

end ConsoleFont
