import ConsoleFont.Font.Format
import ConsoleFont.Text.Lossy

/-! # What can go wrong

`Error` has one constructor for each cause, and `Error.message` gives its wording.
-/

namespace ConsoleFont

inductive FileFault
  | notFound
  | isADirectory
  | notADirectory
  | invalidPath
  | nameTooLong
  | other (description : String)
  deriving DecidableEq, Repr

/-- The system's wording of a fault, with its number where the system gives one. -/
def FileFault.description : FileFault → String
  | notFound => "No such file or directory (os error 2)"
  | isADirectory => "Is a directory (os error 21)"
  | notADirectory => "Not a directory (os error 20)"
  | invalidPath => "file name contained an unexpected NUL byte"
  | nameTooLong => "File name too long (os error 36)"
  | other description => description

inductive Error
  | cannotOpen (path : String) (fault : FileFault)
  | cannotRead (path : String) (fault : FileFault)
  | shortRead
  /-- The data does not start with the signature: another format may still read it. -/
  | badMagic
  | badHeader (format : Format)
  | unsupportedMode (mode : UInt8)
  | unsupportedVersion (version : Nat)
  | trailingGarbage
  | offsetTooBig
  | glyphSizeZero
  | glyphSizeTooBig
  | lengthTooBig
  | heightRequired
  | unsupportedHeight (height : Nat)
  | shortUnicodeTable
  | invalidCodePoint (position : Nat)
  | emptySequence (position : Nat)
  | fontNotFound (name : Bytes)
  | combineTooDeep
  | metricsMismatch
  | unsupported (what : String)
  deriving DecidableEq, Repr

namespace Error

def hexByte (byte : UInt8) : String :=
  String.ofList [Nat.digitChar (byte.toNat / 16), Nat.digitChar (byte.toNat % 16)]

def message : Error → String
  | cannotOpen path fault => s!"Failed to open file '{path}': {fault.description}"
  | cannotRead path fault => s!"Failed to read file '{path}': {fault.description}"
  | shortRead => "Unexpected end of data"
  | badMagic => "Invalid font file: magic number mismatch"
  | badHeader format => s!"Truncated {format.name} header"
  | unsupportedMode mode => s!"Unsupported PSF1 mode: 0x{hexByte mode}"
  | unsupportedVersion version => s!"Unsupported PSF2 version: {version}"
  | trailingGarbage => "Trailing garbage after font data"
  | offsetTooBig => "Font offset is beyond the end of the file"
  | glyphSizeZero => "Character size is zero"
  | glyphSizeTooBig => "Character size does not fit the file or the glyph dimensions"
  | lengthTooBig => "Glyph count does not fit the file"
  | heightRequired => "Font has several sizes, a target height is required"
  | unsupportedHeight height => s!"Font height {height} is not available in this file"
  | shortUnicodeTable => "Unicode table is too short"
  | invalidCodePoint position =>
    s!"Invalid code point in unicode table at font position {position}"
  | emptySequence position => s!"Empty sequence in unicode table at font position {position}"
  | fontNotFound name => s!"Font not found: {Lossy.text name}"
  | combineTooDeep => "Combined fonts are nested too deeply"
  | metricsMismatch => "Fonts have different metrics"
  | unsupported what => s!"Unsupported: {what}"

def isBadMagic : Error → Bool
  | badMagic => true
  | _ => false

end Error

end ConsoleFont
