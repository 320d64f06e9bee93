import ConsoleFont.UnicodeTable.Entry
import ConsoleFont.UnicodeTable.Token

/-! # Writing a unicode table

The list of a glyph holds its single characters up to its first sequence as they are, and every
entry from there on behind a start marker, so that reading it gives the same entries in the same
order.
-/

namespace ConsoleFont.UnicodeTable

namespace Encoding

def separator : Encoding → Bytes
  | units => Bytes.ofUnit 0xFFFF
  | utf8 => [0xFF]

def startMarker : Encoding → Bytes
  | units => Bytes.ofUnit 0xFFFE
  | utf8 => [0xFE]

/-- The units of a character; one above `FFFF` takes a pair of surrogates. -/
def characterUnits (character : Char) : List Nat :=
  let n := character.toNat
  if n < 0x10000 then [n]
  else [0xD800 + (n - 0x10000) / 0x400, 0xDC00 + (n - 0x10000) % 0x400]

def character : Encoding → Char → Bytes
  | units, c => (characterUnits c).flatMap Bytes.ofUnit
  | utf8, c => String.utf8EncodeChar c

def characters (encoding : Encoding) (characters : List Char) : Bytes :=
  characters.flatMap encoding.character

/-- An entry that stands behind a start marker. -/
def sequence (encoding : Encoding) (entry : Entry) : Bytes :=
  encoding.startMarker ++ encoding.characters entry.characters

def entryList (encoding : Encoding) (entries : List Entry) : Bytes :=
  (entries.takeWhile fun entry => !entry.isSequence).flatMap
      (fun entry => encoding.characters entry.characters)
    ++ (entries.dropWhile fun entry => !entry.isSequence).flatMap encoding.sequence
    ++ encoding.separator

end Encoding

def encode (encoding : Encoding) (count : Nat) (entries : List Entry) : Bytes :=
  (List.range count).flatMap fun position =>
    encoding.entryList (entries.filter fun entry => entry.position == position)

def encodeIf (present : Bool) (encoding : Encoding) (count : Nat) (entries : List Entry) : Bytes :=
  if present then encode encoding count entries else []

end ConsoleFont.UnicodeTable
