/-! # Unicode map entries -/

namespace ConsoleFont

/-- The glyph at a font position shows a character, or a sequence of characters such as a letter
and an accent. -/
structure Entry where
  position : Nat
  characters : List Char
  deriving DecidableEq, Repr

namespace Entry

def single (position : Nat) (character : Char) : Entry := ⟨position, [character]⟩

def isSequence (entry : Entry) : Bool := 1 < entry.characters.length

def shift (offset : Nat) (entry : Entry) : Entry := ⟨entry.position + offset, entry.characters⟩

theorem shift_shift (entry : Entry) (m n : Nat) :
    (entry.shift m).shift n = entry.shift (m + n) := by
  simp [shift, Nat.add_assoc]

end Entry

end ConsoleFont
