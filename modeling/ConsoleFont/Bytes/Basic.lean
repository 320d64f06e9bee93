/-! # Byte strings

Files, glyph bitmaps and font names are byte strings. A byte string is a list of bytes, so that
reading from its front is recursion on the list.

Main statements: `slice?_eq_some_iff` says when a slice lies within a byte string, and
`length_of_slice?` that a slice has the length that was asked for.
-/

namespace ConsoleFont

abbrev Bytes := List UInt8

def wordLimit : Nat := 0x100000000

namespace Bytes

/-- The `length` bytes from `start` on, if the byte string reaches that far. -/
def slice? (data : Bytes) (start length : Nat) : Option Bytes :=
  if start + length ≤ data.length then some ((data.drop start).take length) else none

theorem slice?_eq_some_iff {data piece : Bytes} {start length : Nat} :
    data.slice? start length = some piece ↔
      start + length ≤ data.length ∧ piece = (data.drop start).take length := by
  unfold slice?
  split
  · rename_i hReach
    simp [hReach, eq_comm]
  · rename_i hReach
    simp [hReach]

theorem length_of_slice? {data piece : Bytes} {start length : Nat}
    (h : data.slice? start length = some piece) : piece.length = length := by
  obtain ⟨hReach, rfl⟩ := slice?_eq_some_iff.1 h
  simp only [List.length_take, List.length_drop]
  omega

/-- The bytes of a number of two bytes, the low byte first. -/
def ofUnit (n : Nat) : Bytes :=
  [UInt8.ofNat n, UInt8.ofNat (n / 256)]

def ofWord (n : Nat) : Bytes :=
  [UInt8.ofNat n, UInt8.ofNat (n / 256), UInt8.ofNat (n / 65536), UInt8.ofNat (n / 16777216)]

def ofAscii (characters : List Char) : Bytes :=
  characters.map fun c => UInt8.ofNat c.toNat

end Bytes

end ConsoleFont
