import ConsoleFont.UnicodeTable.Entry
import ConsoleFont.UnicodeTable.Token

/-! # Reading a unicode table

`decode` reads the lists of as many glyphs as asked for and stops behind the last separator;
`decodeAll` also wants nothing to be left. Entries come in the order of the table.
-/

namespace ConsoleFont.UnicodeTable

/-- Ends the open sequence, if there is one. Entries and characters stand newest first. -/
def finish (position : Nat) (entries : List Entry) :
    Option (List Char) → Except Error (List Entry)
  | none => .ok entries
  | some [] => .error (.emptySequence position)
  | some (last :: before) => .ok (⟨position, (last :: before).reverse⟩ :: entries)

def place (position : Nat) (character : Char) (entries : List Entry) :
    Option (List Char) → List Entry × Option (List Char)
  | none => (.single position character :: entries, none)
  | some characters => (entries, some (character :: characters))

/-- Reads the rest of one glyph's list, behind the entries and the open sequence that are there
already. -/
def entryList (encoding : Encoding) (position : Nat) (entries : List Entry)
    (sequence : Option (List Char)) (data : Bytes) : Except Error (List Entry × Bytes) :=
  match _ : encoding.token data with
  | .error _ => .error .shortUnicodeTable
  | .ok (.separator, rest) =>
    match finish position entries sequence with
    | .ok entries => .ok (entries, rest)
    | .error error => .error error
  | .ok (.startSequence, rest) =>
    match finish position entries sequence with
    | .ok entries => entryList encoding position entries (some []) rest
    | .error error => .error error
  | .ok (.codePoint none, _) => .error (.invalidCodePoint position)
  | .ok (.codePoint (some character), rest) =>
    match place position character entries sequence with
    | (entries, sequence) => entryList encoding position entries sequence rest
termination_by data.length
decreasing_by all_goals exact length_lt_of_token ‹_›

def entryLists (encoding : Encoding) :
    (count position : Nat) → List Entry → Bytes → Except Error (List Entry × Bytes)
  | 0, _, entries, data => .ok (entries, data)
  | count + 1, position, entries, data =>
    match entryList encoding position entries none data with
    | .ok (entries, rest) => entryLists encoding count (position + 1) entries rest
    | .error error => .error error

def decode (encoding : Encoding) (count : Nat) : Reader (List Entry) := fun data =>
  match entryLists encoding count 0 [] data with
  | .ok (entries, rest) => .ok (entries.reverse, rest)
  | .error error => .error error

def decodeAll (encoding : Encoding) (count : Nat) (data : Bytes) : Except Error (List Entry) :=
  match decode encoding count data with
  | .ok (entries, []) => .ok entries
  | .ok (_, _ :: _) => .error .trailingGarbage
  | .error error => .error error

/-- Reads the table if there is one. Without one, the map is empty whatever the bytes are. -/
def decodeIf (present : Bool) (encoding : Encoding) (count : Nat) (data : Bytes) :
    Except Error (List Entry) :=
  if present then decodeAll encoding count data else .ok []

end ConsoleFont.UnicodeTable
