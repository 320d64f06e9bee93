import ConsoleFont.Bytes.Reader

/-! # Lists of partial fonts

A combined font is a text: a first line that says so, then one font name in a line. Blank lines do
not count. Every line ends in a newline, no name holds a NUL byte, and one name at least is there.
-/

namespace ConsoleFont.PartList

def magic : Bytes :=
  Bytes.ofAscii ['#', ' ', 'c', 'o', 'm', 'b', 'i', 'n', 'e', ' ', 'p', 'a', 'r', 't', 'i', 'a', 'l',
    ' ', 'f', 'o', 'n', 't', 's', '\n']

def newline : UInt8 := 0x0A

/-- Reads the names behind those read before and the begun line, all newest first. -/
def namesBehind (names : List Bytes) (line : Bytes) : Bytes → Except Error (List Bytes)
  | [] => if line.isEmpty then .ok names.reverse else .error .trailingGarbage
  | byte :: rest =>
    if byte = newline then
      namesBehind (if line.isEmpty then names else line.reverse :: names) [] rest
    else if byte = 0 then .error .trailingGarbage
    else namesBehind names (byte :: line) rest

def names (data : Bytes) : Except Error (List Bytes) :=
  match namesBehind [] [] data with
  | .ok [] => .error .trailingGarbage
  | result => result

def decode (data : Bytes) : Except Error (List Bytes) := do
  let (_, behind) ← Reader.signature magic data
  names behind

def lines (names : List Bytes) : Bytes :=
  names.flatMap fun name => name ++ [newline]

def encode (names : List Bytes) : Bytes := magic ++ lines names

end ConsoleFont.PartList
