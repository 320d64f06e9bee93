import ConsoleFont.Text.CodePoint

/-! # Cursors

A cursor is a byte string with a position in it. Every step either succeeds and moves the cursor,
or fails, and then there is no new cursor and the old one still stands where it stood.

A reader becomes a step by `Cursor.run`. `Cursor.Op` names the steps, and a `Cursor.Session` runs
them one after another, with copies of the cursor to go back to.
-/

namespace ConsoleFont

structure Cursor where
  data : Bytes
  position : Nat
  deriving DecidableEq, Repr

namespace Cursor

/-- The number that stands for an ill-formed code point. -/
def invalidCodePoint : Nat := 0x7FFFFFFF

def ofBytes (data : Bytes) : Cursor := ⟨data, 0⟩

def length (cursor : Cursor) : Nat := cursor.data.length

def isEmpty (cursor : Cursor) : Bool := cursor.data.isEmpty

def remaining (cursor : Cursor) : Nat := cursor.length - cursor.position

def atEnd (cursor : Cursor) : Bool := cursor.remaining == 0

def rest (cursor : Cursor) : Bytes := cursor.data.drop cursor.position

/-- Runs a reader on the bytes still to be read, and moves behind what it took. -/
def run {α : Type} (reader : Reader α) (cursor : Cursor) : Except Error (α × Cursor) :=
  match reader cursor.rest with
  | .ok (value, rest) => .ok (value, ⟨cursor.data, cursor.length - rest.length⟩)
  | .error error => .error error

def seek (position : Nat) (cursor : Cursor) : Except Error Cursor :=
  if position ≤ cursor.length then .ok ⟨cursor.data, position⟩ else .error .shortRead

def byte : Cursor → Except Error (UInt8 × Cursor) := run Reader.byte

def unit : Cursor → Except Error (Nat × Cursor) := run Reader.unit

def word : Cursor → Except Error (Nat × Cursor) := run Reader.word

def peek : Cursor → Except Error (UInt8 × Cursor) := run Reader.peek

def take (count : Nat) : Cursor → Except Error (Bytes × Cursor) := run (Reader.take count)

def skip (count : Nat) : Cursor → Except Error (Unit × Cursor) := run (Reader.skip count)

def signature (expected : Bytes) : Cursor → Except Error (Unit × Cursor) :=
  run (Reader.signature expected)

def codePoint (cursor : Cursor) : Except Error (Nat × Cursor) :=
  match run CodePoint.read cursor with
  | .ok (value, cursor) => .ok (value.getD invalidCodePoint, cursor)
  | .error error => .error error

inductive Op
  | byte
  | unit
  | word
  | peek
  | codePoint
  | signature (expected : Bytes)
  | take (count : Nat)
  | skip (count : Nat)
  | seek (position : Nat)
  | size
  | save
  /-- Goes back to a copy; they count from the newest one. -/
  | back (index : Nat)
  deriving DecidableEq, Repr

def Op.restore : Op := .back 0

inductive Answer
  | done
  | number (value : Nat)
  | bytes (value : Bytes)
  | size (length : Nat) (isEmpty : Bool)
  deriving DecidableEq, Repr

/-- A cursor in use, and the copies of it that were kept, the newest first. -/
structure Session where
  cursor : Cursor
  saved : List Cursor
  deriving DecidableEq, Repr

namespace Session

def ofBytes (data : Bytes) : Session := ⟨.ofBytes data, [.ofBytes data]⟩

/-- Takes over a step's cursor, or keeps the session as it was where the step failed. -/
def settle {α : Type} (session : Session) (answer : α → Answer) :
    Except Error (α × Cursor) → Except Error Answer × Session
  | .ok (value, cursor) => (.ok (answer value), ⟨cursor, session.saved⟩)
  | .error error => (.error error, session)

def step (session : Session) : Op → Except Error Answer × Session
  | .byte => session.settle (fun b => .number b.toNat) session.cursor.byte
  | .unit => session.settle .number session.cursor.unit
  | .word => session.settle .number session.cursor.word
  | .peek => session.settle (fun b => .number b.toNat) session.cursor.peek
  | .codePoint => session.settle .number session.cursor.codePoint
  | .signature expected => session.settle (fun _ => .done) (session.cursor.signature expected)
  | .take count => session.settle .bytes (session.cursor.take count)
  | .skip count => session.settle (fun _ => .done) (session.cursor.skip count)
  | .seek position =>
    session.settle (fun _ => .done) ((session.cursor.seek position).map fun cursor => ((), cursor))
  | .size => (.ok (.size session.cursor.length session.cursor.isEmpty), session)
  | .save => (.ok .done, ⟨session.cursor, session.cursor :: session.saved⟩)
  | .back index => (.ok .done, ⟨session.saved[index]?.getD session.cursor, session.saved⟩)

def steps (session : Session) (ops : List Op) : Session :=
  ops.foldl (fun session op => (session.step op).2) session

end Session

end Cursor

end ConsoleFont
