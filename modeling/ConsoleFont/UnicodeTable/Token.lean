import ConsoleFont.Text.CodePoint

/-! # Tokens of a unicode table

A unicode table has one list for each glyph: single characters, then sequences, each behind a
start marker, then a separator. It is written in 16-bit units or in UTF-8, and both markers are
values that no character has there.

Main statement: `length_lt_of_token`, every token takes at least one byte.
-/

namespace ConsoleFont.UnicodeTable

inductive Encoding
  /-- Units of 16 bits, the low byte first; `FFFF` separates and `FFFE` starts a sequence. -/
  | units
  /-- UTF-8; the byte `FF` separates and the byte `FE` starts a sequence. -/
  | utf8
  deriving DecidableEq, Repr

inductive Token
  | separator
  | startSequence
  /-- A code point, or nothing where the bytes stand for no character. -/
  | codePoint (character : Option Char)
  deriving DecidableEq, Repr

def isHighSurrogate (unit : Nat) : Bool := 0xD800 ≤ unit && unit ≤ 0xDBFF

def isLowSurrogate (unit : Nat) : Bool := 0xDC00 ≤ unit && unit ≤ 0xDFFF

def pairValue (high low : Nat) : Nat := 0x10000 + (high - 0xD800) * 0x400 + (low - 0xDC00)

/-- Reads the second half of a pair. A unit that is none is left unread. -/
def lowHalf (high : Nat) (data : Bytes) : Except Error (Token × Bytes) :=
  match Reader.unit data with
  | .ok (low, rest) =>
    if isLowSurrogate low then .ok (.codePoint (CodePoint.scalar? (pairValue high low)), rest)
    else .ok (.codePoint none, data)
  | .error error => .error error

def unitToken : Reader Token := fun data =>
  match Reader.unit data with
  | .ok (unit, rest) =>
    if unit = 0xFFFF then .ok (.separator, rest)
    else if unit = 0xFFFE then .ok (.startSequence, rest)
    else if isHighSurrogate unit then lowHalf unit rest
    else .ok (.codePoint (CodePoint.scalar? unit), rest)
  | .error error => .error error

def utf8Token : Reader Token
  | [] => .error .shortRead
  | byte :: rest =>
    if byte = 0xFF then .ok (.separator, rest)
    else if byte = 0xFE then .ok (.startSequence, rest)
    else
      match CodePoint.read (byte :: rest) with
      | .ok (value, rest) => .ok (.codePoint (value.bind CodePoint.scalar?), rest)
      | .error error => .error error

def Encoding.token : Encoding → Reader Token
  | units => unitToken
  | utf8 => utf8Token

theorem length_le_of_lowHalf {high : Nat} {data rest : Bytes} {token : Token}
    (h : lowHalf high data = .ok (token, rest)) : rest.length ≤ data.length := by
  unfold lowHalf at h
  split at h
  · rename_i low behind hUnit
    have hLt := Reader.length_lt_of_unit hUnit
    split at h
    · simp only [Except.ok.injEq, Prod.mk.injEq] at h
      rw [← h.2]
      exact Nat.le_of_lt hLt
    · simp only [Except.ok.injEq, Prod.mk.injEq] at h
      exact Nat.le_of_eq (congrArg List.length h.2.symm)
  · simp at h

theorem length_lt_of_unitToken {data rest : Bytes} {token : Token}
    (h : unitToken data = .ok (token, rest)) : rest.length < data.length := by
  unfold unitToken at h
  split at h
  · rename_i unit behind hUnit
    have hLt := Reader.length_lt_of_unit hUnit
    split at h
    · simp only [Except.ok.injEq, Prod.mk.injEq] at h
      rw [← h.2]
      exact hLt
    · split at h
      · simp only [Except.ok.injEq, Prod.mk.injEq] at h
        rw [← h.2]
        exact hLt
      · split at h
        · exact Nat.lt_of_le_of_lt (length_le_of_lowHalf h) hLt
        · simp only [Except.ok.injEq, Prod.mk.injEq] at h
          rw [← h.2]
          exact hLt
  · simp at h

theorem length_lt_of_utf8Token {data rest : Bytes} {token : Token}
    (h : utf8Token data = .ok (token, rest)) : rest.length < data.length := by
  cases data with
  | nil => simp [utf8Token] at h
  | cons byte behind =>
    simp only [utf8Token] at h
    split at h
    · simp only [Except.ok.injEq, Prod.mk.injEq] at h
      rw [← h.2]
      exact Nat.lt_succ_self _
    · split at h
      · simp only [Except.ok.injEq, Prod.mk.injEq] at h
        rw [← h.2]
        exact Nat.lt_succ_self _
      · split at h
        · rename_i hRead
          simp only [Except.ok.injEq, Prod.mk.injEq] at h
          rw [← h.2]
          exact CodePoint.length_lt_of_read hRead
        · simp at h

theorem length_lt_of_token {encoding : Encoding} {data rest : Bytes} {token : Token}
    (h : encoding.token data = .ok (token, rest)) : rest.length < data.length := by
  cases encoding with
  | units => exact length_lt_of_unitToken h
  | utf8 => exact length_lt_of_utf8Token h

end ConsoleFont.UnicodeTable
