import ConsoleFont.Bytes.Reader

/-! # Code points in the long UTF-8 forms

UTF-8 as it was first laid down: forms of one to six bytes, which reach every number below
`2 ^ 31`. Overlong forms and numbers that are no Unicode scalar value are read like any other.

Main statement: `length_lt_of_read`, reading always makes progress.
-/

namespace ConsoleFont.CodePoint

def scalar? (n : Nat) : Option Char :=
  if n.isValidChar then some (Char.ofNat n) else none

theorem toNat_ofNat {n : Nat} (h : n.isValidChar) : (Char.ofNat n).toNat = n := by
  rw [Char.ofNat, dif_pos h]
  rfl

theorem scalar?_eq_some_iff {n : Nat} {c : Char} : scalar? n = some c ↔ n = c.toNat := by
  unfold scalar?
  split
  · rename_i hValid
    simp only [Option.some.injEq]
    constructor
    · rintro rfl
      exact (toNat_ofNat hValid).symm
    · rintro rfl
      exact Char.ofNat_toNat c
  · rename_i hValid
    simp only [reduceCtorEq, false_iff]
    rintro rfl
    exact hValid c.valid

theorem scalar?_eq_none_iff {n : Nat} : scalar? n = none ↔ ¬ n.isValidChar := by
  simp [scalar?]

theorem toNat_valid (c : Char) : c.toNat < 0xD800 ∨ 0xDFFF < c.toNat ∧ c.toNat < 0x110000 := by
  have hValid := c.valid
  simp only [UInt32.isValidChar, Nat.isValidChar] at hValid
  exact hValid

def isContinuation (byte : UInt8) : Bool :=
  0x80 ≤ byte.toNat && byte.toNat < 0xC0

/-- How many bytes a lead byte asks for behind it, and the bits that it carries itself. -/
structure Lead where
  more : Nat
  payload : Nat
  deriving DecidableEq, Repr

/-- The lead bytes. The bytes `80` to `BF`, `FE` and `FF` start no form. -/
def lead? (byte : UInt8) : Option Lead :=
  let b := byte.toNat
  if b < 0x80 then some ⟨0, b⟩
  else if b < 0xC0 then none
  else if b < 0xE0 then some ⟨1, b - 0xC0⟩
  else if b < 0xF0 then some ⟨2, b - 0xE0⟩
  else if b < 0xF8 then some ⟨3, b - 0xF0⟩
  else if b < 0xFC then some ⟨4, b - 0xF8⟩
  else if b < 0xFE then some ⟨5, b - 0xFC⟩
  else none

/-- Reads `more` continuation bytes, six bits each, behind the bits in `value`. A byte that
continues nothing is left unread, and there is no code point then. -/
def continued : (more : Nat) → (value : Nat) → Reader (Option Nat)
  | 0, value, data => .ok (some value, data)
  | _ + 1, _, [] => .error .shortRead
  | more + 1, value, byte :: rest =>
    if isContinuation byte then continued more (value * 64 + (byte.toNat - 0x80)) rest
    else .ok (none, byte :: rest)

/-- Reads one code point, or nothing where the bytes are ill-formed. -/
def read : Reader (Option Nat)
  | [] => .error .shortRead
  | byte :: rest =>
    match lead? byte with
    | some lead => continued lead.more lead.payload rest
    | none => .ok (none, rest)

theorem length_le_of_continued {more value : Nat} {data rest : Bytes} {result : Option Nat}
    (h : continued more value data = .ok (result, rest)) : rest.length ≤ data.length := by
  induction more generalizing value data with
  | zero =>
    simp only [continued, Except.ok.injEq, Prod.mk.injEq] at h
    exact Nat.le_of_eq (congrArg List.length h.2.symm)
  | succ more ih =>
    cases data with
    | nil => simp [continued] at h
    | cons byte behind =>
      simp only [continued] at h
      split at h
      · exact Nat.le_succ_of_le (ih h)
      · simp only [Except.ok.injEq, Prod.mk.injEq] at h
        exact Nat.le_of_eq (congrArg List.length h.2.symm)

theorem length_lt_of_read {data rest : Bytes} {result : Option Nat}
    (h : read data = .ok (result, rest)) : rest.length < data.length := by
  cases data with
  | nil => simp [read] at h
  | cons byte behind =>
    simp only [read] at h
    split at h
    · exact Nat.lt_succ_of_le (length_le_of_continued h)
    · simp only [Except.ok.injEq, Prod.mk.injEq] at h
      rw [← h.2]
      exact Nat.lt_succ_self _

end ConsoleFont.CodePoint
