import ConsoleFont.Error

/-! # Reading from the front of a byte string

A reader takes a value off the front of a byte string and leaves the rest, or fails and leaves
everything. Numbers are stored with the low byte first.

Main statements: each reader is described by what it accepts, `byte_eq_ok_iff`, `unit_eq_ok_iff`,
`word_eq_ok_iff` and `signature_eq_ok_iff`.
-/

namespace ConsoleFont

abbrev Reader (α : Type) := Bytes → Except Error (α × Bytes)

namespace Reader

def byte : Reader UInt8
  | b :: rest => .ok (b, rest)
  | [] => .error .shortRead

/-- The next byte, which stays unread. -/
def peek : Reader UInt8
  | b :: rest => .ok (b, b :: rest)
  | [] => .error .shortRead

def unit : Reader Nat
  | a :: b :: rest => .ok (a.toNat + b.toNat * 256, rest)
  | _ => .error .shortRead

def word : Reader Nat
  | a :: b :: c :: d :: rest =>
    .ok (a.toNat + b.toNat * 256 + c.toNat * 65536 + d.toNat * 16777216, rest)
  | _ => .error .shortRead

def take (count : Nat) : Reader Bytes := fun data =>
  if count ≤ data.length then .ok (data.take count, data.drop count) else .error .shortRead

def skip (count : Nat) : Reader Unit := fun data =>
  if count ≤ data.length then .ok ((), data.drop count) else .error .shortRead

/-- Reads exactly the given bytes. Whatever else is there, too little included, is no short read
but the sign of another format. -/
def signature (expected : Bytes) : Reader Unit := fun data =>
  if expected.isPrefixOf data then .ok ((), data.drop expected.length) else .error .badMagic

theorem byte_eq_ok_iff {data rest : Bytes} {b : UInt8} :
    byte data = .ok (b, rest) ↔ data = b :: rest := by
  cases data <;> simp [byte]

theorem unit_eq_ok_iff {data rest : Bytes} {n : Nat} :
    unit data = .ok (n, rest) ↔
      ∃ a b : UInt8, data = a :: b :: rest ∧ n = a.toNat + b.toNat * 256 := by
  constructor
  · intro h
    unfold unit at h
    split at h
    · simp only [Except.ok.injEq, Prod.mk.injEq] at h
      obtain ⟨rfl, rfl⟩ := h
      exact ⟨_, _, rfl, rfl⟩
    · simp at h
  · rintro ⟨a, b, rfl, rfl⟩
    rfl

theorem word_eq_ok_iff {data rest : Bytes} {n : Nat} :
    word data = .ok (n, rest) ↔
      ∃ a b c d : UInt8, data = a :: b :: c :: d :: rest ∧
        n = a.toNat + b.toNat * 256 + c.toNat * 65536 + d.toNat * 16777216 := by
  constructor
  · intro h
    unfold word at h
    split at h
    · simp only [Except.ok.injEq, Prod.mk.injEq] at h
      obtain ⟨rfl, rfl⟩ := h
      exact ⟨_, _, _, _, rfl, rfl⟩
    · simp at h
  · rintro ⟨a, b, c, d, rfl, rfl⟩
    rfl

theorem signature_eq_ok_iff {expected data rest : Bytes} :
    signature expected data = .ok ((), rest) ↔ data = expected ++ rest := by
  unfold signature
  split
  · rename_i hPrefix
    obtain ⟨behind, rfl⟩ := List.isPrefixOf_iff_prefix.1 hPrefix
    simp
  · rename_i hPrefix
    simp only [reduceCtorEq, false_iff]
    rintro rfl
    exact hPrefix (List.isPrefixOf_iff_prefix.2 (List.prefix_append ..))

theorem length_lt_of_unit {data rest : Bytes} {n : Nat} (h : unit data = .ok (n, rest)) :
    rest.length < data.length := by
  obtain ⟨a, b, rfl, _⟩ := unit_eq_ok_iff.1 h
  simp only [List.length_cons]
  omega

end Reader

end ConsoleFont
