import ConsoleFont.Proofs.Words
import ConsoleFont.UnicodeTable.Encode

/-! # Characters in units of 16 bits

A character above `FFFF` is written as a pair of surrogates, and every pair is that of one character
(`characterUnits_of_pairValue`, `exists_pair`). Any other character is a unit of its own.
-/

namespace ConsoleFont

namespace Reader

inductive ReadsUnit : Bytes → Except Error (Nat × Bytes) → Prop
  | whole {n : Nat} (rest : Bytes) : n < 0x10000 →
      ReadsUnit (Bytes.ofUnit n ++ rest) (.ok (n, rest))
  | short {data : Bytes} : data.length < 2 → ReadsUnit data (.error .shortRead)

theorem unit_of_short {data : Bytes} (h : data.length < 2) : unit data = .error .shortRead := by
  match data, h with
  | [], _ => rfl
  | [_], _ => rfl

theorem readsUnit_unit (data : Bytes) : ReadsUnit data (unit data) := by
  match data with
  | [] => exact .short (Nat.succ_pos 1)
  | [_] => exact .short (Nat.lt_succ_self 1)
  | a :: b :: rest =>
    have hWhole : ReadsUnit _ (.ok (a.toNat + b.toNat * 256, rest)) :=
      .whole rest (unit_lt (rfl : unit (a :: b :: rest) = _))
    rw [Bytes.ofUnit_toNat] at hWhole
    exact hWhole

end Reader

namespace UnicodeTable

theorem isHighSurrogate_iff {unit : Nat} :
    isHighSurrogate unit = true ↔ 0xD800 ≤ unit ∧ unit ≤ 0xDBFF := by
  simp [isHighSurrogate]

theorem isLowSurrogate_iff {unit : Nat} :
    isLowSurrogate unit = true ↔ 0xDC00 ≤ unit ∧ unit ≤ 0xDFFF := by
  simp [isLowSurrogate]

/-! ### Characters and their units -/

theorem characterUnits_of_lt {c : Char} (h : c.toNat < 0x10000) :
    Encoding.characterUnits c = [c.toNat] := by
  simp only [Encoding.characterUnits]
  rw [if_pos h]

/-- **A pair of surrogates is what the character of its number is written as.** -/
theorem characterUnits_of_pairValue {high low : Nat} {c : Char}
    (hHigh : isHighSurrogate high = true) (hLow : isLowSurrogate low = true)
    (h : c.toNat = pairValue high low) :
    Encoding.characterUnits c = [high, low] := by
  rw [isHighSurrogate_iff] at hHigh
  rw [isLowSurrogate_iff] at hLow
  simp only [Encoding.characterUnits, h]
  have hUnits : 0xD800 + (pairValue high low - 0x10000) / 0x400 = high ∧
      0xDC00 + (pairValue high low - 0x10000) % 0x400 = low := by
    unfold pairValue
    omega
  have hHigh : ¬ pairValue high low < 0x10000 := by
    unfold pairValue
    omega
  rw [if_neg hHigh, hUnits.1, hUnits.2]

/-- **A character above `FFFF` is written as the pair of its number.** -/
theorem exists_pair {c : Char} (h : 0x10000 ≤ c.toNat) :
    ∃ high low, isHighSurrogate high = true ∧ isLowSurrogate low = true ∧
      pairValue high low = c.toNat ∧ Encoding.characterUnits c = [high, low] := by
  have hValid := CodePoint.toNat_valid c
  refine ⟨0xD800 + (c.toNat - 0x10000) / 0x400, 0xDC00 + (c.toNat - 0x10000) % 0x400,
    ?_, ?_, ?_, ?_⟩
  · rw [isHighSurrogate_iff]
    omega
  · rw [isLowSurrogate_iff]
    omega
  · unfold pairValue
    omega
  · unfold Encoding.characterUnits
    exact if_neg (Nat.not_lt.2 h)

theorem exists_of_pairValue {high low : Nat} (hHigh : isHighSurrogate high = true)
    (hLow : isLowSurrogate low = true) :
    ∃ c, CodePoint.scalar? (pairValue high low) = some c ∧ c.toNat = pairValue high low := by
  rw [isHighSurrogate_iff] at hHigh
  rw [isLowSurrogate_iff] at hLow
  have hValid : (pairValue high low).isValidChar := by
    right
    unfold pairValue
    omega
  refine ⟨Char.ofNat (pairValue high low), ?_, CodePoint.toNat_ofNat hValid⟩
  rw [CodePoint.scalar?, if_pos hValid]

end UnicodeTable

end ConsoleFont
