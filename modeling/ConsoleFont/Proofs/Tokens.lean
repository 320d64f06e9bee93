import ConsoleFont.Proofs.Units
import ConsoleFont.Proofs.Utf8

/-! # The tokens of a unicode table

What stands for a character (`Encoding.Spells`), what neither is a marker nor stands for a character
(`Encoding.Broken`) and what is cut off (`Encoding.Cut`), in units of 16 bits as in UTF-8.

Main statement: `reads_token`, whatever the data is, a token is read as what stands at its front.
-/

namespace ConsoleFont.UnicodeTable

namespace Encoding

/-! ### Characters -/

/-- The bytes stand for the character. In units of 16 bits two characters cannot be spelled, as
their units are markers; in UTF-8 every form will do. -/
inductive Spells : Encoding → Char → Bytes → Prop
  | units {c : Char} : c.toNat ≠ 0xFFFE → c.toNat ≠ 0xFFFF → Spells units c (units.character c)
  | utf8 {c : Char} {bytes : Bytes} : CodePoint.Form c.toNat bytes → Spells utf8 c bytes

/-- The data starts with neither a marker nor a character, whatever comes behind it. -/
inductive Broken : Encoding → Bytes → Prop
  | lowSurrogate {unit : Nat} (rest : Bytes) : isLowSurrogate unit = true →
      Broken units (Bytes.ofUnit unit ++ rest)
  | highSurrogate {high unit : Nat} (rest : Bytes) : isHighSurrogate high = true →
      unit < 0x10000 → isLowSurrogate unit = false →
      Broken units (Bytes.ofUnit high ++ (Bytes.ofUnit unit ++ rest))
  | illFormed {data : Bytes} : CodePoint.IllFormed data → data.head? ≠ some 0xFF →
      data.head? ≠ some 0xFE → Broken utf8 data
  /-- A form of a number that no character has. -/
  | noCharacter {value : Nat} {bytes : Bytes} (rest : Bytes) : CodePoint.Form value bytes →
      ¬ value.isValidChar → Broken utf8 (bytes ++ rest)

/-- The data ends where more bytes are needed for a character or a marker. -/
inductive Cut : Encoding → Bytes → Prop
  | unit {data : Bytes} : data.length < 2 → Cut units data
  | pair {high : Nat} {rest : Bytes} : isHighSurrogate high = true → rest.length < 2 →
      Cut units (Bytes.ofUnit high ++ rest)
  | nil : Cut utf8 []
  | form {bytes : Bytes} : CodePoint.Unfinished bytes → Cut utf8 bytes

end Encoding

/-! ### Tokens -/

inductive Encoding.Reads (encoding : Encoding) : Bytes → Except Error (Token × Bytes) → Prop
  | separator (rest : Bytes) : Reads encoding (encoding.separator ++ rest) (.ok (.separator, rest))
  | startSequence (rest : Bytes) :
      Reads encoding (encoding.startMarker ++ rest) (.ok (.startSequence, rest))
  | character {c : Char} {bytes : Bytes} (rest : Bytes) : encoding.Spells c bytes →
      Reads encoding (bytes ++ rest) (.ok (.codePoint (some c), rest))
  | broken {data rest : Bytes} : encoding.Broken data →
      Reads encoding data (.ok (.codePoint none, rest))
  | cut {data : Bytes} {error : Error} : encoding.Cut data → Reads encoding data (.error error)

theorem character_units_of_lt {c : Char} (h : c.toNat < 0x10000) :
    Encoding.units.character c = Bytes.ofUnit c.toNat := by
  show (Encoding.characterUnits c).flatMap Bytes.ofUnit = _
  rw [characterUnits_of_lt h, List.flatMap_singleton]

theorem character_units_of_pair {c : Char} {high low : Nat}
    (h : Encoding.characterUnits c = [high, low]) :
    Encoding.units.character c = Bytes.ofUnit high ++ Bytes.ofUnit low := by
  show (Encoding.characterUnits c).flatMap Bytes.ofUnit = _
  rw [h, List.flatMap_cons, List.flatMap_singleton]

theorem reads_lowHalf {high : Nat} (hHigh : isHighSurrogate high = true) (data : Bytes) :
    Encoding.units.Reads (Bytes.ofUnit high ++ data) (lowHalf high data) := by
  unfold lowHalf
  have hUnit := Reader.readsUnit_unit data
  generalize Reader.unit data = result at hUnit
  cases hUnit with
  | short hLength => exact .cut (.pair hHigh hLength)
  | @whole low rest hLt =>
    simp only
    by_cases hLow : isLowSurrogate low = true
    · obtain ⟨c, hScalar, hValue⟩ := exists_of_pairValue hHigh hLow
      have hPair := isHighSurrogate_iff.1 hHigh
      have hAbove : 0x10000 ≤ c.toNat := by
        rw [hValue]
        unfold pairValue
        omega
      have hUnits := character_units_of_pair (characterUnits_of_pairValue hHigh hLow hValue)
      have hSpells : Encoding.units.Spells c (Encoding.units.character c) :=
        .units (by omega) (by omega)
      rw [if_pos hLow, hScalar, ← List.append_assoc, ← hUnits]
      exact .character rest hSpells
    · rw [if_neg hLow]
      exact .broken (.highSurrogate rest hHigh hLt (Bool.eq_false_iff.2 hLow))

theorem reads_unitToken (data : Bytes) : Encoding.units.Reads data (unitToken data) := by
  unfold unitToken
  have hUnit := Reader.readsUnit_unit data
  generalize Reader.unit data = result at hUnit
  cases hUnit with
  | short hLength => exact .cut (.unit hLength)
  | @whole unit rest hLt =>
    simp only
    by_cases hSeparator : unit = 0xFFFF
    · rw [if_pos hSeparator, hSeparator]
      exact .separator rest
    rw [if_neg hSeparator]
    by_cases hStart : unit = 0xFFFE
    · rw [if_pos hStart, hStart]
      exact .startSequence rest
    rw [if_neg hStart]
    by_cases hHigh : isHighSurrogate unit = true
    · rw [if_pos hHigh]
      exact reads_lowHalf hHigh rest
    rw [if_neg hHigh]
    cases hScalar : CodePoint.scalar? unit with
    | some c =>
      have hValue : unit = c.toNat := CodePoint.scalar?_eq_some_iff.1 hScalar
      rw [hValue] at hLt hSeparator hStart ⊢
      rw [← character_units_of_lt hLt]
      exact .character rest (.units hStart hSeparator)
    | none =>
      have hLow : isLowSurrogate unit = true := by
        rw [isLowSurrogate_iff]
        rw [isHighSurrogate_iff] at hHigh
        have hInvalid := CodePoint.scalar?_eq_none_iff.1 hScalar
        simp only [Nat.isValidChar] at hInvalid
        omega
      exact .broken (.lowSurrogate rest hLow)

theorem reads_utf8Token (data : Bytes) : Encoding.utf8.Reads data (utf8Token data) := by
  cases data with
  | nil => exact .cut .nil
  | cons byte behind =>
    rw [utf8Token]
    by_cases hSeparator : byte = 0xFF
    · rw [if_pos hSeparator, hSeparator]
      exact .separator behind
    rw [if_neg hSeparator]
    by_cases hStart : byte = 0xFE
    · rw [if_pos hStart, hStart]
      exact .startSequence behind
    rw [if_neg hStart]
    have hRead := CodePoint.reads_read (byte :: behind)
    have hHead : (byte :: behind).head? ≠ some 0xFF ∧ (byte :: behind).head? ≠ some 0xFE := by
      simp [hSeparator, hStart]
    revert hRead hHead
    generalize CodePoint.read (byte :: behind) = result
    generalize byte :: behind = data
    intro hRead hHead
    cases hRead with
    | nil => exact .cut .nil
    | unfinished hUnfinished => exact .cut (.form hUnfinished)
    | illFormed hIllFormed => exact .broken (.illFormed hIllFormed hHead.1 hHead.2)
    | @form value bytes rest hForm =>
      simp only [Option.bind_some]
      cases hScalar : CodePoint.scalar? value with
      | some c =>
        rw [CodePoint.scalar?_eq_some_iff.1 hScalar] at hForm
        exact .character rest (.utf8 hForm)
      | none => exact .broken (.noCharacter rest hForm (CodePoint.scalar?_eq_none_iff.1 hScalar))

/-- **What a token is read as**, on any data. -/
theorem reads_token (encoding : Encoding) (data : Bytes) :
    encoding.Reads data (encoding.token data) := by
  cases encoding with
  | units => exact reads_unitToken data
  | utf8 => exact reads_utf8Token data

theorem reads_of_token {encoding : Encoding} {data : Bytes}
    {result : Except Error (Token × Bytes)} (h : encoding.token data = result) :
    encoding.Reads data result := by
  rw [← h]
  exact reads_token encoding data

theorem token_separator (encoding : Encoding) (rest : Bytes) :
    encoding.token (encoding.separator ++ rest) = .ok (.separator, rest) := by
  cases encoding with
  | units =>
    rw [Encoding.token, Encoding.separator, unitToken, Reader.unit_ofUnit (by decide)]
    rfl
  | utf8 => rfl

theorem token_startMarker (encoding : Encoding) (rest : Bytes) :
    encoding.token (encoding.startMarker ++ rest) = .ok (.startSequence, rest) := by
  cases encoding with
  | units =>
    rw [Encoding.token, Encoding.startMarker, unitToken, Reader.unit_ofUnit (by decide)]
    rfl
  | utf8 => rfl

theorem unitToken_ofUnit {unit : Nat} (hLt : unit < 0x10000) (hSeparator : unit ≠ 0xFFFF)
    (hStart : unit ≠ 0xFFFE) (rest : Bytes) :
    unitToken (Bytes.ofUnit unit ++ rest) =
      if isHighSurrogate unit then lowHalf unit rest
      else .ok (.codePoint (CodePoint.scalar? unit), rest) := by
  rw [unitToken, Reader.unit_ofUnit hLt]
  simp only
  rw [if_neg hSeparator, if_neg hStart]

theorem unitToken_of_highSurrogate {high : Nat} (hHigh : isHighSurrogate high = true)
    (rest : Bytes) : unitToken (Bytes.ofUnit high ++ rest) = lowHalf high rest := by
  have hRange := isHighSurrogate_iff.1 hHigh
  rw [unitToken_ofUnit (by omega) (by omega) (by omega), if_pos hHigh]

theorem lowHalf_ofUnit {high low : Nat} (hLt : low < 0x10000) (rest : Bytes) :
    lowHalf high (Bytes.ofUnit low ++ rest) =
      if isLowSurrogate low then .ok (.codePoint (CodePoint.scalar? (pairValue high low)), rest)
      else .ok (.codePoint none, Bytes.ofUnit low ++ rest) := by
  rw [lowHalf, Reader.unit_ofUnit hLt]

theorem utf8Token_cons_of_leads {byte : UInt8} {more payload : Nat}
    (h : CodePoint.Leads byte more payload) (behind : Bytes) :
    utf8Token (byte :: behind) =
      match CodePoint.read (byte :: behind) with
      | .ok (value, rest) => .ok (.codePoint (value.bind CodePoint.scalar?), rest)
      | .error error => .error error := by
  have hLead := CodePoint.lead?_of_leads h
  have hSeparator : byte ≠ 0xFF := by
    rintro rfl
    cases hLead
  have hStart : byte ≠ 0xFE := by
    rintro rfl
    cases hLead
  refine ((if_neg hSeparator).trans (if_neg hStart)).trans ?_
  cases CodePoint.read (byte :: behind) <;> rfl

theorem utf8Token_of_form {value : Nat} {bytes : Bytes} (h : CodePoint.Form value bytes)
    (rest : Bytes) :
    utf8Token (bytes ++ rest) = .ok (.codePoint (CodePoint.scalar? value), rest) := by
  have hRead := CodePoint.read_of_form h rest
  obtain ⟨hLeads, _⟩ := h
  rw [List.cons_append] at hRead ⊢
  rw [utf8Token_cons_of_leads hLeads, hRead]
  rfl

theorem token_of_spells {encoding : Encoding} {c : Char} {bytes : Bytes}
    (h : encoding.Spells c bytes) (rest : Bytes) :
    encoding.token (bytes ++ rest) = .ok (.codePoint (some c), rest) := by
  cases h with
  | utf8 hForm =>
    refine (utf8Token_of_form hForm rest).trans ?_
    rw [CodePoint.scalar?_toNat]
  | units hStart hSeparator =>
    show unitToken (Encoding.units.character c ++ rest) = _
    by_cases hLt : c.toNat < 0x10000
    · have hValid := CodePoint.toNat_valid c
      have hHigh : isHighSurrogate c.toNat = false := by
        rw [Bool.eq_false_iff, ne_eq, isHighSurrogate_iff]
        omega
      rw [character_units_of_lt hLt, unitToken_ofUnit hLt hSeparator hStart, hHigh,
        CodePoint.scalar?_toNat]
      rfl
    · obtain ⟨high, low, hHigh, hLow, hValue, hUnits⟩ := exists_pair (Nat.not_lt.1 hLt)
      have hRange := isLowSurrogate_iff.1 hLow
      rw [character_units_of_pair hUnits, List.append_assoc, unitToken_of_highSurrogate hHigh,
        lowHalf_ofUnit (by omega), if_pos hLow, hValue, CodePoint.scalar?_toNat]

theorem token_of_broken {encoding : Encoding} {data : Bytes} (h : encoding.Broken data) :
    ∃ rest, encoding.token data = .ok (.codePoint none, rest) := by
  cases h with
  | @lowSurrogate unit rest hLow =>
    have hRange := isLowSurrogate_iff.1 hLow
    have hHigh : isHighSurrogate unit = false := by
      rw [Bool.eq_false_iff, ne_eq, isHighSurrogate_iff]
      omega
    have hNone : CodePoint.scalar? unit = none := by
      rw [CodePoint.scalar?_eq_none_iff, Nat.isValidChar]
      omega
    refine ⟨rest, ?_⟩
    show unitToken (Bytes.ofUnit unit ++ rest) = _
    rw [unitToken_ofUnit (by omega) (by omega) (by omega), hHigh, hNone]
    rfl
  | @highSurrogate high unit rest hHigh hLt hLow =>
    refine ⟨Bytes.ofUnit unit ++ rest, ?_⟩
    show unitToken (Bytes.ofUnit high ++ (Bytes.ofUnit unit ++ rest)) = _
    rw [unitToken_of_highSurrogate hHigh, lowHalf_ofUnit hLt, hLow]
    rfl
  | illFormed hIllFormed hSeparator hStart =>
    obtain ⟨rest, hRead⟩ := CodePoint.read_of_illFormed hIllFormed
    refine ⟨rest, ?_⟩
    show utf8Token data = _
    cases data with
    | nil => cases hRead
    | cons byte behind =>
      simp only [List.head?_cons, ne_eq, Option.some.injEq] at hSeparator hStart
      rw [utf8Token, if_neg hSeparator, if_neg hStart, hRead]
      rfl
  | @noCharacter value bytes rest hForm hInvalid =>
    refine ⟨rest, (utf8Token_of_form hForm rest).trans ?_⟩
    rw [CodePoint.scalar?_eq_none_iff.2 hInvalid]

theorem token_of_cut {encoding : Encoding} {data : Bytes} (h : encoding.Cut data) :
    encoding.token data = .error .shortRead := by
  cases h with
  | unit hLength => rw [Encoding.token, unitToken, Reader.unit_of_short hLength]
  | pair hHigh hLength =>
    rw [Encoding.token, unitToken_of_highSurrogate hHigh, lowHalf, Reader.unit_of_short hLength]
  | nil => rfl
  | form hUnfinished =>
    have hRead := CodePoint.read_of_unfinished hUnfinished
    obtain ⟨hLeads, _, _⟩ := hUnfinished
    rw [Encoding.token, utf8Token_cons_of_leads hLeads, hRead]

end ConsoleFont.UnicodeTable
