import ConsoleFont.PartList
import ConsoleFont.Proofs.Words

/-! # What a list of partial fonts is read as

Behind the first line, only one thing can be wrong (`eq_trailingGarbage_of_names`), and a list that
is read has a name in it (`names_ne_nil`).
-/

namespace ConsoleFont.PartList

theorem decode_of_no_signature {data : Bytes} (h : ¬ magic <+: data) :
    decode data = .error .badMagic := by
  rw [decode, Reader.signature_eq_badMagic h]
  rfl

theorem decode_append (behind : Bytes) : decode (magic ++ behind) = names behind := by
  rw [decode, Reader.signature_eq_ok_iff.2 rfl, ok_bind]

/-! ### Line by line -/

theorem namesBehind_line {line : Bytes} (hLine : newline ∉ line) (found : List Bytes)
    (begun behind : Bytes) :
    namesBehind found begun (line ++ newline :: behind) =
      if 0 ∈ line then .error .trailingGarbage
      else namesBehind
        (if (begun.reverse ++ line).isEmpty then found else (begun.reverse ++ line) :: found) []
        behind := by
  induction line generalizing begun with
  | nil => simp [namesBehind]
  | cons byte line ih =>
    obtain ⟨hByte, hRest⟩ : newline ≠ byte ∧ newline ∉ line := by simpa using hLine
    rw [List.cons_append, namesBehind, if_neg hByte.symm]
    by_cases hZero : byte = 0
    · rw [if_pos hZero, if_pos (by simp [hZero])]
    · rw [if_neg hZero, ih hRest]
      simp [Ne.symm hZero]

theorem namesBehind_of_no_newline {text : Bytes} (h : newline ∉ text) (found : List Bytes)
    {begun : Bytes} (hSome : begun ≠ [] ∨ text ≠ []) :
    namesBehind found begun text = .error .trailingGarbage := by
  induction text generalizing begun with
  | nil =>
    have hBegun : begun ≠ [] := by simpa using hSome
    rw [namesBehind, if_neg (by simpa using hBegun)]
  | cons byte text ih =>
    obtain ⟨hByte, hRest⟩ : newline ≠ byte ∧ newline ∉ text := by simpa using h
    rw [namesBehind, if_neg hByte.symm]
    split
    · rfl
    · exact ih hRest (.inl (List.cons_ne_nil _ _))

/-! ### What is refused -/

theorem eq_trailingGarbage_of_namesBehind {found : List Bytes} {line data : Bytes} {error : Error}
    (h : namesBehind found line data = .error error) : error = .trailingGarbage := by
  induction data generalizing found line with
  | nil =>
    rw [namesBehind] at h
    split at h
    · cases h
    · exact (Except.error.inj h).symm
  | cons byte rest ih =>
    rw [namesBehind] at h
    split at h
    · exact ih h
    split at h
    · exact (Except.error.inj h).symm
    · exact ih h

theorem eq_trailingGarbage_of_names {data : Bytes} {error : Error}
    (h : names data = .error error) : error = .trailingGarbage := by
  rw [names] at h
  split at h
  · exact (Except.error.inj h).symm
  · exact eq_trailingGarbage_of_namesBehind h

theorem names_ne_nil {data : Bytes} {found : List Bytes} (h : names data = .ok found) :
    found ≠ [] := by
  rintro rfl
  rw [names] at h
  split at h
  · cases h
  · rename_i hNot
    exact hNot h

theorem signature_of_decode {data : Bytes} {found : List Bytes} (h : decode data = .ok found) :
    magic <+: data := by
  by_cases hMagic : magic <+: data
  · exact hMagic
  · rw [decode_of_no_signature hMagic] at h
    cases h

theorem decode_ne_nil {data : Bytes} {found : List Bytes} (h : decode data = .ok found) :
    found ≠ [] := by
  obtain ⟨behind, rfl⟩ := signature_of_decode h
  rw [decode_append] at h
  exact names_ne_nil h

/-- Behind its first line, a list is not refused as something else. -/
theorem decode_ne_badMagic {data : Bytes} (h : magic <+: data) :
    decode data ≠ .error .badMagic := by
  obtain ⟨behind, rfl⟩ := h
  intro hError
  rw [decode_append] at hError
  cases eq_trailingGarbage_of_names hError

end ConsoleFont.PartList
