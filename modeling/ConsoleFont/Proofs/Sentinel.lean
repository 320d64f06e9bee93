import ConsoleFont.Proofs.CodePoints

/-! # The number that stands for no code point

Ill-formed bytes are read as `Cursor.invalidCodePoint`. The six bytes of `CodePoint.highestForm` are
a form of this same number, the highest that any form reaches, and so what is read does not tell the
two apart. No other form is taken for ill-formed bytes (`CodePoint.Form.eq_invalidCodePoint_iff`).

Main statement: `Cursor.answers_invalidCodePoint_iff`.
-/

namespace ConsoleFont

namespace CodePoint

/-- The form of the highest number that has one. -/
def highestForm : Bytes := [0xFD, 0xBF, 0xBF, 0xBF, 0xBF, 0xBF]

theorem form_highestForm : Form Cursor.invalidCodePoint highestForm := by
  have hLeads : Leads 0xFD 5 1 := ⟨0xFC, 0x02, rfl, by decide, by decide⟩
  have hAll : Continuations [0xBF, 0xBF, 0xBF, 0xBF, 0xBF] := by
    intro byte hByte
    rw [List.eq_of_mem_replicate (n := 5) hByte]
    rfl
  have hValue : gathered 1 [0xBF, 0xBF, 0xBF, 0xBF, 0xBF] = Cursor.invalidCodePoint := by decide
  rw [← hValue]
  exact .intro hLeads hAll

theorem length_eq_six {length : Nat} (h : Cursor.invalidCodePoint < formLimit length) :
    length = 6 := by
  unfold formLimit at h
  split at h
  all_goals first | rfl | exact absurd h (by decide)

/-- **One form alone has the number that stands for none.** -/
theorem Form.eq_invalidCodePoint_iff {value : Nat} {bytes : Bytes} (h : Form value bytes) :
    value = Cursor.invalidCodePoint ↔ bytes = highestForm := by
  constructor
  · rintro rfl
    exact h.eq_of_length_eq form_highestForm (length_eq_six h.lt_formLimit)
  · rintro rfl
    have hRead := (read_of_form h []).symm.trans (read_of_form form_highestForm [])
    exact Option.some.inj (Prod.mk.inj (Except.ok.inj hRead)).1

theorem IllFormed.not_form {data : Bytes} (h : IllFormed data) {value : Nat} {bytes rest : Bytes}
    (hForm : Form value bytes) : data ≠ bytes ++ rest := by
  rintro rfl
  obtain ⟨behind, hRead⟩ := read_of_illFormed h
  rw [read_of_form hForm rest] at hRead
  cases hRead

end CodePoint

open CodePoint

namespace Cursor

theorem Answered.illFormed {data : Bytes} (h : IllFormed data) :
    ∃ taken, Answered data (.ok (.number invalidCodePoint)) taken := by
  cases h with
  | lead rest hByte => exact ⟨_, .stray rest hByte⟩
  | broken rest hBegun hByte => exact ⟨_, .broken rest hBegun hByte⟩

theorem Answered.invalidCodePoint_cases {data : Bytes} {answer : Except Error Answer} {taken : Nat}
    (h : Answered data answer taken) (hAnswer : answer = .ok (.number invalidCodePoint)) :
    IllFormed data ∨ highestForm <+: data := by
  cases h with
  | @form value bytes rest hForm =>
    cases hAnswer
    rw [hForm.eq_invalidCodePoint_iff.1 rfl]
    exact .inr (List.prefix_append highestForm rest)
  | stray rest hByte => exact .inl (.lead rest hByte)
  | broken rest hBegun hByte => exact .inl (.broken rest hBegun hByte)
  | short hShort => cases hAnswer

/-- **The number that stands for no code point is read from ill-formed bytes and from one form**, at
any place of any buffer. All other forms are read as other numbers, so that this one alone cannot be
told from ill-formed bytes. -/
theorem answers_invalidCodePoint_iff (before data : Bytes) (saved : List Cursor) :
    let session : Session := ⟨⟨before ++ data, before.length⟩, saved⟩
    ((session.step .codePoint).1 = .ok (.number invalidCodePoint) ↔
      IllFormed data ∨ highestForm <+: data) ∧
    ∀ value bytes, Form value bytes → bytes <+: data →
      ¬ IllFormed data ∧ (session.step .codePoint).1 = .ok (.number value) ∧
        (value = invalidCodePoint ↔ bytes = highestForm) := by
  intro session
  have hAnswer {answer : Except Error Answer} {taken : Nat} (h : Answered data answer taken) :
      (session.step .codePoint).1 = answer :=
    congrArg Prod.fst (Session.step_codePoint_of_answered before saved h)
  have hForms : ∀ value bytes, Form value bytes → bytes <+: data →
      ¬ IllFormed data ∧ (session.step .codePoint).1 = .ok (.number value) ∧
        (value = invalidCodePoint ↔ bytes = highestForm) := by
    rintro value bytes hForm ⟨rest, rfl⟩
    exact ⟨fun hIll => hIll.not_form hForm rfl, hAnswer (.form rest hForm),
      hForm.eq_invalidCodePoint_iff⟩
  refine ⟨⟨fun hInvalid => ?_, ?_⟩, hForms⟩
  · obtain ⟨answer, taken, hAnswered⟩ := exists_answered data
    exact hAnswered.invalidCodePoint_cases ((hAnswer hAnswered).symm.trans hInvalid)
  · rintro (hIll | hHighest)
    · obtain ⟨taken, hAnswered⟩ := Answered.illFormed hIll
      exact hAnswer hAnswered
    · exact (hForms _ _ form_highestForm hHighest).2.1

/-- The highest form and the stray byte behind it are read alike. -/
theorem answers_invalidCodePoint_twice :
    let data : Bytes := highestForm ++ [0x80]
    let session (position : Nat) : Session := ⟨⟨data, position⟩, [.ofBytes data]⟩
    Form invalidCodePoint highestForm ∧ ¬ IllFormed data ∧ IllFormed [0x80] ∧
      ((session 0).step .codePoint).1 = .ok (.number invalidCodePoint) ∧
      ((session 6).step .codePoint).1 = .ok (.number invalidCodePoint) := by
  intro data session
  have hStray : IllFormed [0x80] := .lead [] (.inl (by decide))
  have hFront := answers_invalidCodePoint_iff [] data [.ofBytes data]
  have hBehind := answers_invalidCodePoint_iff highestForm [0x80] [.ofBytes data]
  have hForm := hFront.2 _ _ form_highestForm (List.prefix_append highestForm [0x80])
  exact ⟨form_highestForm, hForm.1, hStray, hForm.2.1, hBehind.1.2 (.inl hStray)⟩

end Cursor

end ConsoleFont
