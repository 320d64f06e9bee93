import ConsoleFont.Proofs.PartList

/-! # Which texts list names

Behind the first line of a combined font, a text is complete lines and, it may be, one that is only
begun. The names are the lines that are not blank (`namesBehind_lines`), so that all there is to
know of a text is how it splits at its newlines.

Main statements: `names_eq_ok_iff`, which texts are read and as which names, and
`names_lines_of_filter`, blank lines between names are skipped wherever they stand.
-/

namespace ConsoleFont.PartList

/-- All lines of the text are complete, no byte is NUL, and not all lines are blank. -/
def ListsNames (text : Bytes) : Prop :=
  text.getLast? = some newline ∧ 0 ∉ text ∧ ∃ byte ∈ text, byte ≠ newline

instance (text : Bytes) : Decidable (ListsNames text) :=
  inferInstanceAs (Decidable (_ ∧ _ ∧ _))

/-! ### Texts as lines -/

theorem lines_cons (line : Bytes) (more : List Bytes) :
    lines (line :: more) = line ++ newline :: lines more := by
  rw [lines, List.flatMap_cons, List.append_assoc, List.singleton_append]
  rfl

theorem mem_lines {complete : List Bytes} {byte : UInt8} :
    byte ∈ lines complete ↔ ∃ line ∈ complete, byte ∈ line ∨ byte = newline := by
  simp [lines]

theorem exists_lines (text : Bytes) :
    ∃ complete begun, (∀ line ∈ complete, newline ∉ line) ∧ newline ∉ begun ∧
      text = lines complete ++ begun := by
  induction text with
  | nil => exact ⟨[], [], by simp, List.not_mem_nil, rfl⟩
  | cons byte text ih =>
    obtain ⟨complete, begun, hComplete, hBegun, rfl⟩ := ih
    by_cases hByte : byte = newline
    · refine ⟨[] :: complete, begun, ?_, hBegun, ?_⟩
      · simpa using hComplete
      · rw [hByte, lines_cons]
        rfl
    · cases complete with
      | nil =>
        refine ⟨[], byte :: begun, hComplete, ?_, rfl⟩
        simp [hBegun, Ne.symm hByte]
      | cons line complete =>
        obtain ⟨hLine, hMore⟩ := List.forall_mem_cons.1 hComplete
        refine ⟨(byte :: line) :: complete, begun, ?_, hBegun, ?_⟩
        · rw [List.forall_mem_cons]
          exact ⟨by simp [hLine, Ne.symm hByte], hMore⟩
        · rw [lines_cons, lines_cons]
          rfl

section Lines

variable {complete : List Bytes} {begun : Bytes} (hComplete : ∀ line ∈ complete, newline ∉ line)
  (hBegun : newline ∉ begun)

include hComplete hBegun

theorem splitOn_lines : (lines complete ++ begun).splitOn newline = complete ++ [begun] := by
  induction complete with
  | nil => exact List.splitOn_eq_singleton hBegun
  | cons line complete ih =>
    obtain ⟨hLine, hMore⟩ := List.forall_mem_cons.1 hComplete
    rw [lines_cons, List.append_assoc, List.cons_append,
      List.splitOn_append_cons_self_of_not_mem hLine, ih hMore]
    rfl

/-- **The names are the lines that are not blank.** No line may be left begun. -/
theorem namesBehind_lines (found all : List Bytes) :
    namesBehind found [] (lines complete ++ begun) = .ok all ↔
      begun = [] ∧ (∀ line ∈ complete, 0 ∉ line) ∧
        all = found.reverse ++ complete.filter (· ≠ []) := by
  induction complete generalizing found with
  | nil =>
    by_cases hNil : begun = []
    · subst hNil
      simp [lines, namesBehind, eq_comm]
    · have hError : namesBehind found [] begun = .error .trailingGarbage :=
        namesBehind_of_no_newline hBegun found (.inr hNil)
      rw [show lines [] ++ begun = begun from rfl, hError]
      simp [hNil]
  | cons line complete ih =>
    obtain ⟨hLine, hMore⟩ := List.forall_mem_cons.1 hComplete
    rw [lines_cons, List.append_assoc, List.cons_append, namesBehind_line hLine,
      List.forall_mem_cons]
    by_cases hZero : 0 ∈ line
    · simp [hZero]
    · rw [if_neg hZero, ih hMore]
      by_cases hBlank : line = []
      · simp [hBlank]
      · simp [hBlank, hZero]

theorem getLast?_lines :
    (lines complete ++ begun).getLast? = some newline ↔ begun = [] ∧ complete ≠ [] := by
  by_cases hNil : begun = []
  · subst hNil
    rw [List.append_nil]
    rcases List.eq_nil_or_concat complete with rfl | ⟨front, last, rfl⟩
    · simp [lines]
    · simp [lines]
  · obtain ⟨byte, hByte⟩ := Option.ne_none_iff_exists'.1 (mt List.getLast?_eq_none_iff.1 hNil)
    rw [List.getLast?_append, hByte, Option.some_or]
    constructor
    · intro hLast
      exact absurd (Option.some.inj hLast ▸ List.mem_of_getLast? hByte) hBegun
    · rintro ⟨hBegunNil, _⟩
      exact absurd hBegunNil hNil

theorem listsNames_iff :
    ListsNames (lines complete ++ begun) ↔
      begun = [] ∧ (∀ line ∈ complete, 0 ∉ line) ∧ complete.filter (· ≠ []) ≠ [] := by
  rw [ListsNames, getLast?_lines hComplete hBegun]
  constructor
  · rintro ⟨⟨rfl, _⟩, hZero, byte, hByte, hNe⟩
    rw [List.append_nil] at hZero hByte
    refine ⟨rfl, fun line hLine hNul => hZero (mem_lines.2 ⟨line, hLine, .inl hNul⟩), ?_⟩
    obtain ⟨line, hLine, hIn | hNewline⟩ := mem_lines.1 hByte
    · have hName : line ∈ complete.filter (· ≠ []) := by
        simp [hLine, List.ne_nil_of_mem hIn]
      exact List.ne_nil_of_mem hName
    · exact absurd hNewline hNe
  · rintro ⟨rfl, hZero, hNames⟩
    rw [List.append_nil]
    obtain ⟨name, hName⟩ := List.exists_mem_of_ne_nil _ hNames
    obtain ⟨hLine, hNe⟩ : name ∈ complete ∧ name ≠ [] := by simpa using hName
    obtain ⟨byte, hByte⟩ := List.exists_mem_of_ne_nil _ hNe
    refine ⟨⟨rfl, List.ne_nil_of_mem hLine⟩, ?_, byte, mem_lines.2 ⟨name, hLine, .inl hByte⟩, ?_⟩
    · intro hNul
      obtain ⟨line, hIn, hZeroIn | hNewline⟩ := mem_lines.1 hNul
      · exact hZero line hIn hZeroIn
      · exact absurd hNewline (by decide)
    · rintro rfl
      exact hComplete name hLine hByte

end Lines

/-! ### What is read -/

theorem names_eq_ok_iff_namesBehind {text : Bytes} {found : List Bytes} :
    names text = .ok found ↔ namesBehind [] [] text = .ok found ∧ found ≠ [] := by
  rw [names]
  constructor
  · intro h
    split at h
    · cases h
    · rename_i hNot
      refine ⟨h, ?_⟩
      rintro rfl
      exact hNot h
  · rintro ⟨h, hNe⟩
    split
    · rename_i hNil
      rw [hNil] at h
      exact absurd (Except.ok.inj h).symm hNe
    · exact h

/-- **A text that lists names is read, and nothing else is.** The names are its pieces between
newlines, but for the blank ones. -/
theorem names_eq_ok_iff {text : Bytes} {found : List Bytes} :
    names text = .ok found ↔
      ListsNames text ∧ found = (text.splitOn newline).filter (· ≠ []) := by
  obtain ⟨complete, begun, hComplete, hBegun, rfl⟩ := exists_lines text
  have hPieces : (complete ++ [begun]).filter (· ≠ []) = complete.filter (· ≠ []) ↔ begun = [] := by
    simp
  rw [names_eq_ok_iff_namesBehind, namesBehind_lines hComplete hBegun,
    splitOn_lines hComplete hBegun, listsNames_iff hComplete hBegun, List.reverse_nil,
    List.nil_append]
  constructor
  · rintro ⟨⟨hNil, hZero, rfl⟩, hNames⟩
    exact ⟨⟨hNil, hZero, hNames⟩, (hPieces.2 hNil).symm⟩
  · rintro ⟨⟨hNil, hZero, hNames⟩, rfl⟩
    rw [hPieces.2 hNil]
    exact ⟨⟨hNil, hZero, rfl⟩, hNames⟩

/-- Names that are written one in a line, with blank lines anywhere among them, are read back. -/
theorem names_lines_of_filter {listed written : List Bytes} (hSome : listed ≠ [])
    (hListed : ∀ name ∈ listed, newline ∉ name ∧ 0 ∉ name)
    (hWritten : written.filter (· ≠ []) = listed) : names (lines written) = .ok listed := by
  have hLines : ∀ line ∈ written, newline ∉ line ∧ 0 ∉ line := by
    intro line hLine
    by_cases hBlank : line = []
    · simp [hBlank]
    · apply hListed
      rw [← hWritten]
      simp [hLine, hBlank]
  have hNone : newline ∉ ([] : Bytes) := List.not_mem_nil
  have hRead := namesBehind_lines (fun line hLine => (hLines line hLine).1) hNone [] listed
  rw [List.append_nil] at hRead
  rw [names_eq_ok_iff_namesBehind]
  exact ⟨hRead.2 ⟨rfl, fun line hLine => (hLines line hLine).2, hWritten.symm⟩, hSome⟩

theorem names_eq_error_iff {text : Bytes} {error : Error} :
    names text = .error error ↔ ¬ ListsNames text ∧ error = .trailingGarbage := by
  constructor
  · intro h
    refine ⟨fun hLists => ?_, eq_trailingGarbage_of_names h⟩
    rw [names_eq_ok_iff.2 ⟨hLists, rfl⟩] at h
    cases h
  · rintro ⟨hNot, rfl⟩
    cases hNames : names text with
    | ok found => exact absurd (names_eq_ok_iff.1 hNames).1 hNot
    | error other => rw [eq_trailingGarbage_of_names hNames]

end ConsoleFont.PartList
