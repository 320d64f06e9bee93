import ConsoleFont.Proofs.Machine.Cursor
import ConsoleFont.Proofs.PartList
import Mathlib.Data.List.Basic

/-! # Lists of partial fonts read by checked operations

The names in a combined font are slices between newlines. The library goes through the list byte by
byte; here it is cut line by line, and every cut is a checked slice. `answers_partNames` says that
this comes to the same names.
-/

namespace ConsoleFont.Machine

open PartList (newline)

/-- The first line of a text and what stands behind it. -/
def splitLine (text : Bytes) : Checked (Except Error (Bytes × Bytes)) :=
  match text.findIdx? (· == newline) with
  | none => .ok (.error .trailingGarbage)
  | some stop => do
    let line ← slice text 0 stop
    if 0 ∈ line then return .error .trailingGarbage
    else
      let next ← add sizeLimit stop 1
      let behind ← slice text next text.length
      return .ok (line, behind)

theorem findIdx?_newline {text : Bytes} (h : newline ∉ text) :
    text.findIdx? (· == newline) = none := by
  rw [List.findIdx?_eq_none_iff]
  intro byte hByte
  rw [beq_eq_false_iff_ne]
  rintro rfl
  exact h hByte

theorem splitLine_append {line behind : Bytes} (hLine : newline ∉ line)
    (hLength : (line ++ newline :: behind).length < sizeLimit) :
    splitLine (line ++ newline :: behind) =
      .ok (if 0 ∈ line then .error .trailingGarbage else .ok (line, behind)) := by
  have hStop : (line ++ newline :: behind).findIdx? (· == newline) = some line.length := by
    rw [List.findIdx?_append, findIdx?_newline hLine, List.findIdx?_cons]
    simp
  have hSum : line.length + 1 ≤ (line ++ newline :: behind).length := by
    rw [List.length_append, List.length_cons]
    omega
  rw [splitLine, hStop]
  simp only
  rw [slice_of_le (Nat.zero_le _) (Nat.le_of_succ_le hSum), ok_bind, List.drop_zero, Nat.sub_zero,
    List.take_left]
  split
  · rfl
  · rw [add_of_lt (Nat.lt_of_le_of_lt hSum hLength), ok_bind, slice_to_end hSum, ok_bind,
      List.append_cons, List.drop_left' (by rw [List.length_append, List.length_singleton])]
    rfl

theorem splitLine_cases {text : Bytes} (hLength : text.length < sizeLimit) :
    (newline ∉ text ∧ splitLine text = .ok (.error .trailingGarbage)) ∨
      ∃ line behind, newline ∉ line ∧ text = line ++ newline :: behind ∧
        splitLine text =
          .ok (if 0 ∈ line then .error .trailingGarbage else .ok (line, behind)) := by
  by_cases hMem : newline ∈ text
  · obtain ⟨line, behind, rfl, hLine⟩ := List.eq_append_cons_of_mem hMem
    exact .inr ⟨line, behind, hLine, rfl, splitLine_append hLine hLength⟩
  · left
    rw [splitLine, findIdx?_newline hMem]
    exact ⟨hMem, rfl⟩

theorem length_lt_of_splitLine {text line behind : Bytes}
    (h : splitLine text = .ok (.ok (line, behind))) : behind.length < text.length := by
  rw [splitLine] at h
  split at h
  · cases h
  · obtain ⟨_, _, h⟩ := bind_eq_ok_iff.1 h
    split at h
    · cases h
    · obtain ⟨next, hNext, h⟩ := bind_eq_ok_iff.1 h
      obtain ⟨rest, hRest, h⟩ := bind_eq_ok_iff.1 h
      cases h
      have hStart := eq_of_add hNext
      have hLength := length_of_slice hRest
      omega

namespace Step

variable {head : Head}

/-- The names in a text, behind those found before, which stand newest first. -/
def namesFrom (found : List Bytes) (text : Bytes) : Step (List Bytes) :=
  if text.isEmpty then return found.reverse
  else
    match _ : splitLine text with
    | .ok (.ok (line, behind)) => namesFrom (if line.isEmpty then found else line :: found) behind
    | .ok (.error error) => throw error
    | .error fault => liftM (.error fault : Checked (List Bytes))
termination_by text.length
decreasing_by exact length_lt_of_splitLine ‹_›

def partNames : Step (List Bytes) := do
  signature PartList.magic
  let head ← get
  let text ← take head.remaining
  let names ← namesFrom [] text
  refuseIf (names = []) .trailingGarbage
  return names

/-! ### The names are those that the library finds byte by byte -/

theorem answers_namesFrom (found : List Bytes) (text : Bytes) (hLength : text.length < sizeLimit)
    (head : Head) : (namesFrom found text).Answers head (PartList.namesBehind found [] text) := by
  fun_induction namesFrom found text with
  | case1 found text hEmpty =>
    rw [List.isEmpty_iff.1 hEmpty]
    exact .pure rfl
  | case2 found text hSome line behind hSplit ih =>
    rcases splitLine_cases hLength with ⟨_, hNone⟩ | ⟨line', behind', hLine, rfl, hCut⟩
    · rw [hNone] at hSplit
      cases hSplit
    · rw [hCut] at hSplit
      split at hSplit
      · cases hSplit
      · rename_i hZero
        cases hSplit
        rw [PartList.namesBehind_line hLine, if_neg hZero]
        exact ih (by rw [List.length_append, List.length_cons] at hLength; omega)
  | case3 found text hSome error hSplit =>
    rcases splitLine_cases hLength with ⟨hMem, hNone⟩ | ⟨line', behind', hLine, rfl, hCut⟩
    · rw [hNone] at hSplit
      cases hSplit
      rw [PartList.namesBehind_of_no_newline hMem found
        (.inr fun hNil => hSome (by rw [hNil]; rfl))]
      exact .throw .trailingGarbage
    · rw [hCut] at hSplit
      split at hSplit
      · rename_i hZero
        cases hSplit
        rw [PartList.namesBehind_line hLine, if_pos hZero]
        exact .throw .trailingGarbage
      · cases hSplit
  | case4 found text hSome fault hSplit =>
    rcases splitLine_cases hLength with ⟨_, hNone⟩ | ⟨_, _, _, _, hCut⟩
    · rw [hNone] at hSplit
      cases hSplit
    · rw [hCut] at hSplit
      cases hSplit

theorem answers_partNames (hStart : head.position = 0) :
    partNames.Answers head (PartList.decode head.data) := by
  rw [PartList.decode]
  refine (refines_signature hStart (by decide)).bind_read fun _ second _ _ => .get_bind ?_
  have hTake : Reader.take second.remaining second.rest = .ok (second.rest, []) := by
    rw [← second.length_rest, Reader.take, if_pos (Nat.le_refl _), List.take_length,
      List.drop_length]
  have hLength : second.rest.length < sizeLimit := by
    rw [second.length_rest]
    exact Nat.lt_of_le_of_lt (Nat.sub_le ..) second.length_lt
  have hText := reads_take second.remaining second
  rw [hTake] at hText
  show Refines _ _ second (PartList.names second.rest)
  rw [PartList.names]
  refine hText.bind_ok fun text third _ hRead => ?_
  obtain ⟨rfl, _⟩ := Prod.mk.inj hRead
  refine (answers_namesFrom [] second.rest hLength third).bind
    (fun names last found _ hNames hFound => ?_) fun error hError => ?_
  · subst hNames
    simp only [hFound]
    cases found with
    | nil => exact .refuseIf_bind (fun _ => rfl) fun hSome => absurd rfl hSome
    | cons name names =>
      exact .refuseIf_bind (fun hNone => absurd hNone (List.cons_ne_nil _ _)) fun _ => .pure rfl
  · simp only [hError]

end Step

end ConsoleFont.Machine
