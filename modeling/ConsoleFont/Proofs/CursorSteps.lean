import ConsoleFont.Proofs.CodePoints
import ConsoleFont.Proofs.Machine.Cursor

/-! # What every step of a cursor does

`Op.Answers` tells for a place in the data what a step answers there and where it leaves the cursor,
case by case, each with its condition. `Session.Does` puts this together for a session, which can
also go back. A session whose cursors stand within their data does this and nothing else
(`Session.step_eq_iff`), and whatever steps it takes, its cursors stay within the data
(`Session.Within.steps`).
-/

namespace ConsoleFont.Cursor

open Machine.Step (littleEndian)

/-- How many bytes a step reads, and what it answers with them. -/
def Op.reads? : Op → Option (Nat × (Bytes → Answer))
  | .byte => some (1, fun bytes => .number (littleEndian bytes))
  | .unit => some (2, fun bytes => .number (littleEndian bytes))
  | .word => some (4, fun bytes => .number (littleEndian bytes))
  | .take count => some (count, .bytes)
  | .skip count => some (count, fun _ => .done)
  | _ => none

/-- What a step answers from a position of the data, and the position behind it. -/
inductive Op.Answers (data : Bytes) (position : Nat) : Op → Except Error Answer → Nat → Prop
  | read {op : Op} {size : Nat} {answer : Bytes → Answer} : op.reads? = some (size, answer) →
      position + size ≤ data.length →
      Answers data position op (.ok (answer ((data.drop position).take size))) (position + size)
  | readShort {op : Op} {size : Nat} {answer : Bytes → Answer} :
      op.reads? = some (size, answer) → data.length < position + size →
      Answers data position op (.error .shortRead) position
  | peek {byte : UInt8} : data[position]? = some byte →
      Answers data position .peek (.ok (.number byte.toNat)) position
  | peekEnd : data.length ≤ position → Answers data position .peek (.error .shortRead) position
  | seek {target : Nat} : target ≤ data.length →
      Answers data position (.seek target) (.ok .done) target
  | seekBehind {target : Nat} : data.length < target →
      Answers data position (.seek target) (.error .shortRead) position
  | signature {expected : Bytes} : expected <+: data.drop position →
      Answers data position (.signature expected) (.ok .done) (position + expected.length)
  /-- Too few bytes are other bytes as well. -/
  | signatureOther {expected : Bytes} : ¬ expected <+: data.drop position →
      Answers data position (.signature expected) (.error .badMagic) position
  | codePoint {answer : Except Error Answer} {taken : Nat} :
      Answered (data.drop position) answer taken →
      Answers data position .codePoint answer (position + taken)
  | size : Answers data position .size (.ok (.size data.length data.isEmpty)) position

/-- What a session does in one step. -/
inductive Session.Does : Session → Op → Except Error Answer → Session → Prop
  | moves {data : Bytes} {position : Nat} {saved : List Cursor} {op : Op}
      {answer : Except Error Answer} {behind : Nat} : op.Answers data position answer behind →
      Does ⟨⟨data, position⟩, saved⟩ op answer ⟨⟨data, behind⟩, saved⟩
  | save {cursor : Cursor} {saved : List Cursor} :
      Does ⟨cursor, saved⟩ .save (.ok .done) ⟨cursor, cursor :: saved⟩
  | back {cursor copy : Cursor} {saved : List Cursor} {index : Nat} : saved[index]? = some copy →
      Does ⟨cursor, saved⟩ (.back index) (.ok .done) ⟨copy, saved⟩
  | backNone {cursor : Cursor} {saved : List Cursor} {index : Nat} : saved.length ≤ index →
      Does ⟨cursor, saved⟩ (.back index) (.ok .done) ⟨cursor, saved⟩

/-! ### No step leaves the data -/

theorem position_add_length_le {data expected : Bytes} {position : Nat}
    (hPosition : position ≤ data.length) (h : expected <+: data.drop position) :
    position + expected.length ≤ data.length := by
  have hLength := h.length_le
  rw [List.length_drop] at hLength
  omega

theorem Answered.le_length {data : Bytes} {answer : Except Error Answer} {taken : Nat}
    (h : Answered data answer taken) : taken ≤ data.length := by
  cases h with
  | form rest _ => exact List.length_append ▸ Nat.le_add_right ..
  | stray rest _ => exact Nat.le_add_left ..
  | broken rest _ _ => exact List.length_append ▸ Nat.le_add_right ..
  | short _ => exact Nat.zero_le _

theorem Answered.eq_zero_of_error {data : Bytes} {answer : Except Error Answer} {taken : Nat}
    (h : Answered data answer taken) {error : Error} (hError : answer = .error error) :
    taken = 0 := by
  cases h with
  | form _ _ => cases hError
  | stray _ _ => cases hError
  | broken _ _ _ => cases hError
  | short _ => rfl

theorem Op.Answers.position_le {data : Bytes} {position behind : Nat} {op : Op}
    {answer : Except Error Answer} (h : op.Answers data position answer behind)
    (hPosition : position ≤ data.length) : behind ≤ data.length := by
  cases h with
  | read _ hLeft => exact hLeft
  | seek hTarget => exact hTarget
  | signature hPrefix => exact position_add_length_le hPosition hPrefix
  | codePoint hAnswered =>
    have hTaken := hAnswered.le_length
    rw [List.length_drop] at hTaken
    omega
  | readShort _ _ => exact hPosition
  | peek _ => exact hPosition
  | peekEnd _ => exact hPosition
  | seekBehind _ => exact hPosition
  | signatureOther _ => exact hPosition
  | size => exact hPosition

theorem Op.Answers.eq_of_error {data : Bytes} {position behind : Nat} {op : Op}
    {answer : Except Error Answer} (h : op.Answers data position answer behind) {error : Error}
    (hError : answer = .error error) : behind = position := by
  cases h with
  | read _ _ => cases hError
  | seek _ => cases hError
  | signature _ => cases hError
  | codePoint hAnswered => rw [hAnswered.eq_zero_of_error hError, Nat.add_zero]
  | readShort _ _ => rfl
  | peek _ => rfl
  | peekEnd _ => rfl
  | seekBehind _ => rfl
  | signatureOther _ => rfl
  | size => rfl

structure Within (data : Bytes) (cursor : Cursor) : Prop where
  data_eq : cursor.data = data
  position_le : cursor.position ≤ data.length

theorem within_ofBytes (data : Bytes) : (ofBytes data).Within data := ⟨rfl, Nat.zero_le _⟩

namespace Session

/-- A session whose cursors stand within the data, all copies included. -/
structure Within (data : Bytes) (session : Session) : Prop where
  cursor : session.cursor.Within data
  saved : ∀ copy ∈ session.saved, copy.Within data

variable {data : Bytes} {session after : Session} {op : Op} {answer : Except Error Answer}

theorem within_ofBytes (data : Bytes) : (ofBytes data).Within data :=
  ⟨Cursor.within_ofBytes data, List.forall_mem_singleton.2 (Cursor.within_ofBytes data)⟩

theorem Does.within (h : Does session op answer after) (hWithin : session.Within data) :
    after.Within data := by
  cases h with
  | moves hAnswers =>
    obtain ⟨⟨rfl, hPosition⟩, hSaved⟩ := hWithin
    exact ⟨⟨rfl, hAnswers.position_le hPosition⟩, hSaved⟩
  | save => exact ⟨hWithin.cursor, List.forall_mem_cons.2 ⟨hWithin.cursor, hWithin.saved⟩⟩
  | back hCopy => exact ⟨hWithin.saved _ (List.mem_of_getElem? hCopy), hWithin.saved⟩
  | backNone _ => exact hWithin

theorem Does.eq_of_error (h : Does session op answer after) {error : Error}
    (hError : answer = .error error) : after = session := by
  cases h with
  | moves hAnswers => rw [hAnswers.eq_of_error hError]
  | save => cases hError
  | back _ => cases hError
  | backNone _ => rfl

/-! ### A session does what it should -/

theorem settle_run_congr {α β : Type} {answer : α → Answer} {answer' : β → Answer}
    {reader : Reader α} {reader' : Reader β}
    (h : ∀ data, (reader data).map (fun read => (answer read.1, read.2)) =
      (reader' data).map fun read => (answer' read.1, read.2)) (session : Session) :
    session.settle answer (run reader session.cursor) =
      session.settle answer' (run reader' session.cursor) := by
  have hRest := h session.cursor.rest
  unfold run
  generalize reader session.cursor.rest = read at hRest ⊢
  generalize reader' session.cursor.rest = read' at hRest ⊢
  rcases read with error | ⟨a, rest⟩ <;> rcases read' with error' | ⟨b, rest'⟩
  · cases hRest
    rfl
  · cases hRest
  · cases hRest
  · simp only [Except.map, Except.ok.injEq, Prod.mk.injEq] at hRest
    simp only [settle, hRest]

theorem step_of_reads {size : Nat} {answer : Bytes → Answer} (h : op.reads? = some (size, answer))
    (session : Session) : session.step op = session.settle answer (session.cursor.take size) := by
  cases op with
  | byte =>
    cases h
    refine settle_run_congr (fun data => ?_) session
    match data with
    | [] => rfl
    | b :: rest => simp [Reader.byte, Reader.take, Except.map, littleEndian]
  | unit =>
    cases h
    refine settle_run_congr (fun data => ?_) session
    rw [Machine.Step.unit_eq_map_take]
    cases Reader.take 2 data <;> rfl
  | word =>
    cases h
    refine settle_run_congr (fun data => ?_) session
    rw [Machine.Step.word_eq_map_take]
    cases Reader.take 4 data <;> rfl
  | take count =>
    cases h
    rfl
  | skip count =>
    cases h
    refine settle_run_congr (fun data => ?_) session
    unfold Reader.skip Reader.take
    split <;> rfl
  | _ => cases h

end Session

section

variable {data : Bytes} {position : Nat}

theorem length_sub_drop (h : position ≤ data.length) :
    data.length - (data.drop position).length = position := by
  rw [List.length_drop, Nat.sub_sub_self h]

theorem run_of_ok {α : Type} {reader : Reader α} {value : α} {behind : Nat}
    (hRead : reader (data.drop position) = .ok (value, data.drop behind))
    (hBehind : behind ≤ data.length) :
    run reader ⟨data, position⟩ = .ok (value, ⟨data, behind⟩) := by
  have hRest : rest ⟨data, position⟩ = data.drop position := rfl
  rw [run, hRest, hRead]
  show Except.ok (value, (⟨data, data.length - (data.drop behind).length⟩ : Cursor)) = _
  rw [length_sub_drop hBehind]

theorem run_of_error {α : Type} {reader : Reader α} {error : Error}
    (hRead : reader (data.drop position) = .error error) :
    run reader ⟨data, position⟩ = .error error := by
  have hRest : rest ⟨data, position⟩ = data.drop position := rfl
  rw [run, hRest, hRead]

theorem take_of_le {size : Nat} (h : position + size ≤ data.length) :
    take size ⟨data, position⟩ =
      .ok ((data.drop position).take size, ⟨data, position + size⟩) := by
  have hLeft : size ≤ (data.drop position).length := by
    rw [List.length_drop]
    omega
  refine run_of_ok ?_ h
  rw [Reader.take, if_pos hLeft, List.drop_drop]

theorem take_of_lt {size : Nat} (hPosition : position ≤ data.length)
    (h : data.length < position + size) : take size ⟨data, position⟩ = .error .shortRead := by
  have hShort : ¬ size ≤ (data.drop position).length := by
    rw [List.length_drop]
    omega
  exact run_of_error (if_neg hShort)

theorem seek_of_le {target : Nat} (h : target ≤ data.length) :
    seek target ⟨data, position⟩ = .ok ⟨data, target⟩ := if_pos h

theorem seek_of_lt {target : Nat} (h : data.length < target) :
    seek target ⟨data, position⟩ = .error .shortRead := if_neg (Nat.not_le.2 h)

theorem peek_of_getElem? {byte : UInt8} (h : data[position]? = some byte) :
    peek ⟨data, position⟩ = .ok (byte, ⟨data, position⟩) := by
  obtain ⟨hPosition, hByte⟩ := List.getElem?_eq_some_iff.1 h
  refine run_of_ok ?_ (Nat.le_of_lt hPosition)
  rw [List.drop_eq_getElem_cons hPosition, hByte]
  rfl

theorem peek_of_le (h : data.length ≤ position) : peek ⟨data, position⟩ = .error .shortRead := by
  refine run_of_error ?_
  rw [List.drop_eq_nil_of_le h]
  rfl

theorem signature_of_expected {expected : Bytes} (hPosition : position ≤ data.length)
    (h : expected <+: data.drop position) :
    signature expected ⟨data, position⟩ = .ok ((), ⟨data, position + expected.length⟩) := by
  refine run_of_ok ?_ (position_add_length_le hPosition h)
  rw [Reader.signature, if_pos (List.isPrefixOf_iff_prefix.2 h), List.drop_drop]

theorem signature_of_other {expected : Bytes} (h : ¬ expected <+: data.drop position) :
    signature expected ⟨data, position⟩ = .error .badMagic :=
  run_of_error (Reader.signature_eq_badMagic h)

end

namespace Session

variable {data : Bytes} {session after : Session} {op : Op} {answer : Except Error Answer}

theorem between_take_drop {position : Nat} (h : position ≤ data.length) (saved : List Cursor) :
    between (data.take position) (data.drop position) saved = ⟨⟨data, position⟩, saved⟩ := by
  rw [between, List.take_append_drop, List.length_take_of_le h]

theorem step_of_answers {position behind : Nat} {saved : List Cursor}
    (hPosition : position ≤ data.length) (h : op.Answers data position answer behind) :
    step ⟨⟨data, position⟩, saved⟩ op = (answer, ⟨⟨data, behind⟩, saved⟩) := by
  cases h with
  | read hReads hLeft =>
    rw [step_of_reads hReads, take_of_le hLeft]
    rfl
  | readShort hReads hShort =>
    rw [step_of_reads hReads, take_of_lt hPosition hShort]
    rfl
  | peek hByte =>
    rw [step, peek_of_getElem? hByte]
    rfl
  | peekEnd hEnd =>
    rw [step, peek_of_le hEnd]
    rfl
  | seek hTarget =>
    rw [step, seek_of_le hTarget]
    rfl
  | seekBehind hTarget =>
    rw [step, seek_of_lt hTarget]
    rfl
  | signature hPrefix =>
    rw [step, signature_of_expected hPosition hPrefix]
    rfl
  | signatureOther hOther =>
    rw [step, signature_of_other hOther]
    rfl
  | codePoint hAnswered =>
    have hStep := step_codePoint_of_answered (data.take position) saved hAnswered
    rwa [between_take_drop hPosition, List.take_append_drop, List.length_take_of_le hPosition]
      at hStep
  | size => rfl

theorem step_of_does (hWithin : session.Within data) (h : Does session op answer after) :
    session.step op = (answer, after) := by
  cases h with
  | moves hAnswers =>
    obtain ⟨⟨rfl, hPosition⟩, -⟩ := hWithin
    exact step_of_answers hPosition hAnswers
  | save => rfl
  | back hCopy => rw [step, hCopy, Option.getD_some]
  | backNone hIndex => rw [step, List.getElem?_eq_none hIndex, Option.getD_none]

theorem exists_answers_of_reads {data : Bytes} {position size : Nat} {answer : Bytes → Answer}
    (h : op.reads? = some (size, answer)) :
    ∃ answer behind, op.Answers data position answer behind := by
  by_cases hLeft : position + size ≤ data.length
  · exact ⟨_, _, .read h hLeft⟩
  · exact ⟨_, _, .readShort h (Nat.not_le.1 hLeft)⟩

theorem exists_does (session : Session) (op : Op) :
    ∃ answer after, Does session op answer after := by
  obtain ⟨⟨data, position⟩, saved⟩ := session
  have hMoves : (∃ answer behind, op.Answers data position answer behind) →
      ∃ answer after, Does ⟨⟨data, position⟩, saved⟩ op answer after := by
    rintro ⟨answer, behind, hAnswers⟩
    exact ⟨_, _, .moves hAnswers⟩
  cases op with
  | byte => exact hMoves (exists_answers_of_reads rfl)
  | unit => exact hMoves (exists_answers_of_reads rfl)
  | word => exact hMoves (exists_answers_of_reads rfl)
  | take count => exact hMoves (exists_answers_of_reads rfl)
  | skip count => exact hMoves (exists_answers_of_reads rfl)
  | peek =>
    cases hByte : data[position]? with
    | some byte => exact hMoves ⟨_, _, .peek hByte⟩
    | none => exact hMoves ⟨_, _, .peekEnd (List.getElem?_eq_none_iff.1 hByte)⟩
  | codePoint =>
    obtain ⟨answer, taken, hAnswered⟩ := exists_answered (data.drop position)
    exact hMoves ⟨_, _, .codePoint hAnswered⟩
  | signature expected =>
    by_cases hPrefix : expected <+: data.drop position
    · exact hMoves ⟨_, _, .signature hPrefix⟩
    · exact hMoves ⟨_, _, .signatureOther hPrefix⟩
  | seek target =>
    by_cases hTarget : target ≤ data.length
    · exact hMoves ⟨_, _, .seek hTarget⟩
    · exact hMoves ⟨_, _, .seekBehind (Nat.not_le.1 hTarget)⟩
  | size => exact hMoves ⟨_, _, .size⟩
  | save => exact ⟨_, _, .save⟩
  | back index =>
    cases hCopy : saved[index]? with
    | some copy => exact ⟨_, _, .back hCopy⟩
    | none => exact ⟨_, _, .backNone (List.getElem?_eq_none_iff.1 hCopy)⟩

/-- **A session within its data does in a step exactly what the step's case says.** -/
theorem step_eq_iff (hWithin : session.Within data) :
    session.step op = (answer, after) ↔ Does session op answer after := by
  refine ⟨fun hStep => ?_, step_of_does hWithin⟩
  obtain ⟨answer', after', hDoes⟩ := exists_does session op
  cases (step_of_does hWithin hDoes).symm.trans hStep
  exact hDoes

theorem Within.step (h : session.Within data) (op : Op) : (session.step op).2.Within data :=
  ((step_eq_iff h).1 rfl : Does session op (session.step op).1 (session.step op).2).within h

theorem Within.steps (h : session.Within data) (ops : List Op) :
    (session.steps ops).Within data := by
  induction ops generalizing session with
  | nil => exact h
  | cons op ops ih => exact ih (h.step op)

end Session

end ConsoleFont.Cursor
