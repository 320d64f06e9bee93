import ConsoleFont.Bytes.Cursor
import ConsoleFont.Proofs.Utf8
import Mathlib.Algebra.Group.Nat.Defs
import Mathlib.Data.Set.Function

/-! # How a cursor reads code points

`Cursor.Answered` says for any data what comes of reading a code point and how many bytes that
takes. Forms of one length are one-to-one with the numbers that fit them: `Form.eq_of_length_eq` and
`exists_form` take the bits of a number apart and put them together.

Main statements: `Cursor.Session.step_codePoint_of_answered`, `Cursor.Session.bijOn_answer`.
-/

namespace ConsoleFont

namespace CodePoint

/-! ### The numbers that fit a form -/

/-- The numbers below this fit a form of the given length. -/
def formLimit : (length : Nat) → Nat
  | 1 => 2 ^ 7
  | 2 => 2 ^ 11
  | 3 => 2 ^ 16
  | 4 => 2 ^ 21
  | 5 => 2 ^ 26
  | 6 => 2 ^ 31
  | _ => 0

theorem formLimit_succ {more mark room : Nat} (h : marks[more]? = some (mark, room)) :
    formLimit (more + 1) = room * 64 ^ more := by
  have hMore : more < marks.length := (List.getElem?_eq_some_iff.1 h).1
  match more, hMore with
  | 0, _ => cases h; rfl
  | 1, _ => cases h; rfl
  | 2, _ => cases h; rfl
  | 3, _ => cases h; rfl
  | 4, _ => cases h; rfl
  | 5, _ => cases h; rfl

theorem formLimit_le (length : Nat) : formLimit length ≤ 2 ^ 31 := by
  unfold formLimit
  split <;> decide

theorem exists_mark_of_lt {length value : Nat} (h : value < formLimit length) :
    ∃ more mark room, length = more + 1 ∧ marks[more]? = some (mark, room) := by
  unfold formLimit at h
  split at h
  · exact ⟨0, _, _, rfl, rfl⟩
  · exact ⟨1, _, _, rfl, rfl⟩
  · exact ⟨2, _, _, rfl, rfl⟩
  · exact ⟨3, _, _, rfl, rfl⟩
  · exact ⟨4, _, _, rfl, rfl⟩
  · exact ⟨5, _, _, rfl, rfl⟩
  · exact absurd h (Nat.not_lt_zero value)

/-! ### Gathering bits -/

theorem isContinuation_iff {byte : UInt8} :
    isContinuation byte = true ↔ 0x80 ≤ byte.toNat ∧ byte.toNat < 0xC0 := by
  simp only [isContinuation, Bool.and_eq_true, decide_eq_true_eq]

theorem gathered_append (value : Nat) (front behind : Bytes) :
    gathered value (front ++ behind) = gathered (gathered value front) behind := by
  rw [gathered, gathered, gathered, List.foldl_append]

theorem gathered_lt {continuations : Bytes} (h : Continuations continuations) {value room : Nat}
    (hValue : value < room) :
    gathered value continuations < room * 64 ^ continuations.length := by
  induction continuations generalizing value room with
  | nil => rwa [List.length_nil, Nat.pow_zero, Nat.mul_one]
  | cons byte behind ih =>
    obtain ⟨hByte, hBehind⟩ := List.forall_mem_cons.1 h
    have hBits := isContinuation_iff.1 hByte
    have hGather : gather value byte < room * 64 := by
      unfold gather
      omega
    rw [gathered_cons, List.length_cons, Nat.pow_succ', ← Nat.mul_assoc]
    exact ih hBehind hGather

theorem eq_of_gather_eq {byte byte' : UInt8} (hByte : isContinuation byte = true)
    (hByte' : isContinuation byte' = true) {value value' : Nat}
    (h : gather value byte = gather value' byte') : value = value' ∧ byte = byte' := by
  have hBits := isContinuation_iff.1 hByte
  have hBits' := isContinuation_iff.1 hByte'
  unfold gather at h
  rw [← UInt8.toNat_inj]
  omega

theorem eq_of_gathered_eq {first second : Bytes} (hFirst : Continuations first)
    (hSecond : Continuations second) (hLength : first.length = second.length) {value value' : Nat}
    (h : gathered value first = gathered value' second) : value = value' ∧ first = second := by
  induction first generalizing second value value' with
  | nil =>
    cases List.eq_nil_of_length_eq_zero hLength.symm
    exact ⟨h, rfl⟩
  | cons byte behind ih =>
    cases second with
    | nil => exact absurd hLength (Nat.succ_ne_zero _)
    | cons byte' behind' =>
      obtain ⟨hByte, hBehind⟩ := List.forall_mem_cons.1 hFirst
      obtain ⟨hByte', hBehind'⟩ := List.forall_mem_cons.1 hSecond
      rw [gathered_cons, gathered_cons] at h
      obtain ⟨hGather, rfl⟩ := ih hBehind hBehind' (Nat.succ.inj hLength) h
      obtain ⟨hValue, rfl⟩ := eq_of_gather_eq hByte hByte' hGather
      exact ⟨hValue, rfl⟩

theorem exists_gathered (more : Nat) {value room : Nat} (h : value < room * 64 ^ more) :
    ∃ payload continuations, payload < room ∧ continuations.length = more ∧
      Continuations continuations ∧ gathered payload continuations = value := by
  induction more generalizing value with
  | zero =>
    rw [Nat.pow_zero, Nat.mul_one] at h
    exact ⟨value, [], h, rfl, continuations_nil, rfl⟩
  | succ more ih =>
    -- the last byte carries the last six bits
    rw [Nat.pow_succ, ← Nat.mul_assoc] at h
    have hBits : value % 64 < 0x40 := Nat.mod_lt value (by decide)
    obtain ⟨payload, continuations, hPayload, hLength, hAll, hValue⟩ :=
      ih (Nat.div_lt_of_lt_mul (by rwa [Nat.mul_comm] at h) : value / 64 < room * 64 ^ more)
    refine ⟨payload, continuations ++ [UInt8.ofNat (value % 64 + 0x80)], hPayload, ?_, ?_, ?_⟩
    · rw [List.length_append, hLength, List.length_singleton]
    · exact List.forall_mem_append.2
        ⟨hAll, List.forall_mem_singleton.2 (isContinuation_ofNat hBits)⟩
    · rw [gathered_append, hValue, gathered_cons, gather_ofNat hBits]
      exact Nat.div_add_mod' value 64

/-! ### One form for each number and length -/

theorem Form.lt_formLimit {value : Nat} {bytes : Bytes} (h : Form value bytes) :
    value < formLimit bytes.length := by
  obtain ⟨⟨mark, room, hMark, hPayload, _⟩, hAll⟩ := h
  rw [List.length_cons, formLimit_succ hMark]
  exact gathered_lt hAll hPayload

theorem Form.eq_of_length_eq {value : Nat} {bytes bytes' : Bytes} (h : Form value bytes)
    (h' : Form value bytes') (hLength : bytes.length = bytes'.length) : bytes = bytes' := by
  generalize hValue : value = value' at h'
  obtain @⟨byte, payload, behind, ⟨mark, room, hMark, _, hByte⟩, hAll⟩ := h
  obtain @⟨byte', payload', behind', ⟨mark', room', hMark', _, hByte'⟩, hAll'⟩ := h'
  have hBehind : behind.length = behind'.length := Nat.succ.inj hLength
  obtain ⟨rfl, rfl⟩ := eq_of_gathered_eq hAll hAll' hBehind hValue
  rw [hMark] at hMark'
  cases hMark'
  rw [UInt8.toNat_inj.1 (hByte.trans hByte'.symm)]

theorem exists_form {length value : Nat} (h : value < formLimit length) :
    ∃ bytes, bytes.length = length ∧ Form value bytes := by
  obtain ⟨more, mark, room, rfl, hMark⟩ := exists_mark_of_lt h
  rw [formLimit_succ hMark] at h
  obtain ⟨payload, continuations, hPayload, rfl, hAll, rfl⟩ := exists_gathered more h
  exact ⟨_, rfl, .intro (leads_ofNat hMark hPayload) hAll⟩

end CodePoint

open CodePoint

namespace Cursor

/-! ### What reading answers -/

/-- What reading a code point from the data answers, and how many bytes it takes. -/
inductive Answered : (data : Bytes) → Except Error Answer → (taken : Nat) → Prop
  | form {value : Nat} {bytes : Bytes} (rest : Bytes) : Form value bytes →
      Answered (bytes ++ rest) (.ok (.number value)) bytes.length
  /-- The data starts with a byte that starts no form. -/
  | stray {byte : UInt8} (rest : Bytes) : isContinuation byte = true ∨ byte = 0xFE ∨ byte = 0xFF →
      Answered (byte :: rest) (.ok (.number invalidCodePoint)) 1
  /-- Where a continuation byte is due, there is another one. -/
  | broken {begun : Bytes} {byte : UInt8} (rest : Bytes) : Unfinished begun →
      isContinuation byte = false →
      Answered (begun ++ byte :: rest) (.ok (.number invalidCodePoint)) begun.length
  /-- The data ends before any of this is decided. -/
  | short {data : Bytes} : data = [] ∨ Unfinished data → Answered data (.error .shortRead) 0

theorem exists_answered (data : Bytes) : ∃ answer taken, Answered data answer taken := by
  have hReads := reads_read data
  generalize read data = result at hReads
  cases hReads with
  | form rest hForm => exact ⟨_, _, .form rest hForm⟩
  | illFormed hIll =>
    cases hIll with
    | lead rest hByte => exact ⟨_, _, .stray rest hByte⟩
    | broken rest hBegun hByte => exact ⟨_, _, .broken rest hBegun hByte⟩
  | nil => exact ⟨_, _, .short (.inl rfl)⟩
  | unfinished hUnfinished => exact ⟨_, _, .short (.inr hUnfinished)⟩

namespace Session

def answers (session : Session) : List Op → List (Except Error Answer)
  | [] => []
  | op :: ops => (session.step op).1 :: (session.step op).2.answers ops

/-- A session whose cursor stands behind `before`, in front of `data`. -/
def between (before data : Bytes) (saved : List Cursor) : Session :=
  ⟨⟨before ++ data, before.length⟩, saved⟩

variable (before : Bytes) (saved : List Cursor)

theorem rest_between (data : Bytes) : (between before data saved).cursor.rest = data :=
  List.drop_left

theorem between_append (front rest : Bytes) :
    between (before ++ front) rest saved =
      ⟨⟨before ++ (front ++ rest), before.length + front.length⟩, saved⟩ := by
  rw [between, List.append_assoc, List.length_append]

theorem step_codePoint_of_read {front rest : Bytes} {value : Option Nat}
    (h : read (front ++ rest) = .ok (value, rest)) :
    (between before (front ++ rest) saved).step .codePoint =
      (.ok (.number (value.getD invalidCodePoint)), between (before ++ front) rest saved) := by
  have hPosition : (before ++ (front ++ rest)).length - rest.length =
      before.length + front.length := by
    simp only [List.length_append]
    omega
  rw [step, codePoint, run, rest_between, h, between_append]
  simp only [settle, between, length, hPosition]

theorem step_codePoint_of_short {data : Bytes} (h : read data = .error .shortRead) :
    (between before data saved).step .codePoint =
      (.error .shortRead, between before data saved) := by
  rw [step, codePoint, run, rest_between, h]
  rfl

theorem step_codePoint_of_answered {data : Bytes} {answer : Except Error Answer} {taken : Nat}
    (h : Answered data answer taken) :
    (between before data saved).step .codePoint =
      (answer, ⟨⟨before ++ data, before.length + taken⟩, saved⟩) := by
  cases h with
  | form rest hForm =>
    rw [step_codePoint_of_read before saved (read_of_form hForm rest), between_append]
    rfl
  | @stray byte rest hByte =>
    have hRead : read ([byte] ++ rest) = .ok (none, rest) := read_of_stray hByte rest
    have hStep := step_codePoint_of_read before saved hRead
    rwa [between_append] at hStep
  | @broken begun byte rest hBegun hByte =>
    rw [step_codePoint_of_read before saved (read_of_broken hBegun hByte rest), between_append]
    rfl
  | short hShort =>
    have hRead : read data = .error .shortRead := by
      rcases hShort with rfl | hUnfinished
      · rfl
      · exact read_of_unfinished hUnfinished
    exact step_codePoint_of_short before saved hRead

theorem answers_characters (characters : List Char) (rest : Bytes) :
    let session := between before (characters.flatMap String.utf8EncodeChar ++ rest) saved
    let ops := List.replicate characters.length Op.codePoint
    session.answers ops = characters.map (fun c => .ok (.number c.toNat)) ∧
      session.steps ops =
        between (before ++ characters.flatMap String.utf8EncodeChar) rest saved := by
  induction characters generalizing before with
  | nil => exact ⟨rfl, by rw [List.flatMap_nil, List.append_nil]; rfl⟩
  | cons c characters ih =>
    have hStep := step_codePoint_of_read before saved (read_of_form (form_utf8EncodeChar c)
      (characters.flatMap String.utf8EncodeChar ++ rest))
    obtain ⟨hAnswers, hSteps⟩ := ih (before ++ String.utf8EncodeChar c)
    simp only [List.flatMap_cons, List.append_assoc, List.length_cons, List.replicate_succ] at *
    constructor
    · rw [answers, hStep, hAnswers]
      rfl
    · rw [steps, List.foldl_cons, hStep]
      exact hSteps

theorem answer_of_form {value : Nat} {bytes : Bytes} (h : Form value bytes) :
    ((ofBytes bytes).step .codePoint).1 = .ok (.number value) := by
  have hAnswered : Answered (bytes ++ []) (.ok (.number value)) bytes.length := .form [] h
  rw [List.append_nil] at hAnswered
  exact congrArg Prod.fst (step_codePoint_of_answered [] [.ofBytes bytes] hAnswered)

/-- **Reading takes the forms of one length one-to-one to the numbers that fit them.** -/
theorem bijOn_answer (length : Nat) :
    Set.BijOn (fun bytes => ((ofBytes bytes).step .codePoint).1)
      {bytes | bytes.length = length ∧ ∃ value, Form value bytes}
      {answer | ∃ value < formLimit length, answer = .ok (.number value)} := by
  refine ⟨?_, ?_, ?_⟩
  · rintro bytes ⟨rfl, value, hForm⟩
    exact ⟨value, hForm.lt_formLimit, answer_of_form hForm⟩
  · rintro bytes ⟨hLength, value, hForm⟩ bytes' ⟨hLength', value', hForm'⟩ hAnswer
    simp only [answer_of_form hForm, answer_of_form hForm', Except.ok.injEq, Answer.number.injEq]
      at hAnswer
    subst hAnswer
    exact hForm.eq_of_length_eq hForm' (hLength.trans hLength'.symm)
  · rintro answer ⟨value, hValue, rfl⟩
    obtain ⟨bytes, hLength, hForm⟩ := exists_form hValue
    exact ⟨bytes, ⟨hLength, value, hForm⟩, answer_of_form hForm⟩

theorem toUTF8_eq (text : String) :
    text.toUTF8.data.toList = text.toList.flatMap String.utf8EncodeChar := by
  rw [String.toUTF8, ← String.utf8Encode_toList, List.utf8Encode, List.toList_data_toByteArray]

end Session

end Cursor

end ConsoleFont
