import ConsoleFont.Proofs.CursorSteps
import ConsoleFont.Proofs.Machine.UnicodeTable

/-! # A cursor moved in place

The steps of a cursor as programs on one cursor in memory. A `Walk` that fails leaves the cursor
wherever it has been moved to by then, unlike a `Step`, and so a walk has to go back by itself if it
is to fail where it started. Positions are set without a look at the data, and sums of them are
checked.

Each walk has a lemma for every case of `Cursor.Op.Answers`. Reading a code point moves on byte by
byte, and `Follows` says what comes of it before the walk goes back.

Main statements: `performs_within_data`, and `Cursor.step_codePoint_iff` for code points.
-/

namespace ConsoleFont.Machine

open Cursor (Answer Op Session)

/-- Byte strings in memory are shorter than this. -/
def memoryLimit : Nat := 0x8000000000000000

/-- A program that moves a cursor in place. -/
abbrev Walk := ExceptT Error (StateT Cursor Checked)

namespace Walk

variable {α β : Type}

def runOn (walk : Walk α) (cursor : Cursor) : Checked (Except Error α × Cursor) :=
  walk.run.run cursor

def refuseIf (p : Prop) [Decidable p] (error : Error) : Walk Unit :=
  if p then throw error else pure ()

def moveTo (position : Nat) : Walk Unit := modify fun cursor => ⟨cursor.data, position⟩

/-- The value or the failure of a walk. The cursor stays where the walk leaves it. -/
def attempt (walk : Walk α) : Walk (Except Error α) := ExceptT.lift walk.run

/-! ### The walks -/

def ensure (count : Nat) : Walk Unit := do
  let cursor ← get
  refuseIf (cursor.remaining < count) .shortRead

def seek (position : Nat) : Walk Unit := do
  let cursor ← get
  refuseIf (cursor.length < position) .shortRead
  moveTo position

def skip (count : Nat) : Walk Unit := do
  ensure count
  let cursor ← get
  let stop ← add sizeLimit cursor.position count
  moveTo stop

def take (count : Nat) : Walk Bytes := do
  ensure count
  let cursor ← get
  let stop ← add sizeLimit cursor.position count
  let piece ← slice cursor.data cursor.position stop
  moveTo stop
  return piece

def number (size : Nat) : Walk Nat := do
  let piece ← take size
  return Step.littleEndian piece

def byte : Walk UInt8 := do
  let n ← number 1
  return UInt8.ofNat n

def peek : Walk UInt8 := do
  let cursor ← get
  match cursor.data[cursor.position]? with
  | some byte => return byte
  | none => throw .shortRead

def signature (expected : Bytes) : Walk Unit := do
  let cursor ← get
  let stop ← add sizeLimit cursor.position expected.length
  refuseIf (cursor.data.slice? cursor.position expected.length ≠ some expected) .badMagic
  moveTo stop

def continued : (more value : Nat) → Walk (Option Nat)
  | 0, value => return some value
  | more + 1, value => do
    let byte ← peek
    if CodePoint.isContinuation byte then
      skip 1
      let bits ← shiftLeft wordLimit value 6
      continued more (bits ||| byte.toNat &&& 0x3F)
    else return none

def forward : Walk (Option Nat) := do
  let first ← byte
  match CodePoint.lead? first with
  | some lead => continued lead.more lead.payload
  | none => return none

/-- Reads a code point, or goes back to where it starts. -/
def codePoint : Walk Nat := do
  let start ← get
  let result ← attempt forward
  match result with
  | .ok value => return value.getD Cursor.invalidCodePoint
  | .error error =>
    moveTo start.position
    throw error

/-! ### Walks one behind the other -/

theorem runOn_bind (walk : Walk α) (next : α → Walk β) (cursor : Cursor) :
    (walk >>= next).runOn cursor =
      match walk.runOn cursor with
      | .ok (.ok a, cursor) => (next a).runOn cursor
      | .ok (.error error, cursor) => .ok (.error error, cursor)
      | .error fault => .error fault := by
  simp only [runOn, ExceptT.run_bind, StateT.run_bind]
  rcases walk.run.run cursor with fault | ⟨error | a, after⟩
  · rfl
  · rfl
  · rfl

theorem runOn_bind_of_ok {walk : Walk α} {cursor after : Cursor} {a : α}
    (h : walk.runOn cursor = .ok (.ok a, after)) (next : α → Walk β) :
    (walk >>= next).runOn cursor = (next a).runOn after := by
  rw [runOn_bind, h]

theorem runOn_bind_of_error {walk : Walk α} {cursor after : Cursor} {error : Error}
    (h : walk.runOn cursor = .ok (.error error, after)) (next : α → Walk β) :
    (walk >>= next).runOn cursor = .ok (.error error, after) := by
  rw [runOn_bind, h]

theorem runOn_lift_bind {checked : Checked α} {a : α} (h : checked = .ok a) (next : α → Walk β)
    (cursor : Cursor) : (liftM checked >>= next).runOn cursor = (next a).runOn cursor := by
  subst h
  rfl

theorem runOn_refuseIf_bind_of {p : Prop} [Decidable p] (h : p) (error : Error)
    (next : Unit → Walk β) (cursor : Cursor) :
    (refuseIf p error >>= next).runOn cursor = .ok (.error error, cursor) := by
  rw [refuseIf, if_pos h]
  rfl

theorem runOn_refuseIf_bind_of_not {p : Prop} [Decidable p] (h : ¬ p) (error : Error)
    (next : Unit → Walk β) (cursor : Cursor) :
    (refuseIf p error >>= next).runOn cursor = (next ()).runOn cursor := by
  rw [refuseIf, if_neg h]
  rfl

/-! ### What they do -/

variable {data : Bytes} {position count : Nat}

theorem runOn_ensure_bind_of_le (h : position + count ≤ data.length) (next : Unit → Walk β) :
    (ensure count >>= next).runOn ⟨data, position⟩ = (next ()).runOn ⟨data, position⟩ := by
  have hLeft : ¬ data.length - position < count := by omega
  exact runOn_refuseIf_bind_of_not hLeft .shortRead next ⟨data, position⟩

theorem runOn_ensure_bind_of_lt (hPosition : position ≤ data.length)
    (h : data.length < position + count) (next : Unit → Walk β) :
    (ensure count >>= next).runOn ⟨data, position⟩ = .ok (.error .shortRead, ⟨data, position⟩) := by
  have hShort : data.length - position < count := by omega
  exact runOn_refuseIf_bind_of hShort .shortRead next ⟨data, position⟩

theorem add_of_within (hData : data.length < memoryLimit) (h : position + count ≤ data.length) :
    add sizeLimit position count = .ok (position + count) := by
  refine add_of_lt ?_
  unfold memoryLimit at hData
  unfold sizeLimit
  omega

theorem runOn_skip_of_le (hData : data.length < memoryLimit) (h : position + count ≤ data.length) :
    (skip count).runOn ⟨data, position⟩ = .ok (.ok (), ⟨data, position + count⟩) := by
  rw [skip, runOn_ensure_bind_of_le h]
  exact runOn_lift_bind (add_of_within hData h) moveTo ⟨data, position⟩

theorem runOn_skip_of_lt (hPosition : position ≤ data.length)
    (h : data.length < position + count) :
    (skip count).runOn ⟨data, position⟩ = .ok (.error .shortRead, ⟨data, position⟩) :=
  runOn_ensure_bind_of_lt hPosition h _

theorem runOn_take_of_le (hData : data.length < memoryLimit) (h : position + count ≤ data.length) :
    (take count).runOn ⟨data, position⟩ =
      .ok (.ok ((data.drop position).take count), ⟨data, position + count⟩) := by
  have hSlice : slice data position (position + count) = .ok ((data.drop position).take count) := by
    rw [slice_of_le (Nat.le_add_right ..) h, Nat.add_sub_cancel_left]
  rw [take, runOn_ensure_bind_of_le h]
  exact (runOn_lift_bind (add_of_within hData h) _ ⟨data, position⟩).trans
    (runOn_lift_bind hSlice _ ⟨data, position⟩)

theorem runOn_take_of_lt (hPosition : position ≤ data.length)
    (h : data.length < position + count) :
    (take count).runOn ⟨data, position⟩ = .ok (.error .shortRead, ⟨data, position⟩) :=
  runOn_ensure_bind_of_lt hPosition h _

theorem runOn_number_of_le (hData : data.length < memoryLimit)
    (h : position + count ≤ data.length) :
    (number count).runOn ⟨data, position⟩ =
      .ok (.ok (Step.littleEndian ((data.drop position).take count)), ⟨data, position + count⟩) :=
  runOn_bind_of_ok (runOn_take_of_le hData h) _

theorem runOn_number_of_lt (hPosition : position ≤ data.length)
    (h : data.length < position + count) :
    (number count).runOn ⟨data, position⟩ = .ok (.error .shortRead, ⟨data, position⟩) :=
  runOn_bind_of_error (runOn_take_of_lt hPosition h) _

theorem runOn_byte_of_getElem? (hData : data.length < memoryLimit) {next : UInt8}
    (h : data[position]? = some next) :
    byte.runOn ⟨data, position⟩ = .ok (.ok next, ⟨data, position + 1⟩) := by
  obtain ⟨hPosition, rfl⟩ := List.getElem?_eq_some_iff.1 h
  have hTake : (data.drop position).take 1 = [data[position]] := by
    rw [List.drop_eq_getElem_cons hPosition]
    rfl
  have hLeft : position + 1 ≤ data.length := hPosition
  have hNumber := runOn_number_of_le hData hLeft
  have hByte : Step.littleEndian [data[position]] = data[position].toNat := Nat.add_zero _
  rw [hTake, hByte] at hNumber
  rw [byte, runOn_bind_of_ok hNumber, UInt8.ofNat_toNat]
  rfl

theorem runOn_byte_of_le (h : position = data.length) :
    byte.runOn ⟨data, position⟩ = .ok (.error .shortRead, ⟨data, position⟩) :=
  runOn_bind_of_error (runOn_number_of_lt (Nat.le_of_eq h) (h ▸ Nat.lt_succ_self _)) _

theorem runOn_peek_of_getElem? {next : UInt8} (h : data[position]? = some next) :
    peek.runOn ⟨data, position⟩ = .ok (.ok next, ⟨data, position⟩) := by
  show runOn (match data[position]? with
    | some byte => pure byte
    | none => throw .shortRead) ⟨data, position⟩ = _
  rw [h]
  rfl

theorem runOn_peek_of_le (h : data.length ≤ position) :
    peek.runOn ⟨data, position⟩ = .ok (.error .shortRead, ⟨data, position⟩) := by
  show runOn (match data[position]? with
    | some byte => pure byte
    | none => throw .shortRead) ⟨data, position⟩ = _
  rw [List.getElem?_eq_none h]
  rfl

theorem runOn_seek_of_le {target : Nat} (h : target ≤ data.length) :
    (seek target).runOn ⟨data, position⟩ = .ok (.ok (), ⟨data, target⟩) :=
  runOn_refuseIf_bind_of_not (Nat.not_lt.2 h) .shortRead _ ⟨data, position⟩

theorem runOn_seek_of_lt {target : Nat} (h : data.length < target) :
    (seek target).runOn ⟨data, position⟩ = .ok (.error .shortRead, ⟨data, position⟩) :=
  runOn_refuseIf_bind_of h .shortRead _ ⟨data, position⟩

theorem add_signature {expected : Bytes} (hData : data.length < memoryLimit)
    (hPosition : position ≤ data.length) (hExpected : expected.length < memoryLimit) :
    add sizeLimit position expected.length = .ok (position + expected.length) := by
  refine add_of_lt ?_
  unfold memoryLimit at hData hExpected
  unfold sizeLimit
  omega

theorem runOn_signature_of_expected {expected : Bytes} (hData : data.length < memoryLimit)
    (hPosition : position ≤ data.length) (hExpected : expected.length < memoryLimit)
    (h : expected <+: data.drop position) :
    (signature expected).runOn ⟨data, position⟩ =
      .ok (.ok (), ⟨data, position + expected.length⟩) := by
  have hSlice : data.slice? position expected.length = some expected :=
    Bytes.slice?_eq_some_iff.2
      ⟨Cursor.position_add_length_le hPosition h, List.prefix_iff_eq_take.1 h⟩
  exact (runOn_lift_bind (add_signature hData hPosition hExpected) _ ⟨data, position⟩).trans
    (runOn_refuseIf_bind_of_not (not_not.2 hSlice) .badMagic _ ⟨data, position⟩)

theorem runOn_signature_of_other {expected : Bytes} (hData : data.length < memoryLimit)
    (hPosition : position ≤ data.length) (hExpected : expected.length < memoryLimit)
    (h : ¬ expected <+: data.drop position) :
    (signature expected).runOn ⟨data, position⟩ = .ok (.error .badMagic, ⟨data, position⟩) := by
  have hSlice : data.slice? position expected.length ≠ some expected := fun hSlice =>
    h (List.prefix_iff_eq_take.2 (Bytes.slice?_eq_some_iff.1 hSlice).2)
  exact (runOn_lift_bind (add_signature hData hPosition hExpected) _ ⟨data, position⟩).trans
    (runOn_refuseIf_bind_of hSlice .badMagic _ ⟨data, position⟩)

/-! ### Code points -/

/-- The walk does what a reader does with the bytes that are left. Where it succeeds, it stands in
front of what the reader leaves, and where it fails, anywhere in the data. -/
inductive Follows (data : Bytes) (position : Nat) (walk : Walk α) :
    Except Error (α × Bytes) → Prop
  | ok (a : α) (behind : Nat) : behind ≤ data.length →
      walk.runOn ⟨data, position⟩ = .ok (.ok a, ⟨data, behind⟩) →
      Follows data position walk (.ok (a, data.drop behind))
  | error (error : Error) (behind : Nat) :
      walk.runOn ⟨data, position⟩ = .ok (.error error, ⟨data, behind⟩) →
      Follows data position walk (.error error)

theorem Follows.of_runOn_eq {walk other : Walk α} {outcome : Except Error (α × Bytes)}
    {behind : Nat} (h : Follows data behind other outcome)
    (hRun : walk.runOn ⟨data, position⟩ = other.runOn ⟨data, behind⟩) :
    Follows data position walk outcome := by
  cases h with
  | ok a last hLast hOther => exact .ok a last hLast (hRun.trans hOther)
  | error error last hOther => exact .error error last (hRun.trans hOther)

theorem follows_continued (hData : data.length < memoryLimit) (more : Nat) {value : Nat}
    (hRoom : (value + 1) * 64 ^ more ≤ wordLimit) (hPosition : position ≤ data.length) :
    Follows data position (continued more value)
      (CodePoint.continued more value (data.drop position)) := by
  -- every byte that is taken uses up six bits of the room
  induction more generalizing value position with
  | zero => exact .ok (some value) position hPosition rfl
  | succ more ih =>
    rcases Nat.eq_or_lt_of_le hPosition with hEnd | hLt
    · rw [List.drop_eq_nil_of_le (Nat.le_of_eq hEnd.symm)]
      exact .error .shortRead position
        (runOn_bind_of_error (runOn_peek_of_le (Nat.le_of_eq hEnd.symm)) _)
    · have hNext : data[position]? = some data[position] := List.getElem?_eq_getElem hLt
      rw [List.drop_eq_getElem_cons hLt, CodePoint.continued]
      by_cases hByte : CodePoint.isContinuation data[position] = true
      · rw [if_pos hByte]
        refine (ih (Step.gathered_room hByte hRoom) hLt).of_runOn_eq ?_
        rw [continued, runOn_bind_of_ok (runOn_peek_of_getElem? hNext), if_pos hByte,
          runOn_bind_of_ok (runOn_skip_of_le hData hLt),
          runOn_lift_bind (Step.shiftLeft_of_room hRoom), Step.or_payload hByte]
      · rw [if_neg hByte, ← List.drop_eq_getElem_cons hLt]
        refine .ok none position hPosition ?_
        rw [continued, runOn_bind_of_ok (runOn_peek_of_getElem? hNext), if_neg hByte]
        rfl

theorem follows_forward (hData : data.length < memoryLimit) (hPosition : position ≤ data.length) :
    Follows data position forward (CodePoint.read (data.drop position)) := by
  rcases Nat.eq_or_lt_of_le hPosition with hEnd | hLt
  · rw [List.drop_eq_nil_of_le (Nat.le_of_eq hEnd.symm)]
    exact .error .shortRead position (runOn_bind_of_error (runOn_byte_of_le hEnd) _)
  · have hByte := runOn_byte_of_getElem? hData (List.getElem?_eq_getElem hLt)
    rw [List.drop_eq_getElem_cons hLt, CodePoint.read]
    cases hLead : CodePoint.lead? data[position] with
    | none =>
      refine .ok none (position + 1) hLt ?_
      rw [forward, runOn_bind_of_ok hByte, hLead]
      rfl
    | some lead =>
      refine (follows_continued hData lead.more (Step.payload_room hLead) hLt).of_runOn_eq ?_
      rw [forward, runOn_bind_of_ok hByte, hLead]

theorem runOn_codePoint_of_ok {value : Option Nat} {behind : Nat}
    (h : forward.runOn ⟨data, position⟩ = .ok (.ok value, ⟨data, behind⟩)) :
    codePoint.runOn ⟨data, position⟩ =
      .ok (.ok (value.getD Cursor.invalidCodePoint), ⟨data, behind⟩) := by
  have hAttempt : (attempt forward).runOn ⟨data, position⟩ =
      .ok (.ok (.ok value), ⟨data, behind⟩) := by
    show (forward.runOn ⟨data, position⟩).map _ = _
    rw [h]
    rfl
  exact runOn_bind_of_ok hAttempt _

/-- However far the walk came, it is back where it started. -/
theorem runOn_codePoint_of_error {error : Error} {behind : Nat}
    (h : forward.runOn ⟨data, position⟩ = .ok (.error error, ⟨data, behind⟩)) :
    codePoint.runOn ⟨data, position⟩ = .ok (.error error, ⟨data, position⟩) := by
  -- the attempt turns the failure into a value, and the walk goes on to move back
  have hAttempt : (attempt forward).runOn ⟨data, position⟩ =
      .ok (.ok (.error error), ⟨data, behind⟩) := by
    show (forward.runOn ⟨data, position⟩).map _ = _
    rw [h]
    rfl
  exact runOn_bind_of_ok hAttempt _

end Walk

/-! ### Sessions -/

/-- Takes over what a walk answers, and the cursor from wherever the walk leaves it. -/
def inPlace {α : Type} (session : Session) (answer : α → Answer) (walk : Walk α) :
    Checked (Except Error Answer × Session) :=
  (walk.runOn session.cursor).map fun outcome =>
    (outcome.1.map answer, ⟨outcome.2, session.saved⟩)

def perform (session : Session) : Op → Checked (Except Error Answer × Session)
  | .byte => inPlace session (fun b => .number b.toNat) Walk.byte
  | .unit => inPlace session .number (Walk.number 2)
  | .word => inPlace session .number (Walk.number 4)
  | .peek => inPlace session (fun b => .number b.toNat) Walk.peek
  | .codePoint => inPlace session .number Walk.codePoint
  | .signature expected => inPlace session (fun _ => .done) (Walk.signature expected)
  | .take count => inPlace session .bytes (Walk.take count)
  | .skip count => inPlace session (fun _ => .done) (Walk.skip count)
  | .seek position => inPlace session (fun _ => .done) (Walk.seek position)
  | .size => .ok (.ok (.size session.cursor.length session.cursor.isEmpty), session)
  | .save => .ok (.ok .done, ⟨session.cursor, session.cursor :: session.saved⟩)
  | .back index => .ok (.ok .done, ⟨session.saved[index]?.getD session.cursor, session.saved⟩)

def performAll (session : Session) : List Op → Checked (List (Except Error Answer) × Session)
  | [] => .ok ([], session)
  | op :: ops => do
    let (answer, after) ← perform session op
    let (answers, last) ← performAll after ops
    return (answer :: answers, last)

/-- The bytes that a step is given have to fit the memory. Its numbers may be any. -/
def Fits : Op → Prop
  | .signature expected => expected.length < memoryLimit
  | _ => True

section

variable {α : Type} {data : Bytes} {position : Nat} {saved : List Cursor} {op : Op}

theorem inPlace_of_ok {walk : Walk α} {cursor after : Cursor} {a : α}
    (h : walk.runOn cursor = .ok (.ok a, after)) (answer : α → Answer) :
    inPlace ⟨cursor, saved⟩ answer walk = .ok (.ok (answer a), ⟨after, saved⟩) := by
  rw [inPlace, h]
  rfl

theorem inPlace_of_error {walk : Walk α} {cursor after : Cursor} {error : Error}
    (h : walk.runOn cursor = .ok (.error error, after)) (answer : α → Answer) :
    inPlace ⟨cursor, saved⟩ answer walk = .ok (.error error, ⟨after, saved⟩) := by
  rw [inPlace, h]
  rfl

theorem perform_of_reads_le (hData : data.length < memoryLimit) {size : Nat}
    {answer : Bytes → Answer} (hReads : op.reads? = some (size, answer))
    (h : position + size ≤ data.length) :
    perform ⟨⟨data, position⟩, saved⟩ op =
      .ok (.ok (answer ((data.drop position).take size)), ⟨⟨data, position + size⟩, saved⟩) := by
  cases op with
  | byte =>
    cases hReads
    have hTake : (data.drop position).take 1 = [data[position]] := by
      rw [List.drop_eq_getElem_cons h]
      rfl
    rw [hTake]
    exact inPlace_of_ok (Walk.runOn_byte_of_getElem? hData (List.getElem?_eq_getElem h)) _
  | unit =>
    cases hReads
    exact inPlace_of_ok (Walk.runOn_number_of_le hData h) _
  | word =>
    cases hReads
    exact inPlace_of_ok (Walk.runOn_number_of_le hData h) _
  | take count =>
    cases hReads
    exact inPlace_of_ok (Walk.runOn_take_of_le hData h) _
  | skip count =>
    cases hReads
    exact inPlace_of_ok (Walk.runOn_skip_of_le hData h) _
  | _ => cases hReads

theorem perform_of_reads_lt (hPosition : position ≤ data.length) {size : Nat}
    {answer : Bytes → Answer} (hReads : op.reads? = some (size, answer))
    (h : data.length < position + size) :
    perform ⟨⟨data, position⟩, saved⟩ op =
      .ok (.error .shortRead, ⟨⟨data, position⟩, saved⟩) := by
  cases op with
  | byte =>
    cases hReads
    exact inPlace_of_error
      (Walk.runOn_byte_of_le (Nat.le_antisymm hPosition (Nat.le_of_lt_succ h))) _
  | unit =>
    cases hReads
    exact inPlace_of_error (Walk.runOn_number_of_lt hPosition h) _
  | word =>
    cases hReads
    exact inPlace_of_error (Walk.runOn_number_of_lt hPosition h) _
  | take count =>
    cases hReads
    exact inPlace_of_error (Walk.runOn_take_of_lt hPosition h) _
  | skip count =>
    cases hReads
    exact inPlace_of_error (Walk.runOn_skip_of_lt hPosition h) _
  | _ => cases hReads

theorem perform_codePoint (hData : data.length < memoryLimit) (hPosition : position ≤ data.length) :
    perform ⟨⟨data, position⟩, saved⟩ .codePoint =
      .ok (Session.step ⟨⟨data, position⟩, saved⟩ .codePoint) := by
  have hFollows := Walk.follows_forward hData hPosition
  generalize hRead : CodePoint.read (data.drop position) = outcome at hFollows
  cases hFollows with
  | ok value behind hBehind hRun =>
    rw [Session.step, Cursor.codePoint, Cursor.run_of_ok hRead hBehind]
    exact inPlace_of_ok (Walk.runOn_codePoint_of_ok hRun) _
  | error error behind hRun =>
    rw [Session.step, Cursor.codePoint, Cursor.run_of_error hRead]
    exact inPlace_of_error (Walk.runOn_codePoint_of_error hRun) _

theorem perform_of_answers (hData : data.length < memoryLimit) (hPosition : position ≤ data.length)
    (hFits : Fits op) {answer : Except Error Answer} {behind : Nat}
    (h : op.Answers data position answer behind) :
    perform ⟨⟨data, position⟩, saved⟩ op = .ok (answer, ⟨⟨data, behind⟩, saved⟩) := by
  cases h with
  | read hReads hLeft => exact perform_of_reads_le hData hReads hLeft
  | readShort hReads hShort => exact perform_of_reads_lt hPosition hReads hShort
  | peek hByte => exact inPlace_of_ok (Walk.runOn_peek_of_getElem? hByte) _
  | peekEnd hEnd => exact inPlace_of_error (Walk.runOn_peek_of_le hEnd) _
  | seek hTarget => exact inPlace_of_ok (Walk.runOn_seek_of_le hTarget) _
  | seekBehind hTarget => exact inPlace_of_error (Walk.runOn_seek_of_lt hTarget) _
  | signature hPrefix =>
    exact inPlace_of_ok (Walk.runOn_signature_of_expected hData hPosition hFits hPrefix) _
  | signatureOther hOther =>
    exact inPlace_of_error (Walk.runOn_signature_of_other hData hPosition hFits hOther) _
  | codePoint hAnswered =>
    rw [perform_codePoint hData hPosition, Session.step_of_answers hPosition (.codePoint hAnswered)]
  | size => rfl

end

variable {data : Bytes} {session : Session}

theorem perform_eq (hData : data.length < memoryLimit) (hWithin : session.Within data) {op : Op}
    (hFits : Fits op) : perform session op = .ok (session.step op) := by
  obtain ⟨answer, after, hDoes⟩ := Session.exists_does session op
  rw [Session.step_of_does hWithin hDoes]
  cases hDoes with
  | moves hAnswers =>
    obtain ⟨⟨rfl, hPosition⟩, -⟩ := hWithin
    exact perform_of_answers hData hPosition hFits hAnswers
  | save => rfl
  | back hCopy => rw [perform, hCopy, Option.getD_some]
  | backNone hIndex => rw [perform, List.getElem?_eq_none hIndex, Option.getD_none]

theorem performAll_eq (hData : data.length < memoryLimit) (hWithin : session.Within data)
    {ops : List Op} (hFits : ∀ op ∈ ops, Fits op) :
    performAll session ops = .ok (session.answers ops, session.steps ops) := by
  induction ops generalizing session with
  | nil => rfl
  | cons op ops ih =>
    obtain ⟨hOp, hOps⟩ := List.forall_mem_cons.1 hFits
    rw [performAll, perform_eq hData hWithin hOp, ok_bind]
    show (performAll (session.step op).2 ops >>= fun outcome =>
      pure ((session.step op).1 :: outcome.1, outcome.2)) = _
    rw [ih (hWithin.step op) hOps]
    rfl

/-- **Whatever steps a cursor takes, it stays within its data.** Performed in place on bytes in
memory, the steps never come to a sum or a shift that does not fit and never reach for bytes that
are not there. The data stays what it is, the position is in it or at its end, and the next step
does what its case says and nothing else. In particular it leaves everything where it was if it
fails. -/
theorem performs_within_data (data : Bytes) (ops : List Op) :
    let start := Session.ofBytes data
    let session := start.steps ops
    (data.length < memoryLimit → (∀ op ∈ ops, Fits op) →
      performAll start ops = .ok (start.answers ops, session)) ∧
    session.cursor.data = data ∧ session.cursor.position ≤ data.length ∧
    (∀ copy ∈ session.saved, copy.data = data ∧ copy.position ≤ data.length) ∧
    session.cursor.remaining = data.length - session.cursor.position ∧
    (session.cursor.atEnd = true ↔ session.cursor.position = data.length) ∧
    (∀ op answer after, session.step op = (answer, after) ↔ session.Does op answer after) ∧
    ∀ op error after, session.step op = (.error error, after) → after = session := by
  intro start session
  have hStart : start.Within data := Session.within_ofBytes data
  have hWithin : session.Within data := hStart.steps ops
  obtain ⟨hEq, hPosition⟩ := hWithin.cursor
  have hRemaining : session.cursor.remaining = data.length - session.cursor.position := by
    rw [Cursor.remaining, Cursor.length, hEq]
  refine ⟨fun hData hFits => performAll_eq hData hStart hFits, hEq, hPosition,
    fun copy hCopy => ?_, hRemaining, ?_, fun op answer after => Session.step_eq_iff hWithin,
    fun op error after hStep => ?_⟩
  · obtain ⟨hCopyEq, hCopyPosition⟩ := hWithin.saved copy hCopy
    exact ⟨hCopyEq, hCopyPosition⟩
  · rw [Cursor.atEnd, hRemaining, beq_iff_eq]
    omega
  · exact ((Session.step_eq_iff hWithin).1 hStep).eq_of_error rfl

/-- Behind a signature a form is cut off by the end of the data. The cursor goes back in front of
it, and it stays there as a step reaches for more than any data has. From the end it goes back to a
copy there, to the one in front of the form and to the one it came with. -/
theorem performs_before_end :
    let data : Bytes := [0x36, 0x04, 0xE2, 0x82]
    let ops : List Op := [.signature [0x72, 0xB5], .signature [0x36, 0x04], .codePoint,
      .skip 0xFFFFFFFFFFFFFFFF, .save, .unit, .save, .peek, .back 2, .restore, .back 1]
    let last : Session := ⟨⟨data, 2⟩, [⟨data, 4⟩, ⟨data, 2⟩, .ofBytes data]⟩
    data.length < memoryLimit ∧ (∀ op ∈ ops, Fits op) ∧
      performAll (.ofBytes data) ops =
        .ok ([.error .badMagic, .ok .done, .error .shortRead, .error .shortRead, .ok .done,
          .ok (.number 0x82E2), .ok .done, .error .shortRead, .ok .done, .ok .done, .ok .done],
          last) ∧
      last.step .codePoint = (.error .shortRead, last) := by
  intro data ops last
  have hData : data.length < memoryLimit := by decide
  have hFits : ∀ op ∈ ops, Fits op := by
    simp only [ops, List.forall_mem_cons, List.not_mem_nil, false_imp_iff, implies_true, Fits,
      Op.restore, and_true]
    decide
  obtain ⟨hPerform, -, -, -, -, -, hDoes, -⟩ := performs_within_data data ops
  have hLeads : CodePoint.Leads 0xE2 2 2 := ⟨0xE0, 0x10, rfl, by decide, by decide⟩
  have hCut : CodePoint.Unfinished [0xE2, 0x82] :=
    .intro hLeads (by decide) (List.forall_mem_singleton.2 (by decide))
  have hAnswered : Cursor.Answered (data.drop 2) (.error .shortRead) 0 := .short (.inr hCut)
  have hLast : (Session.ofBytes data).steps ops = last := by decide
  have hAnswers : (Session.ofBytes data).answers ops =
      [.error .badMagic, .ok .done, .error .shortRead, .error .shortRead, .ok .done,
        .ok (.number 0x82E2), .ok .done, .error .shortRead, .ok .done, .ok .done, .ok .done] := by
    decide
  have hPerformed := hPerform hData hFits
  rw [hAnswers, hLast] at hPerformed
  rw [hLast] at hDoes
  have hStep : last.step .codePoint = (.error .shortRead, last) :=
    (hDoes _ _ _).2 (.moves (.codePoint hAnswered))
  exact ⟨hData, hFits, hPerformed, hStep⟩

end ConsoleFont.Machine

namespace ConsoleFont.Cursor

open CodePoint

/-- **How a cursor reads a code point**, from any place of any buffer. A form gives its number, a
byte out of place gives the number that stands for none and is taken only if it was to start a form,
and where the data ends too early nothing moves. On bytes in memory the walk from byte to byte does
this in place, and goes back where it has gone too far. Numbers stay below `2 ^ 31`, each of them
has one form of every length that it fits, and the UTF-8 of a text is read as its characters. -/
theorem step_codePoint_iff (before data : Bytes) (saved : List Cursor) :
    let session : Session := ⟨⟨before ++ data, before.length⟩, saved⟩
    (∀ answer after, session.step .codePoint = (answer, after) ↔
      ∃ taken, Answered data answer taken ∧
        after = ⟨⟨before ++ data, before.length + taken⟩, saved⟩) ∧
    ((before ++ data).length < Machine.memoryLimit →
      Machine.perform session .codePoint = .ok (session.step .codePoint)) ∧
    (∀ value bytes, Form value bytes → value < 2 ^ 31) ∧
    (∀ length, Set.BijOn (fun bytes => ((Session.ofBytes bytes).step .codePoint).1)
      {bytes | bytes.length = length ∧ ∃ value, Form value bytes}
      {answer | ∃ value < formLimit length, answer = .ok (.number value)}) ∧
    ∀ (text : String) (rest : Bytes), data = text.toUTF8.data.toList ++ rest →
      let ops := List.replicate text.length Op.codePoint
      session.answers ops = text.toList.map (fun c => .ok (.number c.toNat)) ∧
        session.steps ops =
          ⟨⟨before ++ data, before.length + text.toUTF8.data.toList.length⟩, saved⟩ := by
  intro session
  refine ⟨fun answer after => ⟨?_, ?_⟩, ?_, ?_, Session.bijOn_answer, ?_⟩
  · intro hStep
    obtain ⟨answer', taken, hAnswered⟩ := exists_answered data
    rw [show session.step .codePoint = _ from
      Session.step_codePoint_of_answered before saved hAnswered] at hStep
    cases hStep
    exact ⟨taken, hAnswered, rfl⟩
  · rintro ⟨taken, hAnswered, rfl⟩
    exact Session.step_codePoint_of_answered before saved hAnswered
  · intro hData
    have hPosition : before.length ≤ (before ++ data).length := by
      rw [List.length_append]
      exact Nat.le_add_right ..
    exact Machine.perform_codePoint hData hPosition
  · intro value bytes hForm
    exact Nat.lt_of_lt_of_le hForm.lt_formLimit (formLimit_le _)
  · rintro text rest rfl ops
    have hText := Session.answers_characters before saved text.toList rest
    rw [← Session.toUTF8_eq, Session.between_append] at hText
    exact hText

/-- An overlong `A`, behind it a form of three bytes that a separator breaks off, then the separator
and a form that the end of the data cuts off behind its second byte. -/
theorem step_codePoint_overlong :
    let data : Bytes := [0xC1, 0x81, 0xE2, 0x82, 0xFF, 0xE2, 0x82]
    let session (position : Nat) : Session := ⟨⟨data, position⟩, [.ofBytes data]⟩
    let none : Except Error Answer := .ok (.number invalidCodePoint)
    Form 0x41 [0xC1, 0x81] ∧ 0x41 < 2 ^ 31 ∧
      (session 0).step .codePoint = (.ok (.number 0x41), session 2) ∧
      (session 2).step .codePoint = (none, session 4) ∧
      (session 4).step .codePoint = (none, session 5) ∧
      Machine.perform (session 5) .codePoint = .ok (.error .shortRead, session 5) := by
  intro data session none
  have hLeads : Leads 0xC1 1 1 := ⟨0xC0, 0x20, rfl, by decide, by decide⟩
  have hValue : gathered 1 [0x81] = 0x41 := by decide
  have hForm : Form 0x41 [0xC1, 0x81] := by
    rw [← hValue]
    exact .intro hLeads (List.forall_mem_singleton.2 (by decide))
  have hLeads' : Leads 0xE2 2 2 := ⟨0xE0, 0x10, rfl, by decide, by decide⟩
  have hBegun : Unfinished [0xE2, 0x82] :=
    .intro hLeads' (by decide) (List.forall_mem_singleton.2 (by decide))
  have h (before behind : Bytes) := step_codePoint_iff before behind [.ofBytes data]
  obtain ⟨hCut, hInPlace, -⟩ := h [0xC1, 0x81, 0xE2, 0x82, 0xFF] [0xE2, 0x82]
  refine ⟨hForm, (h [] data).2.2.1 _ _ hForm, ?_, ?_, ?_, ?_⟩
  · exact ((h [] data).1 _ _).2 ⟨2, .form [0xE2, 0x82, 0xFF, 0xE2, 0x82] hForm, rfl⟩
  · exact ((h [0xC1, 0x81] [0xE2, 0x82, 0xFF, 0xE2, 0x82]).1 _ _).2
      ⟨2, .broken [0xE2, 0x82] hBegun (by decide), rfl⟩
  · exact ((h [0xC1, 0x81, 0xE2, 0x82] [0xFF, 0xE2, 0x82]).1 _ _).2
      ⟨1, .stray [0xE2, 0x82] (.inr (.inr rfl)), rfl⟩
  · have hStep : (session 5).step .codePoint = (.error .shortRead, session 5) :=
      (hCut _ _).2 ⟨0, .short (.inr hBegun), rfl⟩
    exact (hInPlace (by decide)).trans (congrArg Except.ok hStep)

end ConsoleFont.Cursor
