import ConsoleFont.Proofs.CodePoints
import ConsoleFont.Proofs.Grammar
import ConsoleFont.Proofs.Machine.Cursor

/-! # Unicode tables read by checked operations

Code points are put together bit by bit, pairs of surrogates by sums, and the lists of a table by a
loop that ends because every token takes a byte (`Loop`). All of it reads what the library reads:
`reads_codePoint`, `reads_token`, `reads_listLoop` and `answers_table`.
-/

namespace ConsoleFont.Machine.Step

open UnicodeTable (Encoding Token)

variable {α β γ δ σ : Type} {head : Head}

/-! ### Code points -/

/-- Reads `more` continuation bytes behind the bits in `value`. A byte that continues nothing stays
unread. -/
def continued : (more value : Nat) → Step (Option Nat)
  | 0, value => return some value
  | more + 1, value => do
    let byte ← peek
    if CodePoint.isContinuation byte then
      skip 1
      let bits ← shiftLeft wordLimit value 6
      continued more (bits ||| byte.toNat &&& 0x3F)
    else return none

def codePoint : Step (Option Nat) := do
  let first ← byte
  match CodePoint.lead? first with
  | some lead => continued lead.more lead.payload
  | none => return none

/-- The bits of a lead byte leave room for six bits from every byte that it asks for. -/
theorem payload_room {byte : UInt8} {lead : CodePoint.Lead} (h : CodePoint.lead? byte = some lead) :
    (lead.payload + 1) * 64 ^ lead.more ≤ wordLimit := by
  obtain ⟨mark, room, hMark, hPayload, _⟩ := CodePoint.leads_of_lead? h
  have hLimit := CodePoint.formLimit_le (lead.more + 1)
  rw [CodePoint.formLimit_succ hMark] at hLimit
  calc (lead.payload + 1) * 64 ^ lead.more
      ≤ room * 64 ^ lead.more := Nat.mul_le_mul_right _ hPayload
    _ ≤ 2 ^ 31 := hLimit
    _ ≤ wordLimit := by decide

theorem or_payload {byte : UInt8} (h : CodePoint.isContinuation byte = true) (value : Nat) :
    value <<< 6 ||| byte.toNat &&& 0x3F = value * 64 + (byte.toNat - 0x80) := by
  have hRange := CodePoint.isContinuation_iff.1 h
  have hBits : byte.toNat &&& 0x3F = byte.toNat - 0x80 := by
    rw [show 0x3F = 2 ^ 6 - 1 from rfl, Nat.and_two_pow_sub_one_eq_mod]
    omega
  have hLt : byte.toNat - 0x80 < 2 ^ 6 := by omega
  rw [hBits, ← Nat.shiftLeft_add_eq_or_of_lt hLt, Nat.shiftLeft_eq]

theorem shiftLeft_of_room {more value : Nat} (h : (value + 1) * 64 ^ (more + 1) ≤ wordLimit) :
    shiftLeft wordLimit value 6 = .ok (value <<< 6) := by
  rw [Nat.pow_succ', ← Nat.mul_assoc] at h
  have hRoom : (value + 1) * 64 ≤ wordLimit :=
    Nat.le_trans (Nat.le_mul_of_pos_right _ (Nat.pow_pos (by decide))) h
  refine shiftLeft_of_lt ?_
  rw [Nat.shiftLeft_eq]
  omega

theorem gathered_room {byte : UInt8} (hByte : CodePoint.isContinuation byte = true)
    {more value : Nat} (h : (value + 1) * 64 ^ (more + 1) ≤ wordLimit) :
    (value * 64 + (byte.toNat - 0x80) + 1) * 64 ^ more ≤ wordLimit := by
  rw [Nat.pow_succ', ← Nat.mul_assoc] at h
  have hRange := CodePoint.isContinuation_iff.1 hByte
  have hGathered : value * 64 + (byte.toNat - 0x80) + 1 ≤ (value + 1) * 64 := by omega
  exact Nat.le_trans (Nat.mul_le_mul_right _ hGathered) h

theorem reads_continued (more : Nat) {value : Nat} (h : (value + 1) * 64 ^ more ≤ wordLimit) :
    (continued more value).Reads (CodePoint.continued more value) := by
  induction more generalizing value with
  | zero => exact fun head => .pure rfl
  | succ more ih =>
    intro head
    refine .peek_bind (fun hEnd => ?_) fun byte behind hRest => ?_
    · rw [hEnd]
      rfl
    · rw [hRest, CodePoint.continued]
      by_cases hByte : CodePoint.isContinuation byte = true
      · rw [if_pos hByte, if_pos hByte]
        refine .skip_one_bind hRest fun after hAfter => .lift_bind (shiftLeft_of_room h) ?_
        rw [or_payload hByte, ← hAfter]
        exact ih (gathered_room hByte h) after
      · rw [if_neg hByte, if_neg hByte]
        exact .pure (by rw [hRest])

theorem reads_codePoint : codePoint.Reads CodePoint.read := by
  intro head
  refine (reads_byte head).bind (fun first after read _ hRead hByte => ?_) fun error hByte => ?_
  · subst hRead
    rw [Reader.byte_eq_ok_iff.1 hByte, CodePoint.read]
    cases hLead : CodePoint.lead? first with
    | none => exact .pure rfl
    | some lead => exact reads_continued lead.more (payload_room hLead) after
  · have hNil := eq_nil_of_byte hByte
    rw [hNil] at hByte ⊢
    cases hByte
    rfl

/-! ### Tokens -/

def pairValue (high low : Nat) : Checked Nat := do
  let top ← sub high 0xD800
  let bits ← shiftLeft wordLimit top 10
  let front ← add wordLimit 0x10000 bits
  let last ← sub low 0xDC00
  add wordLimit front last

/-- Reads the second half of a pair. A unit that is none is left unread. -/
def lowHalf (high : Nat) : Step Token := do
  let save ← get
  let low ← number 2
  if UnicodeTable.isLowSurrogate low then
    let value ← pairValue high low
    return .codePoint (CodePoint.scalar? value)
  else
    seek save.position
    return .codePoint none

def unitToken : Step Token := do
  let unit ← number 2
  if unit = 0xFFFF then return .separator
  else if unit = 0xFFFE then return .startSequence
  else if UnicodeTable.isHighSurrogate unit then lowHalf unit
  else return .codePoint (CodePoint.scalar? unit)

def utf8Token : Step Token := do
  let byte ← peek
  if byte = 0xFF then
    skip 1
    return .separator
  else if byte = 0xFE then
    skip 1
    return .startSequence
  else
    let value ← codePoint
    return .codePoint (value.bind CodePoint.scalar?)

def token : Encoding → Step Token
  | .units => unitToken
  | .utf8 => utf8Token

theorem pairValue_eq {high low : Nat} (hHigh : UnicodeTable.isHighSurrogate high = true)
    (hLow : UnicodeTable.isLowSurrogate low = true) :
    pairValue high low = .ok (UnicodeTable.pairValue high low) := by
  rw [UnicodeTable.isHighSurrogate_iff] at hHigh
  rw [UnicodeTable.isLowSurrogate_iff] at hLow
  have hShift : (high - 0xD800) <<< 10 = (high - 0xD800) * 0x400 := Nat.shiftLeft_eq ..
  have hBits : shiftLeft wordLimit (high - 0xD800) 10 = .ok ((high - 0xD800) * 0x400) := by
    rw [← hShift]
    exact shiftLeft_of_lt (by rw [hShift, wordLimit]; omega)
  rw [pairValue, sub_of_le hHigh.1, ok_bind, hBits, ok_bind,
    add_of_lt (by rw [wordLimit]; omega), ok_bind, sub_of_le hLow.1, ok_bind,
    add_of_lt (by rw [wordLimit]; omega)]
  rfl

theorem reads_lowHalf {high : Nat} (hHigh : UnicodeTable.isHighSurrogate high = true) :
    (lowHalf high).Reads (UnicodeTable.lowHalf high) := by
  intro head
  refine .get_bind ((reads_unit head).bind (fun low after read hData hRead hUnit => ?_)
    fun error hUnit => ?_)
  · subst hRead
    rw [UnicodeTable.lowHalf, hUnit]
    simp only
    split
    · rename_i hLow
      exact .lift_bind (pairValue_eq hHigh hLow) (.pure rfl)
    · -- the head goes back over the unit, to where it stood
      have hBack : head.position ≤ after.data.length := hData ▸ head.position_le
      refine .seek_bind (fun hBehind => absurd hBack (Nat.not_le.2 hBehind)) fun hWithin => ?_
      have hRest : (after.movedTo head.position hWithin).rest = head.rest :=
        congrArg (List.drop head.position) hData
      exact .pure (by rw [hRest])
  · rw [UnicodeTable.lowHalf, hUnit]

theorem reads_unitToken : unitToken.Reads UnicodeTable.unitToken := by
  intro head
  refine (reads_unit head).bind (fun unit after read _ hRead hUnit => ?_) fun error hUnit => ?_
  · subst hRead
    rw [UnicodeTable.unitToken, hUnit]
    simp only
    split
    · exact .pure rfl
    split
    · exact .pure rfl
    split
    · exact reads_lowHalf ‹_› after
    · exact .pure rfl
  · rw [UnicodeTable.unitToken, hUnit]

theorem reads_utf8Token : utf8Token.Reads UnicodeTable.utf8Token := by
  intro head
  refine .peek_bind (fun hEnd => ?_) fun byte behind hRest => ?_
  · rw [hEnd]
    rfl
  · rw [hRest, UnicodeTable.utf8Token]
    split
    · exact .skip_one_bind hRest fun after hAfter => .pure (by rw [hAfter])
    split
    · exact .skip_one_bind hRest fun after hAfter => .pure (by rw [hAfter])
    · rw [← hRest]
      refine (reads_codePoint head).bind (fun value after read _ hRead hCode => ?_)
        fun error hCode => ?_
      · rw [hCode, hRead]
        exact .pure rfl
      · rw [hCode]

theorem reads_token (encoding : Encoding) : (token encoding).Reads encoding.token := by
  cases encoding with
  | units => exact reads_unitToken
  | utf8 => exact reads_utf8Token

/-! ### Loops over the bytes that are left -/

/-- A loop that comes to an end because every round leaves fewer bytes. A round starts from a state,
and comes to the next state or to the value of the loop. -/
structure Loop (σ α : Type) where
  round : σ → Step (σ ⊕ α)
  progress : ∀ s s' head after, (round s).runOn head = .ok (.ok (.inl s', after)) →
    after.remaining < head.remaining

namespace Loop

variable (loop : Loop σ α)

def runFrom (s : σ) (head : Head) : Checked (Except Error (α × Head)) :=
  match _ : (loop.round s).runOn head with
  | .ok (.ok (.inl s', after)) => runFrom s' after
  | .ok (.ok (.inr a, after)) => .ok (.ok (a, after))
  | .ok (.error error) => .ok (.error error)
  | .error fault => .error fault
termination_by head.remaining
decreasing_by exact loop.progress _ _ _ _ ‹_›

def run (s : σ) : Step α := fun head => ExceptT.mk (loop.runFrom s head)

theorem runOn_run (s : σ) (head : Head) :
    (loop.run s).runOn head = (loop.round s >>= Sum.elim loop.run pure).runOn head := by
  show loop.runFrom s head = _
  rw [runFrom, runOn_bind]
  split
  all_goals
    rename_i hRound
    exact hRound ▸ rfl

end Loop

/-! ### The list of a glyph -/

def tableError : Error → Error
  | .shortRead => .shortUnicodeTable
  | error => error

/-- What a token makes of the entries and the open sequence before it: there is more to come, or the
list is complete. -/
def accept (position : Nat) (entries : List Entry) (sequence : Option (List Char)) :
    Token → Except Error ((List Entry × Option (List Char)) ⊕ List Entry)
  | .separator => (UnicodeTable.finish position entries sequence).map .inr
  | .startSequence =>
    (UnicodeTable.finish position entries sequence).map fun entries => .inl (entries, some [])
  | .codePoint none => .error (.invalidCodePoint position)
  | .codePoint (some character) =>
    .ok (.inl (UnicodeTable.place position character entries sequence))

def listToken (encoding : Encoding) (position : Nat) (before : List Entry × Option (List Char)) :
    Step ((List Entry × Option (List Char)) ⊕ List Entry) := do
  let token ← (token encoding).mapError tableError
  accept position before.1 before.2 token

theorem runOn_lift (result : Except Error α) (head : Head) :
    (liftM result : Step α).runOn head = .ok (result.map fun a => (a, head)) := by
  cases result <;> rfl

theorem Refines.lift (result : Except Error α) (head : Head) :
    (liftM result : Step α).Refines (fun a after c => c = a ∧ after = head) head result := by
  cases result with
  | error error => exact .throw error
  | ok a => exact .pure ⟨rfl, rfl⟩

theorem remaining_lt_of_listToken (encoding : Encoding) (position : Nat)
    (before behind : List Entry × Option (List Char)) (head after : Head)
    (h : (listToken encoding position before).runOn head = .ok (.ok (.inl behind, after))) :
    after.remaining < head.remaining := by
  rw [listToken, runOn_bind] at h
  cases reads_token encoding head with
  | error error hRun hRead =>
    rw [runOn_mapError, hRun] at h
    cases h
  | ok token last read hRun hRead hData hRest =>
    rw [runOn_mapError, hRun] at h
    have hLast : after = last := by
      simp only [Except.map, Except.mapError, runOn_lift] at h
      cases hAccept : accept position before.1 before.2 token with
      | error error => rw [hAccept] at h; cases h
      | ok _ => rw [hAccept] at h; cases h; rfl
    subst hLast hRest
    rw [← head.length_rest, ← after.length_rest]
    exact UnicodeTable.length_lt_of_token hRead

/-- Reads the rest of one glyph's list, behind the entries and the open sequence that are there
already. -/
def listLoop (encoding : Encoding) (position : Nat) :
    Loop (List Entry × Option (List Char)) (List Entry) where
  round := listToken encoding position
  progress := remaining_lt_of_listToken encoding position

theorem entryList_eq_accept (encoding : Encoding) (position : Nat) (entries : List Entry)
    (sequence : Option (List Char)) (data : Bytes) :
    UnicodeTable.entryList encoding position entries sequence data =
      match encoding.token data with
      | .error _ => .error .shortUnicodeTable
      | .ok (token, rest) =>
        match accept position entries sequence token with
        | .error error => .error error
        | .ok (.inl (entries, sequence)) =>
          UnicodeTable.entryList encoding position entries sequence rest
        | .ok (.inr entries) => .ok (entries, rest) := by
  rw [UnicodeTable.entryList_eq]
  rcases encoding.token data with error | ⟨token, rest⟩
  · rfl
  cases token with
  | separator =>
    simp only [accept]
    cases UnicodeTable.finish position entries sequence <;> rfl
  | startSequence =>
    simp only [accept]
    cases UnicodeTable.finish position entries sequence <;> rfl
  | codePoint character => cases character <;> rfl

theorem eq_shortRead_of_token {encoding : Encoding} {data : Bytes} {error : Error}
    (h : encoding.token data = .error error) : error = .shortRead := by
  cases UnicodeTable.reads_of_token h with
  | cut hCut =>
    rw [UnicodeTable.token_of_cut hCut] at h
    cases h
    rfl

theorem reads_listLoop (encoding : Encoding) (position : Nat) (entries : List Entry)
    (sequence : Option (List Char)) :
    ((listLoop encoding position).run (entries, sequence)).Reads
      (UnicodeTable.entryList encoding position entries sequence) := by
  intro head
  -- every token takes bytes, so the induction is on what is left, with any entries read by then
  induction hLeft : head.remaining using Nat.strong_induction_on
    generalizing entries sequence head with
  | _ left ih =>
    refine Refines.of_runOn_eq ?_ (Loop.runOn_run _ _ head)
    rw [entryList_eq_accept]
    simp only [listLoop, listToken, bind_assoc]
    cases reads_token encoding head with
    | error error hRun hRead =>
      cases eq_shortRead_of_token hRead
      rw [hRead]
      exact .error .shortUnicodeTable (by rw [runOn_bind, runOn_mapError, hRun]; rfl) rfl
    | ok token after read hRun hRead hData hRest =>
      subst hRest
      rw [hRead]
      have hLess : after.remaining < left := by
        rw [← hLeft, ← head.length_rest, ← after.length_rest]
        exact UnicodeTable.length_lt_of_token hRead
      refine .bind_of_runOn (by rw [runOn_mapError, hRun]; rfl) hData ?_
      refine (Refines.lift _ after).bind (fun next last c _ hNext hAccept => ?_)
        fun error hAccept => ?_
      · obtain ⟨rfl, rfl⟩ := hNext
        simp only [hAccept]
        cases c with
        | inl behind => exact ih _ hLess behind.1 behind.2 last rfl
        | inr entries => exact .pure rfl
      · simp only [hAccept]

/-! ### Tables -/

def entryLists (encoding : Encoding) : (count position : Nat) → List Entry → Step (List Entry)
  | 0, _, entries => return entries
  | count + 1, position, entries => do
    let entries ← (listLoop encoding position).run (entries, none)
    let next ← add wordLimit position 1
    entryLists encoding count next entries

def table (present : Bool) (encoding : Encoding) (count : Nat) : Step (List Entry) := do
  if present then
    let entries ← entryLists encoding count 0 []
    let head ← get
    refuseIf (head.atEnd = false) .trailingGarbage
    return entries.reverse
  else return []

theorem reads_entryLists (encoding : Encoding) {count position : Nat} (entries : List Entry)
    (h : position + count < wordLimit) :
    (entryLists encoding count position entries).Reads
      (UnicodeTable.entryLists encoding count position entries) := by
  induction count generalizing position entries with
  | zero => exact fun head => .pure rfl
  | succ count ih =>
    intro head
    rw [UnicodeTable.entryLists]
    refine (reads_listLoop encoding position entries none head).bind
      (fun entries after read _ hRead hList => ?_) fun error hList => ?_
    · rw [hList, hRead]
      have hNext : position + 1 + count < wordLimit := by omega
      exact .lift_bind (add_of_lt (by omega)) (ih entries hNext after)
    · rw [hList]

theorem answers_table (present : Bool) (encoding : Encoding) {count : Nat} (h : count < wordLimit)
    (head : Head) :
    (table present encoding count).Answers head
      (UnicodeTable.decodeIf present encoding count head.rest) := by
  rw [table, UnicodeTable.decodeIf]
  split
  · rw [UnicodeTable.decodeAll, UnicodeTable.decode]
    refine (reads_entryLists encoding [] (by omega) head).bind
      (fun entries after read _ hRead hLists => ?_) fun error hLists => ?_
    · rw [hLists, hRead]
      have hLeft : after.atEnd = after.rest.isEmpty := by
        rw [Cursor.atEnd, ← after.length_rest]
        cases after.rest <;> rfl
      cases hRest : after.rest with
      | nil =>
        have hEnd : after.atEnd = true := by rw [hLeft, hRest]; rfl
        refine .get_bind (.refuseIf_bind (fun hMore => ?_) fun _ => .pure rfl)
        rw [hEnd] at hMore
        cases hMore
      | cons byte behind =>
        have hMore : after.atEnd = false := by rw [hLeft, hRest]; rfl
        exact .get_bind (.refuseIf_bind (fun _ => rfl) fun hEnd => absurd hMore hEnd)
    · rw [hLists]
  · exact .pure rfl

end ConsoleFont.Machine.Step
