import ConsoleFont.Bytes.Cursor
import ConsoleFont.Proofs.Words
import ConsoleFont.Proofs.Machine.Checked

/-! # A cursor made of checked operations

The steps of a cursor once more, down to their sums, slices and shifts, each of them checked. A
`Head` is a cursor that stands within bytes that fit the memory, and a `Step` is a program that
moves one: it comes to a value, or it fails, or it comes to a fault.

`Step.Refines` compares a step with what a reader comes to, and says that there is no fault. It has
one rule for each way to put steps together. `Step.Reads` is the case where the step and the reader
take the same bytes, and each step of a cursor reads what the reader of its name reads.
-/

namespace ConsoleFont.Machine

/-- A cursor within bytes that fit the memory. -/
structure Head extends Cursor where
  length_lt : data.length < sizeLimit
  position_le : position ≤ data.length

namespace Head

def movedTo (head : Head) (position : Nat) (h : position ≤ head.data.length) : Head :=
  ⟨⟨head.data, position⟩, head.length_lt, h⟩

variable {head : Head}

theorem length_rest (head : Head) : head.rest.length = head.remaining := List.length_drop

theorem rest_eq_data (head : Head) (h : head.position = 0) : head.rest = head.data := by
  rw [Cursor.rest, h, List.drop_zero]

theorem position_add_le {count : Nat} (h : count ≤ head.remaining) :
    head.position + count ≤ head.data.length :=
  Nat.add_le_of_le_sub' head.position_le h

theorem rest_movedTo {count : Nat} (h : head.position + count ≤ head.data.length) :
    (head.movedTo (head.position + count) h).rest = head.rest.drop count :=
  List.drop_drop.symm

end Head

/-- A program that moves a head. -/
abbrev Step := StateT Head (ExceptT Error Checked)

namespace Step

variable {α β γ δ : Type}

def runOn (step : Step α) (head : Head) : Checked (Except Error (α × Head)) :=
  (step.run head).run

theorem runOn_bind (step : Step α) (next : α → Step β) (head : Head) :
    (step >>= next).runOn head =
      match step.runOn head with
      | .ok (.ok (a, head)) => (next a).runOn head
      | .ok (.error error) => .ok (.error error)
      | .error fault => .error fault := by
  simp only [runOn, StateT.run_bind, ExceptT.run_bind]
  rcases (step.run head).run with fault | ⟨error | ⟨a, after⟩⟩
  · rfl
  · rfl
  · rfl

def refuseIf (p : Prop) [Decidable p] (error : Error) : Step Unit :=
  if p then throw error else pure ()

/-- Sets the position, which has to lie in the data. -/
def moveTo (position : Nat) : Step Unit := fun head => ExceptT.mk <|
  if h : position ≤ head.data.length then .ok (.ok ((), head.movedTo position h))
  else .error .outOfBounds

/-- The step comes to no fault. Where it comes to a value, the outcome is one that goes with it, and
where it fails, the outcome is the same failure. -/
inductive Refines (R : α → Head → γ → Prop) (step : Step α) (head : Head)
    (outcome : Except Error γ) : Prop
  | ok (a : α) (after : Head) (c : γ) : step.runOn head = .ok (.ok (a, after)) →
      outcome = .ok c → after.data = head.data → R a after c → Refines R step head outcome
  | error (error : Error) : step.runOn head = .ok (.error error) → outcome = .error error →
      Refines R step head outcome

/-- The step takes what the reader takes. -/
def Reads (step : Step α) (reader : Reader α) : Prop :=
  ∀ head, step.Refines (fun a after read => read = (a, after.rest)) head (reader head.rest)

/-- The step comes to what is expected, wherever it leaves the head. -/
def Answers (step : Step α) (head : Head) (outcome : Except Error α) : Prop :=
  step.Refines (fun a _ b => b = a) head outcome

/-! ### One rule for each way to put steps together -/

namespace Refines

variable {R : α → Head → γ → Prop} {Q : β → Head → δ → Prop} {step : Step α} {next : α → Step β}
  {head : Head} {outcome : Except Error δ}

theorem pure {a : α} {c : γ} (h : R a head c) : (Pure.pure a : Step α).Refines R head (.ok c) :=
  .ok a head c rfl rfl rfl h

theorem throw (error : Error) : (throw error : Step α).Refines R head (.error error) :=
  .error error rfl rfl

theorem bind_of_runOn {a : α} {after : Head} (hRun : step.runOn head = .ok (.ok (a, after)))
    (hData : after.data = head.data) (h : (next a).Refines Q after outcome) :
    (step >>= next).Refines Q head outcome := by
  cases h with
  | ok b last d hNext hOutcome hLast hQ =>
    exact .ok b last d (by rw [runOn_bind, hRun]; exact hNext) hOutcome (hLast.trans hData) hQ
  | error error hNext hOutcome =>
    exact .error error (by rw [runOn_bind, hRun]; exact hNext) hOutcome

/-- What comes behind a step is compared with what comes behind the step's own outcome, which may
be known to be a value there. -/
theorem bind {first : Except Error γ} (hStep : step.Refines R head first)
    (hOk : ∀ a after c, after.data = head.data → R a after c → first = .ok c →
      (next a).Refines Q after outcome)
    (hError : ∀ error, first = .error error → outcome = .error error) :
    (step >>= next).Refines Q head outcome := by
  cases hStep with
  | ok a after c hRun hFirst hData hR =>
    exact bind_of_runOn hRun hData (hOk a after c hData hR hFirst)
  | error error hRun hFirst =>
    exact .error error (by rw [runOn_bind, hRun]) (hError error hFirst)

theorem bind_ok {c : γ} (hStep : step.Refines R head (.ok c))
    (hNext : ∀ a after, after.data = head.data → R a after c → (next a).Refines Q after outcome) :
    (step >>= next).Refines Q head outcome := by
  refine hStep.bind (fun a after c' hData hR hOk => ?_) fun error hError => ?_
  · cases hOk
    exact hNext a after hData hR
  · cases hError

/-- A reader in front of others, beside a step in front of others. -/
theorem bind_read {first : Except Error (α × Bytes)} {behind : α × Bytes → Except Error δ}
    (h : step.Refines (fun a after read => read = (a, after.rest)) head first)
    (hNext : ∀ a (after : Head), after.data = head.data → first = .ok (a, after.rest) →
      (next a).Refines Q after (behind (a, after.rest))) :
    (step >>= next).Refines Q head (first >>= behind) := by
  refine h.bind (fun a after read hData hRead hFirst => ?_) fun error hFirst => ?_
  · rw [hRead] at hFirst
    rw [hFirst]
    exact hNext a after hData hFirst
  · rw [hFirst]
    rfl

theorem bind_answer {first : Except Error α} {behind : α → Except Error δ}
    (h : step.Refines (fun a _ b => b = a) head first)
    (hNext : ∀ a (after : Head), after.data = head.data → first = .ok a →
      (next a).Refines Q after (behind a)) :
    (step >>= next).Refines Q head (first >>= behind) := by
  refine h.bind (fun a after b hData hAnswer hFirst => ?_) fun error hFirst => ?_
  · rw [hAnswer] at hFirst
    rw [hFirst]
    exact hNext a after hData hFirst
  · rw [hFirst]
    rfl

theorem of_runOn_eq {other last : Step β} (h : other.Refines Q head outcome)
    (hRun : last.runOn head = other.runOn head) : last.Refines Q head outcome := by
  cases h with
  | ok b after d hOther hOutcome hData hQ =>
    exact .ok b after d (hRun.trans hOther) hOutcome hData hQ
  | error error hOther hOutcome => exact .error error (hRun.trans hOther) hOutcome

theorem get_bind {next : Head → Step β} (h : (next head).Refines Q head outcome) :
    (get >>= next).Refines Q head outcome :=
  h.of_runOn_eq rfl

theorem lift_bind {checked : Checked α} {a : α} (hChecked : checked = .ok a)
    (h : (next a).Refines Q head outcome) : (liftM checked >>= next).Refines Q head outcome := by
  subst hChecked
  exact h

theorem checked {checked : Checked α} {R : α → Head → γ → Prop} {a : α} {c : γ}
    (hChecked : checked = .ok a) (h : R a head c) :
    (liftM checked : Step α).Refines R head (.ok c) := by
  subst hChecked
  exact .pure h

theorem refuseIf_bind {p : Prop} [Decidable p] {error : Error} {next : Unit → Step β}
    (hRefused : p → outcome = .error error) (h : ¬ p → (next ()).Refines Q head outcome) :
    (Step.refuseIf p error >>= next).Refines Q head outcome := by
  by_cases hp : p
  · rw [Step.refuseIf, if_pos hp, hRefused hp]
    exact .throw error
  · rw [Step.refuseIf, if_neg hp]
    exact h hp

theorem refuseIf {p : Prop} [Decidable p] {error : Error} {R : Unit → Head → γ → Prop} {c : γ}
    {outcome : Except Error γ} (hRefused : p → outcome = .error error)
    (h : ¬ p → outcome = .ok c) (hR : R () head c) :
    (Step.refuseIf p error).Refines R head outcome := by
  by_cases hp : p
  · rw [Step.refuseIf, if_pos hp, hRefused hp]
    exact .throw error
  · rw [Step.refuseIf, if_neg hp, h hp]
    exact .pure hR

theorem moveTo {R : Unit → Head → γ → Prop} {c : γ} {position : Nat}
    (h : position ≤ head.data.length) (hR : R () (head.movedTo position h) c) :
    (moveTo position).Refines R head (.ok c) :=
  .ok () _ c (dif_pos h) rfl rfl hR

theorem moveTo_bind {next : Unit → Step β} {position : Nat} (h : position ≤ head.data.length)
    (hNext : (next ()).Refines Q (head.movedTo position h) outcome) :
    (Step.moveTo position >>= next).Refines Q head outcome :=
  bind_of_runOn (dif_pos h) rfl hNext

end Refines

/-! ### The steps of a cursor -/

def ensure (count : Nat) : Step Unit := do
  let head ← get
  refuseIf (head.remaining < count) .shortRead

def seek (position : Nat) : Step Unit := do
  let head ← get
  refuseIf (head.length < position) .shortRead
  moveTo position

def skip (count : Nat) : Step Unit := do
  ensure count
  let head ← get
  let stop ← add sizeLimit head.position count
  moveTo stop

def take (count : Nat) : Step Bytes := do
  ensure count
  let head ← get
  let stop ← add sizeLimit head.position count
  let piece ← slice head.data head.position stop
  moveTo stop
  return piece

def peek : Step UInt8 := do
  let head ← get
  match head.data[head.position]? with
  | some byte => return byte
  | none => throw .shortRead

def littleEndian : Bytes → Nat
  | [] => 0
  | byte :: rest => byte.toNat + 256 * littleEndian rest

def number (size : Nat) : Step Nat := do
  let piece ← take size
  return littleEndian piece

def byte : Step UInt8 := do
  let n ← number 1
  return UInt8.ofNat n

def signature (expected : Bytes) : Step Unit := do
  let head ← get
  let stop ← add sizeLimit head.position expected.length
  refuseIf (head.data.slice? head.position expected.length ≠ some expected) .badMagic
  moveTo stop

/-! ### What they read -/

variable {head : Head} {count : Nat}

theorem Refines.ensure_bind {Q : β → Head → δ → Prop} {next : Unit → Step β}
    {outcome : Except Error δ} (hShort : head.remaining < count → outcome = .error .shortRead)
    (h : count ≤ head.remaining → (next ()).Refines Q head outcome) :
    (ensure count >>= next).Refines Q head outcome :=
  (refuseIf_bind hShort fun hLeft => h (Nat.not_lt.1 hLeft)).of_runOn_eq rfl

theorem add_position (h : count ≤ head.remaining) :
    add sizeLimit head.position count = .ok (head.position + count) :=
  add_of_lt (Nat.lt_of_le_of_lt (head.position_add_le h) head.length_lt)

theorem runOn_seek {position : Nat} (h : position ≤ head.data.length) :
    (seek position).runOn head = .ok (.ok ((), head.movedTo position h)) := by
  have hWithin : refuseIf (head.length < position) .shortRead = pure () := if_neg (Nat.not_lt.2 h)
  show (refuseIf (head.length < position) .shortRead >>= fun _ => moveTo position).runOn head = _
  rw [hWithin, pure_bind]
  exact dif_pos h

theorem Refines.seek_bind {Q : β → Head → δ → Prop} {next : Unit → Step β}
    {outcome : Except Error δ} {position : Nat}
    (hBehind : head.data.length < position → outcome = .error .shortRead)
    (h : ∀ hWithin : position ≤ head.data.length,
      (next ()).Refines Q (head.movedTo position hWithin) outcome) :
    (seek position >>= next).Refines Q head outcome := by
  rw [seek, bind_assoc]
  simp only [bind_assoc]
  exact .get_bind (.refuseIf_bind hBehind fun hWithin =>
    .moveTo_bind (Nat.not_lt.1 hWithin) (h (Nat.not_lt.1 hWithin)))

theorem reads_skip (count : Nat) : (skip count).Reads (Reader.skip count) := by
  intro head
  refine .ensure_bind (fun hShort => ?_) fun hLeft => ?_
  · rw [Reader.skip, head.length_rest, if_neg (Nat.not_le.2 hShort)]
  · have hStop := head.position_add_le hLeft
    rw [Reader.skip, head.length_rest, if_pos hLeft, ← head.rest_movedTo hStop]
    exact .get_bind (.lift_bind (add_position hLeft) (.moveTo hStop rfl))

theorem reads_take (count : Nat) : (take count).Reads (Reader.take count) := by
  intro head
  refine .ensure_bind (fun hShort => ?_) fun hLeft => ?_
  · rw [Reader.take, head.length_rest, if_neg (Nat.not_le.2 hShort)]
  · have hStop := head.position_add_le hLeft
    have hSlice : slice head.data head.position (head.position + count) =
        .ok (head.rest.take count) := by
      rw [slice_of_le (Nat.le_add_right ..) hStop, Nat.add_sub_cancel_left]
      rfl
    rw [Reader.take, head.length_rest, if_pos hLeft, ← head.rest_movedTo hStop]
    refine .get_bind (.lift_bind (add_position hLeft) (.lift_bind hSlice ?_))
    exact .moveTo_bind hStop (.pure rfl)

theorem runOn_peek (head : Head) :
    peek.runOn head =
      match head.rest with
      | [] => .ok (.error .shortRead)
      | byte :: _ => .ok (.ok (byte, head)) := by
  have hNext : head.data[head.position]? = head.rest[0]? := by
    rw [Cursor.rest, List.getElem?_drop, Nat.add_zero]
  show Step.runOn (match head.data[head.position]? with
    | some byte => pure byte
    | none => throw .shortRead) head = _
  rw [hNext]
  cases head.rest <;> rfl

theorem Refines.peek_bind {Q : β → Head → δ → Prop} {next : UInt8 → Step β}
    {outcome : Except Error δ} (hEnd : head.rest = [] → outcome = .error .shortRead)
    (h : ∀ byte behind, head.rest = byte :: behind → (next byte).Refines Q head outcome) :
    (peek >>= next).Refines Q head outcome := by
  have hPeek := runOn_peek head
  cases hRest : head.rest with
  | nil =>
    rw [hRest] at hPeek
    exact .error .shortRead (by rw [runOn_bind, hPeek]) (hEnd hRest)
  | cons byte behind =>
    rw [hRest] at hPeek
    exact bind_of_runOn hPeek rfl (h byte behind hRest)

theorem Refines.skip_bind {Q : β → Head → δ → Prop} {next : Unit → Step β}
    {outcome : Except Error δ} (hCount : count ≤ head.rest.length)
    (h : ∀ after : Head, after.data = head.data → after.rest = head.rest.drop count →
      (next ()).Refines Q after outcome) :
    (skip count >>= next).Refines Q head outcome := by
  have hSkip := reads_skip count head
  rw [Reader.skip, if_pos hCount] at hSkip
  exact hSkip.bind_ok fun _ after hData hRead => h after hData (Prod.mk.inj hRead).2.symm

theorem Refines.skip_one_bind {Q : β → Head → δ → Prop} {next : Unit → Step β}
    {outcome : Except Error δ} {byte : UInt8} {behind : Bytes} (hRest : head.rest = byte :: behind)
    (h : ∀ after : Head, after.rest = behind → (next ()).Refines Q after outcome) :
    (skip 1 >>= next).Refines Q head outcome := by
  refine .skip_bind (by simp [hRest]) fun after _ hAfter => h after ?_
  rw [hAfter, hRest]
  rfl

theorem Reads.map {step : Step α} {reader : Reader α} (h : step.Reads reader) (f : α → β) :
    (do let a ← step; return f a : Step β).Reads
      fun data => (reader data).map fun read => (f read.1, read.2) := by
  intro head
  refine (h head).bind (fun a after read _ hRead hReader => ?_) fun error hReader => ?_
  · simp only [hReader, hRead]
    exact .pure rfl
  · simp only [hReader, Except.map]

theorem unit_eq_map_take (data : Bytes) : Reader.unit data =
    (Reader.take 2 data).map fun read => (littleEndian read.1, read.2) := by
  match data with
  | [] => rfl
  | [_] => rfl
  | a :: b :: rest =>
    have hNumber : littleEndian [a, b] = a.toNat + b.toNat * 256 := by
      simp only [littleEndian]
      omega
    simp [Reader.unit, Reader.take, Except.map, hNumber]

theorem word_eq_map_take (data : Bytes) : Reader.word data =
    (Reader.take 4 data).map fun read => (littleEndian read.1, read.2) := by
  match data with
  | [] => rfl
  | [_] => rfl
  | [_, _] => rfl
  | [_, _, _] => rfl
  | a :: b :: c :: d :: rest =>
    have hNumber : littleEndian [a, b, c, d] =
        a.toNat + b.toNat * 256 + c.toNat * 65536 + d.toNat * 16777216 := by
      simp only [littleEndian]
      omega
    simp [Reader.word, Reader.take, Except.map, hNumber]

theorem byte_eq_map_take (data : Bytes) : Reader.byte data =
    ((Reader.take 1 data).map fun read => (littleEndian read.1, read.2)).map
      fun read => (UInt8.ofNat read.1, read.2) := by
  match data with
  | [] => rfl
  | b :: rest => simp [Reader.byte, Reader.take, Except.map, littleEndian]

theorem reads_byte : byte.Reads Reader.byte := by
  rw [funext byte_eq_map_take]
  exact ((reads_take 1).map littleEndian).map UInt8.ofNat

theorem eq_nil_of_byte {data : Bytes} {error : Error} (h : Reader.byte data = .error error) :
    data = [] := by
  cases data with
  | nil => rfl
  | cons first behind => cases h

theorem reads_unit : (number 2).Reads Reader.unit := by
  rw [funext unit_eq_map_take]
  exact (reads_take 2).map littleEndian

theorem reads_word : (number 4).Reads Reader.word := by
  rw [funext word_eq_map_take]
  exact (reads_take 4).map littleEndian

theorem slice?_eq_some_self_iff {expected : Bytes} (head : Head) :
    head.data.slice? head.position expected.length = some expected ↔ expected <+: head.rest := by
  rw [Bytes.slice?_eq_some_iff, List.prefix_iff_eq_take]
  refine ⟨fun h => h.2, fun h => ⟨head.position_add_le ?_, h⟩⟩
  have hLength := congrArg List.length h
  rw [List.length_take, head.length_rest] at hLength
  omega

theorem refines_signature (hStart : head.position = 0) {expected : Bytes}
    (h : expected.length < sizeLimit) :
    (signature expected).Refines (fun _ after read => read = ((), after.rest)) head
      (Reader.signature expected head.data) := by
  have hSum : head.position + expected.length < sizeLimit := by rwa [hStart, Nat.zero_add]
  rw [← head.rest_eq_data hStart]
  refine .get_bind <| .lift_bind (add_of_lt hSum) <|
    .refuseIf_bind (fun hOther => ?_) fun hSigned => ?_
  · exact Reader.signature_eq_badMagic fun hPrefix =>
      hOther ((slice?_eq_some_self_iff head).2 hPrefix)
  · have hSlice := Decidable.not_not.1 hSigned
    have hStop := (Bytes.slice?_eq_some_iff.1 hSlice).1
    have hPrefix := (slice?_eq_some_self_iff head).1 hSlice
    rw [Reader.signature, if_pos (List.isPrefixOf_iff_prefix.2 hPrefix), ← head.rest_movedTo hStop]
    exact .moveTo hStop rfl

/-! ### Steps that are gone on from where they failed -/

/-- The value or the failure of a step. A step that fails leaves the head where it was. -/
def attempt (step : Step α) : Step (Except Error α) := fun head => ExceptT.mk <|
  match step.runOn head with
  | .ok (.ok (a, after)) => .ok (.ok (.ok a, after))
  | .ok (.error error) => .ok (.ok (.error error, head))
  | .error fault => .error fault

theorem runOn_attempt (step : Step α) (head : Head) :
    (attempt step).runOn head =
      match step.runOn head with
      | .ok (.ok (a, after)) => .ok (.ok (.ok a, after))
      | .ok (.error error) => .ok (.ok (.error error, head))
      | .error fault => .error fault :=
  rfl

def mapError (f : Error → Error) (step : Step α) : Step α := fun head => ExceptT.mk <|
  (step.runOn head).map fun outcome => outcome.mapError f

theorem runOn_mapError (f : Error → Error) (step : Step α) (head : Head) :
    (step.mapError f).runOn head = (step.runOn head).map fun outcome => outcome.mapError f :=
  rfl

namespace Refines

variable {R : α → Head → γ → Prop} {Q : β → Head → δ → Prop} {step : Step α}

theorem attempt_bind {first : Except Error γ} {outcome : Except Error δ}
    {next : Except Error α → Step β} (hStep : step.Refines R head first)
    (hOk : ∀ a after c, after.data = head.data → R a after c → first = .ok c →
      (next (.ok a)).Refines Q after outcome)
    (hError : ∀ error, first = .error error → (next (.error error)).Refines Q head outcome) :
    (attempt step >>= next).Refines Q head outcome := by
  cases hStep with
  | ok a after c hRun hFirst hData hR =>
    exact bind_of_runOn (by rw [runOn_attempt, hRun]) hData (hOk a after c hData hR hFirst)
  | error error hRun hFirst =>
    exact bind_of_runOn (by rw [runOn_attempt, hRun]) rfl (hError error hFirst)

theorem mapError {outcome : Except Error γ} (f : Error → Error) (h : step.Refines R head outcome) :
    (step.mapError f).Refines R head (outcome.mapError f) := by
  cases h with
  | ok a after c hRun hOutcome hData hR =>
    exact .ok a after c (congrArg (Except.map _) hRun) (congrArg (Except.mapError f) hOutcome) hData
      hR
  | error error hRun hOutcome =>
    exact .error (f error) (congrArg (Except.map _) hRun) (congrArg (Except.mapError f) hOutcome)

end Refines

end Step

end ConsoleFont.Machine
