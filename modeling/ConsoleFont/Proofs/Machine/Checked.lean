import ConsoleFont.Bytes.Basic

/-! # Operations that notice what goes wrong

The numbers of a machine end somewhere, and its byte strings have bounds. Here every operation says
so where it would leave them: it is a `Fault`, and no value is made up. A program that is written
with these operations and never comes to a fault has all its operations where they mean what they
mean for the numbers without end.

For each operation there is the condition under which it is what it should be.
-/

namespace ConsoleFont.Machine

/-- What no program should come to. -/
inductive Fault
  | outOfBounds
  | underflow
  | overflow
  | divisionByZero
  | assertion
  /-- There is more data than a size can tell. -/
  | outOfMemory
  deriving DecidableEq, Repr

abbrev Checked := Except Fault

/-- Sizes and positions stay below this. -/
def sizeLimit : Nat := 0x10000000000000000

def add (limit a b : Nat) : Checked Nat :=
  if a + b < limit then .ok (a + b) else .error .overflow

def sub (a b : Nat) : Checked Nat :=
  if b ≤ a then .ok (a - b) else .error .underflow

def mul (limit a b : Nat) : Checked Nat :=
  if a * b < limit then .ok (a * b) else .error .overflow

def div (a b : Nat) : Checked Nat :=
  if b = 0 then .error .divisionByZero else .ok (a / b)

/-- The bits moved up, none of them out of a number below `limit`. -/
def shiftLeft (limit a bits : Nat) : Checked Nat :=
  if a <<< bits < limit then .ok (a <<< bits) else .error .overflow

def slice (data : Bytes) (start stop : Nat) : Checked Bytes :=
  if start ≤ stop ∧ stop ≤ data.length then .ok ((data.drop start).take (stop - start))
  else .error .outOfBounds

def assert (p : Prop) [Decidable p] : Checked Unit :=
  if p then .ok () else .error .assertion

variable {limit a b : Nat}

theorem add_of_lt (h : a + b < limit) : add limit a b = .ok (a + b) := if_pos h

theorem eq_of_add {c : Nat} (h : add limit a b = .ok c) : c = a + b := by
  unfold add at h
  split at h
  · exact (Except.ok.inj h).symm
  · cases h

theorem add_of_le (h : limit ≤ a + b) : add limit a b = .error .overflow :=
  if_neg (Nat.not_lt.2 h)

theorem sub_of_le (h : b ≤ a) : sub a b = .ok (a - b) := if_pos h

theorem mul_of_lt (h : a * b < limit) : mul limit a b = .ok (a * b) := if_pos h

theorem mul_of_le (h : limit ≤ a * b) : mul limit a b = .error .overflow :=
  if_neg (Nat.not_lt.2 h)

theorem div_of_pos (h : 0 < b) : div a b = .ok (a / b) := if_neg (Nat.pos_iff_ne_zero.1 h)

theorem shiftLeft_of_lt {bits : Nat} (h : a <<< bits < limit) :
    shiftLeft limit a bits = .ok (a <<< bits) := if_pos h

theorem slice_of_le {data : Bytes} {start stop : Nat} (h : start ≤ stop)
    (hStop : stop ≤ data.length) :
    slice data start stop = .ok ((data.drop start).take (stop - start)) := if_pos ⟨h, hStop⟩

theorem length_of_slice {data piece : Bytes} {start stop : Nat}
    (h : slice data start stop = .ok piece) : start + piece.length = stop ∧ stop ≤ data.length := by
  unfold slice at h
  split at h
  · rename_i hWithin
    cases h
    rw [List.length_take, List.length_drop]
    omega
  · cases h

theorem slice_to_end {data : Bytes} {start : Nat} (h : start ≤ data.length) :
    slice data start data.length = .ok (data.drop start) := by
  rw [slice_of_le h (Nat.le_refl _), ← List.length_drop, List.take_length]

theorem assert_of {p : Prop} [Decidable p] (h : p) : assert p = .ok () := if_pos h

theorem mul_lt_sizeLimit (ha : a < wordLimit) (hb : b < wordLimit) : a * b < sizeLimit :=
  Nat.mul_lt_mul'' ha hb

end ConsoleFont.Machine
