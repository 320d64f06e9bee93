import ConsoleFont.Bytes.Basic

/-! # Showing bytes as text

Font names are bytes, and messages are text. A name is shown as UTF-8. Where it is ill-formed,
each maximal subpart of a well-formed sequence, and each byte that starts none, is shown as one
replacement character.
-/

namespace ConsoleFont.Lossy

/-- What a lead byte of well-formed UTF-8 asks for: the bounds of the second byte, how many plain
continuation bytes come behind it, and the bits that the lead byte itself carries. -/
structure Lead where
  low : Nat
  high : Nat
  more : Nat
  payload : Nat

def lead? (byte : UInt8) : Option Lead :=
  let b := byte.toNat
  if b < 0xC2 then none
  else if b < 0xE0 then some ⟨0x80, 0xBF, 0, b - 0xC0⟩
  else if b = 0xE0 then some ⟨0xA0, 0xBF, 1, 0⟩
  else if b = 0xED then some ⟨0x80, 0x9F, 1, 0xD⟩
  else if b < 0xF0 then some ⟨0x80, 0xBF, 1, b - 0xE0⟩
  else if b = 0xF0 then some ⟨0x90, 0xBF, 2, 0⟩
  else if b < 0xF4 then some ⟨0x80, 0xBF, 2, b - 0xF0⟩
  else if b = 0xF4 then some ⟨0x80, 0x8F, 2, 4⟩
  else none

def replacement : Char := '\uFFFD'

/-- Reads `more` plain continuation bytes behind `value`. A byte that is none is left unread, and
what was read so far is replaced. -/
def continued : (more : Nat) → (value : Nat) → Bytes → Char × Bytes
  | 0, value, rest => (Char.ofNat value, rest)
  | _ + 1, _, [] => (replacement, [])
  | more + 1, value, byte :: rest =>
    if 0x80 ≤ byte.toNat ∧ byte.toNat ≤ 0xBF then
      continued more (value * 64 + (byte.toNat - 0x80)) rest
    else (replacement, byte :: rest)

def led (lead : Lead) : Bytes → Char × Bytes
  | [] => (replacement, [])
  | second :: rest =>
    if lead.low ≤ second.toNat ∧ second.toNat ≤ lead.high then
      continued lead.more (lead.payload * 64 + (second.toNat - 0x80)) rest
    else (replacement, second :: rest)

def shown (byte : UInt8) (rest : Bytes) : Char × Bytes :=
  if byte.toNat < 0x80 then (Char.ofNat byte.toNat, rest)
  else
    match lead? byte with
    | some lead => led lead rest
    | none => (replacement, rest)

theorem length_continued_le (more value : Nat) (data : Bytes) :
    (continued more value data).2.length ≤ data.length := by
  induction more generalizing value data with
  | zero => simp [continued]
  | succ more ih =>
    cases data with
    | nil => simp [continued]
    | cons byte rest =>
      simp only [continued]
      split
      · exact Nat.le_succ_of_le (ih _ rest)
      · exact Nat.le_refl _

theorem length_led_le (lead : Lead) (data : Bytes) :
    (led lead data).2.length ≤ data.length := by
  cases data with
  | nil => simp [led]
  | cons second rest =>
    simp only [led]
    split
    · exact Nat.le_succ_of_le (length_continued_le ..)
    · exact Nat.le_refl _

theorem length_shown_le (byte : UInt8) (rest : Bytes) :
    (shown byte rest).2.length ≤ rest.length := by
  unfold shown
  split
  · exact Nat.le_refl _
  · split
    · exact length_led_le ..
    · exact Nat.le_refl _

def textBehind (text : String) (data : Bytes) : String :=
  match data with
  | [] => text
  | byte :: rest =>
    have : (shown byte rest).2.length < rest.length + 1 :=
      Nat.lt_succ_of_le (length_shown_le byte rest)
    textBehind (text.push (shown byte rest).1) (shown byte rest).2
termination_by data.length

/-- The bytes as text, with a replacement character for each ill-formed part. -/
def text (data : Bytes) : String :=
  textBehind "" data

end ConsoleFont.Lossy
