import ConsoleFont.Proofs.Words
import ConsoleFont.Text.CodePoint

/-! # Which bytes are a code point

A form is a lead byte and as many continuation bytes as it asks for (`Form`). Reading takes a form
off the front of the data, whatever number it stands for. Where there is none, the data ends within
a form (`Unfinished`), or it holds a byte that is out of place (`IllFormed`).

Main statements: `reads_read` says what reading comes to on any data, and `read_of_form`,
`read_of_unfinished` and `read_of_illFormed` say the same the other way round.
-/

namespace ConsoleFont.CodePoint

/-- The lead bytes, by the number of bytes that follow: their mark, and the room that it leaves for
bits of the code point. -/
def marks : List (Nat × Nat) :=
  [(0x00, 0x80), (0xC0, 0x20), (0xE0, 0x10), (0xF0, 0x08), (0xF8, 0x04), (0xFC, 0x02)]

/-- The byte starts a form with `more` bytes behind it, and carries the bits `payload`. -/
def Leads (byte : UInt8) (more payload : Nat) : Prop :=
  ∃ mark room, marks[more]? = some (mark, room) ∧ payload < room ∧ byte.toNat = mark + payload

def gather (value : Nat) (byte : UInt8) : Nat := value * 64 + (byte.toNat - 0x80)

/-- The number that continuation bytes make of the bits in `value` before them. -/
def gathered (value : Nat) (continuations : Bytes) : Nat := continuations.foldl gather value

theorem gathered_cons (value : Nat) (byte : UInt8) (continuations : Bytes) :
    gathered value (byte :: continuations) = gathered (gather value byte) continuations := by
  rw [gathered, List.foldl_cons, gathered]

def Continuations (bytes : Bytes) : Prop := ∀ byte ∈ bytes, isContinuation byte = true

/-- A number and the bytes of one of its forms. -/
inductive Form : Nat → Bytes → Prop
  | intro {byte : UInt8} {payload : Nat} {continuations : Bytes} :
      Leads byte continuations.length payload → Continuations continuations →
      Form (gathered payload continuations) (byte :: continuations)

inductive Unfinished : Bytes → Prop
  | intro {byte : UInt8} {more payload : Nat} {continuations : Bytes} :
      Leads byte more payload → continuations.length < more → Continuations continuations →
      Unfinished (byte :: continuations)

/-- A byte that starts no form, or one that does not continue the form that it stands in. -/
inductive IllFormed : Bytes → Prop
  | lead {byte : UInt8} (rest : Bytes) :
      isContinuation byte = true ∨ byte = 0xFE ∨ byte = 0xFF → IllFormed (byte :: rest)
  | broken {begun : Bytes} {byte : UInt8} (rest : Bytes) :
      Unfinished begun → isContinuation byte = false → IllFormed (begun ++ byte :: rest)

theorem continuations_nil : Continuations [] := by
  intro byte hByte
  cases hByte

theorem Continuations.cons {byte : UInt8} {bytes : Bytes} (hByte : isContinuation byte = true)
    (h : Continuations bytes) : Continuations (byte :: bytes) :=
  List.forall_mem_cons.2 ⟨hByte, h⟩

/-! ### Lead bytes -/

theorem lead?_of_leads {byte : UInt8} {more payload : Nat} (h : Leads byte more payload) :
    lead? byte = some ⟨more, payload⟩ := by
  obtain ⟨mark, room, hMark, hRoom, hByte⟩ := h
  have hMore : more < marks.length := (List.getElem?_eq_some_iff.1 hMark).1
  simp only [lead?, hByte]
  match more, hMore with
  | 0, _ =>
    cases hMark
    rw [if_pos (by omega), Nat.zero_add]
  | 1, _ =>
    cases hMark
    rw [if_neg (by omega), if_neg (by omega), if_pos (by omega), Nat.add_sub_cancel_left]
  | 2, _ =>
    cases hMark
    rw [if_neg (by omega), if_neg (by omega), if_neg (by omega), if_pos (by omega),
      Nat.add_sub_cancel_left]
  | 3, _ =>
    cases hMark
    rw [if_neg (by omega), if_neg (by omega), if_neg (by omega), if_neg (by omega),
      if_pos (by omega), Nat.add_sub_cancel_left]
  | 4, _ =>
    cases hMark
    rw [if_neg (by omega), if_neg (by omega), if_neg (by omega), if_neg (by omega),
      if_neg (by omega), if_pos (by omega), Nat.add_sub_cancel_left]
  | 5, _ =>
    cases hMark
    rw [if_neg (by omega), if_neg (by omega), if_neg (by omega), if_neg (by omega),
      if_neg (by omega), if_neg (by omega), if_pos (by omega), Nat.add_sub_cancel_left]

theorem leads_of_lead? {byte : UInt8} {more payload : Nat} (h : lead? byte = some ⟨more, payload⟩) :
    Leads byte more payload := by
  unfold lead? at h
  simp only at h
  split at h
  · cases h
    exact ⟨0x00, 0x80, rfl, by omega, by omega⟩
  split at h
  · cases h
  split at h
  · cases h
    exact ⟨0xC0, 0x20, rfl, by omega, by omega⟩
  split at h
  · cases h
    exact ⟨0xE0, 0x10, rfl, by omega, by omega⟩
  split at h
  · cases h
    exact ⟨0xF0, 0x08, rfl, by omega, by omega⟩
  split at h
  · cases h
    exact ⟨0xF8, 0x04, rfl, by omega, by omega⟩
  split at h
  · cases h
    exact ⟨0xFC, 0x02, rfl, by omega, by omega⟩
  · cases h

theorem lead?_eq_none_iff {byte : UInt8} :
    lead? byte = none ↔ isContinuation byte = true ∨ byte = 0xFE ∨ byte = 0xFF := by
  have hLt := byte.toNat_lt
  rw [← UInt8.toNat_inj, ← UInt8.toNat_inj]
  simp only [lead?, isContinuation, Bool.and_eq_true, decide_eq_true_eq]
  show _ ↔ _ ∨ byte.toNat = 0xFE ∨ byte.toNat = 0xFF
  by_cases hAscii : byte.toNat < 0x80
  · rw [if_pos hAscii]
    simp only [reduceCtorEq, false_iff]
    omega
  rw [if_neg hAscii]
  by_cases hContinuation : byte.toNat < 0xC0
  · rw [if_pos hContinuation]
    simp only [true_iff]
    omega
  rw [if_neg hContinuation]
  constructor
  · intro h
    repeat' split at h
    all_goals first | cases h; done | omega
  · intro h
    rw [if_neg (by omega), if_neg (by omega), if_neg (by omega), if_neg (by omega),
      if_neg (by omega)]

/-! ### Continuation bytes -/

theorem continued_append {continuations : Bytes} (h : Continuations continuations)
    (more value : Nat) (rest : Bytes) :
    continued (continuations.length + more) value (continuations ++ rest) =
      continued more (gathered value continuations) rest := by
  induction continuations generalizing value with
  | nil => rw [List.length_nil, Nat.zero_add, List.nil_append, gathered, List.foldl_nil]
  | cons byte behind ih =>
    have hBoth := List.forall_mem_cons.1 h
    rw [List.length_cons, Nat.add_right_comm, List.cons_append, continued, if_pos hBoth.1,
      gathered_cons]
    exact ih hBoth.2 (gather value byte)

/-- What reading comes to behind a lead byte that asks for `more` bytes. -/
inductive Continues (more value : Nat) : Bytes → Except Error (Option Nat × Bytes) → Prop
  | whole (continuations rest : Bytes) : continuations.length = more →
      Continuations continuations →
      Continues more value (continuations ++ rest)
        (.ok (some (gathered value continuations), rest))
  | broken (continuations rest : Bytes) {byte : UInt8} : continuations.length < more →
      Continuations continuations → isContinuation byte = false →
      Continues more value (continuations ++ byte :: rest) (.ok (none, byte :: rest))
  | short {continuations : Bytes} : continuations.length < more → Continuations continuations →
      Continues more value continuations (.error .shortRead)

theorem Continues.cons {more value : Nat} {data : Bytes} {byte : UInt8}
    {result : Except Error (Option Nat × Bytes)} (hByte : isContinuation byte = true)
    (h : Continues more (gather value byte) data result) :
    Continues (more + 1) value (byte :: data) result := by
  cases h with
  | whole continuations rest hLength hAll =>
    rw [← gathered_cons]
    exact .whole (byte :: continuations) rest (congrArg Nat.succ hLength) (hAll.cons hByte)
  | broken continuations rest hLength hAll hBreak =>
    exact .broken (byte :: continuations) rest (Nat.succ_lt_succ hLength) (hAll.cons hByte) hBreak
  | short hLength hAll => exact .short (Nat.succ_lt_succ hLength) (hAll.cons hByte)

theorem continues_continued (more value : Nat) (data : Bytes) :
    Continues more value data (continued more value data) := by
  induction more generalizing value data with
  | zero => exact .whole [] data rfl continuations_nil
  | succ more ih =>
    cases data with
    | nil => exact .short (Nat.succ_pos more) continuations_nil
    | cons byte behind =>
      rw [continued]
      by_cases hByte : isContinuation byte = true
      · rw [if_pos hByte]
        exact (ih (gather value byte) behind).cons hByte
      · rw [if_neg hByte]
        exact .broken [] behind (Nat.succ_pos more) continuations_nil (Bool.eq_false_iff.2 hByte)

/-! ### Code points -/

theorem read_cons_of_leads {byte : UInt8} {more payload : Nat} (h : Leads byte more payload)
    (rest : Bytes) : read (byte :: rest) = continued more payload rest := by
  rw [read, lead?_of_leads h]

/-- **A form is read as its number**, and what stands behind it is left. -/
theorem read_of_form {value : Nat} {bytes : Bytes} (h : Form value bytes) (rest : Bytes) :
    read (bytes ++ rest) = .ok (some value, rest) := by
  obtain ⟨hLeads, hAll⟩ := h
  rw [List.cons_append, read_cons_of_leads hLeads]
  exact continued_append hAll 0 _ rest

theorem read_of_unfinished {bytes : Bytes} (h : Unfinished bytes) :
    read bytes = .error .shortRead := by
  obtain @⟨byte, more, payload, continuations, hLeads, hLength, hAll⟩ := h
  obtain ⟨lack, rfl⟩ := Nat.exists_eq_add_of_lt hLength
  have hRead := continued_append hAll (lack + 1) payload []
  rw [List.append_nil] at hRead
  rw [read_cons_of_leads hLeads]
  exact hRead

theorem read_of_stray {byte : UInt8} (h : isContinuation byte = true ∨ byte = 0xFE ∨ byte = 0xFF)
    (rest : Bytes) : read (byte :: rest) = .ok (none, rest) := by
  rw [read, lead?_eq_none_iff.2 h]

theorem read_of_broken {begun : Bytes} {byte : UInt8} (hBegun : Unfinished begun)
    (hByte : isContinuation byte = false) (rest : Bytes) :
    read (begun ++ byte :: rest) = .ok (none, byte :: rest) := by
  obtain ⟨hLeads, hLength, hAll⟩ := hBegun
  obtain ⟨lack, rfl⟩ := Nat.exists_eq_add_of_lt hLength
  rw [List.cons_append, read_cons_of_leads hLeads]
  refine (continued_append hAll (lack + 1) _ (byte :: rest)).trans ?_
  rw [continued, if_neg (Bool.eq_false_iff.1 hByte)]

theorem read_of_illFormed {data : Bytes} (h : IllFormed data) :
    ∃ rest, read data = .ok (none, rest) := by
  cases h with
  | lead rest hByte => exact ⟨rest, read_of_stray hByte rest⟩
  | broken rest hBegun hByte => exact ⟨_, read_of_broken hBegun hByte rest⟩

inductive Reads : Bytes → Except Error (Option Nat × Bytes) → Prop
  | form {value : Nat} {bytes : Bytes} (rest : Bytes) : Form value bytes →
      Reads (bytes ++ rest) (.ok (some value, rest))
  | illFormed {data rest : Bytes} : IllFormed data → Reads data (.ok (none, rest))
  | nil : Reads [] (.error .shortRead)
  | unfinished {bytes : Bytes} : Unfinished bytes → Reads bytes (.error .shortRead)

theorem reads_read (data : Bytes) : Reads data (read data) := by
  cases data with
  | nil => exact .nil
  | cons byte behind =>
    rw [read]
    cases hLead : lead? byte with
    | none => exact .illFormed (.lead behind (lead?_eq_none_iff.1 hLead))
    | some lead =>
      have hLeads : Leads byte lead.more lead.payload := leads_of_lead? hLead
      have hBehind := continues_continued lead.more lead.payload behind
      revert hBehind
      simp only
      generalize continued lead.more lead.payload behind = result
      intro hBehind
      cases hBehind with
      | whole continuations rest hLength hAll => exact .form rest (.intro (hLength ▸ hLeads) hAll)
      | broken continuations rest hLength hAll hBreak =>
        exact .illFormed (.broken rest (.intro hLeads hLength hAll) hBreak)
      | short hLength hAll => exact .unfinished (.intro hLeads hLength hAll)

end ConsoleFont.CodePoint
