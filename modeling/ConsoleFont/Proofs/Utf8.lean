import ConsoleFont.Proofs.Forms
import ConsoleFont.UnicodeTable.Encode

/-! # Reading UTF-8 back

The UTF-8 of a character is one of the forms of its number (`form_utf8EncodeChar`), so that it is
read as the character.
-/

namespace ConsoleFont.CodePoint

theorem isContinuation_ofNat {n : Nat} (h : n < 0x40) :
    isContinuation (UInt8.ofNat (n + 0x80)) = true := by
  rw [isContinuation, toNat_ofNat_of_lt (by omega)]
  simp only [Bool.and_eq_true, decide_eq_true_eq]
  omega

theorem gather_ofNat {n : Nat} (h : n < 0x40) (value : Nat) :
    gather value (UInt8.ofNat (n + 0x80)) = value * 64 + n := by
  unfold gather
  rw [toNat_ofNat_of_lt (by omega), Nat.add_sub_cancel]

theorem mark_add_room_le {more mark room : Nat} (h : marks[more]? = some (mark, room)) :
    mark + room ≤ 0x100 := by
  have hMem : (mark, room) ∈ marks := List.mem_of_getElem? h
  have hAll : ∀ entry ∈ marks, entry.1 + entry.2 ≤ 0x100 := by decide
  exact hAll (mark, room) hMem

theorem leads_ofNat {more mark room n : Nat} (hMark : marks[more]? = some (mark, room))
    (h : n < room) : Leads (UInt8.ofNat (n + mark)) more n := by
  have hByte := mark_add_room_le hMark
  exact ⟨mark, room, hMark, h, by rw [toNat_ofNat_of_lt (by omega), Nat.add_comm]⟩

def continuationsOf (bits : List Nat) : Bytes := bits.map fun n => UInt8.ofNat (n + 0x80)

theorem continuations_continuationsOf {bits : List Nat} (h : ∀ n ∈ bits, n < 0x40) :
    Continuations (continuationsOf bits) := by
  intro byte hByte
  obtain ⟨n, hMem, rfl⟩ := List.mem_map.1 hByte
  exact isContinuation_ofNat (h n hMem)

theorem gathered_continuationsOf {bits : List Nat} (h : ∀ n ∈ bits, n < 0x40) (value : Nat) :
    gathered value (continuationsOf bits) = bits.foldl (fun value n => value * 64 + n) value := by
  induction bits generalizing value with
  | nil => rfl
  | cons n bits ih =>
    rw [List.forall_mem_cons] at h
    rw [continuationsOf, List.map_cons, gathered_cons, gather_ofNat h.1, List.foldl_cons]
    exact ih h.2 _

/-- The form of a lead byte that carries `n` and continuation bytes of six bits each. -/
theorem form_of_bits (n : Nat) (bits : List Nat) {mark room : Nat}
    (hMark : marks[bits.length]? = some (mark, room)) (h : n < room)
    (hBits : ∀ n ∈ bits, n < 0x40) :
    Form (bits.foldl (fun value n => value * 64 + n) n)
      (UInt8.ofNat (n + mark) :: continuationsOf bits) := by
  rw [← gathered_continuationsOf hBits]
  refine .intro ?_ (continuations_continuationsOf hBits)
  rw [continuationsOf, List.length_map]
  exact leads_ofNat hMark h

/-! ### The bytes of a character -/

/-- **The UTF-8 of a character is a form of its number.** -/
theorem form_utf8EncodeChar (c : Char) : Form c.toNat (String.utf8EncodeChar c) := by
  have hRange := toNat_valid c
  have hBits (k : Nat) : k % 0x40 < 0x40 := Nat.mod_lt _ (by decide)
  rw [String.utf8EncodeChar, show c.val.toNat = c.toNat from rfl]
  generalize c.toNat = n at hRange
  -- a case for each length, with six bits in every byte but the first
  by_cases h₁ : n ≤ 0x7F
  · rw [if_pos h₁]
    exact form_of_bits n [] rfl (Nat.lt_succ_of_le h₁) (by simp)
  rw [if_neg h₁]
  by_cases h₂ : n ≤ 0x7FF
  · rw [if_pos h₂]
    have hForm := form_of_bits (n / 64 % 0x20) [n % 0x40] rfl (Nat.mod_lt _ (by decide))
      (by simp [hBits])
    simp only [List.foldl_cons, List.foldl_nil] at hForm
    rwa [show n / 64 % 0x20 * 64 + n % 0x40 = n by omega] at hForm
  rw [if_neg h₂]
  by_cases h₃ : n ≤ 0xFFFF
  · rw [if_pos h₃]
    have hForm := form_of_bits (n / 4096 % 0x10) [n / 64 % 0x40, n % 0x40] rfl
      (Nat.mod_lt _ (by decide)) (by simp [hBits])
    simp only [List.foldl_cons, List.foldl_nil] at hForm
    rwa [show (n / 4096 % 0x10 * 64 + n / 64 % 0x40) * 64 + n % 0x40 = n by omega] at hForm
  · rw [if_neg h₃]
    have hForm := form_of_bits (n / 262144 % 0x08) [n / 4096 % 0x40, n / 64 % 0x40, n % 0x40] rfl
      (Nat.mod_lt _ (by decide)) (by simp [hBits])
    simp only [List.foldl_cons, List.foldl_nil] at hForm
    rwa [show ((n / 262144 % 0x08 * 64 + n / 4096 % 0x40) * 64 + n / 64 % 0x40) * 64 + n % 0x40 = n
      by omega] at hForm

theorem scalar?_toNat (c : Char) : scalar? c.toNat = some c := scalar?_eq_some_iff.2 rfl

end ConsoleFont.CodePoint
