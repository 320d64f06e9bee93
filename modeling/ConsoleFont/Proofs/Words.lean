import ConsoleFont.Bytes.Reader

/-! # Numbers in bytes

Reading a number of two or four bytes undoes writing it, if it fits.
-/

namespace ConsoleFont

theorem toNat_ofNat_of_lt {n : Nat} (h : n < 256) : (UInt8.ofNat n).toNat = n := by
  rw [UInt8.toNat_ofNat']
  exact Nat.mod_eq_of_lt h

/-! ### Steps that may fail -/

theorem ok_bind {α β ε : Type} (a : α) (next : α → Except ε β) :
    (Except.ok a >>= next) = next a := rfl

theorem error_bind {α β ε : Type} (error : ε) (next : α → Except ε β) :
    ((Except.error error : Except ε α) >>= next) = .error error := rfl

theorem bind_eq_ok_iff {α β ε : Type} {first : Except ε α} {next : α → Except ε β} {b : β} :
    first >>= next = .ok b ↔ ∃ a, first = .ok a ∧ next a = .ok b := by
  cases first with
  | error error => simp [error_bind]
  | ok a => simp [ok_bind]

theorem map_eq_ok_iff {α β ε : Type} {result : Except ε α} {f : α → β} {b : β} :
    result.map f = .ok b ↔ ∃ a, result = .ok a ∧ f a = b := by
  cases result with
  | error error => simp [Except.map]
  | ok a => simp [Except.map]

theorem map_eq_error_iff {α β ε : Type} {f : α → β} {result : Except ε α} {error : ε} :
    result.map f = .error error ↔ result = .error error := by
  cases result <;> simp [Except.map]

theorem eq_ok_of_toOption {α ε : Type} {result : Except ε α} {a : α}
    (h : result.toOption = some a) : result = .ok a := by
  cases result with
  | error error => cases h
  | ok b => exact congrArg Except.ok (Option.some.inj h)

/-! ### Numbers of two and four bytes -/

namespace Bytes

@[simp] theorem length_ofWord (n : Nat) : (ofWord n).length = 4 := rfl

/-- A byte is the lowest byte of any number that it is the remainder of. -/
theorem ofNat_eq_of_mod {n : Nat} {byte : UInt8} (h : n % 256 = byte.toNat) :
    UInt8.ofNat n = byte := by
  rw [← UInt8.toNat_inj, UInt8.toNat_ofNat']
  exact h

theorem ofUnit_toNat (a b : UInt8) : ofUnit (a.toNat + b.toNat * 256) = [a, b] := by
  have ha := a.toNat_lt
  have hb := b.toNat_lt
  rw [ofUnit, ofNat_eq_of_mod (by omega : _ = a.toNat), ofNat_eq_of_mod (by omega : _ = b.toNat)]

end Bytes

namespace Reader

theorem signature_eq_badMagic {expected data : Bytes} (h : ¬ expected <+: data) :
    signature expected data = .error .badMagic := by
  rw [signature, if_neg (by rwa [List.isPrefixOf_iff_prefix])]

theorem unit_ofUnit {n : Nat} (h : n < 65536) (rest : Bytes) :
    unit (Bytes.ofUnit n ++ rest) = .ok (n, rest) := by
  refine unit_eq_ok_iff.2 ⟨_, _, rfl, ?_⟩
  rw [UInt8.toNat_ofNat', toNat_ofNat_of_lt (by omega)]
  omega

theorem unit_lt {n : Nat} {data rest : Bytes} (h : unit data = .ok (n, rest)) : n < 65536 := by
  obtain ⟨a, b, _, rfl⟩ := unit_eq_ok_iff.1 h
  have ha := a.toNat_lt
  have hb := b.toNat_lt
  omega

theorem word_ofWord {n : Nat} (h : n < wordLimit) (rest : Bytes) :
    word (Bytes.ofWord n ++ rest) = .ok (n, rest) := by
  refine word_eq_ok_iff.2 ⟨_, _, _, _, rfl, ?_⟩
  unfold wordLimit at h
  rw [UInt8.toNat_ofNat', UInt8.toNat_ofNat', UInt8.toNat_ofNat', toNat_ofNat_of_lt (by omega)]
  omega

theorem length_of_word {n : Nat} {data rest : Bytes} (h : word data = .ok (n, rest)) :
    data.length = rest.length + 4 := by
  obtain ⟨a, b, c, d, rfl, _⟩ := word_eq_ok_iff.1 h
  rfl

theorem word_lt {n : Nat} {data rest : Bytes} (h : word data = .ok (n, rest)) : n < wordLimit := by
  obtain ⟨a, b, c, d, _, rfl⟩ := word_eq_ok_iff.1 h
  have ha := a.toNat_lt
  have hb := b.toNat_lt
  have hc := c.toNat_lt
  have hd := d.toNat_lt
  show _ < 0x100000000
  omega

end Reader

end ConsoleFont
