import ConsoleFont.Proofs.Headerless
import ConsoleFont.Proofs.PartList
import ConsoleFont.Proofs.Psf1
import ConsoleFont.Proofs.Psf2

/-! # Short reads stay within the decoders

A reader that finds too few bytes says `shortRead`. No decoder lets that out: it has made sure of
the bytes before it reads them, or it has another error for their lack.
-/

namespace ConsoleFont

namespace Psf2

theorem decode_eq_error {data : Bytes} {error : Error} (h : decode data = .error error) :
    error = .badMagic ∨ error = .badHeader .psf2 ∨
      (∃ header : Header, header.fault? data.length = some error) ∨ UnicodeTable.Fault error := by
  by_cases hMagic : Bytes.ofWord magic <+: data
  · obtain ⟨behind, rfl⟩ := hMagic
    cases hRead : Header.read behind with
    | error _ =>
      rw [decode_of_read_error hRead] at h
      exact .inr (.inl (Except.error.inj h).symm)
    | ok header =>
      rw [decode_of_read hRead] at h
      split at h
      · rename_i hFault
        cases h
        exact .inr (.inr (.inl ⟨header, hFault⟩))
      · exact .inr (.inr (.inr (UnicodeTable.fault_of_decodeIf (map_eq_error_iff.1 h))))
  · rw [decode_of_no_signature hMagic] at h
    exact .inl (Except.error.inj h).symm

theorem decode_ne_shortRead (data : Bytes) : decode data ≠ .error .shortRead := by
  intro h
  rcases decode_eq_error h with h | h | ⟨header, h⟩ | h
  · cases h
  · cases h
  · unfold Header.fault? at h
    repeat' split at h
    all_goals cases h
  · cases h

end Psf2

namespace Psf1

theorem decode_eq_error {data : Bytes} {error : Error} (h : decode data = .error error) :
    error = .badMagic ∨ error = .badHeader .psf1 ∨
      (∃ mode height size, fault? mode height size = some error) ∨ UnicodeTable.Fault error := by
  by_cases hMagic : Bytes.ofUnit magic <+: data
  · obtain ⟨behind, rfl⟩ := hMagic
    match behind with
    | [] =>
      rw [decode_of_short (by simp)] at h
      exact .inr (.inl (Except.error.inj h).symm)
    | [_] =>
      rw [decode_of_short (by simp)] at h
      exact .inr (.inl (Except.error.inj h).symm)
    | mode :: height :: body =>
      rw [decode_of_header] at h
      split at h
      · rename_i hFault
        cases h
        exact .inr (.inr (.inl ⟨mode, height, _, hFault⟩))
      · exact .inr (.inr (.inr (UnicodeTable.fault_of_decodeIf (map_eq_error_iff.1 h))))
  · rw [decode_of_no_signature hMagic] at h
    exact .inl (Except.error.inj h).symm

theorem decode_ne_shortRead (data : Bytes) : decode data ≠ .error .shortRead := by
  intro h
  rcases decode_eq_error h with h | h | ⟨mode, height, size, h⟩ | h
  · cases h
  · cases h
  · unfold fault? at h
    repeat' split at h
    all_goals cases h
  · cases h

end Psf1

theorem Headerless.decode_ne_shortRead (targetHeight : Option Nat) (data : Bytes) :
    decode targetHeight data ≠ .error .shortRead := by
  intro h
  have hBlock := decode_eq_error_iff.1 h
  unfold block codePageBlock bareBlock at hBlock
  repeat' split at hBlock
  all_goals cases hBlock

theorem PartList.decode_ne_shortRead (data : Bytes) : decode data ≠ .error .shortRead := by
  intro h
  by_cases hMagic : magic <+: data
  · obtain ⟨behind, rfl⟩ := hMagic
    rw [decode_append] at h
    cases eq_trailingGarbage_of_names h
  · rw [decode_of_no_signature hMagic] at h
    cases h

end ConsoleFont
