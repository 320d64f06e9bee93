import ConsoleFont.Proofs.Detection
import ConsoleFont.Proofs.Loaded

/-! # Writing fonts and reading them again

Every well-formed font of the second PSF version can be written so that reading gives it back, and
no other font of that version is ever read. The same holds of the first version, where fewer fonts
can be written (`Psf1.Writable`).

Main statements: `Psf2.parse_encode_iff`, `Psf1.writable_iff`.
-/

namespace ConsoleFont.Psf2

theorem result_parse_encode (files : FileSystem) (options : Options) {font : Font}
    (hFormat : font.format = .psf2) (h : font.WellFormed) :
    (Font.parse files options (encode font)).result = .ok font := by
  have hSigns : Format.psf2.Signs (encode font) := by
    rw [Format.signs_psf2, encode_eq]
    exact List.prefix_append ..
  rw [Font.result_parse_psf2 files options hSigns, decode_encode hFormat h]

/-- **Fonts of this version are read back as they were written if they are well-formed, and all that
are read are well-formed.** -/
theorem parse_encode_iff (font : Font) (hFormat : font.format = .psf2) :
    (font.WellFormed ↔
      ∀ files options, (Font.parse files options (encode font)).result = .ok font) ∧
    (font.WellFormed ↔
      ∃ files options data, (Font.parse files options data).result = .ok font) := by
  have hRead (files : FileSystem) (options : Options) (data : Bytes)
      (h : (Font.parse files options data).result = .ok font) : font.WellFormed :=
    Font.invariant_wellFormed.parse h
  refine ⟨⟨fun h files options => result_parse_encode files options hFormat h, fun h => ?_⟩,
    ⟨fun h => ?_, fun ⟨files, options, data, h⟩ => hRead files options data h⟩⟩
  · exact hRead (fun _ => .openFails .notFound) .default _ (h _ _)
  · exact ⟨fun _ => .openFails .notFound, .default, encode font,
      result_parse_encode _ _ hFormat h⟩

/-- A font with padded glyphs, whose map holds a sequence and a character of four bytes. -/
theorem parse_encode_padded :
    let font : Font := ⟨⟨9, 1, 3⟩, .psf2, 2, [0xFF, 0x80, 0, 1, 2, 3],
      [⟨0, ['A']⟩, ⟨1, ['😀']⟩, ⟨1, ['e', '\u0301']⟩, ⟨1, ['x']⟩]⟩
    font.format = .psf2 ∧ font.WellFormed ∧
      ∀ files options, (Font.parse files options (encode font)).result = .ok font := by
  intro font
  have h : font.WellFormed := ⟨⟨by decide, by decide, by decide, by decide, by decide⟩,
    by decide, rfl, by decide, by decide, by decide⟩
  exact ⟨rfl, h, (parse_encode_iff font rfl).1.1 h⟩

end ConsoleFont.Psf2

namespace ConsoleFont.Psf1

theorem result_parse_encode (files : FileSystem) (options : Options) {font : Font}
    (hFormat : font.format = .psf1) (h : Writable font) :
    (Font.parse files options (encode font)).result = .ok font := by
  have hSigns : Format.psf1.Signs (encode font) := by
    rw [Format.signs_psf1, encode, List.append_assoc, List.append_assoc]
    exact List.prefix_append ..
  rw [Font.result_parse_psf1 files options hSigns, h.decode_encode hFormat]

theorem decode_of_decodeSingle {targetHeight : Option Nat} {data : Bytes} {font : Font}
    (h : decodeSingle targetHeight data = .ok font) (hFormat : font.format = .psf1) :
    decode data = .ok font := by
  unfold decodeSingle at h
  split at h
  · cases (Psf2.format_of_decode h).symm.trans hFormat
  split at h
  · exact h
  · cases (Headerless.format_of_decode h).symm.trans hFormat

theorem not_signs_combined_of_parse {files : FileSystem} {options : Options} {data : Bytes}
    {font : Font} (h : (Font.parse files options data).result = .ok font)
    (hFormat : font.format = .psf1) : ¬ Format.combined.Signs data := by
  intro hList
  by_cases hBad : Font.resultAsList files options data = .error .badMagic
  · rw [Font.result_parse_list_of_badMagic hList hBad] at h
    cases (Headerless.format_of_decode h).symm.trans hFormat
  · rw [Font.result_parse_list hList hBad] at h
    cases (Font.format_of_resultAsList files options h).symm.trans hFormat

theorem decode_of_parse {files : FileSystem} {options : Options} {data : Bytes} {font : Font}
    (h : (Font.parse files options data).result = .ok font) (hFormat : font.format = .psf1) :
    decode data = .ok font := by
  have hList := not_signs_combined_of_parse h hFormat
  rw [Font.result_parse_single files options hList] at h
  exact decode_of_decodeSingle h hFormat

/-- **Fonts of this version are read back as they were written if they can be written, and all that
are read can.** -/
theorem writable_iff (font : Font) (hFormat : font.format = .psf1) :
    (Writable font ↔
      ∀ files options, (Font.parse files options (encode font)).result = .ok font) ∧
    (Writable font ↔
      ∃ files options data, (Font.parse files options data).result = .ok font) := by
  have hRead (files : FileSystem) (options : Options) (data : Bytes)
      (h : (Font.parse files options data).result = .ok font) : Writable font :=
    writable_of_decode (decode_of_parse h hFormat)
  constructor
  · constructor
    · intro h files options
      exact result_parse_encode files options hFormat h
    · intro h
      exact hRead (fun _ => .openFails .notFound) .default _ (h _ _)
  · constructor
    · intro h
      exact ⟨fun _ => .openFails .notFound, .default, encode font,
        result_parse_encode _ _ hFormat h⟩
    · rintro ⟨files, options, data, h⟩
      exact hRead files options data h

/-- A font whose map holds single characters, a character of two units and sequences. -/
theorem writable_oneRow :
    let font : Font := ⟨⟨8, 1, 1⟩, .psf1, 256, List.replicate 256 0x18,
      [⟨0, ['A']⟩, ⟨1, ['😀']⟩, ⟨1, ['e', '\u0301']⟩, ⟨1, ['x']⟩, ⟨255, ['\uFFFD', '𐀀']⟩]⟩
    font.format = .psf1 ∧ Writable font ∧
      ∀ files options, (Font.parse files options (encode font)).result = .ok font := by
  intro font
  have hLength : font.bitmaps.length = 1 * 256 := List.length_replicate
  have h : Writable font := ⟨rfl, rfl, by decide, by decide, .inl rfl, hLength, by decide,
    by decide, by decide, by simp [font]⟩
  exact ⟨rfl, h, (writable_iff font rfl).1.1 h⟩

end ConsoleFont.Psf1
