import ConsoleFont.Proofs.Machine.Formats
import ConsoleFont.Proofs.Pixels
import ConsoleFont.Proofs.RoundTrip
import ConsoleFont.Proofs.Shelf
import Mathlib.Data.Nat.Bitwise

/-! # Pixels read by checked operations

A pixel is looked up in its row by a checked index, and tested with a mask of one bit. That this
never leaves the row rests on how the metrics of a font fit each other, as the row itself is only
known to be as long as the width wants it.

Main statement: `exists_laid_glyph`, what the rows and pixels of all glyphs of all fonts are.
-/

namespace ConsoleFont.Machine

def byteAt (data : Bytes) (index : Nat) : Checked UInt8 :=
  match data[index]? with
  | some byte => .ok byte
  | none => .error .outOfBounds

def row? (glyph : Glyph) (y : Nat) : Checked (Option Bytes) :=
  if glyph.height ≤ y then return none
  else do
    let size ← rowSize glyph.width
    let start ← mul sizeLimit y size
    let stop ← add sizeLimit start size
    return glyph.data.slice? start (stop - start)

/-- Whether the pixel is set, by the mask of its column. -/
def pixel (glyph : Glyph) (x y : Nat) : Checked Bool :=
  if glyph.width ≤ x then return false
  else do
    match ← row? glyph y with
    | none => return false
    | some row =>
      let byte ← byteAt row (x / 8)
      return byte &&& (0x80 >>> UInt8.ofNat (x % 8)) != 0

theorem byteAt_of_lt {data : Bytes} {index : Nat} (h : index < data.length) :
    byteAt data index = .ok (data.getD index 0) := by
  rw [byteAt, List.getElem?_eq_getElem h, List.getD_eq_getElem _ _ h]

theorem and_mask_ne_zero (byte : UInt8) {column : Nat} (h : column < 8) :
    (byte &&& (0x80 >>> UInt8.ofNat column) != 0) = byte.toNat.testBit (7 - column) := by
  have hMask : (0x80 >>> UInt8.ofNat column : UInt8).toNat = 2 ^ (7 - column) := by
    revert column
    decide
  have hAnd : (byte &&& (0x80 >>> UInt8.ofNat column)).toNat =
      (byte.toNat.testBit (7 - column)).toNat * 2 ^ (7 - column) := by
    rw [UInt8.toNat_and, hMask, Nat.and_two_pow]
  have hPos : 0 < 2 ^ (7 - column) := Nat.two_pow_pos _
  cases hBit : byte.toNat.testBit (7 - column) with
  | false =>
    rw [hBit, Bool.toNat_false, Nat.zero_mul] at hAnd
    rw [UInt8.toNat_inj.1 (hAnd.trans UInt8.toNat_zero.symm)]
    rfl
  | true =>
    rw [hBit, Bool.toNat_true, Nat.one_mul] at hAnd
    rw [bne_iff_ne]
    intro hZero
    rw [hZero, UInt8.toNat_zero] at hAnd
    omega

section Glyph

variable {glyph : Glyph} (h : glyph.metrics.WellFormed)

include h

theorem row?_eq (y : Nat) : row? glyph y = .ok (glyph.row? y) := by
  rw [row?, Glyph.row?]
  by_cases hY : y < glyph.height
  · have hEnd := Glyph.row_end_le h hY
    have hLength : glyph.data.length < wordLimit := h.glyphSize_lt
    have hLimit : wordLimit ≤ sizeLimit := by decide
    have hSize : rowSize glyph.width = .ok (pitch glyph.width) := rowSize_eq h.width_lt
    rw [if_neg (Nat.not_le.2 hY), if_pos hY, hSize, ok_bind,
      mul_of_lt (by omega), ok_bind, add_of_lt (by omega), ok_bind, Nat.add_sub_cancel_left]
    rfl
  · rw [if_pos (Nat.not_lt.1 hY), if_neg hY]
    rfl

/-- **A pixel is read without leaving its row.** -/
theorem pixel_eq (x y : Nat) : pixel glyph x y = .ok (glyph.pixel x y) := by
  rw [pixel, Glyph.pixel]
  by_cases hX : x < glyph.width
  · rw [if_neg (Nat.not_le.2 hX), if_pos hX, row?_eq h, ok_bind]
    cases hRow : glyph.row? y with
    | none => rfl
    | some row =>
      have hLength := (Glyph.laid h).length_row y row hRow
      have hByte : x / 8 < row.length := hLength ▸ div_eight_lt_pitch hX
      simp only
      rw [byteAt_of_lt hByte, ok_bind, and_mask_ne_zero _ (Nat.mod_lt x (by decide))]
      rfl
  · rw [if_pos (Nat.not_lt.1 hX), if_neg hX]
    rfl

end Glyph

/-- **The bytes of every glyph make up its rows and its pixels.** No row and no pixel is looked for
outside of them, and two glyphs of a font look the same if their bytes are the same but for
padding. -/
theorem exists_laid_glyph (font : Font) (h : font.Obtained) :
    ∀ position < font.glyphCount, ∃ glyph, font.glyph? position = some glyph ∧
      font.bitmap? position = some glyph.data ∧ glyph.width = font.width ∧
      glyph.height = font.height ∧ glyph.data.length = font.glyphSize ∧ glyph.Laid ∧
      (∀ x y, row? glyph y = .ok (glyph.row? y) ∧ pixel glyph x y = .ok (glyph.pixel x y)) ∧
      ∀ otherPosition other, font.glyph? otherPosition = some other →
        ((∀ x y, glyph.pixel x y = other.pixel x y) ↔ glyph.SameButPadding other) := by
  intro position hPosition
  obtain ⟨glyph, hGlyph, hBitmap, hMetrics⟩ := h.wellFormed.exists_glyph hPosition
  have hWell : glyph.metrics.WellFormed := hMetrics ▸ h.wellFormed.metrics
  refine ⟨glyph, hGlyph, hBitmap, congrArg Metrics.width hMetrics, congrArg Metrics.height hMetrics,
    congrArg Metrics.glyphSize hMetrics, Glyph.laid hWell, ?_, ?_⟩
  · intro x y
    exact ⟨row?_eq hWell y, pixel_eq hWell x y⟩
  · intro otherPosition other hOther
    apply Glyph.pixels_eq_iff hWell
    rw [h.wellFormed.metrics_glyph hOther, hMetrics]

/-- Two glyphs of two rows and a byte of padding, ten pixels wide. They differ in four bits, none of
them a pixel. -/
theorem exists_laid_glyph_padded :
    let glyph : Glyph := ⟨[0x80, 0x40, 0x01, 0x80, 0x00], 10, 2⟩
    let other : Glyph := ⟨[0x80, 0x51, 0x01, 0x81, 0x10], 10, 2⟩
    let font : Font := ⟨⟨10, 2, 5⟩, .psf2, 2, glyph.data ++ other.data, []⟩
    font.Obtained ∧ font.glyph? 0 = some glyph ∧ font.glyph? 1 = some other ∧
      (∀ x y, glyph.pixel x y = other.pixel x y) ∧ glyph.Laid ∧ other.Laid ∧
      pixel other 9 0 = .ok true ∧ pixel other 11 0 = .ok false := by
  intro glyph other font
  have hWell : font.WellFormed := ⟨⟨by decide, by decide, by decide, by decide, by decide⟩,
    by decide, rfl, nofun, nofun, .nil⟩
  have hFont : font.Obtained := Font.Obtained.of_parse
    (Psf2.result_parse_encode (fun _ => .openFails .notFound) .default rfl hWell)
  obtain ⟨first, hFirst, _, _, _, _, hLaid, _, hSame⟩ := exists_laid_glyph font hFont 0 (by decide)
  obtain rfl : first = glyph := Option.some.inj (hFirst.symm.trans rfl)
  obtain ⟨second, hSecond, _, _, _, _, hLaid', hPixel, _⟩ :=
    exists_laid_glyph font hFont 1 (by decide)
  obtain rfl : second = other := Option.some.inj (hSecond.symm.trans rfl)
  refine ⟨hFont, rfl, rfl, (hSame 1 other rfl).2 (by decide), hLaid, hLaid', ?_, ?_⟩
  · exact (hPixel 9 0).2.trans (congrArg Except.ok (by decide))
  · exact (hPixel 11 0).2

end ConsoleFont.Machine
