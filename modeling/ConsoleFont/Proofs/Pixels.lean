import ConsoleFont.Proofs.Bitmaps
import ConsoleFont.Proofs.Words
import Mathlib.Data.List.Basic
import Mathlib.Data.List.GetD

/-! # The rows and pixels of a glyph

A row of a glyph is a piece of its bytes, and a pixel is one bit of them. The bits that are no pixel
are padding: in each row those behind its last pixel, and all bits of the bytes behind the last row.
No pixel tells anything of them (`pixels_eq_iff`), while a glyph with any bit set, padding included,
is not empty (`isEmpty_iff`).

Main statements: `laid`, and `Font.WellFormed.exists_glyph`, every glyph of a well-formed font is of
the font's metrics, so that all of this holds of it.
-/

namespace ConsoleFont

theorem div_eight_lt_pitch {width x : Nat} (h : x < width) : x / 8 < pitch width := by
  unfold pitch
  omega

namespace Glyph

def metrics (glyph : Glyph) : Metrics := ⟨glyph.width, glyph.height, glyph.data.length⟩

def rows (glyph : Glyph) : List Bytes := (List.range glyph.height).filterMap glyph.row?

/-- Whether a bit of a byte is set. The leftmost bit is bit 7. -/
def bitAt (glyph : Glyph) (index bit : Nat) : Bool :=
  (glyph.data.getD index 0).toNat.testBit bit

/-- The bit of the byte is no pixel, as the byte stands behind the last row or the bit behind the
last pixel of its row. -/
def IsPadding (glyph : Glyph) (index bit : Nat) : Prop :=
  glyph.height * pitch glyph.width ≤ index ∨
    glyph.width ≤ 8 * (index % pitch glyph.width) + (7 - bit)

instance (glyph : Glyph) (index bit : Nat) : Decidable (glyph.IsPadding index bit) :=
  inferInstanceAs (Decidable (_ ∨ _))

def SameButPadding (glyph other : Glyph) : Prop :=
  ∀ index < glyph.data.length, ∀ bit < 8, ¬ glyph.IsPadding index bit →
    glyph.bitAt index bit = other.bitAt index bit

instance (glyph other : Glyph) : Decidable (glyph.SameButPadding other) :=
  inferInstanceAs (Decidable (∀ index < glyph.data.length, ∀ bit < 8, _ → _))

def Blank (glyph : Glyph) : Prop := ∀ x y, glyph.pixel x y = false

def Clear (glyph : Glyph) : Prop :=
  ∀ index bit, glyph.IsPadding index bit → glyph.bitAt index bit = false

/-- How the bytes of a glyph make up its rows and its pixels. -/
structure Laid (glyph : Glyph) : Prop where
  row?_isSome_iff : ∀ y, (glyph.row? y).isSome = true ↔ y < glyph.height
  length_row : ∀ y row, glyph.row? y = some row → row.length = pitch glyph.width
  flatten_rows : glyph.rows.flatten = glyph.data.take (glyph.height * pitch glyph.width)
  rows_le : glyph.height * pitch glyph.width ≤ glyph.data.length
  padding_lt : glyph.data.length - glyph.height * pitch glyph.width < pitch glyph.width
  pixel_outside : ∀ x y, ¬ (x < glyph.width ∧ y < glyph.height) → glyph.pixel x y = false
  pixel_inside : ∀ x y, x < glyph.width → y < glyph.height →
    ∃ byte, glyph.data[y * pitch glyph.width + x / 8]? = some byte ∧
      glyph.pixel x y = byte.toNat.testBit (7 - x % 8)

/-! ### Bits -/

section Bits

variable {glyph : Glyph} {index bit : Nat}

theorem bitAt_of_le (h : glyph.data.length ≤ index) : glyph.bitAt index bit = false := by
  rw [bitAt, List.getD_eq_default _ _ h]
  exact Nat.zero_testBit bit

theorem bitAt_of_eight_le (h : 8 ≤ bit) : glyph.bitAt index bit = false := by
  apply Nat.testBit_lt_two_pow
  exact Nat.lt_of_lt_of_le (UInt8.toNat_lt _) (Nat.pow_le_pow_right (by decide) h)

theorem isEmpty_iff : glyph.isEmpty = true ↔ ∀ index bit, glyph.bitAt index bit = false := by
  rw [isEmpty, List.all_eq_true]
  constructor
  · intro h index bit
    by_cases hIndex : index < glyph.data.length
    · have hZero : glyph.data[index] = 0 := by simpa using h _ (List.getElem_mem hIndex)
      rw [bitAt, List.getD_eq_getElem _ _ hIndex, hZero]
      exact Nat.zero_testBit bit
    · exact bitAt_of_le (Nat.not_lt.1 hIndex)
  · intro h byte hByte
    obtain ⟨index, hIndex, rfl⟩ := List.getElem_of_mem hByte
    rw [beq_iff_eq, ← UInt8.toNat_inj]
    apply Nat.eq_of_testBit_eq
    intro bit
    have hBit := h index bit
    rw [bitAt, List.getD_eq_getElem _ _ hIndex] at hBit
    rw [hBit]
    exact (Nat.zero_testBit bit).symm

end Bits

/-! ### Rows -/

section Rows

variable {glyph : Glyph} (h : glyph.metrics.WellFormed) {x y : Nat}

include h

theorem row_end_le (hY : y < glyph.height) :
    y * pitch glyph.width + pitch glyph.width ≤ glyph.data.length := by
  have hRows : (y + 1) * pitch glyph.width ≤ glyph.height * pitch glyph.width :=
    Nat.mul_le_mul_right _ hY
  rw [Nat.succ_mul] at hRows
  exact Nat.le_trans hRows h.height_mul_pitch_le

theorem row?_eq (hY : y < glyph.height) :
    glyph.row? y =
      some ((glyph.data.drop (y * pitch glyph.width)).take (pitch glyph.width)) := by
  rw [row?, if_pos hY, Bytes.slice?, if_pos (row_end_le h hY)]

theorem rows_eq : glyph.rows = Font.pieces (pitch glyph.width) glyph.height glyph.data := by
  rw [rows, Font.pieces, ← List.filterMap_eq_map]
  apply List.filterMap_congr
  intro y hY
  exact row?_eq h (List.mem_range.1 hY)

theorem flatten_rows :
    glyph.rows.flatten = glyph.data.take (glyph.height * pitch glyph.width) := by
  rw [rows_eq h, Font.flatten_pieces, Nat.mul_comm]

theorem pixel_eq_bitAt (hX : x < glyph.width) (hY : y < glyph.height) :
    glyph.pixel x y = glyph.bitAt (y * pitch glyph.width + x / 8) (7 - x % 8) := by
  have hByte : x / 8 < pitch glyph.width := div_eight_lt_pitch hX
  rw [pixel, if_pos hX, row?_eq h hY, bitAt]
  simp only
  rw [List.getD_eq_getElem?_getD, List.getElem?_take_of_lt hByte, List.getElem?_drop,
    ← List.getD_eq_getElem?_getD]

omit h in
theorem pixel_outside (hOut : ¬ (x < glyph.width ∧ y < glyph.height)) :
    glyph.pixel x y = false := by
  rw [pixel]
  split
  · rename_i hX
    rw [row?, if_neg fun hY => hOut ⟨hX, hY⟩]
  · rfl

/-- **The bytes of a glyph of fitting size make up its rows and its pixels.** -/
theorem laid : glyph.Laid where
  row?_isSome_iff := by
    intro y
    by_cases hY : y < glyph.height
    · simp [row?_eq h hY, hY]
    · simp [row?, hY]
  length_row := by
    intro y row hRow
    rw [row?] at hRow
    split at hRow
    · exact Bytes.length_of_slice? hRow
    · cases hRow
  flatten_rows := flatten_rows h
  rows_le := h.height_mul_pitch_le
  padding_lt := by
    have hLt : glyph.data.length < (glyph.height + 1) * pitch glyph.width :=
      h.lt_height_succ_mul_pitch
    have hPos : 0 < pitch glyph.width := h.pitch_pos
    rw [Nat.succ_mul] at hLt
    omega
  pixel_outside := by
    intro x y hOut
    exact pixel_outside hOut
  pixel_inside := by
    intro x y hX hY
    have hEnd := row_end_le h hY
    have hByte : x / 8 < pitch glyph.width := div_eight_lt_pitch hX
    have hIndex : y * pitch glyph.width + x / 8 < glyph.data.length := by omega
    refine ⟨_, List.getElem?_eq_getElem hIndex, ?_⟩
    rw [pixel_eq_bitAt h hX hY, bitAt, List.getD_eq_getElem _ _ hIndex]

end Rows

/-! ### Padding -/

section Padding

variable {glyph other : Glyph} (h : glyph.metrics.WellFormed)

include h

omit h in
theorem not_isPadding_of_pixel {x y : Nat} (hX : x < glyph.width) (hY : y < glyph.height) :
    ¬ glyph.IsPadding (y * pitch glyph.width + x / 8) (7 - x % 8) := by
  have hByte : x / 8 < pitch glyph.width := div_eight_lt_pitch hX
  have hRow : y * pitch glyph.width + pitch glyph.width ≤ glyph.height * pitch glyph.width := by
    rw [← Nat.succ_mul]
    exact Nat.mul_le_mul_right _ hY
  have hColumn : (y * pitch glyph.width + x / 8) % pitch glyph.width = x / 8 :=
    Nat.mul_add_mod_of_lt hByte
  rintro (hBehind | hBeside)
  · omega
  · rw [hColumn] at hBeside
    omega

theorem exists_pixel {index bit : Nat} (hBit : bit < 8) (hNot : ¬ glyph.IsPadding index bit) :
    ∃ x y, x < glyph.width ∧ y < glyph.height ∧ index = y * pitch glyph.width + x / 8 ∧
      bit = 7 - x % 8 := by
  obtain ⟨hRow, hColumn⟩ := not_or.1 hNot
  have hPos : 0 < pitch glyph.width := h.pitch_pos
  have hIndex := Nat.div_add_mod index (pitch glyph.width)
  rw [Nat.mul_comm] at hIndex
  -- columns go from left to right, while bit 7 is the leftmost of its byte
  refine ⟨8 * (index % pitch glyph.width) + (7 - bit), index / pitch glyph.width, ?_, ?_, ?_, ?_⟩
  · exact Nat.not_le.1 hColumn
  · exact (Nat.div_lt_iff_lt_mul hPos).2 (Nat.not_le.1 hRow)
  · omega
  · omega

/-- **Glyphs of one size look the same if their bytes are the same but for padding.** -/
theorem pixels_eq_iff (hSize : other.metrics = glyph.metrics) :
    (∀ x y, glyph.pixel x y = other.pixel x y) ↔ glyph.SameButPadding other := by
  have hOther : other.metrics.WellFormed := hSize ▸ h
  obtain ⟨hWidth, hHeight, _⟩ : other.width = glyph.width ∧ other.height = glyph.height ∧
    other.data.length = glyph.data.length := by simpa [metrics] using hSize
  constructor
  · intro hPixels index _ bit hBit hNot
    obtain ⟨x, y, hX, hY, rfl, rfl⟩ := exists_pixel h hBit hNot
    have hPixel := hPixels x y
    rwa [pixel_eq_bitAt h hX hY, pixel_eq_bitAt hOther (hWidth ▸ hX) (hHeight ▸ hY), hWidth]
      at hPixel
  · intro hSame x y
    by_cases hIn : x < glyph.width ∧ y < glyph.height
    · obtain ⟨hX, hY⟩ := hIn
      have hEnd := row_end_le h hY
      have hByte : x / 8 < pitch glyph.width := div_eight_lt_pitch hX
      rw [pixel_eq_bitAt h hX hY, pixel_eq_bitAt hOther (hWidth ▸ hX) (hHeight ▸ hY), hWidth]
      exact hSame _ (by omega) _ (by omega) (not_isPadding_of_pixel hX hY)
    · rw [pixel_outside hIn, pixel_outside (by rwa [hWidth, hHeight])]

/-- **A glyph is empty if it is blank and its padding is clear as well.** -/
theorem isEmpty_iff_blank : glyph.isEmpty = true ↔ glyph.Blank ∧ glyph.Clear := by
  rw [isEmpty_iff]
  constructor
  · intro hBits
    refine ⟨fun x y => ?_, fun index bit _ => hBits index bit⟩
    by_cases hIn : x < glyph.width ∧ y < glyph.height
    · rw [pixel_eq_bitAt h hIn.1 hIn.2]
      exact hBits _ _
    · exact pixel_outside hIn
  · rintro ⟨hBlank, hPadding⟩ index bit
    by_cases hBit : bit < 8
    · by_cases hIs : glyph.IsPadding index bit
      · exact hPadding index bit hIs
      · obtain ⟨x, y, hX, hY, rfl, rfl⟩ := exists_pixel h hBit hIs
        rw [← pixel_eq_bitAt h hX hY]
        exact hBlank x y
    · exact bitAt_of_eight_le (Nat.not_lt.1 hBit)

end Padding

end Glyph

/-! ### The glyphs of a font -/

theorem Font.WellFormed.exists_glyph {font : Font} (h : font.WellFormed) {position : Nat}
    (hPosition : position < font.glyphCount) :
    ∃ glyph, font.glyph? position = some glyph ∧ font.bitmap? position = some glyph.data ∧
      glyph.metrics = font.toMetrics := by
  have hBitmap := h.bitmap?_eq hPosition
  have hEnd := h.add_glyphSize_le hPosition
  refine ⟨⟨(font.bitmaps.drop (position * font.glyphSize)).take font.glyphSize, font.width,
    font.height⟩, ?_, hBitmap, ?_⟩
  · rw [Font.glyph?, hBitmap]
    rfl
  · rw [Glyph.metrics, List.length_take, List.length_drop, Nat.min_eq_left (by omega)]

theorem Font.WellFormed.metrics_glyph {font : Font} (h : font.WellFormed) {position : Nat}
    {glyph : Glyph} (hGlyph : font.glyph? position = some glyph) :
    glyph.metrics = font.toMetrics := by
  by_cases hPosition : position < font.glyphCount
  · obtain ⟨found, hFound, _, hMetrics⟩ := h.exists_glyph hPosition
    rw [hGlyph] at hFound
    cases hFound
    exact hMetrics
  · rw [Font.glyph?, Font.bitmap?, if_neg hPosition] at hGlyph
    cases hGlyph

end ConsoleFont
