import ConsoleFont.Proofs.Pixels
import ConsoleFont.Proofs.RoundTrip
import ConsoleFont.Proofs.Shelf

/-! # Which glyphs are empty

A glyph with no pixel set should be empty, and the other way round. It is so as long as no bit of
the padding is set, since `Glyph.isEmpty` goes through all bytes. Metrics that leave padding always
have a font that shows the difference, `Metrics.speck`.

Main statement: `Font.isEmpty_glyph_iff`.
-/

namespace ConsoleFont

/-! ### Metrics without padding -/

def Metrics.NoPadding (metrics : Metrics) : Prop :=
  metrics.width % 8 = 0 ∧ metrics.glyphSize = metrics.height * pitch metrics.width

instance (metrics : Metrics) : Decidable metrics.NoPadding :=
  inferInstanceAs (Decidable (_ ∧ _))

theorem Glyph.clear_of_noPadding {glyph : Glyph} (h : glyph.metrics.WellFormed)
    (hNone : glyph.metrics.NoPadding) : glyph.Clear := by
  intro index bit hIs
  obtain ⟨hWidth, hSize⟩ : glyph.width % 8 = 0 ∧
    glyph.data.length = glyph.height * pitch glyph.width := hNone
  rcases hIs with hBehind | hBeside
  · exact bitAt_of_le (by omega)
  · -- the rows end where their last bytes do
    have hMod : index % pitch glyph.width < pitch glyph.width := Nat.mod_lt index h.pitch_pos
    unfold pitch at hBeside hMod
    omega

theorem Glyph.isEmpty_iff_of_noPadding {glyph : Glyph} (h : glyph.metrics.WellFormed)
    (hNone : glyph.metrics.NoPadding) : glyph.isEmpty = true ↔ glyph.Blank := by
  rw [isEmpty_iff_blank h]
  constructor
  · intro hBoth
    exact hBoth.1
  · intro hBlank
    exact ⟨hBlank, clear_of_noPadding h hNone⟩

/-! ### A speck in the padding -/

/-- The glyph with nothing set but the rightmost bit of its last byte. -/
def Metrics.speckGlyph (metrics : Metrics) : Glyph where
  data := (List.replicate metrics.glyphSize 0).set (metrics.glyphSize - 1) 1
  width := metrics.width
  height := metrics.height

def Metrics.speck (metrics : Metrics) : Font where
  toMetrics := metrics
  format := .psf2
  glyphCount := 1
  bitmaps := metrics.speckGlyph.data
  unicodeMap := []

theorem Metrics.length_speckGlyph (metrics : Metrics) :
    metrics.speckGlyph.data.length = metrics.glyphSize := by
  rw [speckGlyph, List.length_set, List.length_replicate]

theorem Metrics.metrics_speckGlyph (metrics : Metrics) : metrics.speckGlyph.metrics = metrics := by
  rw [Glyph.metrics, length_speckGlyph]
  rfl

theorem Metrics.bitAt_speckGlyph_of_ne {metrics : Metrics} {index bit : Nat}
    (h : ¬ (index = metrics.glyphSize - 1 ∧ bit = 0)) :
    metrics.speckGlyph.bitAt index bit = false := by
  rw [Glyph.bitAt, speckGlyph, List.getD_eq_getElem?_getD]
  by_cases hIndex : metrics.glyphSize - 1 = index
  · rw [List.getElem?_set, if_pos hIndex]
    split
    · show Nat.testBit 1 bit = false
      rw [Bool.eq_false_iff, ne_eq, Nat.testBit_one_eq_true_iff_self_eq_zero]
      exact fun hBit => h ⟨hIndex.symm, hBit⟩
    · exact Nat.zero_testBit bit
  · rw [List.getElem?_set_ne hIndex, List.getElem?_replicate]
    split
    · exact Nat.zero_testBit bit
    · exact Nat.zero_testBit bit

section Speck

variable {metrics : Metrics} (h : metrics.WellFormed)

include h

theorem Metrics.WellFormed.speck : metrics.speck.WellFormed where
  metrics := h
  glyphCount_lt := (by decide : 1 < glyphCountLimit)
  length_bitmaps := metrics.length_speckGlyph.trans (Nat.mul_one _).symm
  characters_ne_nil := by simp [Metrics.speck]
  position_lt := by simp [Metrics.speck]
  sorted := .nil

theorem Metrics.WellFormed.obtained_speck : metrics.speck.Obtained := by
  apply Font.Obtained.of_parse
  exact Psf2.result_parse_encode (fun _ => .openFails .notFound) .default rfl h.speck

theorem Metrics.WellFormed.glyph?_speck :
    metrics.speck.glyph? 0 = some metrics.speckGlyph := by
  have hBitmap := h.speck.bitmap?_eq Nat.zero_lt_one
  have hAll : metrics.speck.bitmaps.take metrics.glyphSize = metrics.speckGlyph.data :=
    List.take_of_length_le (Nat.le_of_eq metrics.length_speckGlyph)
  rw [Nat.zero_mul, List.drop_zero] at hBitmap
  rw [Font.glyph?, hBitmap]
  exact congrArg (fun data => some (Glyph.mk data metrics.width metrics.height)) hAll

theorem Metrics.WellFormed.bitAt_speckGlyph :
    metrics.speckGlyph.bitAt (metrics.glyphSize - 1) 0 = true := by
  have hPos := h.glyphSize_pos
  rw [Glyph.bitAt, speckGlyph, List.getD_eq_getElem?_getD,
    List.getElem?_set_self (by rw [List.length_replicate]; omega)]
  rfl

theorem Metrics.WellFormed.isPadding_speckGlyph (hSome : ¬ metrics.NoPadding) :
    metrics.speckGlyph.IsPadding (metrics.glyphSize - 1) 0 := by
  have hRows := h.height_mul_pitch_le
  by_cases hBehind : metrics.height * pitch metrics.width ≤ metrics.glyphSize - 1
  · exact .inl hBehind
  · -- there is nothing behind the last row, so the padding is beside the rows
    right
    show metrics.width ≤ 8 * ((metrics.glyphSize - 1) % pitch metrics.width) + (7 - 0)
    have hPos := h.pitch_pos
    have hSize : metrics.glyphSize = metrics.height * pitch metrics.width := by omega
    have hWidth : metrics.width % 8 ≠ 0 := fun hWidth => hSome ⟨hWidth, hSize⟩
    obtain ⟨above, hAbove⟩ : ∃ above, metrics.height = above + 1 := by
      cases hHeight : metrics.height with
      | zero =>
        rw [hHeight, Nat.zero_mul] at hSize
        exact absurd h.glyphSize_pos (by omega)
      | succ above => exact ⟨above, rfl⟩
    have hLast : metrics.glyphSize - 1 =
        above * pitch metrics.width + (pitch metrics.width - 1) := by
      rw [hSize, hAbove, Nat.succ_mul]
      omega
    rw [hLast, Nat.mul_add_mod_of_lt (by omega)]
    unfold pitch at hPos ⊢
    omega

theorem Metrics.WellFormed.blank_speckGlyph (hSome : ¬ metrics.NoPadding) :
    metrics.speckGlyph.Blank := by
  have hMetrics : metrics.speckGlyph.metrics.WellFormed := by
    rw [metrics.metrics_speckGlyph]
    exact h
  intro x y
  by_cases hIn : x < metrics.width ∧ y < metrics.height
  · have hPixel : ¬ metrics.speckGlyph.IsPadding (y * pitch metrics.width + x / 8) (7 - x % 8) :=
      Glyph.not_isPadding_of_pixel hIn.1 hIn.2
    rw [Glyph.pixel_eq_bitAt hMetrics hIn.1 hIn.2]
    apply bitAt_speckGlyph_of_ne
    rintro ⟨hIndex, hBit⟩
    apply hPixel
    rw [hBit]
    exact hIndex ▸ h.isPadding_speckGlyph hSome
  · exact Glyph.pixel_outside hIn

end Speck

/-! ### The glyphs of the fonts there are -/

/-- **A glyph is empty if it has neither a pixel nor a bit of its padding set.** So `isEmpty` says
whether a glyph is blank but for blank glyphs with a speck in their padding, and there are fonts
with such a glyph for all metrics that leave any padding. -/
theorem Font.isEmpty_glyph_iff (font : Font) (hFont : font.Obtained) :
    (∀ position glyph, font.glyph? position = some glyph →
      (glyph.isEmpty = true ↔ glyph.Blank ∧ glyph.Clear) ∧
      ((glyph.isEmpty = true ↔ glyph.Blank) ↔ (glyph.Blank → glyph.Clear))) ∧
    ((∀ other : Font, other.Obtained → other.toMetrics = font.toMetrics →
        ∀ position glyph, other.glyph? position = some glyph →
          (glyph.isEmpty = true ↔ glyph.Blank)) ↔
      font.toMetrics.NoPadding) := by
  have hMetrics : font.toMetrics.WellFormed := hFont.wellFormed.metrics
  constructor
  · intro position glyph hGlyph
    have hSame : glyph.metrics = font.toMetrics := hFont.wellFormed.metrics_glyph hGlyph
    have hEmpty := Glyph.isEmpty_iff_blank (hSame ▸ hMetrics)
    refine ⟨hEmpty, ?_⟩
    rw [hEmpty]
    exact and_iff_left_iff_imp
  · constructor
    · intro hAll
      by_contra hSome
      have hEmpty := (hAll _ hMetrics.obtained_speck rfl 0 _ hMetrics.glyph?_speck).2
        (hMetrics.blank_speckGlyph hSome)
      have hBit := Glyph.isEmpty_iff.1 hEmpty (font.glyphSize - 1) 0
      exact absurd (hMetrics.bitAt_speckGlyph.symm.trans hBit) (by decide)
    · intro hNone other hOther hSameMetrics position glyph hGlyph
      have hSame : glyph.metrics = font.toMetrics :=
        (hOther.wellFormed.metrics_glyph hGlyph).trans hSameMetrics
      exact Glyph.isEmpty_iff_of_noPadding (hSame ▸ hMetrics) (hSame ▸ hNone)

/-- A glyph of a single pixel, which is not set, in a byte whose last bit is: the glyph is blank,
and not empty. -/
theorem Font.isEmpty_glyph_blank :
    let glyph : Glyph := ⟨[0x01], 1, 1⟩
    let font : Font := ⟨⟨1, 1, 1⟩, .psf2, 1, [0x01], []⟩
    font.Obtained ∧ font.glyph? 0 = some glyph ∧ glyph.Blank ∧ glyph.isEmpty = false ∧
      ¬ ∀ other : Font, other.Obtained → other.toMetrics = font.toMetrics →
        ∀ position glyph, other.glyph? position = some glyph →
          (glyph.isEmpty = true ↔ glyph.Blank) := by
  intro glyph font
  have hWell : font.WellFormed := ⟨⟨by decide, by decide, by decide, by decide, by decide⟩,
    by decide, rfl, nofun, nofun, .nil⟩
  have hFont : font.Obtained := Font.Obtained.of_parse
    (Psf2.result_parse_encode (fun _ => .openFails .notFound) .default rfl hWell)
  have hBlank : glyph.Blank := by
    intro x y
    by_cases hIn : x < 1 ∧ y < 1
    · obtain ⟨rfl, rfl⟩ : x = 0 ∧ y = 0 := by omega
      decide
    · exact Glyph.pixel_outside hIn
  obtain ⟨hGlyphs, hAll⟩ := isEmpty_glyph_iff font hFont
  refine ⟨hFont, rfl, hBlank, ?_, fun hEvery => absurd (hAll.1 hEvery) (by decide)⟩
  rw [Bool.eq_false_iff]
  intro hEmpty
  have hClear : glyph.Clear := ((hGlyphs 0 glyph rfl).1.1 hEmpty).2
  exact absurd (hClear 0 0 (by decide)) (by decide)

end ConsoleFont
