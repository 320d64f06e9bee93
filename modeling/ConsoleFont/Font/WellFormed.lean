import ConsoleFont.Font.Append

/-! # What holds of every font that is loaded

`Font.WellFormed` says that the parts of a font fit each other: the metrics agree, the bitmaps fill
the table, and the map names glyphs that are there, in order.
-/

namespace ConsoleFont

/-- The rows are as many as fit into the bytes of a glyph. -/
structure Metrics.WellFormed (metrics : Metrics) : Prop where
  width_pos : 0 < metrics.width
  glyphSize_pos : 0 < metrics.glyphSize
  height_eq : metrics.height = metrics.glyphSize / pitch metrics.width
  width_lt : metrics.width < wordLimit
  glyphSize_lt : metrics.glyphSize < wordLimit

structure Font.WellFormed (font : Font) : Prop where
  metrics : font.toMetrics.WellFormed
  glyphCount_lt : font.glyphCount < glyphCountLimit
  length_bitmaps : font.bitmaps.length = font.glyphSize * font.glyphCount
  characters_ne_nil : ∀ entry ∈ font.unicodeMap, entry.characters ≠ []
  position_lt : ∀ entry ∈ font.unicodeMap, entry.position < font.glyphCount
  /-- The map goes through the glyphs in order. -/
  sorted : font.unicodeMap.Pairwise fun a b => a.position ≤ b.position

namespace Metrics.WellFormed

variable {metrics : Metrics}

theorem pitch_pos (h : metrics.WellFormed) : 0 < pitch metrics.width := by
  have hWidth := h.width_pos
  unfold pitch
  omega

theorem height_mul_pitch_le (h : metrics.WellFormed) :
    metrics.height * pitch metrics.width ≤ metrics.glyphSize := by
  rw [h.height_eq]
  exact Nat.div_mul_le_self ..

theorem lt_height_succ_mul_pitch (h : metrics.WellFormed) :
    metrics.glyphSize < (metrics.height + 1) * pitch metrics.width := by
  rw [h.height_eq, Nat.add_mul, Nat.one_mul]
  have hMod := Nat.mod_lt metrics.glyphSize h.pitch_pos
  have hDiv := Nat.div_add_mod metrics.glyphSize (pitch metrics.width)
  rw [Nat.mul_comm] at hDiv
  omega

end Metrics.WellFormed

theorem Metrics.wellFormed_eight {height : Nat} (hPos : 0 < height) (hLt : height < wordLimit) :
    (Metrics.mk 8 height height).WellFormed where
  width_pos := (by decide : 0 < 8)
  glyphSize_pos := hPos
  height_eq := by
    have hPitch : pitch 8 = 1 := rfl
    rw [hPitch, Nat.div_one]
  width_lt := (by decide : 8 < wordLimit)
  glyphSize_lt := hLt

end ConsoleFont
