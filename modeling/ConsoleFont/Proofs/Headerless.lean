import ConsoleFont.Font.WellFormed
import ConsoleFont.Headerless
import ConsoleFont.Proofs.Words

/-! # What a file without a header is read as

The length of the file decides everything: `decode_eq` says that the block chosen by the length is
read, as it always lies within the file. Every font that is read is well-formed
(`wellFormed_of_decode`).
-/

namespace ConsoleFont.Headerless

/-- A block that lies within `length` bytes and holds glyphs. -/
structure Block.Within (block : Block) (length : Nat) : Prop where
  height_pos : 0 < block.height
  height_lt : block.height < wordLimit
  glyphCount_lt : block.glyphCount < glyphCountLimit
  room : block.offset + block.size ≤ length

theorem within_of_codePageBlock {targetHeight : Option Nat} {place : Block}
    (h : codePageBlock targetHeight = .ok place) : place.Within codePageLength := by
  unfold codePageBlock at h
  split at h
  · cases h
  · split at h
    · rename_i found hFound
      cases h
      have hMem := List.mem_of_find?_eq_some hFound
      simp only [codePageBlocks, List.mem_cons, List.not_mem_nil, or_false] at hMem
      rcases hMem with rfl | rfl | rfl
      · exact ⟨by decide, by decide, by decide, by decide⟩
      · exact ⟨by decide, by decide, by decide, by decide⟩
      · exact ⟨by decide, by decide, by decide, by decide⟩
    · cases h

theorem within_of_bareBlock {size offset : Nat} {place : Block} (hSize : 256 ≤ size)
    (h : bareBlock size offset = .ok place) : place.Within (offset + size) := by
  unfold bareBlock at h
  split at h
  · rename_i hLt
    cases h
    refine ⟨by show 0 < size / 256; omega, hLt, (by decide : 256 < glyphCountLimit), ?_⟩
    show offset + size / 256 * 256 ≤ offset + size
    omega
  · cases h

theorem within_of_block {targetHeight : Option Nat} {length : Nat} {place : Block}
    (h : block targetHeight length = .ok place) : place.Within length := by
  unfold block at h
  split at h
  · rename_i hLength
    rw [hLength]
    exact within_of_codePageBlock h
  split at h
  · rename_i hLength
    rw [hLength]
    cases h
    exact ⟨by decide, by decide, by decide, by decide⟩
  split at h
  · have hWithin := within_of_bareBlock (by omega) h
    rwa [Nat.zero_add] at hWithin
  split at h
  · rename_i hHeader
    simp only [codePageHeader] at hHeader h
    have hWithin := within_of_bareBlock (by omega) h
    rwa [Nat.add_sub_cancel' (by omega)] at hWithin
  · cases h

def Block.font (place : Block) (data : Bytes) : Font where
  width := 8
  height := place.height
  glyphSize := place.height
  format := .raw
  glyphCount := place.glyphCount
  bitmaps := (data.drop place.offset).take place.size
  unicodeMap := []

theorem decode_eq (targetHeight : Option Nat) (data : Bytes) :
    decode targetHeight data =
      (block targetHeight data.length).map fun place => place.font data := by
  rw [decode]
  cases hBlock : block targetHeight data.length with
  | error error => rfl
  | ok place =>
    have hRoom := (within_of_block hBlock).room
    rw [ok_bind, Reader.skip, if_pos (by omega), ok_bind]
    simp only
    rw [Reader.take, if_pos (by rw [List.length_drop]; omega)]
    rfl

/-- **Every font that is read is well-formed.** -/
theorem wellFormed_of_decode {targetHeight : Option Nat} {data : Bytes} {font : Font}
    (h : decode targetHeight data = .ok font) : font.WellFormed := by
  rw [decode_eq] at h
  obtain ⟨place, hBlock, rfl⟩ := map_eq_ok_iff.1 h
  have hWithin := within_of_block hBlock
  refine ⟨Metrics.wellFormed_eight hWithin.height_pos hWithin.height_lt, hWithin.glyphCount_lt, ?_,
    by simp [Block.font], by simp [Block.font], .nil⟩
  have hRoom := hWithin.room
  rw [Block.font, List.length_take, List.length_drop]
  exact Nat.min_eq_left (by omega)

theorem format_of_decode {targetHeight : Option Nat} {data : Bytes} {font : Font}
    (h : decode targetHeight data = .ok font) : font.format = .raw := by
  rw [decode_eq] at h
  obtain ⟨place, _, rfl⟩ := map_eq_ok_iff.1 h
  rfl

theorem decode_none (data : Bytes) :
    decode none data = .error .heightRequired ∨
      ∀ targetHeight, decode targetHeight data = decode none data := by
  by_cases hLength : data.length = codePageLength
  · left
    rw [decode_eq, block, if_pos hLength]
    rfl
  · right
    intro targetHeight
    rw [decode_eq, decode_eq, block, block, if_neg hLength, if_neg hLength]

theorem decode_eq_error_iff {targetHeight : Option Nat} {data : Bytes} {error : Error} :
    decode targetHeight data = .error error ↔ block targetHeight data.length = .error error := by
  rw [decode_eq]
  cases block targetHeight data.length <;> simp [Except.map]

end ConsoleFont.Headerless
