import ConsoleFont.Font.WellFormed

/-! # The bitmaps of a well-formed font

A well-formed font is cut into the bitmaps of its glyphs with nothing left over: `allBitmaps_eq` and
`bitmap?_eq` say where each bitmap stands.

Main statement: `WellFormed.tiled`.
-/

namespace ConsoleFont.Font

/-- The bitmaps of the glyphs are equally long pieces of the table, and together all of it. -/
structure Tiled (font : Font) : Prop where
  length_allBitmaps : font.allBitmaps.length = font.glyphCount
  length_of_mem : ∀ bitmap ∈ font.allBitmaps, bitmap.length = font.glyphSize
  flatten_allBitmaps : font.allBitmaps.flatten = font.bitmaps
  getElem?_allBitmaps : ∀ position : Nat, font.allBitmaps[position]? = font.bitmap? position
  bitmap?_eq_none_iff : ∀ position, font.bitmap? position = none ↔ font.glyphCount ≤ position

/-- The `count` pieces of `size` bytes at the front of the data. -/
def pieces (size count : Nat) (data : Bytes) : List Bytes :=
  (List.range count).map fun position => (data.drop (position * size)).take size

theorem pieces_succ (size count : Nat) (data : Bytes) :
    pieces size (count + 1) data = data.take size :: pieces size count (data.drop size) := by
  have hDrop (position : Nat) : (data.drop size).drop (position * size) =
      data.drop ((position + 1) * size) := by
    rw [List.drop_drop, Nat.add_mul, Nat.one_mul, Nat.add_comm]
  rw [pieces, List.range_succ_eq_map, List.map_cons, List.map_map, Nat.zero_mul, List.drop_zero]
  simp only [pieces, hDrop]
  rfl

theorem piecesBehind_eq (size count : Nat) (before : List Bytes) (data : Bytes)
    (h : size * count ≤ data.length) :
    piecesBehind size count before data = (pieces size count data).reverse ++ before := by
  induction count generalizing before data with
  | zero => rfl
  | succ count ih =>
    rw [Nat.mul_succ] at h
    have hPiece : (data.take size).length = size := by
      rw [List.length_take]
      omega
    have hRest : size * count ≤ (data.drop size).length := by
      rw [List.length_drop]
      omega
    rw [piecesBehind, if_pos hPiece, ih _ _ hRest, pieces_succ, List.reverse_cons,
      List.append_assoc, List.singleton_append]

theorem flatten_pieces (size count : Nat) (data : Bytes) :
    (pieces size count data).flatten = data.take (size * count) := by
  induction count generalizing data with
  | zero =>
    rw [Nat.mul_zero, List.take_zero]
    rfl
  | succ count ih =>
    rw [pieces_succ, List.flatten_cons, ih, ← List.take_add, Nat.mul_succ, Nat.add_comm]

namespace WellFormed

variable {font : Font} (h : font.WellFormed)

include h

theorem allBitmaps_eq : font.allBitmaps = pieces font.glyphSize font.glyphCount font.bitmaps := by
  have hLength := h.length_bitmaps
  rw [allBitmaps, piecesBehind_eq _ _ _ _ (by omega), List.append_nil, List.reverse_reverse]

theorem length_allBitmaps : font.allBitmaps.length = font.glyphCount := by
  rw [h.allBitmaps_eq, pieces, List.length_map, List.length_range]

theorem add_glyphSize_le {position : Nat} (hPosition : position < font.glyphCount) :
    position * font.glyphSize + font.glyphSize ≤ font.bitmaps.length := by
  have hMul := Nat.mul_le_mul_right font.glyphSize hPosition
  rw [h.length_bitmaps, Nat.mul_comm font.glyphSize]
  rwa [Nat.succ_mul] at hMul

theorem bitmap?_eq {position : Nat} (hPosition : position < font.glyphCount) :
    font.bitmap? position =
      some ((font.bitmaps.drop (position * font.glyphSize)).take font.glyphSize) := by
  rw [bitmap?, if_pos hPosition, Bytes.slice?, if_pos (h.add_glyphSize_le hPosition)]

theorem bitmap?_eq_none_iff {position : Nat} :
    font.bitmap? position = none ↔ font.glyphCount ≤ position := by
  by_cases hPosition : position < font.glyphCount
  · rw [h.bitmap?_eq hPosition]
    exact ⟨fun hNone => (by cases hNone), fun hLe => absurd hPosition (Nat.not_lt.2 hLe)⟩
  · rw [bitmap?, if_neg hPosition]
    exact ⟨fun _ => Nat.not_lt.1 hPosition, fun _ => rfl⟩

/-- **The bitmaps of a well-formed font tile its table.** -/
theorem tiled : font.Tiled where
  length_allBitmaps := h.length_allBitmaps
  length_of_mem := by
    intro bitmap hMem
    rw [h.allBitmaps_eq] at hMem
    obtain ⟨position, hPosition, rfl⟩ := List.mem_map.1 hMem
    have hLe := h.add_glyphSize_le (List.mem_range.1 hPosition)
    rw [List.length_take, List.length_drop]
    omega
  flatten_allBitmaps := by
    rw [h.allBitmaps_eq, flatten_pieces, ← h.length_bitmaps, List.take_length]
  getElem?_allBitmaps := by
    intro position
    by_cases hPosition : position < font.glyphCount
    · rw [h.allBitmaps_eq, pieces, List.getElem?_map, List.getElem?_range hPosition,
        h.bitmap?_eq hPosition]
      rfl
    · rw [h.bitmap?_eq_none_iff.2 (Nat.not_lt.1 hPosition), List.getElem?_eq_none_iff,
        h.length_allBitmaps]
      exact Nat.not_lt.1 hPosition
  bitmap?_eq_none_iff _ := h.bitmap?_eq_none_iff

end WellFormed

end ConsoleFont.Font
