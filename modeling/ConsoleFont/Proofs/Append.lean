import ConsoleFont.Font.WellFormed

/-! # Fonts behind fonts

`append_eq_ok` and `append_eq_error` say what comes of an append. It keeps fonts well-formed
(`WellFormed.append`), and if two fonts each join some parts, the font that comes of them joins the
parts of both (`Joins.append`).
-/

namespace ConsoleFont.Font

theorem append_eq_ok {front behind font : Font} (h : front.append behind = .ok font) :
    front.toMetrics = behind.toMetrics ∧
      front.glyphCount + behind.glyphCount < glyphCountLimit ∧
      font = { front with
        glyphCount := front.glyphCount + behind.glyphCount
        bitmaps := front.bitmaps ++ behind.bitmaps
        unicodeMap :=
          front.unicodeMap ++ behind.unicodeMap.map (Entry.shift front.glyphCount) } := by
  rw [append_eq] at h
  split at h; · cases h
  split at h; · cases h
  split at h; · cases h
  rename_i hMetrics hCount hSize
  exact ⟨Decidable.of_not_not hMetrics, by omega, (Except.ok.inj h).symm⟩

theorem append_eq_error {front behind : Font} {failure : AppendFailure}
    (h : front.append behind = .error failure) :
    failure.font = behind ∧
      (failure.error = .metricsMismatch ∨ failure.error = .lengthTooBig) := by
  rw [append_eq] at h
  split at h; · cases h; exact ⟨rfl, .inl rfl⟩
  split at h; · cases h; exact ⟨rfl, .inr rfl⟩
  split at h; · cases h; exact ⟨rfl, .inr rfl⟩
  · cases h

theorem append_ne_badMagic {front behind : Font} {failure : AppendFailure}
    (h : front.append behind = .error failure) : failure.error ≠ .badMagic := by
  rcases append_eq_error h with ⟨_, hError | hError⟩
  · rw [hError]
    simp
  · rw [hError]
    simp

theorem WellFormed.append {front behind font : Font} (hFront : front.WellFormed)
    (hBehind : behind.WellFormed) (h : front.append behind = .ok font) : font.WellFormed := by
  obtain ⟨hMetrics, hCount, rfl⟩ := append_eq_ok h
  have hSize : front.glyphSize = behind.glyphSize := by rw [hMetrics]
  refine ⟨hFront.metrics, hCount, ?_, ?_, ?_, ?_⟩
  · show (front.bitmaps ++ behind.bitmaps).length =
      front.glyphSize * (front.glyphCount + behind.glyphCount)
    rw [List.length_append, hFront.length_bitmaps, hBehind.length_bitmaps, hSize, Nat.mul_add]
  · refine List.forall_mem_append.2 ⟨hFront.characters_ne_nil, fun entry hEntry => ?_⟩
    obtain ⟨before, hBefore, rfl⟩ := List.mem_map.1 hEntry
    exact hBehind.characters_ne_nil before hBefore
  · refine List.forall_mem_append.2 ⟨fun entry hEntry => ?_, fun entry hEntry => ?_⟩
    · have hLt := hFront.position_lt entry hEntry
      show entry.position < front.glyphCount + behind.glyphCount
      omega
    · obtain ⟨before, hBefore, rfl⟩ := List.mem_map.1 hEntry
      have hLt := hBehind.position_lt before hBefore
      show before.position + front.glyphCount < front.glyphCount + behind.glyphCount
      omega
  · -- every entry behind was moved past all glyphs in front
    refine List.pairwise_append.2 ⟨hFront.sorted, ?_, ?_⟩
    · refine List.pairwise_map.2 (hBehind.sorted.imp fun {a b} hLe => ?_)
      show a.position + front.glyphCount ≤ b.position + front.glyphCount
      omega
    · intro entry hEntry other hOther
      obtain ⟨before, _, rfl⟩ := List.mem_map.1 hOther
      have hLt := hFront.position_lt entry hEntry
      show entry.position ≤ before.position + front.glyphCount
      omega

theorem exists_append {front behind : Font} (hFront : front.WellFormed)
    (hMetrics : front.toMetrics = behind.toMetrics)
    (hCount : front.glyphCount + behind.glyphCount < glyphCountLimit) :
    ∃ font, front.append behind = .ok font := by
  have hSize : (front.glyphCount + behind.glyphCount) * front.glyphSize < bitmapsLimit := by
    have hMul := Nat.mul_lt_mul'' hCount hFront.metrics.glyphSize_lt
    exact Nat.lt_of_lt_of_eq hMul (by decide)
  rw [append_eq]
  rw [if_neg (not_not_intro hMetrics), if_neg (by omega), if_neg (by omega)]
  exact ⟨_, rfl⟩

/-! ### Joined fonts -/

def glyphSum : (fonts : List Font) → Nat
  | [] => 0
  | font :: fonts => font.glyphCount + glyphSum fonts

/-- The maps of some fonts, each moved past `offset` glyphs and past those of the fonts in front. -/
def joinedMap : (offset : Nat) → (fonts : List Font) → List Entry
  | _, [] => []
  | offset, font :: fonts =>
    font.unicodeMap.map (Entry.shift offset) ++ joinedMap (offset + font.glyphCount) fonts

/-- The font holds what its parts hold, one behind the other. -/
structure Joins (font : Font) (parts : List Font) : Prop where
  glyphCount_eq : font.glyphCount = glyphSum parts
  bitmaps_eq : font.bitmaps = parts.flatMap Font.bitmaps
  unicodeMap_eq : font.unicodeMap = joinedMap 0 parts

theorem glyphSum_append (front behind : List Font) :
    glyphSum (front ++ behind) = glyphSum front + glyphSum behind := by
  induction front with
  | nil => exact (Nat.zero_add _).symm
  | cons font front ih => rw [List.cons_append, glyphSum, glyphSum, ih, Nat.add_assoc]

theorem joinedMap_append (offset : Nat) (front behind : List Font) :
    joinedMap offset (front ++ behind) =
      joinedMap offset front ++ joinedMap (offset + glyphSum front) behind := by
  induction front generalizing offset with
  | nil => rfl
  | cons font front ih =>
    rw [List.cons_append, joinedMap, joinedMap, ih, glyphSum, List.append_assoc, Nat.add_assoc]

theorem map_shift_joinedMap (offset more : Nat) (fonts : List Font) :
    (joinedMap offset fonts).map (Entry.shift more) = joinedMap (offset + more) fonts := by
  induction fonts generalizing offset with
  | nil => rfl
  | cons font fonts ih =>
    have hShift : Entry.shift more ∘ Entry.shift offset = Entry.shift (offset + more) := by
      funext entry
      exact entry.shift_shift offset more
    rw [joinedMap, joinedMap, List.map_append, List.map_map, hShift, ih, Nat.add_right_comm]

theorem joins_single (font : Font) : font.Joins [font] where
  glyphCount_eq := (Nat.add_zero _).symm
  bitmaps_eq := by rw [List.flatMap_singleton]
  unicodeMap_eq := by
    have hShift : Entry.shift 0 = id := rfl
    rw [joinedMap, joinedMap, hShift, List.map_id, List.append_nil]

/-- **An appended font joins the parts of both fonts.** -/
theorem Joins.append {front behind font : Font} {parts others : List Font}
    (hFront : front.Joins parts) (hBehind : behind.Joins others)
    (h : front.append behind = .ok font) : font.Joins (parts ++ others) := by
  obtain ⟨_, _, rfl⟩ := append_eq_ok h
  refine ⟨?_, ?_, ?_⟩
  · rw [glyphSum_append, ← hFront.glyphCount_eq, ← hBehind.glyphCount_eq]
  · rw [List.flatMap_append, ← hFront.bitmaps_eq, ← hBehind.bitmaps_eq]
  · rw [joinedMap_append, Nat.zero_add, ← hFront.unicodeMap_eq, ← hFront.glyphCount_eq,
      hBehind.unicodeMap_eq, map_shift_joinedMap, Nat.zero_add]

end ConsoleFont.Font
