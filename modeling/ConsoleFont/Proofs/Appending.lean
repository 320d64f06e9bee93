import ConsoleFont.Proofs.Shelf

/-! # Exactly what an append does

Two fonts can be appended for reasons that their metrics and counts decide (`Font.Appendable`), and
what comes of it is `Font.joined`. To append is then associative, a font without glyphs is neutral
(`Font.append_assoc_and_neutral`), and on a shelf an append either does all of it or changes nothing
(`Shelf.append_all_or_nothing`).
-/

namespace ConsoleFont

/-! ### Slices of joined byte strings -/

namespace Bytes

theorem slice?_append_left {front : Bytes} {start length : Nat}
    (h : start + length ≤ front.length) (behind : Bytes) :
    (front ++ behind).slice? start length = front.slice? start length := by
  have hAll : start + length ≤ (front ++ behind).length := by
    rw [List.length_append]
    omega
  have hDrop : length ≤ (front.drop start).length := by
    rw [List.length_drop]
    omega
  rw [slice?, slice?, if_pos hAll, if_pos h, List.drop_append_of_le_length (by omega),
    List.take_append_of_le_length hDrop]

theorem slice?_append_right (front behind : Bytes) (start length : Nat) :
    (front ++ behind).slice? (front.length + start) length = behind.slice? start length := by
  have hReach : front.length + start + length ≤ (front ++ behind).length ↔
      start + length ≤ behind.length := by
    rw [List.length_append]
    omega
  simp only [slice?, hReach, List.drop_length_add_append]

end Bytes

namespace Font

/-! ### Which fonts can be appended -/

/-- What the two fonts need for an append: the same metrics, and a sum of glyphs and of bytes that
can be counted. -/
structure Appendable (front behind : Font) : Prop where
  toMetrics_eq : front.toMetrics = behind.toMetrics
  glyphCount_lt : front.glyphCount + behind.glyphCount < glyphCountLimit
  size_lt : (front.glyphCount + behind.glyphCount) * front.glyphSize < bitmapsLimit

theorem append_eq_ok_iff {front behind font : Font} :
    front.append behind = .ok font ↔ front.Appendable behind ∧ font = front.joined behind := by
  rw [append_eq]
  split
  · rename_i hMetrics
    exact iff_of_false nofun fun h => hMetrics h.1.toMetrics_eq
  split
  · rename_i hCount
    exact iff_of_false nofun fun h => Nat.not_lt.2 hCount h.1.glyphCount_lt
  split
  · rename_i hSize
    exact iff_of_false nofun fun h => Nat.not_lt.2 hSize h.1.size_lt
  · rename_i hMetrics hCount hSize
    have h : front.Appendable behind :=
      ⟨Decidable.of_not_not hMetrics, Nat.not_le.1 hCount, Nat.not_le.1 hSize⟩
    rw [and_iff_right h, Except.ok.injEq, eq_comm]

theorem WellFormed.size_lt {font : Font} (h : font.WellFormed) {glyphCount : Nat}
    (hCount : glyphCount < glyphCountLimit) : glyphCount * font.glyphSize < bitmapsLimit :=
  Nat.lt_of_lt_of_eq (Nat.mul_lt_mul'' hCount h.metrics.glyphSize_lt) (by decide)

theorem WellFormed.appendable_iff {front behind : Font} (hFront : front.WellFormed) :
    front.Appendable behind ↔ front.toMetrics = behind.toMetrics ∧
      front.glyphCount + behind.glyphCount < glyphCountLimit := by
  constructor
  · intro h
    exact ⟨h.toMetrics_eq, h.glyphCount_lt⟩
  · rintro ⟨hMetrics, hCount⟩
    exact ⟨hMetrics, hCount, hFront.size_lt hCount⟩

theorem WellFormed.append_eq_error_iff {front behind : Font} (hFront : front.WellFormed)
    {failure : AppendFailure} :
    front.append behind = .error failure ↔
      failure = ⟨.metricsMismatch, behind⟩ ∧ front.toMetrics ≠ behind.toMetrics ∨
      failure = ⟨.lengthTooBig, behind⟩ ∧ front.toMetrics = behind.toMetrics ∧
        glyphCountLimit ≤ front.glyphCount + behind.glyphCount := by
  rw [append_eq]
  by_cases hMetrics : front.toMetrics = behind.toMetrics
  · rw [if_neg (not_not_intro hMetrics)]
    by_cases hCount : glyphCountLimit ≤ front.glyphCount + behind.glyphCount
    · rw [if_pos hCount]
      simp [hMetrics, hCount, eq_comm]
    · have hSize := hFront.size_lt (Nat.not_le.1 hCount)
      rw [if_neg hCount, if_neg (Nat.not_le.2 hSize)]
      simp [hMetrics, hCount]
  · rw [if_pos hMetrics]
    simp [hMetrics, eq_comm]

/-! ### Associativity -/

theorem joined_assoc (a b c : Font) : (a.joined b).joined c = a.joined (b.joined c) := by
  have hShift : (c.unicodeMap.map (Entry.shift b.glyphCount)).map (Entry.shift a.glyphCount) =
      c.unicodeMap.map (Entry.shift (a.glyphCount + b.glyphCount)) := by
    rw [List.map_map]
    refine List.map_congr_left fun entry _ => ?_
    rw [Function.comp_apply, Entry.shift_shift, Nat.add_comm]
  simp only [joined, Nat.add_assoc, List.append_assoc, List.map_append, hShift]

/-- Which of three fonts are appended first does not decide whether they can be: where all three can
be counted, any two of them can. -/
theorem appendable_assoc (a b c : Font) :
    a.Appendable b ∧ (a.joined b).Appendable c ↔ b.Appendable c ∧ a.Appendable (b.joined c) := by
  have hSum : a.glyphCount + b.glyphCount + c.glyphCount =
    a.glyphCount + (b.glyphCount + c.glyphCount) := Nat.add_assoc ..
  constructor
  · rintro ⟨⟨hFirst, _, _⟩, ⟨hSecond, hCount, hSize⟩⟩
    have hBehind : b.toMetrics = c.toMetrics := hFirst.symm.trans hSecond
    have hGlyphSize : a.glyphSize = b.glyphSize := congrArg Metrics.glyphSize hFirst
    simp only [joined, hSum] at hCount hSize
    refine ⟨⟨hBehind, by omega, ?_⟩, ⟨hFirst, hCount, hSize⟩⟩
    rw [← hGlyphSize]
    exact Nat.lt_of_le_of_lt (Nat.mul_le_mul_right _ (Nat.le_add_left ..)) hSize
  · rintro ⟨⟨hBehind, _, _⟩, ⟨hFirst, hCount, hSize⟩⟩
    have hSecond : a.toMetrics = b.toMetrics := hFirst
    simp only [joined, ← hSum] at hCount hSize
    refine ⟨⟨hSecond, by omega, ?_⟩, ⟨hSecond.trans hBehind, hCount, hSize⟩⟩
    exact Nat.lt_of_le_of_lt (Nat.mul_le_mul_right _ (Nat.le_add_right ..)) hSize

theorem append_assoc_iff (a b c font : Font) :
    (∃ front, a.append b = .ok front ∧ front.append c = .ok font) ↔
      ∃ behind, b.append c = .ok behind ∧ a.append behind = .ok font := by
  simp only [append_eq_ok_iff]
  constructor
  · rintro ⟨_, ⟨hFirst, rfl⟩, hSecond, rfl⟩
    obtain ⟨hBehind, hAll⟩ := (appendable_assoc a b c).1 ⟨hFirst, hSecond⟩
    exact ⟨_, ⟨hBehind, rfl⟩, hAll, joined_assoc a b c⟩
  · rintro ⟨_, ⟨hBehind, rfl⟩, hAll, rfl⟩
    obtain ⟨hFirst, hSecond⟩ := (appendable_assoc a b c).2 ⟨hBehind, hAll⟩
    exact ⟨_, ⟨hFirst, rfl⟩, hSecond, (joined_assoc a b c).symm⟩

/-! ### Fonts without glyphs -/

section Neutral

variable {a z : Font} (hFont : a.WellFormed) (hNone : z.WellFormed) (hZero : z.glyphCount = 0)
  (hMetrics : z.toMetrics = a.toMetrics)

include hNone hZero in
theorem WellFormed.bitmaps_eq_nil : z.bitmaps = [] := by
  have hLength := hNone.length_bitmaps
  rw [hZero, Nat.mul_zero] at hLength
  exact List.eq_nil_of_length_eq_zero hLength

include hFont hNone hZero hMetrics

theorem append_of_no_glyphs : a.append z = .ok a := by
  have hAppendable : a.Appendable z := by
    refine hFont.appendable_iff.2 ⟨hMetrics.symm, ?_⟩
    rw [hZero, Nat.add_zero]
    exact hFont.glyphCount_lt
  refine append_eq_ok_iff.2 ⟨hAppendable, ?_⟩
  simp only [joined, hZero, hNone.bitmaps_eq_nil hZero, Psf2.unicodeMap_eq_nil hNone hZero,
    Nat.add_zero, List.append_nil, List.map_nil]

theorem append_to_no_glyphs : z.append a = .ok { a with format := z.format } := by
  have hAppendable : z.Appendable a := by
    refine hNone.appendable_iff.2 ⟨hMetrics, ?_⟩
    rw [hZero, Nat.zero_add]
    exact hFont.glyphCount_lt
  have hShift : Entry.shift 0 = id := rfl
  refine append_eq_ok_iff.2 ⟨hAppendable, ?_⟩
  simp only [joined, hZero, hNone.bitmaps_eq_nil hZero, Psf2.unicodeMap_eq_nil hNone hZero,
    Nat.zero_add, List.nil_append, hShift, List.map_id, hMetrics]

end Neutral

/-- **To append is associative, and a font without glyphs is neutral.** Of three fonts, either two
may be appended first: both ways succeed for the same fonts and give the same. Where one of the
fonts has no glyphs, the other one stays as it is, up to the format of the font in front. -/
theorem append_assoc_and_neutral (a b c : Font) :
    (∀ font, (∃ front, a.append b = .ok front ∧ front.append c = .ok font) ↔
      ∃ behind, b.append c = .ok behind ∧ a.append behind = .ok font) ∧
    ∀ z : Font, a.Obtained → z.Obtained → z.glyphCount = 0 → z.toMetrics = a.toMetrics →
      a.append z = .ok a ∧ z.append a = .ok { a with format := z.format } := by
  refine ⟨append_assoc_iff a b c, fun z hFont hNone hZero hMetrics => ?_⟩
  exact ⟨append_of_no_glyphs hFont.wellFormed hNone.wellFormed hZero hMetrics,
    append_to_no_glyphs hFont.wellFormed hNone.wellFormed hZero hMetrics⟩

/-- A letter, and a combined font without glyphs in front of it and behind it. -/
theorem append_no_letters :
    let letter : Font := ⟨⟨8, 1, 1⟩, .psf2, 1, [0x18], [⟨0, ['A']⟩]⟩
    let none : Font := ⟨⟨8, 1, 1⟩, .combined, 0, [], []⟩
    letter.Obtained ∧ none.Obtained ∧ letter.append none = .ok letter ∧
      none.append letter = .ok { letter with format := .combined } := by
  intro letter none
  let files : FileSystem := fun _ => .contents (Psf2.encode { none with format := .psf2 })
  let options : Options := ⟨Option.none, some (.ofFunction fun name => some "none")⟩
  have hLetter : letter.Obtained :=
    ⟨[.parse "a" files options (Psf2.encode letter)], "a", by decide +kernel⟩
  have hNone : none.Obtained :=
    ⟨[.parse "z" files options (PartList.encode [[0x61]])], "z", by decide +kernel⟩
  exact ⟨hLetter, hNone,
    (append_assoc_and_neutral letter letter letter).2 none hLetter hNone rfl rfl⟩

/-! ### What stands in a font that comes of an append -/

/-- The font holds the glyphs of both fonts, and their maps, where all that was behind is moved past
the glyphs in front. -/
structure HoldsBoth (font front behind : Font) : Prop where
  format_eq : font.format = front.format
  toMetrics_eq : font.toMetrics = front.toMetrics
  glyphCount_eq : font.glyphCount = front.glyphCount + behind.glyphCount
  bitmap?_front : ∀ position < front.glyphCount, font.bitmap? position = front.bitmap? position
  bitmap?_behind : ∀ position, front.glyphCount ≤ position →
    font.bitmap? position = behind.bitmap? (position - front.glyphCount)
  unicodeMap_eq : font.unicodeMap =
    front.unicodeMap ++ behind.unicodeMap.map (Entry.shift front.glyphCount)
  /-- To move a position never takes it out of its word. -/
  position_lt : ∀ entry ∈ behind.unicodeMap, entry.position + front.glyphCount < wordLimit
  positionOf?_eq : ∀ character, font.positionOf? character =
    (front.positionOf? character).or
      ((behind.positionOf? character).map (· + front.glyphCount))

theorem positionOf?_joined (front behind : Font) (character : Char) :
    (front.joined behind).positionOf? character =
      (front.positionOf? character).or
        ((behind.positionOf? character).map (· + front.glyphCount)) := by
  simp only [positionOf?, joined, List.find?_append, List.find?_map, Option.map_or, Option.map_map]
  rfl

variable {front behind : Font} (hFront : front.WellFormed) (hBehind : behind.WellFormed)
  (h : front.Appendable behind)

include hFront

theorem bitmap?_joined_front {position : Nat} (hPosition : position < front.glyphCount) :
    (front.joined behind).bitmap? position = front.bitmap? position := by
  have hCount : position < (front.joined behind).glyphCount := Nat.lt_add_right _ hPosition
  rw [bitmap?, bitmap?, if_pos hCount, if_pos hPosition]
  exact Bytes.slice?_append_left (hFront.add_glyphSize_le hPosition) behind.bitmaps

include h in
theorem bitmap?_joined_behind (position : Nat) :
    (front.joined behind).bitmap? (front.glyphCount + position) = behind.bitmap? position := by
  have hCount : front.glyphCount + position < (front.joined behind).glyphCount ↔
      position < behind.glyphCount := Nat.add_lt_add_iff_left
  have hSize : front.glyphSize = behind.glyphSize := congrArg Metrics.glyphSize h.toMetrics_eq
  have hStart : (front.glyphCount + position) * front.glyphSize =
      front.bitmaps.length + position * behind.glyphSize := by
    rw [hFront.length_bitmaps, Nat.add_mul, Nat.mul_comm front.glyphCount, hSize]
  have hSlice := Bytes.slice?_append_right front.bitmaps behind.bitmaps
    (position * behind.glyphSize) behind.glyphSize
  rw [← hStart] at hSlice
  simp only [bitmap?, hCount]
  rw [← hSlice, ← hSize]
  rfl

include hBehind h in
theorem holdsBoth_joined : (front.joined behind).HoldsBoth front behind where
  format_eq := rfl
  toMetrics_eq := rfl
  glyphCount_eq := rfl
  bitmap?_front _ hPosition := bitmap?_joined_front hFront hPosition
  bitmap?_behind position hPosition := by
    have hBoth := bitmap?_joined_behind hFront h (position - front.glyphCount)
    rwa [Nat.add_sub_cancel' hPosition] at hBoth
  unicodeMap_eq := rfl
  position_lt := by
    intro entry hEntry
    have hLt := hBehind.position_lt entry hEntry
    have hCount := h.glyphCount_lt
    show entry.position + front.glyphCount < glyphCountLimit
    omega
  positionOf?_eq := positionOf?_joined front behind

end Font

/-! ### Appending on a shelf -/

namespace Shelf

variable {shelf : Shelf} {front behind : String} {a b : Font}

theorem run_append (hNe : front ≠ behind) (hFront : shelf.find? front = some a)
    (hBehind : shelf.find? behind = some b) :
    shelf.run (.append front behind) =
      match a.append b with
      | .ok font => ⟨.font font, (shelf.remove behind).put front font, .empty⟩
      | .error failure =>
        ⟨.refused a failure, ((shelf.remove behind).put front a).put behind failure.font,
          .empty⟩ := by
  have hFound := (find?_remove_of_ne shelf hNe).trans hFront
  have hRun := a.runAppend_eq_of_append b
  cases hAppend : a.append b with
  | ok font =>
    rw [hAppend] at hRun
    simp only [run, append, hFound, hBehind, hRun]
  | error failure =>
    rw [hAppend] at hRun
    simp only [run, append, hFound, hBehind, hRun]

theorem find?_put_back (hFront : shelf.find? front = some a) (hBehind : shelf.find? behind = some b)
    (name : String) :
    (((shelf.remove behind).put front a).put behind b).find? name = shelf.find? name := by
  by_cases hNameBehind : name = behind
  · rw [hNameBehind, find?_put_self, hBehind]
  rw [find?_put_of_ne _ b hNameBehind]
  by_cases hNameFront : name = front
  · rw [hNameFront, find?_put_self, hFront]
  · rw [find?_put_of_ne _ a hNameFront, find?_remove_of_ne shelf hNameBehind]

theorem find?_of_appended (hNe : front ≠ behind) (font : Font) :
    let after := (shelf.remove behind).put front font
    after.find? front = some font ∧ after.find? behind = none ∧
      ∀ name, name ≠ front → name ≠ behind → after.find? name = shelf.find? name := by
  intro after
  refine ⟨find?_put_self _ front font, ?_, ?_⟩
  · rw [find?_put_of_ne _ font hNe.symm, find?_remove_self]
  · intro name hFront hBehind
    rw [find?_put_of_ne _ font hFront, find?_remove_of_ne shelf hBehind]

/-- **An append does all of it or nothing.** Two fonts that any run of commands leaves on a shelf
are refused exactly if their metrics differ, or else if their glyphs cannot be counted together,
while their bytes always can. Then both fonts are handed back and stand where they stood. Otherwise
the font in front holds both of them, the other one is gone, and nothing else has changed. -/
theorem append_all_or_nothing (commands : List Command) (hNe : front ≠ behind)
    (hFront : (empty.runAll commands).find? front = some a)
    (hBehind : (empty.runAll commands).find? behind = some b) :
    let shelf := empty.runAll commands
    let outcome := shelf.run (.append front behind)
    let glyphCount := a.glyphCount + b.glyphCount
    (outcome.answer = .refused a ⟨.metricsMismatch, b⟩ ↔ a.toMetrics ≠ b.toMetrics) ∧
    (outcome.answer = .refused a ⟨.lengthTooBig, b⟩ ↔
      a.toMetrics = b.toMetrics ∧ glyphCountLimit ≤ glyphCount) ∧
    (glyphCount < glyphCountLimit → glyphCount * a.glyphSize < bitmapsLimit) ∧
    ((∃ font, outcome.answer = .font font) ↔
      a.toMetrics = b.toMetrics ∧ glyphCount < glyphCountLimit) ∧
    (∀ font failure, outcome.answer = .refused font failure →
      font = a ∧ failure.font = b ∧ ∀ name, outcome.shelf.find? name = shelf.find? name) ∧
    ∀ font, outcome.answer = .font font → font.HoldsBoth a b ∧
      outcome.shelf.find? front = some font ∧ outcome.shelf.find? behind = none ∧
      ∀ name, name ≠ front → name ≠ behind → outcome.shelf.find? name = shelf.find? name := by
  intro shelf outcome glyphCount
  have hA : a.WellFormed := Font.Obtained.wellFormed ⟨commands, front, hFront⟩
  have hB : b.WellFormed := Font.Obtained.wellFormed ⟨commands, behind, hBehind⟩
  have hOutcome : outcome = _ := run_append hNe hFront hBehind
  cases hAppend : a.append b with
  | ok font =>
    obtain ⟨hAppendable, rfl⟩ := Font.append_eq_ok_iff.1 hAppend
    rw [hAppend] at hOutcome
    obtain ⟨hMetrics, hCount⟩ := hA.appendable_iff.1 hAppendable
    rw [hOutcome]
    refine ⟨?_, ?_, hA.size_lt, ?_, nofun, ?_⟩
    · exact iff_of_false nofun (not_not_intro hMetrics)
    · exact iff_of_false nofun fun h => Nat.not_lt.2 h.2 hCount
    · exact iff_of_true ⟨_, rfl⟩ ⟨hMetrics, hCount⟩
    · rintro _ ⟨⟩
      exact ⟨Font.holdsBoth_joined hA hB hAppendable, find?_of_appended hNe _⟩
  | error failure =>
    rw [hAppend] at hOutcome
    -- whatever the reason is, both fonts go back to where they were
    have hBack := find?_put_back hFront hBehind
    rcases hA.append_eq_error_iff.1 hAppend with ⟨rfl, hMetrics⟩ | ⟨rfl, hMetrics, hCount⟩
    · rw [hOutcome]
      refine ⟨iff_of_true rfl hMetrics, ?_, hA.size_lt, ?_, ?_, nofun⟩
      · exact iff_of_false nofun fun h => hMetrics h.1
      · exact iff_of_false nofun fun h => hMetrics h.1
      · rintro _ _ ⟨⟩
        exact ⟨rfl, rfl, hBack⟩
    · rw [hOutcome]
      refine ⟨?_, iff_of_true rfl ⟨hMetrics, hCount⟩, hA.size_lt, ?_, ?_, nofun⟩
      · exact iff_of_false nofun (not_not_intro hMetrics)
      · exact iff_of_false nofun fun h => Nat.not_lt.2 hCount h.2
      · rintro _ _ ⟨⟩
        exact ⟨rfl, rfl, hBack⟩

/-- A letter is appended to its copy: the glyph comes second, the letter is still found first. -/
theorem append_copy_of_letter :
    let letter : Font := ⟨⟨8, 1, 1⟩, .psf2, 1, [0x18], [⟨0, ['A']⟩]⟩
    let letters : Font := ⟨⟨8, 1, 1⟩, .psf2, 2, [0x18, 0x18], [⟨0, ['A']⟩, ⟨1, ['A']⟩]⟩
    let files : FileSystem := fun _ => .openFails .notFound
    let commands : List Command := [.parse "a" files .default (Psf2.encode letter), .copy "a" "b"]
    (empty.runAll commands).find? "b" = some letter ∧
      (empty.runAll commands).find? "a" = some letter ∧
      ((empty.runAll commands).run (.append "b" "a")).answer = .font letters ∧
      letters.HoldsBoth letter letter ∧ letters.positionOf? 'A' = some 0 := by
  intro letter letters files commands
  have hFront : (empty.runAll commands).find? "b" = some letter := by decide +kernel
  have hBehind : (empty.runAll commands).find? "a" = some letter := by decide +kernel
  have hAnswer : ((empty.runAll commands).run (.append "b" "a")).answer = .font letters := by
    decide +kernel
  have hNe : "b" ≠ "a" := by decide
  obtain ⟨_, _, _, _, _, hBoth⟩ := append_all_or_nothing commands hNe hFront hBehind
  exact ⟨hFront, hBehind, hAnswer, (hBoth letters hAnswer).1, by decide⟩

end Shelf

end ConsoleFont
