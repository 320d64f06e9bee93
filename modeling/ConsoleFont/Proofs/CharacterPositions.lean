import ConsoleFont.Proofs.Shelf
import Mathlib.Order.Bounds.Basic

/-! # Where a font shows a character

Looking a character up goes through the map in the order of the file and stops at the first entry
that is this one character. The map of a well-formed font goes through the glyphs in order, so that
the entry found is also the one of the lowest font position (`WellFormed.positionOf?_eq_some_iff`).
An entry of several characters is passed over, whatever its characters are
(`positionOf?_eq_of_filter`).

Main statement: `Obtained.positionOf?_least`.
-/

namespace ConsoleFont.Font

/-- The glyph at the font position shows this one character. -/
def Shows (font : Font) (character : Char) (position : Nat) : Prop :=
  .single position character ∈ font.unicodeMap

variable {font : Font} {character : Char} {position : Nat}

theorem exists_of_positionOf? (h : font.positionOf? character = some position) :
    ∃ front behind, font.unicodeMap = front ++ .single position character :: behind ∧
      ∀ entry ∈ front, entry.characters ≠ [character] := by
  obtain ⟨entry, hFind, rfl⟩ := Option.map_eq_some_iff.1 h
  obtain ⟨hEntry, front, behind, hMap, hFront⟩ := List.find?_eq_some_iff_append.1 hFind
  have hSingle : entry = .single entry.position character := by
    rw [Entry.single, ← beq_iff_eq.1 hEntry]
  refine ⟨front, behind, hSingle ▸ hMap, ?_⟩
  intro other hOther hCharacters
  simpa [hCharacters] using hFront other hOther

theorem Shows.of_positionOf? (h : font.positionOf? character = some position) :
    font.Shows character position := by
  obtain ⟨front, behind, hMap, _⟩ := exists_of_positionOf? h
  rw [Shows, hMap]
  exact List.mem_append_right front List.mem_cons_self

theorem positionOf?_eq_none_iff :
    font.positionOf? character = none ↔ ∀ position, ¬ font.Shows character position := by
  rw [positionOf?, Option.map_eq_none_iff, List.find?_eq_none]
  constructor
  · intro hNone position hShows
    exact hNone _ hShows (beq_self_eq_true [character])
  · intro hNone entry hEntry hCharacters
    apply hNone entry.position
    rwa [Shows, Entry.single, ← beq_iff_eq.1 hCharacters]

theorem positionOf?_eq_of_filter {other : Font}
    (h : (other.unicodeMap.filter fun entry => !entry.isSequence) =
      font.unicodeMap.filter fun entry => !entry.isSequence) (character : Char) :
    other.positionOf? character = font.positionOf? character := by
  have hSkip (map : List Entry) : (map.filter fun entry => !entry.isSequence).find?
      (fun entry => entry.characters == [character]) =
        map.find? fun entry => entry.characters == [character] := by
    rw [List.find?_filter]
    congr 1
    funext entry
    by_cases hEntry : entry.characters = [character]
    · simp [hEntry, Entry.isSequence]
    · simp [hEntry]
  rw [positionOf?, positionOf?, ← hSkip other.unicodeMap, h, hSkip]

namespace WellFormed

variable (h : font.WellFormed)

include h

theorem isLeast_of_positionOf? (hFound : font.positionOf? character = some position) :
    IsLeast {position | font.Shows character position} position := by
  refine ⟨.of_positionOf? hFound, ?_⟩
  intro other hOther
  obtain ⟨front, behind, hMap, hFront⟩ := exists_of_positionOf? hFound
  have hSorted := h.sorted
  rw [hMap] at hSorted
  have hBehind := (List.pairwise_cons.1 (List.pairwise_append.1 hSorted).2.1).1
  have hMem : Entry.single other character ∈ font.unicodeMap := hOther
  rw [hMap] at hMem
  -- in front there is no such entry, and behind no lower position
  rcases List.mem_append.1 hMem with hMem | hMem
  · exact absurd rfl (hFront _ hMem)
  rcases List.mem_cons.1 hMem with hEq | hMem
  · exact Nat.le_of_eq (congrArg Entry.position hEq).symm
  · exact hBehind _ hMem

/-- **The position found is the lowest one** that shows the character. -/
theorem positionOf?_eq_some_iff : font.positionOf? character = some position ↔
    IsLeast {position | font.Shows character position} position := by
  refine ⟨h.isLeast_of_positionOf?, fun hLeast => ?_⟩
  cases hFound : font.positionOf? character with
  | none => exact absurd hLeast.1 (positionOf?_eq_none_iff.1 hFound position)
  | some found => rw [(h.isLeast_of_positionOf? hFound).unique hLeast]

theorem lt_of_shows (hShows : font.Shows character position) : position < font.glyphCount :=
  h.position_lt _ hShows

end WellFormed

/-- **Looking a character up in a font finds the lowest position that shows it**, whichever parses,
loads and appends the font has come from. Nothing is found only where no entry is this one
character, what is found is the position of a glyph, and sequences do not matter. -/
theorem Obtained.positionOf?_least (font : Font) (hFont : font.Obtained) (character : Char) :
    (∀ position, font.positionOf? character = some position ↔
      IsLeast {position | font.Shows character position} position) ∧
    (font.positionOf? character = none ↔ ∀ position, ¬ font.Shows character position) ∧
    (∀ position, font.positionOf? character = some position →
      position < font.glyphCount ∧ ∃ bitmap, font.bitmap? position = some bitmap) ∧
    ∀ unicodeMap : List Entry,
      (unicodeMap.filter fun entry => !entry.isSequence) =
        (font.unicodeMap.filter fun entry => !entry.isSequence) →
      { font with unicodeMap }.positionOf? character = font.positionOf? character := by
  have hWell := hFont.wellFormed
  refine ⟨fun position => hWell.positionOf?_eq_some_iff, positionOf?_eq_none_iff, ?_, ?_⟩
  · intro position hFound
    have hLt := hWell.lt_of_shows (.of_positionOf? hFound)
    exact ⟨hLt, _, hWell.bitmap?_eq hLt⟩
  · intro unicodeMap hMap
    exact positionOf?_eq_of_filter hMap character

/-- A list of a font that has the letter in a sequence alone, and of a list of two letters. -/
theorem positionOf?_of_nested_list :
    let accented : Font := ⟨⟨8, 1, 1⟩, .psf2, 1, [0x3C], [⟨0, ['A', '\u0308']⟩]⟩
    let letter : Font := ⟨⟨8, 1, 1⟩, .psf2, 1, [0x18], [⟨0, ['A']⟩]⟩
    let font : Font := ⟨⟨8, 1, 1⟩, .combined, 3, [0x3C, 0x18, 0x18],
      [⟨0, ['A', '\u0308']⟩, ⟨1, ['A']⟩, ⟨2, ['A']⟩]⟩
    let find : Bytes → Option Path := fun name =>
      if name = [0x61] then some "accented"
      else if name = [0x62] then some "list" else some "letter"
    let files : FileSystem := fun path =>
      .contents (if path = "accented" then Psf2.encode accented
        else if path = "list" then PartList.encode [[0x63], [0x63]] else Psf2.encode letter)
    let options : Options := ⟨none, some (.ofFunction find)⟩
    (Font.parse files options (PartList.encode [[0x61], [0x62]])).result = .ok font ∧
      font.Obtained ∧ font.positionOf? 'A' = some 1 ∧ font.positionOf? 'B' = none ∧
      IsLeast {position | font.Shows 'A' position} 1 ∧ (∀ position, ¬ font.Shows 'B' position) ∧
      1 < font.glyphCount ∧
      { font with unicodeMap := [⟨1, ['A']⟩, ⟨2, ['A']⟩] }.positionOf? 'A' = some 1 := by
  intro accented letter font find files options
  have hParse : (Font.parse files options (PartList.encode [[0x61], [0x62]])).result = .ok font :=
    eq_ok_of_toOption (by decide +kernel)
  have hFont : font.Obtained := .of_parse hParse
  have hA := hFont.positionOf?_least font 'A'
  have hB := hFont.positionOf?_least font 'B'
  have hFoundA : font.positionOf? 'A' = some 1 := by decide
  have hFoundB : font.positionOf? 'B' = none := by decide
  exact ⟨hParse, hFont, hFoundA, hFoundB, (hA.1 1).1 hFoundA, hB.2.1.1 hFoundB,
    (hA.2.2.1 1 hFoundA).1, (hA.2.2.2 _ rfl).trans hFoundA⟩

end ConsoleFont.Font
