import Mathlib.Logic.ExistsUnique
import ConsoleFont.Proofs.Acceptance
import ConsoleFont.Proofs.Append

/-! # Fonts that are split and appended again

The glyphs of a file of the second PSF version can be divided among two files of the same kind, and
the table with them, as it is nothing but the lists of the glyphs one behind the other. Both are
fonts, and appending them gives the font of the whole file: in each of them the table numbers its
glyphs from zero, and an append moves the second numbering behind the first.

Main statement: `Psf2.append_of_split`.
-/

namespace ConsoleFont

/-! ### Tables -/

namespace UnicodeTable.Encoding

variable {encoding : Encoding} {count more position offset : Nat} {entries listed : List Entry}
  {data bytes front behind : Bytes}

theorem SpellsLists.split (h : encoding.SpellsLists (count + more) position entries data) :
    ∃ listed rest front behind, entries = listed ++ rest ∧ data = front ++ behind ∧
      encoding.SpellsLists count position listed front ∧
      encoding.SpellsLists more (position + count) rest behind := by
  induction count generalizing position entries data with
  | zero =>
    rw [Nat.zero_add] at h
    exact ⟨[], entries, [], data, rfl, rfl, .nil position, h⟩
  | succ count ih =>
    rw [Nat.succ_add] at h
    cases h with
    | @cons _ _ first others bytes lists hFirst hOthers =>
      obtain ⟨listed, rest, front, behind, rfl, rfl, hListed, hRest⟩ := ih hOthers
      have hPosition : position + 1 + count = position + (count + 1) := by omega
      rw [hPosition] at hRest
      refine ⟨first ++ listed, rest, bytes ++ (encoding.separator ++ front), behind, ?_, ?_,
        .cons hFirst hListed, hRest⟩
      · rw [List.append_assoc]
      · simp only [List.append_assoc]

/-- There is one way only to cut lists off the front of data. -/
theorem SpellsLists.unique {listed' : List Entry} {front' behind' : Bytes}
    (h : encoding.SpellsLists count 0 listed front)
    (h' : encoding.SpellsLists count 0 listed' front')
    (hData : front ++ behind = front' ++ behind') :
    listed = listed' ∧ front = front' ∧ behind = behind' := by
  -- lists in front are read back, and reading has one answer
  have hDecode := decode_of_spellsLists h behind
  rw [hData, decode_of_spellsLists h' behind'] at hDecode
  cases hDecode
  exact ⟨rfl, List.append_cancel_right hData, rfl⟩

/-- The same bytes spell the list of any glyph. -/
theorem SpellsEntries.exists_shift
    (h : encoding.SpellsEntries (position + offset) entries bytes) :
    ∃ moved, entries = moved.map (Entry.shift offset) ∧
      encoding.SpellsEntries position moved bytes := by
  obtain @⟨singles, sequences, _, _, hSingles, hSequences⟩ := h
  refine ⟨_, ?_, .intro hSingles hSequences⟩
  rw [List.map_append, List.map_map, List.map_map]
  rfl

theorem SpellsLists.exists_shift
    (h : encoding.SpellsLists count (position + offset) entries data) :
    ∃ moved, entries = moved.map (Entry.shift offset) ∧
      encoding.SpellsLists count position moved data := by
  induction count generalizing position entries data with
  | zero =>
    cases h
    exact ⟨[], rfl, .nil position⟩
  | succ count ih =>
    cases h with
    | @cons _ _ first others bytes lists hFirst hOthers =>
      obtain ⟨movedFirst, rfl, hMovedFirst⟩ := hFirst.exists_shift
      have hPosition : position + offset + 1 = position + 1 + offset := by omega
      rw [hPosition] at hOthers
      obtain ⟨movedOthers, rfl, hMovedOthers⟩ := ih hOthers
      exact ⟨movedFirst ++ movedOthers, by rw [List.map_append], .cons hMovedFirst hMovedOthers⟩

/-- **What is left of lists behind those of the first glyphs is lists of their own**, numbered from
zero again. -/
theorem SpellsLists.exists_behind
    (h : encoding.SpellsLists (count + more) 0 entries (front ++ behind))
    (hFront : encoding.SpellsLists count 0 listed front) :
    ∃ rest, entries = listed ++ rest.map (Entry.shift count) ∧
      encoding.SpellsLists more 0 rest behind := by
  obtain ⟨listed', rest, front', behind', rfl, hData, hListed, hRest⟩ := h.split
  obtain ⟨rfl, rfl, rfl⟩ := hFront.unique hListed hData
  obtain ⟨moved, rfl, hMoved⟩ := hRest.exists_shift
  exact ⟨moved, rfl, hMoved⟩

end UnicodeTable.Encoding

namespace Psf2

/-! ### Files put together -/

namespace Header

theorem words_ofFile {data : Bytes} (h : 32 ≤ data.length) : (ofFile data).Words :=
  words_of_read (read_drop h)

/-- The table is cut behind the lists of the first `count` glyphs. Without a table, there is nothing
to cut. -/
def CutsTable (header : Header) (data : Bytes) (count : Nat) (front behind : Bytes) : Prop :=
  if header.hasTable then
    front ++ behind = data.drop (header.headerSize + header.glyphSize * header.glyphCount) ∧
      ∃ entries, UnicodeTable.Encoding.utf8.SpellsLists count 0 entries front
  else front = [] ∧ behind = []

def glyphBytes (header : Header) (data : Bytes) (first count : Nat) : Bytes :=
  data.extract (header.headerSize + first * header.glyphSize)
    (header.headerSize + (first + count) * header.glyphSize)

/-- The file of `count` glyphs from `first` on, with a table of its own and everything else as it is
in the whole file. -/
def piece (header : Header) (data : Bytes) (first count : Nat) (table : Bytes) : Bytes :=
  { header with glyphCount := count }.file (header.glyphBytes data first count) table

def pieceFont (header : Header) (data : Bytes) (first count : Nat) (unicodeMap : List Entry) :
    Font where
  width := header.width
  height := header.height
  glyphSize := header.glyphSize
  format := .psf2
  glyphCount := count
  bitmaps := header.glyphBytes data first count
  unicodeMap := unicodeMap

variable {header : Header} {data : Bytes} {count more : Nat} {entries : List Entry}

/-- A table can be cut, and at one place only. -/
theorem existsUnique_cutsTable (hMaps : header.Maps data entries)
    (hCount : header.glyphCount = count + more) :
    ∃! tables : Bytes × Bytes, header.CutsTable data count tables.1 tables.2 := by
  by_cases hTable : header.hasTable = true
  · rw [Maps, if_pos hTable, hCount] at hMaps
    obtain ⟨listed, _, front, behind, _, hData, hListed, _⟩ := hMaps.split
    rw [← hCount] at hData
    refine ⟨(front, behind), ?_, ?_⟩
    · show header.CutsTable data count front behind
      rw [CutsTable, if_pos hTable]
      exact ⟨hData.symm, listed, hListed⟩
    · rintro ⟨front', behind'⟩ hCut
      rw [CutsTable, if_pos hTable] at hCut
      obtain ⟨hData', _, hListed'⟩ := hCut
      obtain ⟨_, hFront, hBehind⟩ := hListed'.unique hListed (hData'.trans hData)
      exact Prod.ext hFront hBehind
  · refine ⟨([], []), ?_, ?_⟩
    · show header.CutsTable data count [] []
      rw [CutsTable, if_neg hTable]
      exact ⟨rfl, rfl⟩
    · rintro ⟨front', behind'⟩ hCut
      rw [CutsTable, if_neg hTable] at hCut
      exact Prod.ext hCut.1 hCut.2

theorem exists_maps_of_cutsTable (hMaps : header.Maps data entries)
    (hCount : header.glyphCount = count + more) {front behind : Bytes}
    (hCut : header.CutsTable data count front behind) :
    ∃ listed rest, entries = listed ++ rest.map (Entry.shift count) ∧
      UnicodeTable.decodeIf header.hasTable .utf8 count front = .ok listed ∧
      UnicodeTable.decodeIf header.hasTable .utf8 more behind = .ok rest := by
  unfold Maps at hMaps
  unfold CutsTable at hCut
  unfold UnicodeTable.decodeIf
  cases hTable : header.hasTable with
  | true =>
    rw [if_pos hTable] at hMaps hCut
    obtain ⟨hData, listed, hListed⟩ := hCut
    rw [← hData, hCount] at hMaps
    obtain ⟨rest, hEntries, hRest⟩ := hMaps.exists_behind hListed
    exact ⟨listed, rest, hEntries, UnicodeTable.decodeAll_eq_ok_iff.2 hListed,
      UnicodeTable.decodeAll_eq_ok_iff.2 hRest⟩
  | false =>
    rw [if_neg (by rw [hTable]; exact Bool.false_ne_true)] at hMaps
    exact ⟨[], [], hMaps, rfl, rfl⟩

theorem length_glyphBytes (hFits : header.Fits data.length) {first : Nat}
    (hLe : first + count ≤ header.glyphCount) :
    (header.glyphBytes data first count).length = header.glyphSize * count := by
  have hRoom := hFits.bitmaps_le
  have hMul : header.glyphSize * (first + count) ≤ header.glyphSize * header.glyphCount :=
    Nat.mul_le_mul_left _ hLe
  rw [Nat.mul_add] at hMul
  rw [glyphBytes, List.extract_eq_take_drop, List.length_take, List.length_drop, Nat.add_mul,
    Nat.mul_comm first, Nat.mul_comm count]
  omega

theorem glyphBytes_append (header : Header) (data : Bytes) (count more : Nat) :
    header.glyphBytes data 0 count ++ header.glyphBytes data count more =
      (data.drop header.headerSize).take (header.glyphSize * (count + more)) := by
  have hFirst : header.headerSize + (0 + count) * header.glyphSize -
      (header.headerSize + 0 * header.glyphSize) = header.glyphSize * count := by
    rw [Nat.zero_add, Nat.zero_mul, Nat.mul_comm]
    omega
  have hSecond : header.headerSize + (count + more) * header.glyphSize -
      (header.headerSize + count * header.glyphSize) = header.glyphSize * more := by
    rw [Nat.add_mul, Nat.mul_comm more]
    omega
  rw [glyphBytes, glyphBytes, List.extract_eq_take_drop, List.extract_eq_take_drop, hFirst, hSecond,
    Nat.mul_add, List.take_add, List.drop_drop, Nat.zero_mul, Nat.add_zero, Nat.mul_comm count]

theorem append_pieceFont {listed rest : List Entry} (hCount : header.glyphCount = count + more)
    (hLt : header.glyphCount < glyphCountLimit)
    (hWell : (header.pieceFont data 0 count listed).WellFormed) :
    (header.pieceFont data 0 count listed).append (header.pieceFont data count more rest) =
      .ok (header.font data (listed ++ rest.map (Entry.shift count))) := by
  have hMetrics : (header.pieceFont data 0 count listed).toMetrics =
      (header.pieceFont data count more rest).toMetrics := rfl
  have hSum : (header.pieceFont data 0 count listed).glyphCount +
      (header.pieceFont data count more rest).glyphCount < glyphCountLimit := by
    rwa [hCount] at hLt
  obtain ⟨joined, hAppend⟩ := Font.exists_append hWell hMetrics hSum
  obtain ⟨_, _, hJoined⟩ := Font.append_eq_ok hAppend
  have hBitmaps : header.glyphBytes data 0 count ++ header.glyphBytes data count more =
      (data.drop header.headerSize).take (header.glyphSize * header.glyphCount) := by
    rw [hCount]
    exact header.glyphBytes_append data count more
  have hWhole : joined = header.font data (listed ++ rest.map (Entry.shift count)) := by
    rw [hJoined, font, ← hBitmaps, hCount]
    rfl
  rw [hAppend, hWhole]

end Header

open Header

theorem signs_file (header : Header) (bitmaps table : Bytes) :
    Format.psf2.Signs (header.file bitmaps table) :=
  Format.signs_psf2.2 (List.prefix_append ..)

theorem decode_file {header : Header} {bitmaps table : Bytes} {entries : List Entry}
    (hWords : header.Words) (hHeader : header.headerSize = headerSize)
    (hFits : header.Fits (header.file bitmaps table).length)
    (hBitmaps : bitmaps.length = header.glyphSize * header.glyphCount)
    (hTable : UnicodeTable.decodeIf header.hasTable .utf8 header.glyphCount table = .ok entries) :
    decode (header.file bitmaps table) =
      .ok ⟨⟨header.width, header.height, header.glyphSize⟩, .psf2, header.glyphCount, bitmaps,
        entries⟩ := by
  have hDecode := decode_of_read (read_encode hWords (bitmaps ++ table))
  have hBehind : header.table (header.file bitmaps table) = table := by
    rw [Header.table, hHeader, drop_file, List.drop_left' hBitmaps]
  have hFront : ((header.file bitmaps table).drop header.headerSize).take
      (header.glyphSize * header.glyphCount) = bitmaps := by
    rw [hHeader, drop_file, List.take_left' hBitmaps]
  rw [← Header.file, fault?_eq_none_iff.2 hFits] at hDecode
  simp only at hDecode
  rw [hDecode, hBehind, hTable, Except.map, Header.font, hFront]

theorem length_file (header : Header) (bitmaps table : Bytes) :
    (header.file bitmaps table).length = headerSize + (bitmaps.length + table.length) := by
  simp only [Header.file, List.length_append, Bytes.length_ofWord, length_encode, headerSize]
  omega

theorem decode_piece {data : Bytes} (hLength : 32 ≤ data.length)
    (hFits : (ofFile data).Fits data.length) (hHeader : (ofFile data).headerSize = headerSize)
    (first : Nat) {count : Nat} {table : Bytes} {entries : List Entry} (hPos : 1 ≤ count)
    (hLe : first + count ≤ (ofFile data).glyphCount)
    (hTable : UnicodeTable.decodeIf (ofFile data).hasTable .utf8 count table = .ok entries) :
    decode ((ofFile data).piece data first count table) =
      .ok ((ofFile data).pieceFont data first count entries) := by
  have hWords := words_ofFile hLength
  have hBitmaps := length_glyphBytes hFits hLe
  have hCount : count < wordLimit := by
    have hLt := hWords.glyphCount_lt
    omega
  refine decode_file ⟨hWords.version_lt, hWords.headerSize_lt, hWords.flags_lt, hCount,
    hWords.glyphSize_lt, hWords.height_lt, hWords.width_lt⟩ hHeader ?_ hBitmaps hTable
  refine ⟨hFits.version_eq, hFits.glyphSize_pos, hFits.width_pos, hFits.height_eq, ?_⟩
  show (ofFile data).headerSize + (ofFile data).glyphSize * max count 1 ≤ _
  rw [length_file, hBitmaps, Nat.max_eq_left hPos, hHeader]
  omega

/-- **A file may be split, and its parts appended.** However many glyphs stay in front, the table
can be cut behind their lists at one place only, both parts are fonts, and appending them gives the
font of the whole file. -/
theorem append_of_split (files : FileSystem) (options : Options) {data : Bytes} {whole : Font}
    {count more : Nat} (hSigns : Format.psf2.Signs data)
    (hParse : (Font.parse files options data).result = .ok whole)
    (hHeader : (ofFile data).headerSize = 32)
    (hCount : (ofFile data).glyphCount = count + more) (hPos : 1 ≤ count) (hMore : 1 ≤ more) :
    let header := ofFile data
    (∃! tables : Bytes × Bytes, header.CutsTable data count tables.1 tables.2) ∧
    ∀ front behind, header.CutsTable data count front behind →
      ∃ first second,
        (Font.parse files options (header.piece data 0 count front)).result = .ok first ∧
        (Font.parse files options (header.piece data count more behind)).result = .ok second ∧
        first.append second = .ok whole := by
  intro header
  rw [Font.result_parse_psf2 files options hSigns] at hParse
  obtain ⟨hLength, hFits, entries, hMaps, rfl⟩ := (decode_eq_ok_iff hSigns).1 hParse
  refine ⟨existsUnique_cutsTable hMaps hCount, ?_⟩
  intro front behind hCut
  obtain ⟨listed, rest, rfl, hListed, hRest⟩ := exists_maps_of_cutsTable hMaps hCount hCut
  have hFirst := decode_piece hLength hFits hHeader 0 hPos (by omega) hListed
  have hSecond := decode_piece hLength hFits hHeader count hMore (by omega) hRest
  exact ⟨_, _, (Font.result_parse_psf2 files options (signs_file _ _ _)).trans hFirst,
    (Font.result_parse_psf2 files options (signs_file _ _ _)).trans hSecond,
    append_pieceFont hCount (words_ofFile hLength).glyphCount_lt (wellFormed_of_decode hFirst)⟩

/-- The table spells one letter in more bytes than it needs, and one as a sequence of its own. -/
theorem append_of_split_letters :
    let files : FileSystem := fun _ => .openFails .notFound
    let data := Header.file ⟨0, 32, 1, 2, 1, 1, 8⟩ [0x18, 0x24] [0xC1, 0x81, 0xFF, 0xFE, 0x42, 0xFF]
    let whole : Font := ⟨⟨8, 1, 1⟩, .psf2, 2, [0x18, 0x24], [⟨0, ['A']⟩, ⟨1, ['B']⟩]⟩
    let header := ofFile data
    Format.psf2.Signs data ∧ (Font.parse files .default data).result = .ok whole ∧
      header.headerSize = 32 ∧ header.glyphCount = 1 + 1 ∧
      header.CutsTable data 1 [0xC1, 0x81, 0xFF] [0xFE, 0x42, 0xFF] ∧
      ∃ first second,
        (Font.parse files .default (header.piece data 0 1 [0xC1, 0x81, 0xFF])).result = .ok first ∧
        (Font.parse files .default (header.piece data 1 1 [0xFE, 0x42, 0xFF])).result =
          .ok second ∧
        first.append second = .ok whole := by
  intro files data whole header
  have hSigns : Format.psf2.Signs data := by decide
  have hParse : (Font.parse files .default data).result = .ok whole :=
    eq_ok_of_toOption (by decide +kernel)
  have hHeader : header.headerSize = 32 := by decide
  have hCount : header.glyphCount = 1 + 1 := by decide
  have hList : UnicodeTable.decodeAll .utf8 1 [0xC1, 0x81, 0xFF] = .ok [⟨0, ['A']⟩] :=
    eq_ok_of_toOption (by decide +kernel)
  have hCut : header.CutsTable data 1 [0xC1, 0x81, 0xFF] [0xFE, 0x42, 0xFF] := by
    rw [CutsTable, if_pos (by decide)]
    exact ⟨by decide, _, UnicodeTable.decodeAll_eq_ok_iff.1 hList⟩
  have hSplit := append_of_split files .default hSigns hParse hHeader hCount (by decide) (by decide)
  exact ⟨hSigns, hParse, hHeader, hCount, hCut, hSplit.2 _ _ hCut⟩

end Psf2

end ConsoleFont
