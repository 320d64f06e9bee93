import ConsoleFont.Proofs.Bitmaps
import ConsoleFont.Proofs.Detection

/-! # Which files of the second PSF version are read

Behind its signature, a file is asked one thing after the other (`Header.checks`), all of them in
exact arithmetic on the words that stand at fixed places of the file (`Header.ofFile`). It is a font
if it fits what its header says and if the bytes behind the bitmaps are a table, where there has to
be one; otherwise it is refused for the first thing that does not hold.

Main statement: `Psf2.parse_of_signs`.
-/

namespace ConsoleFont

/-- The first of the conditions that does not hold is the one that goes with this error. -/
inductive FirstFailing : List (Prop × Error) → Error → Prop
  | here {condition : Prop} {error : Error} (behind : List (Prop × Error)) : ¬ condition →
      FirstFailing ((condition, error) :: behind) error
  | behind {condition : Prop} {other error : Error} {behind : List (Prop × Error)} : condition →
      FirstFailing behind error → FirstFailing ((condition, other) :: behind) error

namespace FirstFailing

theorem not_nil (error : Error) : ¬ FirstFailing [] error := nofun

theorem cons_iff_of_holds {condition : Prop} {other error : Error} {behind : List (Prop × Error)}
    (h : condition) :
    FirstFailing ((condition, other) :: behind) error ↔ FirstFailing behind error := by
  constructor
  · intro hFailing
    cases hFailing with
    | here _ hNot => exact absurd h hNot
    | behind _ hBehind => exact hBehind
  · exact .behind h

theorem cons_iff_of_fails {condition : Prop} {other error : Error} {behind : List (Prop × Error)}
    (h : ¬ condition) : FirstFailing ((condition, other) :: behind) error ↔ error = other := by
  constructor
  · intro hFailing
    cases hFailing with
    | here => rfl
    | behind hCondition => exact absurd hCondition h
  · rintro rfl
    exact .here behind h

theorem ite_eq_some_iff {fails condition : Prop} [Decidable fails] {other error : Error}
    {checked : Option Error} {behind : List (Prop × Error)} (h : fails ↔ ¬ condition)
    (hBehind : condition → (checked = some error ↔ FirstFailing behind error)) :
    (if fails then some other else checked) = some error ↔
      FirstFailing ((condition, other) :: behind) error := by
  by_cases hFails : fails
  · rw [if_pos hFails, cons_iff_of_fails (h.1 hFails), Option.some.injEq, eq_comm]
  · have hCondition : condition := Classical.not_not.1 fun hNot => hFails (h.2 hNot)
    rw [if_neg hFails, cons_iff_of_holds hCondition, hBehind hCondition]

end FirstFailing

namespace Psf2

namespace Header

/-! ### The words of a file -/

/-- The number in the four bytes of a word of the file, the low byte first. -/
def wordAt (data : Bytes) (index : Nat) : Nat :=
  ((data.drop (4 * index)).take 4).foldr (fun byte number => byte.toNat + 256 * number) 0

def ofFile (data : Bytes) : Header where
  version := wordAt data 1
  headerSize := wordAt data 2
  flags := wordAt data 3
  glyphCount := wordAt data 4
  glyphSize := wordAt data 5
  height := wordAt data 6
  width := wordAt data 7

theorem word_drop {data : Bytes} {index : Nat} (h : 4 * (index + 1) ≤ data.length) :
    Reader.word (data.drop (4 * index)) = .ok (wordAt data index, data.drop (4 * (index + 1))) := by
  have hRest : data.drop (4 * (index + 1)) = (data.drop (4 * index)).drop 4 := by
    rw [List.drop_drop, Nat.mul_succ]
  have hLength : 4 ≤ (data.drop (4 * index)).length := by
    rw [List.length_drop]
    omega
  rw [hRest, wordAt]
  generalize data.drop (4 * index) = bytes at hLength
  match bytes, hLength with
  | a :: b :: c :: d :: rest, _ =>
    refine Reader.word_eq_ok_iff.2 ⟨a, b, c, d, rfl, ?_⟩
    simp only [List.take_succ_cons, List.take_zero, List.foldr_cons, List.foldr_nil]
    omega

theorem read_drop {data : Bytes} (h : 32 ≤ data.length) :
    read (data.drop (4 * 1)) = .ok (ofFile data) := by
  rw [read]
  iterate 6
    rw [word_drop (by omega), ok_bind]
    simp only
  rw [word_drop (by omega), ok_bind]
  rfl

theorem length_of_read {data : Bytes} {header : Header} (h : read data = .ok header) :
    28 ≤ data.length := by
  simp only [read, bind_eq_ok_iff] at h
  obtain ⟨⟨_, _⟩, h₁, ⟨_, _⟩, h₂, ⟨_, _⟩, h₃, ⟨_, _⟩, h₄, ⟨_, _⟩, h₅,
    ⟨_, _⟩, h₆, ⟨_, _⟩, h₇, _⟩ := h
  have hLength₁ := Reader.length_of_word h₁
  have hLength₂ := Reader.length_of_word h₂
  have hLength₃ := Reader.length_of_word h₃
  have hLength₄ := Reader.length_of_word h₄
  have hLength₅ := Reader.length_of_word h₅
  have hLength₆ := Reader.length_of_word h₆
  have hLength₇ := Reader.length_of_word h₇
  simp only at hLength₁ hLength₂ hLength₃ hLength₄ hLength₅ hLength₆ hLength₇
  omega

/-! ### The checks -/

/-- What a file of `size` bytes is asked, in order, and what it is refused for. Whether the numbers
overflow is no question, as they are natural numbers. -/
def checks (header : Header) (size : Nat) : List (Prop × Error) :=
  [(32 ≤ size, .badHeader .psf2),
    (header.version = 0, .unsupportedVersion header.version),
    (header.headerSize ≤ size, .offsetTooBig),
    (1 ≤ header.glyphSize, .glyphSizeZero),
    (header.headerSize + header.glyphSize ≤ size, .glyphSizeTooBig),
    (header.headerSize + header.glyphSize * header.glyphCount ≤ size, .lengthTooBig),
    (1 ≤ header.width, .glyphSizeZero),
    (header.height = header.glyphSize / pitch header.width, .glyphSizeTooBig)]

/-- **A header is refused for the first check that fails.** -/
theorem fault?_eq_some_iff {header : Header} {size : Nat} {error : Error} (h : 32 ≤ size) :
    header.fault? size = some error ↔ FirstFailing (header.checks size) error := by
  rw [checks, FirstFailing.cons_iff_of_holds h, fault?]
  -- check by check, each with what the checks before it have made sure of
  refine FirstFailing.ite_eq_some_iff (by rfl) fun hVersion => ?_
  refine FirstFailing.ite_eq_some_iff (by omega) fun hHeader => ?_
  refine FirstFailing.ite_eq_some_iff (by omega) fun hSize => ?_
  refine FirstFailing.ite_eq_some_iff (by omega) fun hOne => ?_
  refine FirstFailing.ite_eq_some_iff ?_ fun hAll => ?_
  · rw [← Nat.not_le, Nat.le_div_iff_mul_le hSize, Nat.mul_comm header.glyphCount]
    omega
  refine FirstFailing.ite_eq_some_iff (by omega) fun hWidth => ?_
  refine FirstFailing.ite_eq_some_iff (by rfl) fun hHeight => ?_
  refine iff_of_false ?_ (FirstFailing.not_nil error)
  intro hNone
  cases hNone

/-! ### The table -/

/-- The map is spelled by the bytes behind the bitmaps, or empty where there is no table. -/
def Maps (header : Header) (data : Bytes) (entries : List Entry) : Prop :=
  if header.hasTable then
    UnicodeTable.Encoding.utf8.SpellsLists header.glyphCount 0 entries
      (data.drop (header.headerSize + header.glyphSize * header.glyphCount))
  else entries = []

/-- There is to be a table, and the bytes behind the bitmaps either are none or do not end behind
it. -/
def TableFault (header : Header) (data : Bytes) (error : Error) : Prop :=
  let behind := data.drop (header.headerSize + header.glyphSize * header.glyphCount)
  header.hasTable = true ∧
    (UnicodeTable.Encoding.utf8.FaultyLists header.glyphCount 0 behind error ∨
      error = .trailingGarbage ∧ ∃ entries lists rest, behind = lists ++ rest ∧
        UnicodeTable.Encoding.utf8.SpellsLists header.glyphCount 0 entries lists ∧ rest ≠ [])

theorem table_eq (header : Header) (data : Bytes) :
    header.table data =
      data.drop (header.headerSize + header.glyphSize * header.glyphCount) := by
  rw [table, List.drop_drop]

theorem decodeIf_eq_ok_iff {header : Header} {data : Bytes} {entries : List Entry} :
    UnicodeTable.decodeIf header.hasTable .utf8 header.glyphCount (header.table data) =
      .ok entries ↔ header.Maps data entries := by
  rw [UnicodeTable.decodeIf, Maps, table_eq]
  split
  · exact UnicodeTable.decodeAll_eq_ok_iff
  · rw [Except.ok.injEq, eq_comm]

theorem decodeIf_eq_error_iff {header : Header} {data : Bytes} {error : Error} :
    UnicodeTable.decodeIf header.hasTable .utf8 header.glyphCount (header.table data) =
      .error error ↔ header.TableFault data error := by
  rw [UnicodeTable.decodeIf, TableFault, table_eq]
  split
  · rename_i hTable
    rw [UnicodeTable.decodeAll_eq_error_iff]
    exact (and_iff_right hTable).symm
  · rename_i hTable
    exact iff_of_false nofun fun h => hTable h.1

/-! ### The font -/

/-- The font is what the header says, with the bitmaps that stand in the file. -/
structure Describes (header : Header) (data : Bytes) (font : Font) : Prop where
  toMetrics_eq : font.toMetrics = ⟨header.width, header.height, header.glyphSize⟩
  format_eq : font.format = .psf2
  glyphCount_eq : font.glyphCount = header.glyphCount
  bitmap?_eq : ∀ position < header.glyphCount, font.bitmap? position =
    some (data.extract (header.headerSize + position * header.glyphSize)
      (header.headerSize + (position + 1) * header.glyphSize))
  maps : header.Maps data font.unicodeMap

theorem slice?_take_drop {data : Bytes} {start size first length : Nat}
    (hSize : start + size ≤ data.length) (h : first + length ≤ size) :
    Bytes.slice? ((data.drop start).take size) first length =
      some (data.extract (start + first) (start + (first + length))) := by
  refine Bytes.slice?_eq_some_iff.2 ⟨?_, ?_⟩
  · rw [List.length_take, List.length_drop]
    omega
  · rw [List.drop_take, List.take_take, List.drop_drop, List.extract_eq_take_drop]
    congr 1
    omega

theorem bitmap?_font {header : Header} {data : Bytes} (hFits : header.Fits data.length)
    (unicodeMap : List Entry) {position : Nat} (h : position < header.glyphCount) :
    (header.font data unicodeMap).bitmap? position =
      some (data.extract (header.headerSize + position * header.glyphSize)
        (header.headerSize + (position + 1) * header.glyphSize)) := by
  have hMul : (position + 1) * header.glyphSize ≤ header.glyphSize * header.glyphCount := by
    rw [Nat.mul_comm header.glyphSize]
    exact Nat.mul_le_mul_right _ h
  rw [Nat.add_mul, Nat.one_mul] at hMul ⊢
  exact (if_pos h).trans (slice?_take_drop hFits.bitmaps_le hMul)

theorem describes_font {header : Header} {data : Bytes} {unicodeMap : List Entry}
    (hFits : header.Fits data.length) (hMap : header.Maps data unicodeMap) :
    header.Describes data (header.font data unicodeMap) where
  toMetrics_eq := rfl
  format_eq := rfl
  glyphCount_eq := rfl
  bitmap?_eq _ := bitmap?_font hFits unicodeMap
  maps := hMap

end Header

/-! ### The file -/

open Header

theorem drop_of_signs {data : Bytes} (h : Format.psf2.Signs data) :
    data = Bytes.ofWord magic ++ data.drop (4 * 1) := by
  obtain ⟨behind, rfl⟩ := Format.signs_psf2.1 h
  rfl

theorem decode_of_short_file {data : Bytes} (hSigns : Format.psf2.Signs data)
    (h : data.length < 32) : decode data = .error (.badHeader .psf2) := by
  rw [drop_of_signs hSigns]
  cases hRead : Header.read (data.drop (4 * 1)) with
  | error error => exact decode_of_read_error hRead
  | ok header =>
    have hLength := length_of_read hRead
    rw [List.length_drop] at hLength
    omega

theorem decode_of_signs {data : Bytes} (hSigns : Format.psf2.Signs data) (h : 32 ≤ data.length) :
    decode data =
      match (ofFile data).fault? data.length with
      | some error => .error error
      | none =>
        (UnicodeTable.decodeIf (ofFile data).hasTable .utf8 (ofFile data).glyphCount
          ((ofFile data).table data)).map ((ofFile data).font data) := by
  have hDecode := decode_of_read (read_drop h)
  rwa [← drop_of_signs hSigns] at hDecode

theorem decode_eq_ok_iff {data : Bytes} (hSigns : Format.psf2.Signs data) {font : Font} :
    decode data = .ok font ↔ 32 ≤ data.length ∧ (ofFile data).Fits data.length ∧
      ∃ entries, (ofFile data).Maps data entries ∧ (ofFile data).font data entries = font := by
  by_cases hLength : 32 ≤ data.length
  · rw [decode_of_signs hSigns hLength, and_iff_right hLength]
    cases hFault : (ofFile data).fault? data.length with
    | some error =>
      refine iff_of_false nofun fun h => ?_
      rw [fault?_eq_none_iff.2 h.1] at hFault
      cases hFault
    | none =>
      rw [and_iff_right (fault?_eq_none_iff.1 hFault), map_eq_ok_iff]
      simp only [decodeIf_eq_ok_iff]
  · rw [decode_of_short_file hSigns (Nat.not_le.1 hLength)]
    exact iff_of_false nofun fun h => hLength h.1

theorem decode_eq_error_iff {data : Bytes} (hSigns : Format.psf2.Signs data) {error : Error} :
    decode data = .error error ↔ FirstFailing ((ofFile data).checks data.length) error ∨
      32 ≤ data.length ∧ (ofFile data).Fits data.length ∧ (ofFile data).TableFault data error := by
  by_cases hLength : 32 ≤ data.length
  · rw [decode_of_signs hSigns hLength, ← fault?_eq_some_iff hLength, and_iff_right hLength,
      ← fault?_eq_none_iff]
    cases hFault : (ofFile data).fault? data.length with
    | some other => simp
    | none => simp [map_eq_error_iff, decodeIf_eq_error_iff]
  · rw [decode_of_short_file hSigns (Nat.not_le.1 hLength), checks,
      FirstFailing.cons_iff_of_fails hLength]
    simp [hLength, eq_comm]

/-- **The files of this version that are read**, under all options: for every length of the file and
all values of the words behind its signature. -/
theorem parse_of_signs (files : FileSystem) (options : Options) {data : Bytes}
    (hSigns : Format.psf2.Signs data) :
    let header := ofFile data
    let result := (Font.parse files options data).result
    ((∃ font, result = .ok font) ↔
      32 ≤ data.length ∧ header.Fits data.length ∧ ∃ entries, header.Maps data entries) ∧
    (∀ font, result = .ok font → header.Describes data font) ∧
    ∀ error, result = .error error ↔ FirstFailing (header.checks data.length) error ∨
      32 ≤ data.length ∧ header.Fits data.length ∧ header.TableFault data error := by
  intro header result
  have hList : ¬ Format.combined.Signs data := hSigns.not_of_ne (by decide)
  have hResult : result = decode data :=
    (Font.result_parse_single files options hList).trans (if_pos hSigns)
  rw [hResult]
  refine ⟨⟨?_, ?_⟩, ?_, ?_⟩
  · rintro ⟨font, hDecode⟩
    obtain ⟨hLength, hFits, entries, hMaps, _⟩ := (decode_eq_ok_iff hSigns).1 hDecode
    exact ⟨hLength, hFits, entries, hMaps⟩
  · rintro ⟨hLength, hFits, entries, hMaps⟩
    exact ⟨_, (decode_eq_ok_iff hSigns).2 ⟨hLength, hFits, entries, hMaps, rfl⟩⟩
  · intro font hDecode
    obtain ⟨_, hFits, entries, hMaps, rfl⟩ := (decode_eq_ok_iff hSigns).1 hDecode
    exact describes_font hFits hMaps
  · intro error
    exact decode_eq_error_iff hSigns

/-- A file of nothing but its header, which is the two glyphs as well. -/
theorem exists_parse_headerOnly :
    let data := Bytes.ofWord magic ++ Header.encode ⟨0, 0, 0, 2, 16, 16, 8⟩
    Format.psf2.Signs data ∧
      ∀ files options, ∃ font, (Font.parse files options data).result = .ok font := by
  intro data
  have hSigns : Format.psf2.Signs data := by decide
  have hFits : (ofFile data).Fits data.length :=
    ⟨by decide, by decide, by decide, by decide, by decide⟩
  have hMaps : (ofFile data).Maps data [] := (if_neg (by decide)).mpr rfl
  exact ⟨hSigns, fun files options =>
    (parse_of_signs files options hSigns).1.2 ⟨by decide, hFits, [], hMaps⟩⟩

end Psf2

end ConsoleFont
