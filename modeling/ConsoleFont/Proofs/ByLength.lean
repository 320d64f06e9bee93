import Mathlib.Algebra.Group.Nat.Defs
import ConsoleFont.Proofs.Detection

/-! # What data of each length is read as

Data that starts with no signature is bare glyphs, if it is a font at all, and its length says of
which height. Two lengths stand for files of their own, a code page and a dump of two fonts, and the
length of a dump is one that would do for 256 glyphs as well. Below 2⁴⁰ bytes no height is too great
(`bareBlock_of_lt`).

Main statement: `Headerless.parse_by_length`.
-/

namespace ConsoleFont.Headerless

def bare (height glyphCount : Nat) (bitmaps : Bytes) : Font where
  width := 8
  height := height
  glyphSize := height
  format := .raw
  glyphCount := glyphCount
  bitmaps := bitmaps
  unicodeMap := []

def codePageFonts : List (Nat × Nat) := [(16, 40), (14, 4142), (8, 7732)]

/-! ### Blocks -/

theorem codePageBlocks_eq : codePageBlocks = codePageFonts.map fun font => ⟨font.1, 256, font.2⟩ :=
  rfl

theorem codePageBlock_of_mem {height offset : Nat} (h : (height, offset) ∈ codePageFonts) :
    codePageBlock (some height) = .ok ⟨height, 256, offset⟩ := by
  simp only [codePageFonts, List.mem_cons, Prod.mk.injEq, List.not_mem_nil, or_false] at h
  rcases h with ⟨rfl, rfl⟩ | ⟨rfl, rfl⟩ | ⟨rfl, rfl⟩
  · rfl
  · rfl
  · rfl

theorem codePageBlock_of_not_mem {height : Nat} (h : height ∉ codePageFonts.map Prod.fst) :
    codePageBlock (some height) = .error (.unsupportedHeight height) := by
  have hNone : codePageBlocks.find? (fun block => block.height == height) = none := by
    rw [codePageBlocks_eq, List.find?_eq_none]
    intro block hBlock hHeight
    obtain ⟨font, hFont, rfl⟩ := List.mem_map.1 hBlock
    exact h (List.mem_map.2 ⟨font, hFont, beq_iff_eq.1 hHeight⟩)
  rw [codePageBlock]
  simp only [hNone]

theorem bareBlock_of_lt {size : Nat} (h : size < 2 ^ 40) (offset : Nat) :
    bareBlock size offset = .ok ⟨size / 256, 256, offset⟩ := by
  have hHeight : size / 256 < wordLimit := by
    rw [wordLimit]
    omega
  rw [bareBlock, if_pos hHeight]

section Length

variable {length : Nat}

theorem ne_codePageLength (h : length % 256 = 0 ∨ length % 256 = 40) : length ≠ codePageLength := by
  rw [codePageLength]
  omega

theorem ne_twoFontsLength (h : ¬ (0 < length ∧ length % 256 = 0)) : length ≠ twoFontsLength := by
  rw [twoFontsLength]
  omega

variable (targetHeight : Option Nat)

theorem block_codePage : block targetHeight 9780 = codePageBlock targetHeight := if_pos rfl

theorem block_twoFonts : block targetHeight 32768 = .ok ⟨32, 512, 0⟩ := rfl

theorem block_whole (hLimit : length < 2 ^ 40) (hPos : 0 < length) (hWhole : length % 256 = 0)
    (hTwo : length ≠ twoFontsLength) :
    block targetHeight length = .ok ⟨length / 256, 256, 0⟩ := by
  rw [block, if_neg (ne_codePageLength (.inl hWhole)), if_neg hTwo, if_pos ⟨hPos, hWhole⟩]
  exact bareBlock_of_lt hLimit 0

theorem block_headed (hLimit : length < 2 ^ 40) (hHeader : 40 < length)
    (hHeaded : length % 256 = 40) :
    block targetHeight length = .ok ⟨(length - 40) / 256, 256, 40⟩ := by
  have hWhole : ¬ (0 < length ∧ length % 256 = 0) := by omega
  have hGlyphs : length - codePageHeader < 2 ^ 40 := Nat.lt_of_le_of_lt (Nat.sub_le ..) hLimit
  rw [block, if_neg (ne_codePageLength (.inr hHeaded)), if_neg (ne_twoFontsLength hWhole),
    if_neg hWhole, if_pos ⟨hHeader, hHeaded⟩]
  exact bareBlock_of_lt hGlyphs codePageHeader

theorem block_other (hPage : length ≠ codePageLength)
    (hWhole : ¬ (0 < length ∧ length % 256 = 0)) (hHeaded : ¬ (40 < length ∧ length % 256 = 40)) :
    block targetHeight length = .error .badMagic := by
  rw [block, if_neg hPage, if_neg (ne_twoFontsLength hWhole), if_neg hWhole]
  exact if_neg hHeaded

end Length

theorem result_parse_eq (files : FileSystem) (options : Options) {data : Bytes}
    (hSigns : ∀ format : Format, ¬ format.Signs data) :
    (Font.parse files options data).result =
      (block options.targetHeight data.length).map fun place => place.font data := by
  rw [Font.result_parse_single files options (hSigns .combined), decodeSingle,
    if_neg (hSigns .psf2), if_neg (hSigns .psf1), decode_eq]

/-! ### Code pages -/

/-- The parts of a code page in their order: three fonts behind a header, with six bytes between
them. -/
structure CodePage where
  header : Bytes
  sixteen : Bytes
  gap : Bytes
  fourteen : Bytes
  lastGap : Bytes
  eight : Bytes
  length_header : header.length = 40
  length_sixteen : sixteen.length = 256 * 16
  length_gap : gap.length = 6
  length_fourteen : fourteen.length = 256 * 14
  length_lastGap : lastGap.length = 6
  length_eight : eight.length = 256 * 8

namespace CodePage

variable (page : CodePage)

def bytes : Bytes :=
  page.header ++ (page.sixteen ++ (page.gap ++ (page.fourteen ++ (page.lastGap ++ page.eight))))

theorem length_bytes : page.bytes.length = 9780 := by
  simp only [bytes, List.length_append, page.length_header, page.length_sixteen, page.length_gap,
    page.length_fourteen, page.length_lastGap, page.length_eight]

theorem take_sixteen : (page.bytes.drop 40).take (256 * 16) = page.sixteen := by
  rw [bytes, List.drop_left' page.length_header, List.take_left' page.length_sixteen]

theorem take_fourteen : (page.bytes.drop 4142).take (256 * 14) = page.fourteen := by
  have hFront : (page.header ++ (page.sixteen ++ page.gap)).length = 4142 := by
    simp only [List.length_append, page.length_header, page.length_sixteen, page.length_gap]
  have hBytes : page.bytes = (page.header ++ (page.sixteen ++ page.gap)) ++
      (page.fourteen ++ (page.lastGap ++ page.eight)) := by
    simp only [bytes, List.append_assoc]
  rw [hBytes, List.drop_left' hFront, List.take_left' page.length_fourteen]

theorem take_eight : (page.bytes.drop 7732).take (256 * 8) = page.eight := by
  have hFront : (page.header ++ (page.sixteen ++ (page.gap ++ (page.fourteen ++
      page.lastGap)))).length = 7732 := by
    simp only [List.length_append, page.length_header, page.length_sixteen, page.length_gap,
      page.length_fourteen, page.length_lastGap]
  have hBytes : page.bytes = (page.header ++ (page.sixteen ++ (page.gap ++ (page.fourteen ++
      page.lastGap)))) ++ page.eight := by
    simp only [bytes, List.append_assoc]
  rw [hBytes, List.drop_left' hFront, List.take_of_length_le (Nat.le_of_eq page.length_eight)]

end CodePage

/-! ### Lengths -/

/-- What data without a signature is read as, by its length. -/
structure ReadByLength (targetHeight : Option Nat) (data : Bytes) (result : Except Error Font) :
    Prop where
  heightRequired : data.length = 9780 → targetHeight = none → result = .error .heightRequired
  unsupportedHeight : ∀ height, data.length = 9780 → targetHeight = some height →
    height ∉ [8, 14, 16] → result = .error (.unsupportedHeight height)
  codePage : ∀ height offset, data.length = 9780 → targetHeight = some height →
    (height, offset) ∈ codePageFonts →
    result = .ok (bare height 256 ((data.drop offset).take (256 * height)))
  /-- A dump is of that length even though 256 glyphs could be. -/
  twoFonts : data.length = 32768 → result = .ok (bare 32 512 (data.take 16384))
  whole : 0 < data.length → data.length % 256 = 0 → data.length ≠ 32768 →
    result = .ok (bare (data.length / 256) 256 data)
  headed : 40 < data.length → data.length % 256 = 40 →
    result = .ok (bare ((data.length - 40) / 256) 256 (data.drop 40))
  other : data.length ≠ 9780 → ¬ (0 < data.length ∧ data.length % 256 = 0) →
    ¬ (40 < data.length ∧ data.length % 256 = 40) → result = .error .badMagic
  font : ∀ font, result = .ok font → font.width = 8 ∧ font.glyphSize = font.height ∧
    font.format = .raw ∧ font.unicodeMap = []

theorem readByLength {targetHeight : Option Nat} {data : Bytes} (hLimit : data.length < 2 ^ 40) :
    ReadByLength targetHeight data
      ((block targetHeight data.length).map fun place => place.font data) := by
  constructor
  case heightRequired =>
    intro hLength hTarget
    rw [hLength, hTarget]
    rfl
  case unsupportedHeight =>
    intro height hLength hTarget hHeight
    have hNone : height ∉ codePageFonts.map Prod.fst := by
      simp only [codePageFonts, List.map_cons, List.map_nil, List.mem_cons, List.not_mem_nil,
        or_false] at hHeight ⊢
      omega
    rw [hLength, hTarget, block_codePage, codePageBlock_of_not_mem hNone]
    rfl
  case codePage =>
    intro height offset hLength hTarget hFont
    rw [hLength, hTarget, block_codePage, codePageBlock_of_mem hFont, Nat.mul_comm]
    rfl
  case twoFonts =>
    intro hLength
    rw [hLength, block_twoFonts]
    rfl
  case whole =>
    intro hPos hWhole hTwo
    have hTake : data.take (data.length / 256 * 256) = data := List.take_of_length_le (by omega)
    rw [block_whole targetHeight hLimit hPos hWhole hTwo]
    show Except.ok (bare _ 256 (data.take (data.length / 256 * 256))) = _
    rw [hTake]
  case headed =>
    intro hHeader hHeaded
    have hTake : (data.drop 40).take ((data.length - 40) / 256 * 256) = data.drop 40 := by
      apply List.take_of_length_le
      rw [List.length_drop]
      omega
    rw [block_headed targetHeight hLimit hHeader hHeaded]
    show Except.ok (bare _ 256 ((data.drop 40).take ((data.length - 40) / 256 * 256))) = _
    rw [hTake]
  case other =>
    intro hPage hWhole hHeaded
    rw [block_other targetHeight hPage hWhole hHeaded]
    rfl
  case font =>
    intro font hFont
    obtain ⟨place, _, rfl⟩ := map_eq_ok_iff.1 hFont
    exact ⟨rfl, rfl, rfl, rfl⟩

/-- **The length of data without a signature decides what it is read as.** No two fonts of a code
page share a byte of it. -/
theorem parse_by_length (files : FileSystem) (options : Options) (data : Bytes)
    (hLimit : data.length < 2 ^ 40) (hSigns : ∀ format : Format, ¬ format.Signs data) :
    ReadByLength options.targetHeight data (Font.parse files options data).result ∧
      (∀ front ∈ codePageFonts, ∀ behind ∈ codePageFonts, front.1 ≠ behind.1 →
        front.2 + 256 * front.1 ≤ behind.2 ∨ behind.2 + 256 * behind.1 ≤ front.2) ∧
      ∀ font ∈ codePageFonts, font.2 + 256 * font.1 ≤ 9780 := by
  rw [result_parse_eq files options hSigns]
  exact ⟨readByLength hLimit, by decide, by decide⟩

/-- A code page whose rows hold the height of their font, read for each of its heights and for
another. -/
theorem parse_codePage :
    let page : CodePage := ⟨List.replicate 40 0, List.replicate (256 * 16) 16, List.replicate 6 0,
      List.replicate (256 * 14) 14, List.replicate 6 0, List.replicate (256 * 8) 8,
      List.length_replicate, List.length_replicate, List.length_replicate, List.length_replicate,
      List.length_replicate, List.length_replicate⟩
    let parse (height : Nat) : Except Error Font :=
      (Font.parse (fun _ => .openFails .notFound) ⟨some height, none⟩ page.bytes).result
    page.bytes.length < 2 ^ 40 ∧ (∀ format : Format, ¬ format.Signs page.bytes) ∧
      parse 16 = .ok (bare 16 256 (List.replicate (256 * 16) 16)) ∧
      parse 14 = .ok (bare 14 256 (List.replicate (256 * 14) 14)) ∧
      parse 8 = .ok (bare 8 256 (List.replicate (256 * 8) 8)) ∧
      parse 12 = .error (.unsupportedHeight 12) := by
  intro page parse
  have hLimit : page.bytes.length < 2 ^ 40 := by
    rw [page.length_bytes]
    decide
  have hSigns : ∀ format : Format, ¬ format.Signs page.bytes := by
    intro format hSigns
    have hHead : some 0 = format.firstByte? := hSigns.head?_eq.1
    revert hHead
    cases format <;> decide
  have hRead (height : Nat) : ReadByLength (some height) page.bytes (parse height) :=
    (parse_by_length (fun _ => .openFails .notFound) ⟨some height, none⟩ page.bytes hLimit hSigns).1
  have hLength := page.length_bytes
  refine ⟨hLimit, hSigns, ?_, ?_, ?_, (hRead 12).unsupportedHeight 12 hLength rfl (by decide)⟩
  · have hParse := (hRead 16).codePage 16 40 hLength rfl (by decide)
    rwa [page.take_sixteen] at hParse
  · have hParse := (hRead 14).codePage 14 4142 hLength rfl (by decide)
    rwa [page.take_fourteen] at hParse
  · have hParse := (hRead 8).codePage 8 7732 hLength rfl (by decide)
    rwa [page.take_eight] at hParse

end ConsoleFont.Headerless
