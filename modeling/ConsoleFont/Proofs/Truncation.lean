import ConsoleFont.Proofs.Acceptance

/-! # PSF files that were cut or have grown

A file of either PSF version says by itself how long it is if its header announces a unicode table,
which ends the file. So a file that was cut at any place is refused, and so is one with bytes behind
it. Without a table, bytes behind the bitmaps do not matter. In no case another font is read.

Everything follows from what comes of more bytes behind a file that is read (`Font.parse_append`),
as a file that was cut is followed by what was cut off.

Main statement: `Font.parse_rigid`.
-/

namespace ConsoleFont

/-- What comes of a font with more bytes behind it. -/
def Font.followedBy (hasTable : Bool) (behind : Bytes) (font : Font) : Except Error Font :=
  if hasTable = true ∧ behind ≠ [] then .error .trailingGarbage else .ok font

namespace Font

theorem followedBy_of_table {behind : Bytes} (h : behind ≠ []) (font : Font) :
    followedBy true behind font = .error .trailingGarbage := if_pos ⟨rfl, h⟩

theorem followedBy_of_no_table (behind : Bytes) (font : Font) :
    followedBy false behind font = .ok font := if_neg nofun

theorem followedBy_eq_ok_iff {hasTable : Bool} {behind : Bytes} {font other : Font} :
    followedBy hasTable behind font = .ok other ↔
      (hasTable = true → behind = []) ∧ font = other := by
  rw [followedBy]
  split
  · rename_i h
    exact iff_of_false nofun fun hBoth => h.2 (hBoth.1 h.1)
  · rename_i h
    rw [Except.ok.injEq, and_iff_right]
    intro hTable
    exact Classical.not_not.1 fun hBehind => h ⟨hTable, hBehind⟩

end Font

/-! ### Tables -/

theorem Bytes.take_drop_append {data : Bytes} {start length : Nat}
    (h : start + length ≤ data.length) (behind : Bytes) :
    ((data ++ behind).drop start).take length = (data.drop start).take length := by
  rw [List.drop_append_of_le_length (by omega),
    List.take_append_of_le_length (by rw [List.length_drop]; omega)]

/-- Behind a table nothing is allowed; where there is none, anything is. -/
theorem UnicodeTable.decodeIf_append {hasTable : Bool} {encoding : Encoding} {count : Nat}
    {table : Bytes} {entries : List Entry}
    (h : decodeIf hasTable encoding count table = .ok entries) (behind : Bytes)
    (toFont : List Entry → Font) :
    (decodeIf hasTable encoding count (table ++ behind)).map toFont =
      (toFont entries).followedBy hasTable behind := by
  cases hasTable with
  | false =>
    cases h
    exact (Font.followedBy_of_no_table behind _).symm
  | true =>
    have hLists : encoding.SpellsLists count 0 entries table := decodeAll_eq_ok_iff.1 h
    by_cases hBehind : behind = []
    · subst hBehind
      rw [List.append_nil, h]
      rfl
    · have hGarbage : decodeAll encoding count (table ++ behind) = .error .trailingGarbage :=
        decodeAll_eq_error_iff.2 (.inr ⟨rfl, entries, table, behind, rfl, hLists, hBehind⟩)
      rw [Font.followedBy_of_table hBehind, decodeIf, if_pos rfl, hGarbage]
      rfl

/-! ### The second version -/

namespace Psf2

namespace Header

theorem wordAt_append {data : Bytes} {index : Nat} (h : 4 * (index + 1) ≤ data.length)
    (behind : Bytes) : wordAt (data ++ behind) index = wordAt data index := by
  rw [wordAt, wordAt, Bytes.take_drop_append (by omega)]

theorem ofFile_append {data : Bytes} (h : 32 ≤ data.length) (behind : Bytes) :
    ofFile (data ++ behind) = ofFile data := by
  simp only [ofFile]
  iterate 7 rw [wordAt_append (by omega)]

theorem Fits.mono {header : Header} {size larger : Nat} (h : header.Fits size)
    (hLe : size ≤ larger) : header.Fits larger :=
  ⟨h.version_eq, h.glyphSize_pos, h.width_pos, h.height_eq, Nat.le_trans h.room hLe⟩

variable {header : Header} {data : Bytes} (hFits : header.Fits data.length) (behind : Bytes)

include hFits

theorem table_append : header.table (data ++ behind) = header.table data ++ behind := by
  rw [table_eq, table_eq, List.drop_append_of_le_length hFits.bitmaps_le]

theorem font_append (unicodeMap : List Entry) :
    header.font (data ++ behind) unicodeMap = header.font data unicodeMap := by
  rw [font, font, Bytes.take_drop_append hFits.bitmaps_le]

end Header

open Header

theorem decode_append {data : Bytes} (hSigns : Format.psf2.Signs data) {font : Font}
    (h : decode data = .ok font) (behind : Bytes) :
    decode (data ++ behind) = font.followedBy (ofFile data).hasTable behind ∧
      ofFile (data ++ behind) = ofFile data := by
  obtain ⟨hLength, hFits, entries, hMaps, rfl⟩ := (decode_eq_ok_iff hSigns).1 h
  have hFile := ofFile_append hLength behind
  have hLonger : data.length ≤ (data ++ behind).length := by
    rw [List.length_append]
    exact Nat.le_add_right ..
  have hSigned : Format.psf2.Signs (data ++ behind) := by
    rw [Format.signs_psf2] at hSigns ⊢
    exact hSigns.trans (List.prefix_append ..)
  refine ⟨?_, hFile⟩
  rw [decode_of_signs hSigned (Nat.le_trans hLength hLonger), hFile,
    fault?_eq_none_iff.2 (hFits.mono hLonger)]
  simp only
  rw [table_append hFits, funext (font_append hFits behind)]
  exact UnicodeTable.decodeIf_append (decodeIf_eq_ok_iff.2 hMaps) behind _

end Psf2

/-! ### The first version -/

namespace Psf1

theorem Fits.mono {mode height : UInt8} {size larger : Nat} (h : Fits mode height size)
    (hLe : size ≤ larger) : Fits mode height larger :=
  ⟨h.mode_le, h.height_pos, Nat.le_trans h.room hLe⟩

def announcesTable (data : Bytes) : Bool := data[2]?.any hasTable

theorem decode_append {data : Bytes} {font : Font} (h : decode data = .ok font)
    (behind : Bytes) :
    decode (data ++ behind) = font.followedBy (announcesTable data) behind ∧
      announcesTable (data ++ behind) = announcesTable data := by
  obtain ⟨mode, height, body, unicodeMap, rfl, hFits, hTable, rfl⟩ := exists_header_of_decode h
  refine ⟨?_, rfl⟩
  have hLonger : body.length ≤ (body ++ behind).length := by
    rw [List.length_append]
    exact Nat.le_add_right ..
  have hFont : fontOf mode height (body ++ behind) = fontOf mode height body := by
    funext unicodeMap
    rw [fontOf, fontOf, List.take_append_of_le_length hFits.room]
  rw [List.append_assoc, List.cons_append, List.cons_append, decode_of_header,
    fault?_eq_none_iff.2 (hFits.mono hLonger)]
  simp only
  rw [List.drop_append_of_le_length hFits.room, hFont]
  exact UnicodeTable.decodeIf_append hTable behind _

end Psf1

/-! ### Both versions -/

namespace Format

def announcesTable : Format → Bytes → Bool
  | psf2, data => (Psf2.Header.ofFile data).hasTable
  | psf1, data => Psf1.announcesTable data
  | combined, _ => false
  | raw, _ => false

variable {format : Format} {front data : Bytes}

theorem Signs.of_prefix (h : format.Signs front) (hPrefix : front <+: data) :
    format.Signs data := by
  obtain ⟨signature, hSignature, hFront⟩ := h
  exact ⟨signature, hSignature, hFront.trans hPrefix⟩

/-- What stands in front of a signed file and is not signed itself is shorter than the signature. -/
theorem length_lt_of_not_signs {signature : Bytes} (hSignature : format.signature? = some signature)
    (hSigns : format.Signs data) (hPrefix : front <+: data) (h : ¬ format.Signs front) :
    front.length < signature.length := by
  obtain ⟨_, hSame, hData⟩ := hSigns
  cases hSignature.symm.trans hSame
  apply Nat.lt_of_not_le
  intro hLe
  exact h ⟨signature, hSignature, List.prefix_of_prefix_length_le hData hPrefix hLe⟩

end Format

theorem Headerless.decode_of_short {targetHeight : Option Nat} {data : Bytes}
    (h : data.length < 4) : decode targetHeight data = .error .badMagic := by
  refine decode_eq_error_iff.2 ?_
  rw [block, codePageLength, twoFontsLength, codePageHeader, if_neg (by omega), if_neg (by omega),
    if_neg (by omega), if_neg (by omega)]

namespace Font

section Signed

variable (files : FileSystem) (options : Options) {format : Format} {data : Bytes} {font : Font}
  (hFormat : format = .psf1 ∨ format = .psf2)

include hFormat

theorem parse_append (hSigns : format.Signs data)
    (hParse : (Font.parse files options data).result = .ok font) (behind : Bytes) :
    (Font.parse files options (data ++ behind)).result =
        font.followedBy (format.announcesTable data) behind ∧
      format.announcesTable (data ++ behind) = format.announcesTable data := by
  have hSigned : format.Signs (data ++ behind) := hSigns.of_prefix (List.prefix_append ..)
  rcases hFormat with rfl | rfl
  · rw [result_parse_psf1 files options hSigns] at hParse
    rw [result_parse_psf1 files options hSigned]
    exact Psf1.decode_append hParse behind
  · rw [result_parse_psf2 files options hSigns] at hParse
    rw [result_parse_psf2 files options hSigned]
    obtain ⟨hDecode, hFile⟩ := Psf2.decode_append hSigns hParse behind
    exact ⟨hDecode, congrArg Psf2.Header.hasTable hFile⟩

theorem parse_of_not_signs {front : Bytes} (hSigns : format.Signs data) (hPrefix : front <+: data)
    (h : ¬ format.Signs front) : (Font.parse files options front).result = .error .badMagic := by
  -- another signature at the front would sign the whole file as well
  have hNone (other : Format) : ¬ other.Signs front := by
    intro hOther
    have hSame : other = format := (hOther.of_prefix hPrefix).unique hSigns
    rw [hSame] at hOther
    exact h hOther
  have hShort : front.length < 4 := by
    rcases hFormat with rfl | rfl
    · have hLt := Format.length_lt_of_not_signs rfl hSigns hPrefix h
      exact Nat.lt_trans hLt (by decide)
    · exact Format.length_lt_of_not_signs rfl hSigns hPrefix h
  rw [result_parse_single files options (hNone .combined), decodeSingle, if_neg (hNone .psf2),
    if_neg (hNone .psf1), Headerless.decode_of_short hShort]

/-- What is read from a file that was cut is what is read from the whole file. Something was cut off
only if there is no table. -/
theorem eq_of_parse_prefix (hSigns : format.Signs data)
    (hParse : (Font.parse files options data).result = .ok font) {front : Bytes}
    (hPrefix : front <+: data) {part : Font}
    (hPart : (Font.parse files options front).result = .ok part) :
    part = font ∧ (format.announcesTable data = true → front = data) := by
  obtain ⟨behind, rfl⟩ := hPrefix
  by_cases hFront : format.Signs front
  · obtain ⟨hWhole, hAnnounces⟩ := parse_append files options hFormat hFront hPart behind
    obtain ⟨hBehind, hFont⟩ := followedBy_eq_ok_iff.1 (hWhole.symm.trans hParse)
    refine ⟨hFont, ?_⟩
    rw [hAnnounces]
    intro hTable
    rw [hBehind hTable, List.append_nil]
  · rw [parse_of_not_signs files options hFormat hSigns (List.prefix_append ..) hFront] at hPart
    cases hPart

end Signed

/-- **No length that a PSF file is cut to or grows to makes another font of it.** With a unicode
table, every other length is refused. Without one, the font is the same or refused, and the same if
the file has grown. -/
theorem parse_rigid (files : FileSystem) (options : Options) {format : Format} {data : Bytes}
    {font : Font} (hFormat : format = .psf1 ∨ format = .psf2) (hSigns : format.Signs data)
    (hParse : (Font.parse files options data).result = .ok font) :
    (format.announcesTable data = true →
      (∀ front, front <+: data → front ≠ data →
        ∃ error, (Font.parse files options front).result = .error error) ∧
      ∀ behind, behind ≠ [] →
        (Font.parse files options (data ++ behind)).result = .error .trailingGarbage) ∧
    (format.announcesTable data = false →
      (∀ behind, (Font.parse files options (data ++ behind)).result = .ok font) ∧
      ∀ front, front <+: data →
        (∃ error, (Font.parse files options front).result = .error error) ∨
          (Font.parse files options front).result = .ok font) := by
  have hAppend (behind : Bytes) :=
    (parse_append files options hFormat hSigns hParse behind).1
  constructor
  · intro hTable
    constructor
    · intro front hPrefix hProper
      cases hFront : (Font.parse files options front).result with
      | error error => exact ⟨error, rfl⟩
      | ok part =>
        have hSame := eq_of_parse_prefix files options hFormat hSigns hParse hPrefix hFront
        exact absurd (hSame.2 hTable) hProper
    · intro behind hBehind
      rw [hAppend, hTable, followedBy_of_table hBehind]
  · intro hTable
    constructor
    · intro behind
      rw [hAppend, hTable, followedBy_of_no_table]
    · intro front hPrefix
      cases hFront : (Font.parse files options front).result with
      | error error => exact .inl ⟨error, rfl⟩
      | ok part =>
        have hSame := eq_of_parse_prefix files options hFormat hSigns hParse hPrefix hFront
        exact .inr (congrArg Except.ok hSame.1)

/-- A letter with its map, and the same glyph without one. -/
theorem parse_rigid_letter :
    let files : FileSystem := fun _ => .openFails .notFound
    let letter : Font := ⟨⟨8, 1, 1⟩, .psf2, 1, [0x18], [⟨0, ['A']⟩]⟩
    let glyph : Font := ⟨⟨8, 1, 1⟩, .psf2, 1, [0x18], []⟩
    Format.psf2.Signs (Psf2.encode letter) ∧
      Format.psf2.announcesTable (Psf2.encode letter) = true ∧
      (∀ front, front <+: Psf2.encode letter → front ≠ Psf2.encode letter →
        ∃ error, (Font.parse files .default front).result = .error error) ∧
      Format.psf2.Signs (Psf2.encode glyph) ∧
      Format.psf2.announcesTable (Psf2.encode glyph) = false ∧
      ∀ behind, (Font.parse files .default (Psf2.encode glyph ++ behind)).result = .ok glyph := by
  intro files letter glyph
  have hLetter : Format.psf2.Signs (Psf2.encode letter) := by decide
  have hGlyph : Format.psf2.Signs (Psf2.encode glyph) := by decide
  have hTable : Format.psf2.announcesTable (Psf2.encode letter) = true := by decide
  have hNoTable : Format.psf2.announcesTable (Psf2.encode glyph) = false := by decide
  have hParseLetter : (Font.parse files .default (Psf2.encode letter)).result = .ok letter :=
    eq_ok_of_toOption (by decide +kernel)
  have hParseGlyph : (Font.parse files .default (Psf2.encode glyph)).result = .ok glyph :=
    eq_ok_of_toOption (by decide +kernel)
  have hRigid := parse_rigid files .default (.inr rfl) hLetter hParseLetter
  have hGrown := parse_rigid files .default (.inr rfl) hGlyph hParseGlyph
  exact ⟨hLetter, hTable, (hRigid.1 hTable).1, hGlyph, hNoTable, (hGrown.2 hNoTable).1⟩

end Font

end ConsoleFont
