import ConsoleFont.Font.WellFormed
import ConsoleFont.Proofs.UnicodeTable
import ConsoleFont.Psf2

/-! # What a PSF2 file is read as

`Header.Fits` says in exact arithmetic which headers a file can have, and `decode_of_read` what is
read behind a header. Every font that is read is well-formed (`wellFormed_of_decode`), and every
well-formed font is read back from the file that is written for it (`decode_encode`).
-/

namespace ConsoleFont.Psf2

namespace Header

/-- The header fits a file of `size` bytes, with room for one glyph at least. -/
structure Fits (header : Header) (size : Nat) : Prop where
  version_eq : header.version = 0
  glyphSize_pos : 0 < header.glyphSize
  width_pos : 0 < header.width
  height_eq : header.height = header.glyphSize / pitch header.width
  room : header.headerSize + header.glyphSize * max header.glyphCount 1 ≤ size

theorem room_iff {headerSize glyphSize glyphCount size : Nat} (hPos : 0 < glyphSize) :
    headerSize + glyphSize * max glyphCount 1 ≤ size ↔
      headerSize ≤ size ∧ glyphSize ≤ size - headerSize ∧
        glyphCount ≤ (size - headerSize) / glyphSize := by
  rw [Nat.le_div_iff_mul_le hPos, Nat.mul_comm glyphCount]
  rcases Nat.eq_zero_or_pos glyphCount with rfl | hCount
  · rw [Nat.max_eq_right (Nat.zero_le 1), Nat.mul_one, Nat.mul_zero]
    omega
  · rw [Nat.max_eq_left hCount]
    have hOne : glyphSize * 1 ≤ glyphSize * glyphCount := Nat.mul_le_mul_left _ hCount
    omega

theorem fault?_eq_none_iff {header : Header} {size : Nat} :
    header.fault? size = none ↔ header.Fits size := by
  constructor
  · intro h
    unfold fault? at h
    split at h; · cases h
    split at h; · cases h
    split at h; · cases h
    split at h; · cases h
    split at h; · cases h
    split at h; · cases h
    split at h; · cases h
    have hPos : 0 < header.glyphSize := by omega
    exact ⟨by omega, hPos, by omega, by omega, (room_iff hPos).2 (by omega)⟩
  · rintro ⟨hVersion, hSize, hWidth, hHeight, hRoom⟩
    obtain ⟨hHeader, hOne, hAll⟩ := (room_iff hSize).1 hRoom
    rw [fault?, if_neg (by omega), if_neg (by omega), if_neg (by omega), if_neg (by omega),
      if_neg (by omega), if_neg (by omega), if_neg (by omega)]

theorem ne_badMagic_of_fault? {header : Header} {size : Nat} {error : Error}
    (h : header.fault? size = some error) : error ≠ .badMagic := by
  rintro rfl
  unfold fault? at h
  repeat' split at h
  all_goals cases h

structure Words (header : Header) : Prop where
  version_lt : header.version < wordLimit
  headerSize_lt : header.headerSize < wordLimit
  flags_lt : header.flags < wordLimit
  glyphCount_lt : header.glyphCount < wordLimit
  glyphSize_lt : header.glyphSize < wordLimit
  height_lt : header.height < wordLimit
  width_lt : header.width < wordLimit

theorem words_of_read {data : Bytes} {header : Header} (h : read data = .ok header) :
    header.Words := by
  simp only [read, bind_eq_ok_iff] at h
  obtain ⟨⟨version, _⟩, hVersion, ⟨headerSize, _⟩, hHeaderSize, ⟨flags, _⟩, hFlags,
    ⟨glyphCount, _⟩, hGlyphCount, ⟨glyphSize, _⟩, hGlyphSize, ⟨height, _⟩, hHeight,
    ⟨width, _⟩, hWidth, hHeader⟩ := h
  cases hHeader
  exact ⟨Reader.word_lt hVersion, Reader.word_lt hHeaderSize, Reader.word_lt hFlags,
    Reader.word_lt hGlyphCount, Reader.word_lt hGlyphSize, Reader.word_lt hHeight,
    Reader.word_lt hWidth⟩

theorem read_encode {header : Header} (h : header.Words) (rest : Bytes) :
    read (header.encode ++ rest) = .ok header := by
  simp only [encode, List.flatMap_cons, List.flatMap_nil, List.append_nil, List.append_assoc, read,
    Reader.word_ofWord h.version_lt, Reader.word_ofWord h.headerSize_lt,
    Reader.word_ofWord h.flags_lt, Reader.word_ofWord h.glyphCount_lt,
    Reader.word_ofWord h.glyphSize_lt, Reader.word_ofWord h.height_lt,
    Reader.word_ofWord h.width_lt, ok_bind]
  rfl

@[simp] theorem length_encode (header : Header) : header.encode.length = 28 := by
  simp [encode]

def font (header : Header) (data : Bytes) (unicodeMap : List Entry) : Font where
  width := header.width
  height := header.height
  glyphSize := header.glyphSize
  format := .psf2
  glyphCount := header.glyphCount
  bitmaps := (data.drop header.headerSize).take (header.glyphSize * header.glyphCount)
  unicodeMap := unicodeMap

def table (header : Header) (data : Bytes) : Bytes :=
  (data.drop header.headerSize).drop (header.glyphSize * header.glyphCount)

/-- The file of a header, with these bytes for the bitmaps and for the table. -/
def file (header : Header) (bitmaps table : Bytes) : Bytes :=
  Bytes.ofWord magic ++ (header.encode ++ (bitmaps ++ table))

theorem drop_file (header : Header) (bitmaps table : Bytes) :
    (header.file bitmaps table).drop Psf2.headerSize = bitmaps ++ table := by
  rw [file, ← List.append_assoc]
  refine List.drop_left' ?_
  rw [List.length_append, length_encode, Bytes.length_ofWord]
  rfl

theorem Fits.bitmaps_le {header : Header} {size : Nat} (h : header.Fits size) :
    header.headerSize + header.glyphSize * header.glyphCount ≤ size := by
  have hMax : header.glyphSize * header.glyphCount ≤
      header.glyphSize * max header.glyphCount 1 :=
    Nat.mul_le_mul_left _ (Nat.le_max_left ..)
  have hRoom := h.room
  omega

end Header

/-! ### Reading -/

theorem decode_of_no_signature {data : Bytes} (h : ¬ Bytes.ofWord magic <+: data) :
    decode data = .error .badMagic := by
  rw [decode, Reader.signature_eq_badMagic h]
  rfl

theorem decode_of_read_error {behind : Bytes} {error : Error}
    (h : Header.read behind = .error error) :
    decode (Bytes.ofWord magic ++ behind) = .error (.badHeader .psf2) := by
  rw [decode, Reader.signature_eq_ok_iff.2 rfl, ok_bind]
  simp only [h]
  rfl

theorem decode_of_read {behind : Bytes} {header : Header} (h : Header.read behind = .ok header) :
    decode (Bytes.ofWord magic ++ behind) =
      match header.fault? (Bytes.ofWord magic ++ behind).length with
      | some error => .error error
      | none =>
        (UnicodeTable.decodeIf header.hasTable .utf8 header.glyphCount
          (header.table (Bytes.ofWord magic ++ behind))).map
            (header.font (Bytes.ofWord magic ++ behind)) := by
  generalize hData : Bytes.ofWord magic ++ behind = data
  have hHeader : (Header.read behind).mapError (fun _ => Error.badHeader .psf2) = .ok header := by
    rw [h]
    rfl
  rw [decode, Reader.signature_eq_ok_iff.2 hData.symm, ok_bind]
  simp only [hHeader, ok_bind, Header.check]
  cases hFault : header.fault? data.length with
  | some error => rfl
  | none =>
    have hRoom := (Header.fault?_eq_none_iff.1 hFault).bitmaps_le
    simp only [ok_bind]
    rw [Reader.skip, if_pos (by omega), ok_bind]
    simp only
    rw [Reader.take, if_pos (by rw [List.length_drop]; omega), ok_bind]
    simp only [Header.table]
    cases UnicodeTable.decodeIf header.hasTable .utf8 header.glyphCount
        ((data.drop header.headerSize).drop (header.glyphSize * header.glyphCount)) with
    | error error => rfl
    | ok unicodeMap => rfl

theorem exists_header_of_decode {data : Bytes} {font : Font} (h : decode data = .ok font) :
    ∃ behind header unicodeMap, data = Bytes.ofWord magic ++ behind ∧
      Header.read behind = .ok header ∧ header.Fits data.length ∧
      UnicodeTable.decodeIf header.hasTable .utf8 header.glyphCount (header.table data) =
        .ok unicodeMap ∧
      font = header.font data unicodeMap := by
  by_cases hMagic : Bytes.ofWord magic <+: data
  · obtain ⟨behind, rfl⟩ := hMagic
    cases hRead : Header.read behind with
    | error error =>
      rw [decode_of_read_error hRead] at h
      cases h
    | ok header =>
      rw [decode_of_read hRead] at h
      cases hFault : header.fault? (Bytes.ofWord magic ++ behind).length with
      | some error =>
        rw [hFault] at h
        cases h
      | none =>
        rw [hFault] at h
        obtain ⟨unicodeMap, hTable, rfl⟩ := map_eq_ok_iff.1 h
        exact ⟨behind, header, unicodeMap, rfl, hRead, Header.fault?_eq_none_iff.1 hFault, hTable,
          rfl⟩
  · rw [decode_of_no_signature hMagic] at h
    cases h

/-- **Every font that is read is well-formed.** -/
theorem wellFormed_of_decode {data : Bytes} {font : Font} (h : decode data = .ok font) :
    font.WellFormed := by
  obtain ⟨behind, header, unicodeMap, _, hRead, hFits, hTable, rfl⟩ := exists_header_of_decode h
  have hWords := Header.words_of_read hRead
  have hMap := UnicodeTable.mapOf_of_decodeIf hTable
  refine ⟨⟨hFits.width_pos, hFits.glyphSize_pos, hFits.height_eq, hWords.width_lt,
    hWords.glyphSize_lt⟩, hWords.glyphCount_lt, ?_, hMap.characters_ne_nil, hMap.position_lt,
    hMap.sorted⟩
  have hRoom := hFits.bitmaps_le
  rw [Header.font, List.length_take, List.length_drop]
  exact Nat.min_eq_left (by omega)

theorem format_of_decode {data : Bytes} {font : Font} (h : decode data = .ok font) :
    font.format = .psf2 := by
  obtain ⟨_, _, _, _, _, _, _, rfl⟩ := exists_header_of_decode h
  rfl

theorem decode_ne_badMagic {data : Bytes} (h : Bytes.ofWord magic <+: data) :
    decode data ≠ .error .badMagic := by
  obtain ⟨behind, rfl⟩ := h
  cases hRead : Header.read behind with
  | error error =>
    rw [decode_of_read_error hRead]
    simp
  | ok header =>
    rw [decode_of_read hRead]
    split
    · rename_i error hFault
      intro hError
      exact Header.ne_badMagic_of_fault? hFault (Except.error.inj hError)
    · intro hError
      cases hTable : UnicodeTable.decodeIf header.hasTable .utf8 header.glyphCount
          (header.table (Bytes.ofWord magic ++ behind)) with
      | error error =>
        rw [hTable] at hError
        cases hError
        cases UnicodeTable.fault_of_decodeIf hTable
      | ok unicodeMap =>
        rw [hTable] at hError
        cases hError

/-! ### Reading back -/

variable {font : Font}

theorem words_headerOf (h : font.WellFormed) : (headerOf font).Words where
  version_lt := (by decide : 0 < wordLimit)
  headerSize_lt := (by decide : 32 < wordLimit)
  flags_lt := by
    simp only [headerOf]
    split <;> decide
  glyphCount_lt := h.glyphCount_lt
  glyphSize_lt := h.metrics.glyphSize_lt
  height_lt := by
    refine Nat.lt_of_le_of_lt ?_ h.metrics.glyphSize_lt
    show font.height ≤ font.glyphSize
    rw [h.metrics.height_eq]
    exact Nat.div_le_self ..
  width_lt := h.metrics.width_lt

theorem hasTable_headerOf (font : Font) : (headerOf font).hasTable = font.hasUnicodeMap := by
  simp only [Header.hasTable, headerOf]
  cases font.hasUnicodeMap <;> rfl

/-- The bytes between the header and the table: the bitmaps, or room for one. -/
def bitmapBytes (font : Font) : Bytes :=
  if font.glyphCount = 0 then List.replicate font.glyphSize 0 else font.bitmaps

def tableBytes (font : Font) : Bytes :=
  UnicodeTable.encodeIf font.hasUnicodeMap .utf8 font.glyphCount font.unicodeMap

theorem encode_eq (font : Font) :
    encode font =
      Bytes.ofWord magic ++ ((headerOf font).encode ++ (bitmapBytes font ++ tableBytes font)) := by
  simp only [encode, bitmapBytes, tableBytes, List.append_assoc]

theorem drop_encode (font : Font) :
    (encode font).drop headerSize = bitmapBytes font ++ tableBytes font := by
  rw [encode_eq]
  exact Header.drop_file (headerOf font) (bitmapBytes font) (tableBytes font)

theorem length_bitmapBytes (h : font.WellFormed) :
    (bitmapBytes font).length = font.glyphSize * max font.glyphCount 1 := by
  unfold bitmapBytes
  split
  · rename_i hZero
    rw [List.length_replicate, hZero, Nat.max_eq_right (Nat.zero_le 1), Nat.mul_one]
  · rw [h.length_bitmaps, Nat.max_eq_left (by omega)]

theorem fits_headerOf (h : font.WellFormed) : (headerOf font).Fits (encode font).length where
  version_eq := rfl
  glyphSize_pos := h.metrics.glyphSize_pos
  width_pos := h.metrics.width_pos
  height_eq := h.metrics.height_eq
  room := by
    have hSize := congrArg List.length (encode_eq font)
    simp only [List.length_append, Bytes.length_ofWord, Header.length_encode,
      length_bitmapBytes h] at hSize
    show headerSize + font.glyphSize * max font.glyphCount 1 ≤ (encode font).length
    rw [hSize, headerSize]
    omega

theorem unicodeMap_eq_nil (h : font.WellFormed) (hZero : font.glyphCount = 0) :
    font.unicodeMap = [] := by
  refine List.eq_nil_iff_forall_not_mem.2 fun entry hEntry => ?_
  have hLt := h.position_lt entry hEntry
  omega

theorem take_drop_encode (h : font.WellFormed) :
    ((encode font).drop headerSize).take (font.glyphSize * font.glyphCount) = font.bitmaps := by
  rw [drop_encode, bitmapBytes]
  split
  · rename_i hZero
    have hLength := h.length_bitmaps
    rw [hZero, Nat.mul_zero] at hLength
    rw [hZero, Nat.mul_zero, List.take_zero, List.eq_nil_of_length_eq_zero hLength]
  · exact List.take_left' h.length_bitmaps

theorem decodeIf_table (h : font.WellFormed) :
    UnicodeTable.decodeIf font.hasUnicodeMap .utf8 font.glyphCount
        ((headerOf font).table (encode font)) = .ok font.unicodeMap := by
  have hMap : UnicodeTable.MapOf 0 font.glyphCount font.unicodeMap :=
    ⟨fun _ _ => Nat.zero_le _, h.position_lt, h.characters_ne_nil, h.sorted⟩
  by_cases hZero : font.glyphCount = 0
  · rw [Font.hasUnicodeMap, unicodeMap_eq_nil h hZero]
    rfl
  · have hTable : (headerOf font).table (encode font) = tableBytes font := by
      show ((encode font).drop headerSize).drop (font.glyphSize * font.glyphCount) = _
      rw [drop_encode, bitmapBytes, if_neg hZero]
      exact List.drop_left' h.length_bitmaps
    rw [hTable]
    exact UnicodeTable.decodeIf_encodeIf hMap fun _ _ _ _ => UnicodeTable.writes_utf8 _

/-- **A well-formed font is read back from the file that is written for it.** -/
theorem decode_encode (hFormat : font.format = .psf2) (h : font.WellFormed) :
    decode (encode font) = .ok font := by
  have hRead := Header.read_encode (words_headerOf h) (bitmapBytes font ++ tableBytes font)
  have hFont : (headerOf font).font (encode font) font.unicodeMap = font := by
    simp only [Header.font, headerOf, take_drop_encode h, ← hFormat]
  have hDecode := decode_of_read hRead
  rw [← encode_eq, Header.fault?_eq_none_iff.2 (fits_headerOf h), hasTable_headerOf] at hDecode
  rw [hDecode]
  show (UnicodeTable.decodeIf font.hasUnicodeMap .utf8 font.glyphCount
    ((headerOf font).table (encode font))).map _ = _
  rw [decodeIf_table h, Except.map, hFont]

end ConsoleFont.Psf2
