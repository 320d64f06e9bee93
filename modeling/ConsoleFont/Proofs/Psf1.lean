import ConsoleFont.Font.WellFormed
import ConsoleFont.Proofs.UnicodeTable
import ConsoleFont.Psf1

/-! # What a PSF1 file is read as

`decode_of_header` says what is read behind the signature and the two bytes of a header. Every font
that is read is well-formed (`wellFormed_of_decode`) and can be written again
(`writable_of_decode`), and what is written for a font is read as that font (`decode_encode`).
-/

namespace ConsoleFont.Psf1

structure Fits (mode height : UInt8) (size : Nat) : Prop where
  mode_le : mode.toNat ≤ maxMode
  height_pos : 0 < height.toNat
  room : height.toNat * glyphCount mode ≤ size

theorem fault?_eq_none_iff {mode height : UInt8} {size : Nat} :
    fault? mode height size = none ↔ Fits mode height size := by
  have hZero : height = 0 ↔ height.toNat = 0 := by rw [← UInt8.toNat_inj]; rfl
  constructor
  · intro h
    unfold fault? at h
    split at h; · cases h
    split at h; · cases h
    split at h; · cases h
    exact ⟨by omega, by rw [hZero] at *; omega, by omega⟩
  · rintro ⟨hMode, hHeight, hRoom⟩
    have hHeightNe : ¬ height = 0 := by rw [hZero]; omega
    rw [fault?, if_neg (by omega), if_neg hHeightNe, if_neg (by omega)]

theorem ne_badMagic_of_fault? {mode height : UInt8} {size : Nat} {error : Error}
    (h : fault? mode height size = some error) : error ≠ .badMagic := by
  rintro rfl
  unfold fault? at h
  repeat' split at h
  all_goals cases h

theorem glyphCount_lt (mode : UInt8) : glyphCount mode < glyphCountLimit := by
  unfold glyphCount
  split <;> decide

def fontOf (mode height : UInt8) (body : Bytes) (unicodeMap : List Entry) : Font where
  width := 8
  height := height.toNat
  glyphSize := height.toNat
  format := .psf1
  glyphCount := glyphCount mode
  bitmaps := body.take (height.toNat * glyphCount mode)
  unicodeMap := unicodeMap

theorem decode_of_no_signature {data : Bytes} (h : ¬ Bytes.ofUnit magic <+: data) :
    decode data = .error .badMagic := by
  rw [decode, Reader.signature_eq_badMagic h]
  rfl

theorem decode_of_short {behind : Bytes} (h : behind.length < 2) :
    decode (Bytes.ofUnit magic ++ behind) = .error (.badHeader .psf1) := by
  rw [decode, Reader.signature_eq_ok_iff.2 rfl, ok_bind]
  match behind, h with
  | [], _ => rfl
  | [_], _ => rfl

theorem decode_of_header (mode height : UInt8) (body : Bytes) :
    decode (Bytes.ofUnit magic ++ mode :: height :: body) =
      match fault? mode height body.length with
      | some error => .error error
      | none =>
        (UnicodeTable.decodeIf (hasTable mode) .units (glyphCount mode)
          (body.drop (height.toNat * glyphCount mode))).map (fontOf mode height body) := by
  rw [decode, Reader.signature_eq_ok_iff.2 rfl, ok_bind]
  simp only [header, ok_bind, check]
  cases hFault : fault? mode height body.length with
  | some error => rfl
  | none =>
    have hRoom := (fault?_eq_none_iff.1 hFault).room
    simp only [ok_bind]
    rw [Reader.take, if_pos hRoom, ok_bind]
    simp only
    cases UnicodeTable.decodeIf (hasTable mode) .units (glyphCount mode)
        (body.drop (height.toNat * glyphCount mode)) with
    | error error => rfl
    | ok unicodeMap => rfl

theorem exists_header_of_decode {data : Bytes} {font : Font} (h : decode data = .ok font) :
    ∃ mode height body unicodeMap, data = Bytes.ofUnit magic ++ mode :: height :: body ∧
      Fits mode height body.length ∧
      UnicodeTable.decodeIf (hasTable mode) .units (glyphCount mode)
        (body.drop (height.toNat * glyphCount mode)) = .ok unicodeMap ∧
      font = fontOf mode height body unicodeMap := by
  by_cases hMagic : Bytes.ofUnit magic <+: data
  · obtain ⟨behind, rfl⟩ := hMagic
    match behind with
    | [] =>
      rw [decode_of_short (by simp)] at h
      cases h
    | [_] =>
      rw [decode_of_short (by simp)] at h
      cases h
    | mode :: height :: body =>
      rw [decode_of_header] at h
      cases hFault : fault? mode height body.length with
      | some error =>
        rw [hFault] at h
        cases h
      | none =>
        rw [hFault] at h
        obtain ⟨unicodeMap, hTable, rfl⟩ := map_eq_ok_iff.1 h
        exact ⟨mode, height, body, unicodeMap, rfl, fault?_eq_none_iff.1 hFault, hTable, rfl⟩
  · rw [decode_of_no_signature hMagic] at h
    cases h

/-- **Every font that is read is well-formed.** -/
theorem wellFormed_of_decode {data : Bytes} {font : Font} (h : decode data = .ok font) :
    font.WellFormed := by
  obtain ⟨mode, height, body, unicodeMap, _, hFits, hTable, rfl⟩ := exists_header_of_decode h
  have hMap := UnicodeTable.mapOf_of_decodeIf hTable
  have hHeight : height.toNat < wordLimit := Nat.lt_trans height.toNat_lt (by decide)
  refine ⟨Metrics.wellFormed_eight hFits.height_pos hHeight, glyphCount_lt mode, ?_,
    hMap.characters_ne_nil, hMap.position_lt, hMap.sorted⟩
  rw [fontOf, List.length_take]
  exact Nat.min_eq_left hFits.room

theorem format_of_decode {data : Bytes} {font : Font} (h : decode data = .ok font) :
    font.format = .psf1 := by
  obtain ⟨_, _, _, _, _, _, _, rfl⟩ := exists_header_of_decode h
  rfl

theorem decode_ne_badMagic {data : Bytes} (h : Bytes.ofUnit magic <+: data) :
    decode data ≠ .error .badMagic := by
  obtain ⟨behind, rfl⟩ := h
  match behind with
  | [] =>
    rw [decode_of_short (by simp)]
    simp
  | [_] =>
    rw [decode_of_short (by simp)]
    simp
  | mode :: height :: body =>
    rw [decode_of_header]
    split
    · rename_i error hFault
      intro hError
      exact ne_badMagic_of_fault? hFault (Except.error.inj hError)
    · intro hError
      cases hTable : UnicodeTable.decodeIf (hasTable mode) .units (glyphCount mode)
          (body.drop (height.toNat * glyphCount mode)) with
      | error error =>
        rw [hTable] at hError
        cases hError
        cases UnicodeTable.fault_of_decodeIf hTable
      | ok unicodeMap =>
        rw [hTable] at hError
        cases hError

/-! ### Writing -/

/-- A font that has a file of this version: its glyphs are eight pixels wide, and the map uses no
character that a table would take for a marker. -/
structure Writable (font : Font) : Prop where
  width_eq : font.width = 8
  height_eq : font.height = font.glyphSize
  glyphSize_pos : 0 < font.glyphSize
  glyphSize_lt : font.glyphSize < 256
  glyphCount_eq : font.glyphCount = 256 ∨ font.glyphCount = 512
  length_bitmaps : font.bitmaps.length = font.glyphSize * font.glyphCount
  position_lt : ∀ entry ∈ font.unicodeMap, entry.position < font.glyphCount
  sorted : font.unicodeMap.Pairwise fun a b => a.position ≤ b.position
  characters_ne_nil : ∀ entry ∈ font.unicodeMap, entry.characters ≠ []
  ne_marker : ∀ entry ∈ font.unicodeMap, ∀ character ∈ entry.characters,
    character.toNat ≠ 0xFFFE ∧ character.toNat ≠ 0xFFFF

theorem glyphCount_eq_or (mode : UInt8) : glyphCount mode = 256 ∨ glyphCount mode = 512 := by
  unfold glyphCount
  split
  · exact .inr rfl
  · exact .inl rfl

/-- **Every font that is read can be written.** -/
theorem writable_of_decode {data : Bytes} {font : Font} (h : decode data = .ok font) :
    Writable font := by
  have hWell := wellFormed_of_decode h
  obtain ⟨mode, height, body, unicodeMap, _, hFits, hTable, rfl⟩ := exists_header_of_decode h
  exact {
    width_eq := rfl
    height_eq := rfl
    glyphSize_pos := hFits.height_pos
    glyphSize_lt := height.toNat_lt
    glyphCount_eq := glyphCount_eq_or mode
    length_bitmaps := hWell.length_bitmaps
    position_lt := hWell.position_lt
    sorted := hWell.sorted
    characters_ne_nil := hWell.characters_ne_nil
    ne_marker := fun entry hEntry character hCharacter => UnicodeTable.writes_units_iff.1
      (UnicodeTable.writesEntry_of_decodeIf hTable entry hEntry character hCharacter) }

theorem modeOf_le (font : Font) : (modeOf font).toNat ≤ maxMode := by
  unfold modeOf
  split <;> split <;> decide

theorem glyphCount_modeOf {font : Font} (h : font.glyphCount = 256 ∨ font.glyphCount = 512) :
    glyphCount (modeOf font) = font.glyphCount := by
  unfold modeOf
  rcases h with hCount | hCount
  all_goals
    rw [hCount]
    cases font.hasUnicodeMap <;> rfl

/-- The second bit tells whether there is a table, and the third is not used. -/
theorem hasTable_modeOf (font : Font) : hasTable (modeOf font) = font.hasUnicodeMap := by
  unfold modeOf
  cases font.hasUnicodeMap
  all_goals split <;> rfl

namespace Writable

variable {font : Font}

theorem toNat_glyphSize (h : Writable font) : (UInt8.ofNat font.glyphSize).toNat = font.glyphSize :=
  UInt8.toNat_ofNat_of_lt' h.glyphSize_lt

theorem decodeIf_encodeIf (h : Writable font) :
    UnicodeTable.decodeIf font.hasUnicodeMap .units font.glyphCount
      (UnicodeTable.encodeIf font.hasUnicodeMap .units font.glyphCount font.unicodeMap) =
        .ok font.unicodeMap := by
  have hMap : UnicodeTable.MapOf 0 font.glyphCount font.unicodeMap :=
    ⟨fun _ _ => Nat.zero_le _, h.position_lt, h.characters_ne_nil, h.sorted⟩
  refine UnicodeTable.decodeIf_encodeIf hMap fun entry hEntry character hCharacter => ?_
  exact UnicodeTable.writes_units_iff.2 (h.ne_marker entry hEntry character hCharacter)

theorem fontOf_encode (hFormat : font.format = .psf1) (h : Writable font) (table : Bytes) :
    fontOf (modeOf font) (UInt8.ofNat font.glyphSize) (font.bitmaps ++ table) font.unicodeMap =
      font := by
  rw [fontOf, h.toNat_glyphSize, glyphCount_modeOf h.glyphCount_eq,
    List.take_left' h.length_bitmaps, ← hFormat]
  have hWidth := h.width_eq
  have hHeight := h.height_eq
  obtain ⟨⟨width, height, glyphSize⟩, format, glyphCount, bitmaps, unicodeMap⟩ := font
  cases hWidth
  cases hHeight
  rfl

/-- **A font is read back from the file that is written for it.** -/
theorem decode_encode (hFormat : font.format = .psf1) (h : Writable font) :
    decode (encode font) = .ok font := by
  let table := UnicodeTable.encodeIf font.hasUnicodeMap .units font.glyphCount font.unicodeMap
  have hEncode : encode font =
      Bytes.ofUnit magic ++
        modeOf font :: UInt8.ofNat font.glyphSize :: (font.bitmaps ++ table) := by
    rw [encode, List.append_assoc, List.append_assoc, List.cons_append, List.cons_append,
      List.nil_append]
  have hFits : Fits (modeOf font) (UInt8.ofNat font.glyphSize) (font.bitmaps ++ table).length := by
    refine ⟨modeOf_le font, ?_, ?_⟩
    · rw [h.toNat_glyphSize]
      exact h.glyphSize_pos
    · rw [h.toNat_glyphSize, glyphCount_modeOf h.glyphCount_eq, List.length_append,
        h.length_bitmaps]
      exact Nat.le_add_right ..
  rw [hEncode, decode_of_header, fault?_eq_none_iff.2 hFits]
  simp only
  rw [hasTable_modeOf, h.toNat_glyphSize, glyphCount_modeOf h.glyphCount_eq,
    List.drop_left' h.length_bitmaps, h.decodeIf_encodeIf, Except.map, fontOf_encode hFormat h]

end Writable

end ConsoleFont.Psf1
