import ConsoleFont.Proofs.Headerless
import ConsoleFont.Proofs.Machine.UnicodeTable
import ConsoleFont.Proofs.Psf1
import ConsoleFont.Proofs.Psf2

/-! # Fonts read by checked operations

The decoders of fonts once more, with every size computed by checked operations, in the order in
which they are needed, and with the assertions that a new font has to pass. A decoder's checks are
what keeps the operations behind them within bounds: `answers_psf2`, `answers_psf1` and
`answers_headerless` say that from the start of any data the decoders come to what the library comes
to.
-/

namespace ConsoleFont.Machine

/-- A font, provided that its parts fit each other. -/
def newFont (font : Font) : Checked Font := do
  assert (0 < font.width)
  let size ← mul sizeLimit font.glyphSize font.glyphCount
  assert (font.bitmaps.length = size)
  assert (∀ entry ∈ font.unicodeMap, entry.position < font.glyphCount)
  return font

theorem newFont_eq {font : Font} (h : font.WellFormed) : newFont font = .ok font := by
  have hSize := mul_lt_sizeLimit h.metrics.glyphSize_lt h.glyphCount_lt
  rw [newFont, assert_of h.metrics.width_pos, ok_bind, mul_of_lt hSize, ok_bind,
    assert_of h.length_bitmaps, ok_bind, assert_of h.position_lt, ok_bind]
  rfl

def rowSize (width : Nat) : Checked Nat := do
  let whole ← div width 8
  if width % 8 = 0 then return whole else add wordLimit whole 1

theorem rowSize_eq {width : Nat} (h : width < wordLimit) : rowSize width = .ok (pitch width) := by
  rw [rowSize, div_of_pos (by decide), ok_bind, pitch]
  split
  · exact congrArg Except.ok (by omega)
  · rw [add_of_lt (by rw [wordLimit] at *; omega)]
    exact congrArg Except.ok (by omega)

theorem mapError_eq_ok_iff {α ε ε' : Type} {result : Except ε α} {f : ε → ε'} {a : α} :
    result.mapError f = .ok a ↔ result = .ok a := by
  cases result <;> simp [Except.mapError]

namespace Step

variable {α β γ δ : Type} {head : Head}

/-- Goes on only if the parts that a decoder has read make a font. -/
def build (parts : Step Font) : Step Font := do
  let font ← parts
  newFont font

theorem answers_build {parts : Step Font} {outcome : Except Error Font}
    (h : parts.Answers head outcome) (hWell : ∀ font, outcome = .ok font → font.WellFormed) :
    (build parts).Answers head outcome := by
  refine h.bind (fun font after c _ hFont hOk => ?_) fun error hError => hError
  rw [hFont] at hOk
  rw [hOk]
  exact .checked (newFont_eq (hWell font hOk)) rfl

/-! ### PSF version 2 -/

def psf2Header : Step Psf2.Header := do
  let version ← number 4
  let headerSize ← number 4
  let flags ← number 4
  let glyphCount ← number 4
  let glyphSize ← number 4
  let height ← number 4
  let width ← number 4
  return { version, headerSize, flags, glyphCount, glyphSize, height, width }

theorem answers_psf2Header (head : Head) :
    psf2Header.Answers head (Psf2.Header.read head.rest) := by
  refine (reads_word _).bind_read fun version head _ _ => ?_
  refine (reads_word _).bind_read fun headerSize head _ _ => ?_
  refine (reads_word _).bind_read fun flags head _ _ => ?_
  refine (reads_word _).bind_read fun glyphCount head _ _ => ?_
  refine (reads_word _).bind_read fun glyphSize head _ _ => ?_
  refine (reads_word _).bind_read fun height head _ _ => ?_
  refine (reads_word _).bind_read fun width head _ _ => ?_
  exact .pure rfl

/-- Refuses a header that does not fit the bytes from `start` to the end of the data. -/
def psf2Check (header : Psf2.Header) (start length : Nat) : Step Unit := do
  refuseIf (0 < header.version) (.unsupportedVersion header.version)
  let size ← sub length start
  refuseIf (size < header.headerSize) .offsetTooBig
  refuseIf (header.glyphSize = 0) .glyphSizeZero
  let available ← sub size header.headerSize
  refuseIf (available < header.glyphSize) .glyphSizeTooBig
  let most ← div available header.glyphSize
  refuseIf (most < header.glyphCount) .lengthTooBig
  refuseIf (header.width = 0) .glyphSizeZero
  let row ← rowSize header.width
  let rows ← div header.glyphSize row
  refuseIf (header.height ≠ rows) .glyphSizeTooBig

theorem answers_psf2Check {header : Psf2.Header} (h : header.width < wordLimit) (head : Head)
    (length : Nat) : (psf2Check header 0 length).Answers head (header.check length) := by
  refine .refuseIf_bind (fun hRefused => ?_) fun hVersion =>
    .lift_bind (sub_of_le (Nat.zero_le length)) <|
    .refuseIf_bind (fun hRefused => ?_) fun hHeader =>
    .refuseIf_bind (fun hRefused => ?_) fun hSize =>
    .lift_bind (sub_of_le (Nat.not_lt.1 hHeader)) <|
    .refuseIf_bind (fun hRefused => ?_) fun hOne =>
    .lift_bind (div_of_pos (Nat.pos_of_ne_zero hSize)) <|
    .refuseIf_bind (fun hRefused => ?_) fun hAll =>
    .refuseIf_bind (fun hRefused => ?_) fun hWidth =>
    .lift_bind (rowSize_eq h) <|
    .lift_bind (div_of_pos (by unfold pitch; omega)) <|
    .refuseIf (fun hRefused => ?_) (fun hHeight => ?_) rfl
  -- in every case the conditions before decide what the check comes to
  all_goals
    unfold Psf2.Header.check Psf2.Header.fault?
    grind

/-- Reads what the header describes, where the header ends by its own account. -/
def psf2Body (header : Psf2.Header) (start : Nat) : Step Font := do
  let glyphs ← add sizeLimit start header.headerSize
  seek glyphs
  let length ← mul sizeLimit header.glyphSize header.glyphCount
  let bitmaps ← take length
  let unicodeMap ← table header.hasTable .utf8 header.glyphCount
  return {
    width := header.width
    height := header.height
    glyphSize := header.glyphSize
    format := .psf2
    glyphCount := header.glyphCount
    bitmaps
    unicodeMap }

def psf2Parts : Step Font := do
  let start ← get
  signature (Bytes.ofWord Psf2.magic)
  let header ← psf2Header.mapError fun _ => .badHeader .psf2
  psf2Check header start.position start.length
  psf2Body header start.position

def psf2 : Step Font := build psf2Parts

/-- A header that was checked leaves room for its bitmaps. -/
theorem bitmaps_le_of_check {header : Psf2.Header} {size : Nat} (h : header.check size = .ok ()) :
    header.headerSize + header.glyphSize * header.glyphCount ≤ size := by
  unfold Psf2.Header.check at h
  split at h
  · cases h
  · rename_i hNone
    exact (Psf2.Header.fault?_eq_none_iff.1 hNone).bitmaps_le

theorem answers_psf2Body {header : Psf2.Header} (hWords : header.Words)
    (hHeader : header.headerSize ≤ head.data.length) :
    (psf2Body header 0).Answers head (do
      let (_, body) ← Reader.skip header.headerSize head.data
      let (bitmaps, table) ← Reader.take (header.glyphSize * header.glyphCount) body
      let unicodeMap ←
        UnicodeTable.decodeIf header.hasTable .utf8 header.glyphCount table
      return {
        width := header.width
        height := header.height
        glyphSize := header.glyphSize
        format := .psf2
        glyphCount := header.glyphCount
        bitmaps
        unicodeMap }) := by
  have hLength := head.length_lt
  rw [Reader.skip, if_pos hHeader, ok_bind]
  refine .lift_bind (add_of_lt (by omega)) (.seek_bind (fun hBehind => by omega) fun hWithin => ?_)
  have hBody : head.data.drop header.headerSize =
      (head.movedTo (0 + header.headerSize) hWithin).rest := by
    show _ = head.data.drop (0 + header.headerSize)
    rw [Nat.zero_add]
  rw [hBody]
  refine .lift_bind (mul_of_lt (mul_lt_sizeLimit hWords.glyphSize_lt hWords.glyphCount_lt)) ?_
  refine (reads_take _ _).bind_read fun bitmaps behind _ _ => ?_
  exact (answers_table header.hasTable .utf8 hWords.glyphCount_lt behind).bind_answer
    fun unicodeMap last _ _ => .pure rfl

theorem answers_psf2Parts (hStart : head.position = 0) :
    psf2Parts.Answers head (Psf2.decode head.data) := by
  refine .get_bind ((refines_signature hStart (by decide)).bind_read fun _ second hSecond _ => ?_)
  refine ((answers_psf2Header second).mapError _).bind_answer fun header third hThird hRead => ?_
  have hWords := Psf2.Header.words_of_read (mapError_eq_ok_iff.1 hRead)
  rw [hStart]
  refine (answers_psf2Check hWords.width_lt third head.data.length).bind_answer
    fun _ fourth hFourth hCheck => ?_
  have hData : fourth.data = head.data := hFourth.trans (hThird.trans hSecond)
  have hRoom := bitmaps_le_of_check hCheck
  rw [← hData] at hRoom ⊢
  exact answers_psf2Body hWords (by omega)

theorem answers_psf2 (hStart : head.position = 0) : psf2.Answers head (Psf2.decode head.data) :=
  answers_build (answers_psf2Parts hStart) fun _ hOk => Psf2.wellFormed_of_decode hOk

/-! ### PSF version 1 -/

def psf1Body (mode height : UInt8) : Step Font := do
  refuseIf (Psf1.maxMode < mode.toNat) (.unsupportedMode mode)
  refuseIf (height = 0) .glyphSizeZero
  let length ← mul sizeLimit height.toNat (Psf1.glyphCount mode)
  let head ← get
  refuseIf (head.remaining < length) .lengthTooBig
  let bitmaps ← take length
  let unicodeMap ← table (Psf1.hasTable mode) .units (Psf1.glyphCount mode)
  return {
    width := 8
    height := height.toNat
    glyphSize := height.toNat
    format := .psf1
    glyphCount := Psf1.glyphCount mode
    bitmaps
    unicodeMap }

def psf1Parts : Step Font := do
  signature (Bytes.ofUnit Psf1.magic)
  let mode ← attempt byte
  let height ← attempt byte
  match mode, height with
  | .ok mode, .ok height => psf1Body mode height
  | _, _ => throw (.badHeader .psf1)

def psf1 : Step Font := build psf1Parts

theorem answers_psf1Body (mode height : UInt8) (head : Head) :
    (psf1Body mode height).Answers head (do
      Psf1.check mode height head.rest.length
      let (bitmaps, table) ← Reader.take (height.toNat * Psf1.glyphCount mode) head.rest
      let unicodeMap ←
        UnicodeTable.decodeIf (Psf1.hasTable mode) .units (Psf1.glyphCount mode) table
      return {
        width := 8
        height := height.toNat
        glyphSize := height.toNat
        format := .psf1
        glyphCount := Psf1.glyphCount mode
        bitmaps
        unicodeMap }) := by
  have hCount := Psf1.glyphCount_lt mode
  have hHeight : height.toNat < wordLimit := Nat.lt_trans height.toNat_lt (by decide)
  have hLeft := head.length_rest
  have hCheck : ∀ error, Psf1.fault? mode height head.rest.length = some error →
      Psf1.check mode height head.rest.length = .error error := by
    intro error hFault
    rw [Psf1.check, hFault]
  refine .refuseIf_bind (fun hRefused => ?_) fun hMode =>
    .refuseIf_bind (fun hRefused => ?_) fun hZero =>
    .lift_bind (mul_of_lt (mul_lt_sizeLimit hHeight hCount)) <|
    .get_bind <| .refuseIf_bind (fun hRefused => ?_) fun hRoom => ?_
  · rw [hCheck (.unsupportedMode mode) (by unfold Psf1.fault?; grind)]
    rfl
  · rw [hCheck .glyphSizeZero (by unfold Psf1.fault?; grind)]
    rfl
  · rw [hCheck .lengthTooBig (by unfold Psf1.fault?; grind)]
    rfl
  · have hNone : Psf1.fault? mode height head.rest.length = none := by unfold Psf1.fault?; grind
    rw [Psf1.check, hNone]
    refine (reads_take _ head).bind_read fun bitmaps behind _ _ => ?_
    exact (answers_table (Psf1.hasTable mode) .units hCount behind).bind_answer
      fun unicodeMap last _ _ => .pure rfl

theorem answers_psf1Parts (hStart : head.position = 0) :
    psf1Parts.Answers head (Psf1.decode head.data) := by
  refine (refines_signature hStart (by decide)).bind_read fun _ second _ _ => ?_
  refine (reads_byte second).attempt_bind (fun mode third _ _ hRead hMode => ?_)
    fun error hEnd => ?_
  · subst hRead
    rw [Reader.byte_eq_ok_iff.1 hMode]
    refine (reads_byte third).attempt_bind (fun height fourth _ _ hRead hHeight => ?_)
      fun error hEnd => ?_
    · subst hRead
      rw [Reader.byte_eq_ok_iff.1 hHeight]
      exact answers_psf1Body mode height fourth
    · rw [eq_nil_of_byte hEnd]
      exact .throw _
  · rw [eq_nil_of_byte hEnd]
    exact (reads_byte second).attempt_bind (fun _ _ _ _ _ _ => .throw _) fun _ _ => .throw _

theorem answers_psf1 (hStart : head.position = 0) : psf1.Answers head (Psf1.decode head.data) :=
  answers_build (answers_psf1Parts hStart) fun _ hOk => Psf1.wellFormed_of_decode hOk

/-! ### Fonts without a header -/

/-- A checked operation whose fault is a failure like others. -/
def orFail (checked : Checked α) (error : Error) : Step α :=
  match checked with
  | .ok a => return a
  | .error _ => throw error

def heightFor (size : Nat) : Step Nat := do
  let height ← div size 256
  refuseIf (wordLimit ≤ height) .lengthTooBig
  return height

def bareFont (height glyphCount : Nat) : Step Font := do
  let length ← orFail (mul sizeLimit height glyphCount) .lengthTooBig
  let bitmaps ← take length
  return {
    width := 8
    height := height
    glyphSize := height
    format := .raw
    glyphCount := glyphCount
    bitmaps
    unicodeMap := [] }

def codePageFont (targetHeight : Option Nat) : Step Font :=
  match targetHeight with
  | none => throw .heightRequired
  | some height =>
    match Headerless.codePageBlocks.find? fun block => block.height == height with
    | none => throw (.unsupportedHeight height)
    | some block => do
      skip block.offset
      bareFont block.height block.glyphCount

def headerlessOf (targetHeight : Option Nat) (length : Nat) : Step Font :=
  if length = Headerless.codePageLength then codePageFont targetHeight
  else if length = Headerless.twoFontsLength then bareFont 32 512
  else if 0 < length ∧ length % 256 = 0 then do
    let height ← heightFor length
    bareFont height 256
  else if Headerless.codePageHeader < length ∧ length % 256 = Headerless.codePageHeader then do
    skip Headerless.codePageHeader
    let size ← sub length Headerless.codePageHeader
    let height ← heightFor size
    bareFont height 256
  else throw .badMagic

def headerlessParts (targetHeight : Option Nat) : Step Font := do
  let head ← get
  headerlessOf targetHeight head.remaining

def headerless (targetHeight : Option Nat) : Step Font := build (headerlessParts targetHeight)

theorem Refines.orFail_bind {checked : Checked α} {a : α} {error : Error} {next : α → Step β}
    {Q : β → Head → δ → Prop} {outcome : Except Error δ} (hChecked : checked = .ok a)
    (h : (next a).Refines Q head outcome) :
    (orFail checked error >>= next).Refines Q head outcome := by
  subst hChecked
  exact h

section Headerless

open Headerless

variable {data : Bytes} {place : Block}

theorem answers_bareFont (hWithin : place.Within data.length) (hLength : data.length < sizeLimit)
    (hRest : head.rest = data.drop place.offset) :
    (bareFont place.height place.glyphCount).Answers head (.ok (place.font data)) := by
  have hRoom := hWithin.room
  have hMul : mul sizeLimit place.height place.glyphCount = .ok place.size :=
    mul_of_lt (by show place.size < sizeLimit; omega)
  have hTake : Reader.take place.size head.rest =
      .ok ((data.drop place.offset).take place.size, head.rest.drop place.size) := by
    rw [Reader.take, hRest, if_pos (by rw [List.length_drop]; omega)]
  have hRead := reads_take place.size head
  rw [hTake] at hRead
  refine .orFail_bind hMul (hRead.bind_ok fun bitmaps after _ hBitmaps => ?_)
  obtain ⟨rfl, _⟩ := Prod.mk.inj hBitmaps
  exact .pure rfl

theorem answers_codePageFont (hStart : head.position = 0) (targetHeight : Option Nat)
    (hLength : head.data.length = codePageLength) :
    (codePageFont targetHeight).Answers head
      ((codePageBlock targetHeight).map fun place : Block => place.font head.data) := by
  cases targetHeight with
  | none => exact .throw .heightRequired
  | some height =>
    rw [codePageFont, codePageBlock]
    cases hFound : codePageBlocks.find? fun block => block.height == height with
    | none => exact .throw (.unsupportedHeight height)
    | some place =>
      have hPlace : codePageBlock (some height) = .ok place := by rw [codePageBlock, hFound]
      have hWithin := within_of_codePageBlock hPlace
      rw [← hLength] at hWithin
      have hRest := head.rest_eq_data hStart
      have hRoom := hWithin.room
      refine .skip_bind (by rw [hRest]; omega) fun after _ hAfter => ?_
      rw [hRest] at hAfter
      exact answers_bareFont hWithin head.length_lt hAfter

theorem answers_heightFor_bareFont {size offset : Nat} (hSize : 256 ≤ size)
    (hRoom : offset + size = data.length) (hLength : data.length < sizeLimit)
    (hRest : head.rest = data.drop offset) :
    (do let height ← heightFor size; bareFont height 256).Answers head
      ((bareBlock size offset).map fun place : Block => place.font data) := by
  simp only [heightFor, bind_assoc, pure_bind]
  refine .lift_bind (div_of_pos (by decide)) (.refuseIf_bind (fun hBig => ?_) fun hFits => ?_)
  · rw [bareBlock, if_neg (Nat.not_lt.2 hBig)]
    rfl
  · have hBlock : bareBlock size offset = .ok ⟨size / 256, 256, offset⟩ :=
      if_pos (Nat.not_le.1 hFits)
    have hWithin := within_of_bareBlock hSize hBlock
    rw [hRoom] at hWithin
    rw [hBlock]
    exact answers_bareFont hWithin hLength hRest

theorem answers_headerlessParts (hStart : head.position = 0) (targetHeight : Option Nat) :
    (headerlessParts targetHeight).Answers head (decode targetHeight head.data) := by
  have hRest := head.rest_eq_data hStart
  have hLength := head.length_lt
  have hLeft : head.remaining = head.data.length := by rw [← head.length_rest, hRest]
  rw [decode_eq, block]
  refine .get_bind ?_
  rw [hLeft, headerlessOf]
  split
  · rename_i hPage
    exact answers_codePageFont hStart targetHeight hPage
  split
  · rename_i hTwo
    have hWithin : (⟨32, 512, 0⟩ : Block).Within head.data.length :=
      ⟨by decide, by decide, by decide, by rw [hTwo]; decide⟩
    exact answers_bareFont hWithin hLength hRest
  split
  · exact answers_heightFor_bareFont (by omega) (Nat.zero_add _) hLength hRest
  split
  · rename_i hHeader
    simp only [codePageHeader] at hHeader ⊢
    refine .skip_bind (by rw [hRest]; omega) fun after _ hAfter => ?_
    rw [hRest] at hAfter
    refine .lift_bind (sub_of_le (by omega)) ?_
    exact answers_heightFor_bareFont (by omega) (by omega) hLength hAfter
  · exact .throw .badMagic

end Headerless

theorem answers_headerless (hStart : head.position = 0) (targetHeight : Option Nat) :
    (headerless targetHeight).Answers head (Headerless.decode targetHeight head.data) :=
  answers_build (answers_headerlessParts hStart targetHeight)
    fun _ hOk => Headerless.wellFormed_of_decode hOk

end Step

end ConsoleFont.Machine
