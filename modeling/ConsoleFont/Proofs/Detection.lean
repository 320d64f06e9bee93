import ConsoleFont.Proofs.Headerless
import ConsoleFont.Proofs.Observation
import ConsoleFont.Proofs.PartList
import ConsoleFont.Proofs.Psf1
import ConsoleFont.Proofs.Psf2

/-! # Which format data is read as

Three formats have a signature, and data starts with one of them at most (`Format.Signs.unique`).
The file of a single font is read by itself (`observe_parse_single`), without a call to the
resolver. What becomes of a list of parts is said by `observe_parse_list`, `observe_combined` and
`result_part`, and it is the same for every way of counting how deep the list lies. Data in memory
comes to `Psf2.decode`, `Psf1.decode` or `Font.resultAsList` by its signature.
-/

namespace ConsoleFont

namespace Format

/-- The bytes that every file of a format starts with. -/
def signature? : Format → Option Bytes
  | psf2 => some (Bytes.ofWord Psf2.magic)
  | psf1 => some (Bytes.ofUnit Psf1.magic)
  | combined => some PartList.magic
  | raw => none

def Signs (format : Format) (data : Bytes) : Prop :=
  ∃ signature ∈ format.signature?, signature <+: data

instance (format : Format) (data : Bytes) : Decidable (format.Signs data) :=
  match h : format.signature? with
  | none => isFalse (by simp [Signs, h])
  | some signature => decidable_of_iff (signature <+: data) (by simp [Signs, h])

def firstByte? (format : Format) : Option UInt8 := format.signature?.bind List.head?

theorem Signs.head?_eq {format : Format} {data : Bytes} (h : format.Signs data) :
    data.head? = format.firstByte? ∧ format.firstByte? ≠ none := by
  obtain ⟨signature, hSignature, behind, rfl⟩ := h
  have hFirst : format.firstByte? = signature.head? := by
    rw [firstByte?, Option.mem_def.1 hSignature]
    rfl
  have hSome : signature.head? ≠ none := by
    cases format <;> cases hSignature <;> decide
  obtain ⟨byte, hByte⟩ := Option.ne_none_iff_exists'.1 hSome
  rw [hFirst, List.head?_append, hByte]
  exact ⟨rfl, Option.some_ne_none byte⟩

/-- **No data is signed as two formats.** -/
theorem Signs.unique {format other : Format} {data : Bytes} (h : format.Signs data)
    (hOther : other.Signs data) : format = other := by
  obtain ⟨hHead, hSome⟩ := h.head?_eq
  have hSame : format.firstByte? = other.firstByte? := hHead.symm.trans hOther.head?_eq.1
  revert hSome hSame
  cases format <;> cases other <;> decide

theorem Signs.not_of_ne {format other : Format} {data : Bytes} (h : format.Signs data)
    (hNe : other ≠ format) : ¬ other.Signs data := by
  intro hOther
  exact hNe (hOther.unique h)

theorem signs_psf2 {data : Bytes} : psf2.Signs data ↔ Bytes.ofWord Psf2.magic <+: data := by
  simp [Signs, signature?]

theorem signs_psf1 {data : Bytes} : psf1.Signs data ↔ Bytes.ofUnit Psf1.magic <+: data := by
  simp [Signs, signature?]

theorem signs_combined {data : Bytes} : combined.Signs data ↔ PartList.magic <+: data := by
  simp [Signs, signature?]

end Format

theorem Psf2.decode_eq_badMagic_iff {data : Bytes} :
    decode data = .error .badMagic ↔ ¬ Format.psf2.Signs data := by
  rw [Format.signs_psf2]
  exact ⟨fun hError hMagic => decode_ne_badMagic hMagic hError, decode_of_no_signature⟩

theorem Psf1.decode_eq_badMagic_iff {data : Bytes} :
    decode data = .error .badMagic ↔ ¬ Format.psf1.Signs data := by
  rw [Format.signs_psf1]
  exact ⟨fun hError hMagic => decode_ne_badMagic hMagic hError, decode_of_no_signature⟩

def decodeSingle (targetHeight : Option Nat) (data : Bytes) : Except Error Font :=
  if Format.psf2.Signs data then Psf2.decode data
  else if Format.psf1.Signs data then Psf1.decode data
  else Headerless.decode targetHeight data

/-- The file of a single font is refused as none by its length alone. -/
theorem decodeSingle_eq_badMagic_iff {targetHeight : Option Nat} {data : Bytes} :
    decodeSingle targetHeight data = .error .badMagic ↔
      ¬ Format.psf2.Signs data ∧ ¬ Format.psf1.Signs data ∧
        Headerless.block targetHeight data.length = .error .badMagic := by
  unfold decodeSingle
  split
  · rename_i hSigns
    simp [Psf2.decode_eq_badMagic_iff, hSigns]
  split
  · rename_i hSigns
    simp [Psf1.decode_eq_badMagic_iff, hSigns]
  · rename_i hPsf2 hPsf1
    simp [Headerless.decode_eq_error_iff, hPsf2, hPsf1]

theorem wellFormed_of_decodeSingle {targetHeight : Option Nat} {data : Bytes} {font : Font}
    (h : decodeSingle targetHeight data = .ok font) : font.WellFormed := by
  unfold decodeSingle at h
  split at h
  · exact Psf2.wellFormed_of_decode h
  split at h
  · exact Psf1.wellFormed_of_decode h
  · exact Headerless.wellFormed_of_decode h

namespace Loader

open LoadM

/-! ### Trying one format after the other -/

section FirstOf

variable {decode : Format → LoadM Font} (hQuiet : ∀ format, (decode format).Quiet)
  {format : Format} {calls : Array Call}

include hQuiet

theorem observe_firstOf_of_badMagic (formats : List Format) {after : Array Call}
    (h : (decode format).observe calls = (.error .badMagic, after)) :
    (firstOf decode (format :: formats)).observe calls =
      (firstOf decode formats).observe after := by
  rw [firstOf_cons, observe_bind _ (quiet_settle (quiet_firstOf hQuiet formats) format),
    observe_attempt, h]
  simp only [settle]
  rw [observe_bind _ fun _ => quiet_firstOf hQuiet formats, observe_tell]

theorem observe_firstOf_of_ne (formats : List Format)
    (h : ((decode format).observe calls).1 ≠ .error .badMagic) :
    (firstOf decode (format :: formats)).observe calls = (decode format).observe calls := by
  rw [firstOf_cons, observe_bind _ (quiet_settle (quiet_firstOf hQuiet formats) format),
    observe_attempt]
  revert h
  rcases (decode format).observe calls with ⟨error | font, after⟩
  · intro h
    cases error <;> first | rfl | exact absurd rfl h
  · intro _
    rfl

theorem observe_firstOf_last :
    (firstOf decode [format]).observe calls = (decode format).observe calls := by
  by_cases h : ((decode format).observe calls).1 = .error .badMagic
  · rw [observe_firstOf_of_badMagic hQuiet [] (Prod.ext h rfl)]
    exact Prod.ext h.symm rfl
  · exact observe_firstOf_of_ne hQuiet [] h

end FirstOf

variable (loader : Loader) (data : Bytes) (calls : Array Call)

theorem observe_headerless :
    (loader.headerless data).observe calls =
      (Headerless.decode loader.options.targetHeight data, calls) := by
  rw [headerless, observe_bind _ fun _ => quiet_lift _, tellHalf]
  by_cases hHalf : data.length = Headerless.twoFontsLength
  · rw [if_pos hHalf]
    rfl
  · rw [if_neg hHalf]
    rfl

theorem observe_decode_of_not_signs {loadFile : Option (Path → LoadM Font)}
    (hFile : QuietFile loadFile) {format : Format} (hFormat : format ≠ .raw)
    (h : ¬ format.Signs data) :
    (loader.decode loadFile data format).observe calls = (.error .badMagic, calls) := by
  cases format with
  | psf2 =>
    rw [← Psf2.decode_eq_badMagic_iff.2 h]
    rfl
  | psf1 =>
    rw [← Psf1.decode_eq_badMagic_iff.2 h]
    rfl
  | combined =>
    rw [Format.signs_combined] at h
    rw [decode, loader.observe_combined hFile, PartList.decode_of_no_signature h]
  | raw => exact absurd rfl hFormat

section Parse

variable {loader data} {loadFile : Option (Path → LoadM Font)}
  (hOrder : loader.order = Format.detectionOrder) (hFile : QuietFile loadFile)

include hOrder hFile

/-- Every single font is read by itself: neither the parts that can be loaded nor the calls made
before matter. -/
theorem observe_parse_single (hList : ¬ Format.combined.Signs data) :
    (loader.parse loadFile data).observe calls =
      (decodeSingle loader.options.targetHeight data, calls) := by
  have hQuiet := loader.quiet_decode hFile data
  rw [parse, hOrder, Format.detectionOrder, decodeSingle]
  by_cases hPsf2 : Format.psf2.Signs data
  · rw [if_pos hPsf2]
    exact observe_firstOf_of_ne hQuiet _ fun h => Psf2.decode_eq_badMagic_iff.1 h hPsf2
  rw [if_neg hPsf2,
    observe_firstOf_of_badMagic hQuiet _
      (loader.observe_decode_of_not_signs data calls hFile (by decide) hPsf2)]
  by_cases hPsf1 : Format.psf1.Signs data
  · rw [if_pos hPsf1]
    exact observe_firstOf_of_ne hQuiet _ fun h => Psf1.decode_eq_badMagic_iff.1 h hPsf1
  rw [if_neg hPsf1,
    observe_firstOf_of_badMagic hQuiet _
      (loader.observe_decode_of_not_signs data calls hFile (by decide) hPsf1)]
  rw [observe_firstOf_of_badMagic hQuiet _
      (loader.observe_decode_of_not_signs data calls hFile (by decide) hList),
    observe_firstOf_last hQuiet]
  exact loader.observe_headerless data calls

theorem observe_parse_list (hList : Format.combined.Signs data) :
    (loader.parse loadFile data).observe calls =
      (firstOf (loader.decode loadFile data) [.combined, .raw]).observe calls := by
  have hQuiet := loader.quiet_decode hFile data
  have hPsf2 : ¬ Format.psf2.Signs data := hList.not_of_ne (by decide)
  have hPsf1 : ¬ Format.psf1.Signs data := hList.not_of_ne (by decide)
  rw [parse, hOrder, Format.detectionOrder,
    observe_firstOf_of_badMagic hQuiet _
      (loader.observe_decode_of_not_signs data calls hFile (by decide) hPsf2),
    observe_firstOf_of_badMagic hQuiet _
      (loader.observe_decode_of_not_signs data calls hFile (by decide) hPsf1)]

theorem observe_parse_list_of_ne (hList : Format.combined.Signs data)
    (h : ((loader.combined loadFile data).observe calls).1 ≠ .error .badMagic) :
    (loader.parse loadFile data).observe calls =
      (loader.combined loadFile data).observe calls := by
  rw [observe_parse_list calls hOrder hFile hList]
  exact observe_firstOf_of_ne (loader.quiet_decode hFile data) [.raw] h

theorem observe_parse_list_of_badMagic (hList : Format.combined.Signs data) {after : Array Call}
    (h : (loader.combined loadFile data).observe calls = (.error .badMagic, after)) :
    (loader.parse loadFile data).observe calls =
      (Headerless.decode loader.options.targetHeight data, after) := by
  have hQuiet := loader.quiet_decode hFile data
  have hCombined : (loader.decode loadFile data .combined).observe calls =
    (.error .badMagic, after) := h
  rw [observe_parse_list calls hOrder hFile hList,
    observe_firstOf_of_badMagic hQuiet [.raw] hCombined, observe_firstOf_last hQuiet]
  exact loader.observe_headerless data after

end Parse

/-! ### Files of parts -/

/-- Loads a font from a file where `levels` combined fonts may still lie within each other. -/
def loadPath (levels : Nat) (path : Path) : LoadM Font := do
  let data ← loader.contents path
  loader.parse (loader.loadPart levels) data

theorem quiet_loadPath (levels : Nat) (path : Path) : (loader.loadPath levels path).Quiet :=
  loader.quietFile_loadPart (levels + 1) _ rfl path

theorem observe_loadPath (levels : Nat) (path : Path) :
    (loader.loadPath levels path).observe calls =
      match loader.files path with
      | .openFails fault => (.error (.cannotOpen path fault), calls)
      | .readFails fault => (.error (.cannotRead path fault), calls)
      | .contents data => (loader.parse (loader.loadPart levels) data).observe calls := by
  have hParse := loader.quiet_parse (loader.quietFile_loadPart levels)
  rw [loadPath, observe_bind _ hParse, contents]
  cases loader.files path with
  | openFails fault => rfl
  | readFails fault => rfl
  | contents data =>
    rw [observe_bind _ fun _ => quiet_pure _]
    rfl

/-- Loads the part of a name where `levels` combined fonts may still lie within each other. -/
def part (resolver : Resolver) (levels : Nat) (name : Bytes) : LoadM Font :=
  resolver.withFile name (loader.loadPath levels)

theorem quiet_part (resolver : Resolver) (levels : Nat) (name : Bytes) :
    (loader.part resolver levels name).Quiet :=
  resolver.quiet_withFile name (loader.quiet_loadPath levels)

/-- What comes of a part: the name has to lead to a file that can be read, and what is in it
decides. -/
theorem result_part (resolver : Resolver) (levels : Nat) (name : Bytes) :
    ((loader.part resolver levels name).observe calls).1 =
      match resolver calls name with
      | none => .error (.fontNotFound name)
      | some path =>
        match loader.files path with
        | .openFails fault => .error (.cannotOpen path fault)
        | .readFails fault => .error (.cannotRead path fault)
        | .contents data => ((loader.parse (loader.loadPart levels) data).observe
            (calls.push (.resolve name (some path)))).1 := by
  rw [part, resolver.observe_withFile name (loader.quiet_loadPath levels)]
  cases resolver calls name with
  | none => rfl
  | some path =>
    simp only [observe_loadPath]
    cases loader.files path <;> rfl

theorem observe_combined_succ {resolver : Resolver}
    (hResolver : loader.options.resolver = some resolver) {data : Bytes} {names : List Bytes}
    (hNames : PartList.decode data = .ok names) (levels : Nat) (calls : Array Call) :
    (loader.combined (loader.loadPart (levels + 1)) data).observe calls =
      let outcome := (join (loader.part resolver levels) names).observe calls
      (outcome.1.map fun font => { font with format := .combined }, outcome.2) := by
  rw [loader.observe_combined (loader.quietFile_loadPart _), hNames]
  exact loader.observe_joinNamed hResolver names calls

theorem observe_combined_zero {resolver : Resolver}
    (hResolver : loader.options.resolver = some resolver) {data : Bytes} {names : List Bytes}
    (hNames : PartList.decode data = .ok names) (calls : Array Call) :
    (loader.combined (loader.loadPart 0) data).observe calls = (.error .combineTooDeep, calls) := by
  rw [loader.observe_combined (loader.quietFile_loadPart _), hNames]
  simp only [joinNamed, hResolver]
  rfl

theorem observe_combined_of_no_resolver (hResolver : loader.options.resolver = none) {data : Bytes}
    {names : List Bytes} (hNames : PartList.decode data = .ok names) (levels : Nat)
    (calls : Array Call) :
    (loader.combined (loader.loadPart levels) data).observe calls =
      (.error (.unsupported "combined fonts without a font resolver"), calls) := by
  rw [loader.observe_combined (loader.quietFile_loadPart _), hNames]
  simp only [joinNamed, hResolver]
  rfl

theorem format_of_combined {loader : Loader} {loadFile : Option (Path → LoadM Font)}
    (hFile : QuietFile loadFile) {data : Bytes} {calls : Array Call} {font : Font}
    (h : ((loader.combined loadFile data).observe calls).1 = .ok font) :
    font.format = .combined := by
  rw [loader.observe_combined hFile] at h
  cases hNames : PartList.decode data with
  | error error =>
    rw [hNames] at h
    cases h
  | ok names =>
    rw [hNames] at h
    simp only at h
    cases hResolver : loader.options.resolver with
    | none =>
      simp only [joinNamed, hResolver] at h
      cases h
    | some resolver =>
      cases loadFile with
      | none =>
        simp only [joinNamed, hResolver] at h
        cases h
      | some load =>
        rw [loader.observe_joinNamed hResolver] at h
        obtain ⟨joined, _, rfl⟩ := map_eq_ok_iff.1 h
        rfl

end Loader

/-! ### Data in memory -/

def Loader.standard (files : FileSystem) (options : Options) : Loader :=
  ⟨files, options, Format.detectionOrder⟩

variable (files : FileSystem) (options : Options)

theorem Font.result_parse (data : Bytes) :
    (Font.parse files options data).result =
      (((Loader.standard files options).parseWhole data).observe #[]).1 := rfl

theorem Font.result_parse_single {data : Bytes} (hList : ¬ Format.combined.Signs data) :
    (Font.parse files options data).result = decodeSingle options.targetHeight data := by
  rw [Font.result_parse, Loader.parseWhole,
    Loader.observe_parse_single _ rfl (Loader.quietFile_loadPart _ _) hList]
  rfl

theorem Font.result_parse_psf2 {data : Bytes} (hSigns : Format.psf2.Signs data) :
    (Font.parse files options data).result = Psf2.decode data := by
  have hList : ¬ Format.combined.Signs data := hSigns.not_of_ne (by decide)
  rw [Font.result_parse_single files options hList, decodeSingle, if_pos hSigns]

theorem Font.result_parse_psf1 {data : Bytes} (hSigns : Format.psf1.Signs data) :
    (Font.parse files options data).result = Psf1.decode data := by
  have hList : ¬ Format.combined.Signs data := hSigns.not_of_ne (by decide)
  have hPsf2 : ¬ Format.psf2.Signs data := hSigns.not_of_ne (by decide)
  rw [Font.result_parse_single files options hList, decodeSingle, if_neg hPsf2, if_pos hSigns]

/-- What comes of data as a list of parts, whatever is read in its place if it is none. -/
def Font.resultAsList (data : Bytes) : Except Error Font :=
  (((Loader.standard files options).combined
    ((Loader.standard files options).loadPart maxNesting) data).observe #[]).1

theorem Font.format_of_resultAsList {data : Bytes} {font : Font}
    (h : Font.resultAsList files options data = .ok font) : font.format = .combined :=
  Loader.format_of_combined (Loader.quietFile_loadPart _ _) h

section List

variable {files options} {data : Bytes} (hList : Format.combined.Signs data)

include hList

theorem Font.result_parse_list (h : Font.resultAsList files options data ≠ .error .badMagic) :
    (Font.parse files options data).result = Font.resultAsList files options data := by
  rw [Font.result_parse, Loader.parseWhole,
    Loader.observe_parse_list_of_ne #[] rfl (Loader.quietFile_loadPart _ _) hList h]
  rfl

theorem Font.result_parse_list_of_badMagic
    (h : Font.resultAsList files options data = .error .badMagic) :
    (Font.parse files options data).result = Headerless.decode options.targetHeight data := by
  rw [Font.result_parse, Loader.parseWhole,
    Loader.observe_parse_list_of_badMagic #[] rfl (Loader.quietFile_loadPart _ _) hList
      (Prod.ext h rfl)]
  rfl

/-- The combined fonts that come of a list come of its parts, as what is read in place of the list
is no combined font. -/
theorem Font.parse_list_eq_ok_iff {font : Font} :
    (Font.parse files options data).result = .ok font ∧ font.format = .combined ↔
      Font.resultAsList files options data = .ok font := by
  constructor
  · rintro ⟨hParse, hFormat⟩
    by_cases hBad : Font.resultAsList files options data = .error .badMagic
    · rw [Font.result_parse_list_of_badMagic hList hBad] at hParse
      cases (Headerless.format_of_decode hParse).symm.trans hFormat
    · rwa [Font.result_parse_list hList hBad] at hParse
  · intro hOk
    have hNe : Font.resultAsList files options data ≠ .error .badMagic := by
      rw [hOk]
      rintro ⟨⟩
    rw [Font.result_parse_list hList hNe]
    exact ⟨hOk, Font.format_of_resultAsList files options hOk⟩

end List

end ConsoleFont
