import ConsoleFont.Proofs.Append
import ConsoleFont.Proofs.Detection

/-! # Whether a signature settles what data is read as

Data that starts with a signature should be read as a font of that format, or be refused for what is
wrong with it (`Format.Commits`). A list of parts breaks this. A part that is no font at all is
refused with `badMagic`, which the list passes on as its own answer, so that the text of the list is
read as bare glyphs in turn. `Loader.StopsAtNoFont` says which lists come to this.

Main statement: `Format.commits_iff`, nothing else breaks it.
-/

namespace ConsoleFont

open LoadM

/-- What came of data signed as a format: a font of that format, or a failure that says more than
that the data is of another format. -/
def Format.Commits (format : Format) : Except Error Font → Prop
  | .ok font => font.format = format
  | .error error => error ≠ .badMagic

namespace Loader

/-! ### Joining up to a part -/

/-- The parts in front of another one can be joined, and `after` are the calls made by then. -/
def JoinsTo (loadPart : Bytes → LoadM Font) (front : List Bytes) (calls after : Array Call) :
    Prop :=
  front = [] ∧ after = calls ∨ ∃ font, (join loadPart front).observe calls = (.ok font, after)

section Join

variable {loadPart : Bytes → LoadM Font} (hQuiet : ∀ name, (loadPart name).Quiet)

include hQuiet

theorem observe_joinBehind_append (font : Font) (front back : List Bytes) (calls : Array Call) :
    (joinBehind loadPart font (front ++ back)).observe calls =
      match (joinBehind loadPart font front).observe calls with
      | (.ok font, calls) => (joinBehind loadPart font back).observe calls
      | (.error error, calls) => (.error error, calls) := by
  induction front generalizing font calls with
  | nil => rfl
  | cons name front ih =>
    rw [List.cons_append, observe_joinBehind_cons hQuiet, observe_joinBehind_cons hQuiet]
    rcases (loadPart name).observe calls with ⟨error | part, after⟩
    · rfl
    · simp only
      cases font.append part with
      | ok joined => exact ih joined after
      | error failure => rfl

theorem exists_of_joinBehind (font : Font) (names : List Bytes) (calls : Array Call)
    (h : ((joinBehind loadPart font names).observe calls).1 = .error .badMagic) :
    ∃ front name back joined after, names = front ++ name :: back ∧
      (joinBehind loadPart font front).observe calls = (.ok joined, after) ∧
      ((loadPart name).observe after).1 = .error .badMagic := by
  induction names generalizing font calls with
  | nil => cases h
  | cons name names ih =>
    rw [observe_joinBehind_cons hQuiet] at h
    rcases hPart : (loadPart name).observe calls with ⟨error | part, after⟩
    · rw [hPart] at h
      exact ⟨[], name, names, font, calls, rfl, rfl, by rw [hPart]; exact h⟩
    · rw [hPart] at h
      simp only at h
      cases hAppend : font.append part with
      | error failure =>
        rw [hAppend] at h
        exact absurd (Except.error.inj h) (Font.append_ne_badMagic hAppend)
      | ok joined =>
        rw [hAppend] at h
        obtain ⟨front, stop, back, last, calls', rfl, hFront, hStop⟩ := ih joined after h
        refine ⟨name :: front, stop, back, last, calls', rfl, ?_, hStop⟩
        rw [observe_joinBehind_cons hQuiet, hPart]
        simp only [hAppend, hFront]

variable {front : List Bytes} {name : Bytes} {calls after : Array Call}

theorem JoinsTo.result_join {error : Error} (hFront : JoinsTo loadPart front calls after)
    (hStop : ((loadPart name).observe after).1 = .error error) (back : List Bytes) :
    ((join loadPart (front ++ name :: back)).observe calls).1 = .error error := by
  have hPart := observe_eq_of_result hStop
  rcases hFront with ⟨rfl, rfl⟩ | ⟨font, hJoined⟩
  · rw [List.nil_append, observe_join_cons hQuiet, hPart]
  · cases front with
    | nil => cases hJoined
    | cons first front =>
      rw [observe_join_cons hQuiet] at hJoined
      rw [List.cons_append, observe_join_cons hQuiet]
      rcases hFirst : (loadPart first).observe calls with ⟨_ | found, calls'⟩
      · rw [hFirst] at hJoined
        cases hJoined
      · rw [hFirst] at hJoined
        simp only at hJoined ⊢
        rw [observe_joinBehind_append hQuiet, hJoined]
        simp only
        rw [observe_joinBehind_cons hQuiet, hPart]

theorem join_eq_badMagic_iff (names : List Bytes) (calls : Array Call) :
    ((join loadPart names).observe calls).1 = .error .badMagic ↔
      ∃ front name back after, names = front ++ name :: back ∧ JoinsTo loadPart front calls after ∧
        ((loadPart name).observe after).1 = .error .badMagic := by
  constructor
  · intro h
    cases names with
    | nil => cases h
    | cons first names =>
      rw [observe_join_cons hQuiet] at h
      rcases hFirst : (loadPart first).observe calls with ⟨error | font, after⟩
      · rw [hFirst] at h
        exact ⟨[], first, names, calls, rfl, .inl ⟨rfl, rfl⟩, by rw [hFirst]; exact h⟩
      · rw [hFirst] at h
        obtain ⟨front, name, back, joined, last, rfl, hFront, hStop⟩ :=
          exists_of_joinBehind hQuiet font names after h
        refine ⟨first :: front, name, back, last, rfl, .inr ⟨joined, ?_⟩, hStop⟩
        rw [observe_join_cons hQuiet, hFirst]
        exact hFront
  · rintro ⟨front, name, back, after, rfl, hFront, hStop⟩
    exact hFront.result_join hQuiet hStop back

end Join

/-! ### Lists that stop at no font -/

variable (loader : Loader)

/-- Loading the parts of a list comes to a file that is no font: it is of no length that a font
without a header has, and it has no signature, or is a list that comes to such a file itself. -/
def StopsAtNoFont : (levels : Nat) → (calls : Array Call) → (data : Bytes) → Prop
  | 0, _, _ => False
  | levels + 1, calls, data =>
    ∃ resolver front name back after path file,
      loader.options.resolver = some resolver ∧
      PartList.decode data = .ok (front ++ name :: back) ∧
      JoinsTo (loader.part resolver levels) front calls after ∧
      resolver after name = some path ∧ loader.files path = .contents file ∧
      Headerless.block loader.options.targetHeight file.length = .error .badMagic ∧
      ((∀ format : Format, ¬ format.Signs file) ∨
        StopsAtNoFont levels (after.push (.resolve name (some path))) file)

theorem signs_of_stopsAtNoFont {levels : Nat} {calls : Array Call} {data : Bytes}
    (h : loader.StopsAtNoFont levels calls data) : Format.combined.Signs data := by
  cases levels with
  | zero => exact h.elim
  | succ levels =>
    obtain ⟨_, _, _, _, _, _, _, _, hNames, _⟩ := h
    exact Format.signs_combined.2 (PartList.signature_of_decode hNames)

variable {loader}

theorem part_eq_badMagic_iff {resolver : Resolver} {levels : Nat} {name : Bytes}
    {calls : Array Call} :
    ((loader.part resolver levels name).observe calls).1 = .error .badMagic ↔
      ∃ path file, resolver calls name = some path ∧ loader.files path = .contents file ∧
        ((loader.parse (loader.loadPart levels) file).observe
          (calls.push (.resolve name (some path)))).1 = .error .badMagic := by
  rw [result_part]
  cases resolver calls name with
  | none => simp
  | some path => cases hFile : loader.files path <;> simp [hFile]

variable (hOrder : loader.order = Format.detectionOrder)

include hOrder

/-- Given which lists come to `badMagic`, so do the files that are no font by their length and are
either such a list or have no signature. -/
theorem parse_eq_badMagic_iff {levels : Nat} {calls : Array Call} {data : Bytes}
    (hCombined : Format.combined.Signs data →
      (((loader.combined (loader.loadPart levels) data).observe calls).1 = .error .badMagic ↔
        loader.StopsAtNoFont levels calls data)) :
    ((loader.parse (loader.loadPart levels) data).observe calls).1 = .error .badMagic ↔
      Headerless.block loader.options.targetHeight data.length = .error .badMagic ∧
        ((∀ format : Format, ¬ format.Signs data) ∨ loader.StopsAtNoFont levels calls data) := by
  have hFile := loader.quietFile_loadPart levels
  by_cases hList : Format.combined.Signs data
  · have hSigned : ¬ ∀ format : Format, ¬ format.Signs data := fun h => h .combined hList
    by_cases hStops : loader.StopsAtNoFont levels calls data
    · have hBad := observe_eq_of_result ((hCombined hList).2 hStops)
      rw [observe_parse_list_of_badMagic calls hOrder hFile hList hBad,
        Headerless.decode_eq_error_iff]
      exact ⟨fun h => ⟨h, .inr hStops⟩, fun h => h.1⟩
    · have hNe := fun h => hStops ((hCombined hList).1 h)
      rw [observe_parse_list_of_ne calls hOrder hFile hList hNe]
      exact ⟨fun h => absurd h hNe, fun h => absurd h.2 (not_or.2 ⟨hSigned, hStops⟩)⟩
  · have hStops : ¬ loader.StopsAtNoFont levels calls data := by
      intro h
      exact hList (loader.signs_of_stopsAtNoFont h)
    rw [observe_parse_single calls hOrder hFile hList, decodeSingle_eq_badMagic_iff]
    constructor
    · rintro ⟨hPsf2, hPsf1, hBlock⟩
      refine ⟨hBlock, .inl fun format hSigns => ?_⟩
      cases format with
      | psf2 => exact hPsf2 hSigns
      | psf1 => exact hPsf1 hSigns
      | combined => exact hList hSigns
      | raw => obtain ⟨_, ⟨⟩, _⟩ := hSigns
    · rintro ⟨hBlock, hNone | hStop⟩
      · exact ⟨hNone .psf2, hNone .psf1, hBlock⟩
      · exact absurd hStop hStops

omit hOrder in
theorem exists_of_combined {levels : Nat} {calls : Array Call} {data : Bytes}
    (hList : Format.combined.Signs data)
    (h : ((loader.combined (loader.loadPart levels) data).observe calls).1 = .error .badMagic) :
    ∃ names resolver inner, PartList.decode data = .ok names ∧
      loader.options.resolver = some resolver ∧ levels = inner + 1 := by
  cases hNames : PartList.decode data with
  | error error =>
    rw [loader.observe_combined (loader.quietFile_loadPart levels), hNames] at h
    cases h
    exact absurd hNames (PartList.decode_ne_badMagic (Format.signs_combined.1 hList))
  | ok names =>
    cases hResolver : loader.options.resolver with
    | none =>
      rw [loader.observe_combined_of_no_resolver hResolver hNames] at h
      cases h
    | some resolver =>
      cases levels with
      | zero =>
        rw [loader.observe_combined_zero hResolver hNames] at h
        cases h
      | succ inner => exact ⟨names, resolver, inner, rfl, rfl, rfl⟩

/-- **A list comes to `badMagic` if it stops at a file that is no font.** -/
theorem combined_eq_badMagic_iff (levels : Nat) (calls : Array Call) (data : Bytes)
    (hList : Format.combined.Signs data) :
    ((loader.combined (loader.loadPart levels) data).observe calls).1 = .error .badMagic ↔
      loader.StopsAtNoFont levels calls data := by
  induction levels generalizing calls data with
  | zero =>
    constructor
    · intro h
      obtain ⟨_, _, _, _, _, hLevels⟩ := exists_of_combined hList h
      cases hLevels
    · exact False.elim
  | succ levels ih =>
    -- a part is parsed with one level less, whatever calls were made before it
    have hParse (calls : Array Call) (file : Bytes) := parse_eq_badMagic_iff hOrder (ih calls file)
    constructor
    · intro h
      obtain ⟨names, resolver, _, hNames, hResolver, _⟩ := exists_of_combined hList h
      rw [loader.observe_combined_succ hResolver hNames] at h
      obtain ⟨front, name, back, after, rfl, hFront, hStop⟩ :=
        (join_eq_badMagic_iff (loader.quiet_part resolver levels) names calls).1
          (map_eq_error_iff.1 h)
      obtain ⟨path, file, hPath, hFile, hFont⟩ := part_eq_badMagic_iff.1 hStop
      exact ⟨resolver, front, name, back, after, path, file, hResolver, hNames, hFront, hPath,
        hFile, (hParse _ file).1 hFont⟩
    · rintro ⟨resolver, front, name, back, after, path, file, hResolver, hNames, hFront, hPath,
        hFile, hFont⟩
      have hStop := part_eq_badMagic_iff.2 ⟨path, file, hPath, hFile, (hParse _ file).2 hFont⟩
      rw [loader.observe_combined_succ hResolver hNames]
      exact map_eq_error_iff.2 ((join_eq_badMagic_iff (loader.quiet_part resolver levels) _ calls).2
        ⟨front, name, back, after, rfl, hFront, hStop⟩)

end Loader

/-! ### Data in memory -/

theorem Format.commits_of_ne {format : Format} {result : Except Error Font}
    (hFormat : ∀ font, result = .ok font → font.format = format)
    (hNe : result ≠ .error .badMagic) : format.Commits result := by
  cases result with
  | ok font => exact hFormat font rfl
  | error error =>
    rintro rfl
    exact hNe rfl

theorem Headerless.not_commits_iff {targetHeight : Option Nat} {data : Bytes} :
    ¬ Format.combined.Commits (decode targetHeight data) ↔
      ∀ error, block targetHeight data.length = .error error → error = .badMagic := by
  cases hDecode : decode targetHeight data with
  | ok font =>
    have hFormat := format_of_decode hDecode
    constructor
    · intro _ error hError
      rw [decode_eq_error_iff.2 hError] at hDecode
      cases hDecode
    · intro _ hCommits
      rw [Format.Commits, hFormat] at hCommits
      cases hCommits
  | error error =>
    rw [decode_eq_error_iff.1 hDecode]
    constructor
    · intro h other hOther
      cases hOther
      exact Decidable.of_not_not h
    · intro h hCommits
      exact hCommits (h error rfl)

section Parse

variable (files : FileSystem) (options : Options) {data : Bytes}

theorem Font.result_parse_of_stops (hList : Format.combined.Signs data)
    (hStops : (Loader.standard files options).StopsAtNoFont maxNesting #[] data) :
    (Font.parse files options data).result = Headerless.decode options.targetHeight data := by
  exact result_parse_list_of_badMagic hList
    ((Loader.combined_eq_badMagic_iff rfl maxNesting #[] data hList).2 hStops)

theorem Font.commits_parse_of_not_stops (hList : Format.combined.Signs data)
    (hStops : ¬ (Loader.standard files options).StopsAtNoFont maxNesting #[] data) :
    Format.combined.Commits (Font.parse files options data).result := by
  have hNe : resultAsList files options data ≠ .error .badMagic := fun h =>
    hStops ((Loader.combined_eq_badMagic_iff rfl maxNesting #[] data hList).1 h)
  rw [result_parse_list hList hNe]
  exact Format.commits_of_ne (fun _ => format_of_resultAsList files options) hNe

theorem Font.commits_parse_single {format : Format} (hSigns : format.Signs data)
    (hSingle : format ≠ .combined) : format.Commits (Font.parse files options data).result := by
  cases format with
  | psf2 =>
    rw [result_parse_psf2 files options hSigns]
    exact Format.commits_of_ne (fun _ => Psf2.format_of_decode)
      fun hBad => Psf2.decode_eq_badMagic_iff.1 hBad hSigns
  | psf1 =>
    rw [result_parse_psf1 files options hSigns]
    exact Format.commits_of_ne (fun _ => Psf1.format_of_decode)
      fun hBad => Psf1.decode_eq_badMagic_iff.1 hBad hSigns
  | combined => exact absurd rfl hSingle
  | raw => obtain ⟨_, ⟨⟩, _⟩ := hSigns

end Parse

/-- **A signature settles what data is read as, except for a list that stops at no font** and has a
length at which its text is a font without a header, or no font. Every list that stops at no font is
read by its length. -/
theorem Format.commits_iff (files : FileSystem) (options : Options) (format : Format) (data : Bytes)
    (hSigns : format.Signs data) :
    (format.Commits (Font.parse files options data).result ↔
      ¬ (format = .combined ∧
        (Loader.standard files options).StopsAtNoFont maxNesting #[] data ∧
        ∀ error, Headerless.block options.targetHeight data.length = .error error →
          error = .badMagic)) ∧
    (format = .combined → (Loader.standard files options).StopsAtNoFont maxNesting #[] data →
      (Font.parse files options data).result = Headerless.decode options.targetHeight data) := by
  by_cases hList : format = .combined
  · subst hList
    refine ⟨?_, fun _ hStops => Font.result_parse_of_stops files options hSigns hStops⟩
    by_cases hStops : (Loader.standard files options).StopsAtNoFont maxNesting #[] data
    · rw [Font.result_parse_of_stops files options hSigns hStops]
      constructor
      · rintro hCommits ⟨_, _, hBlock⟩
        exact Headerless.not_commits_iff.2 hBlock hCommits
      · intro h
        apply Classical.byContradiction
        intro hNot
        exact h ⟨rfl, hStops, Headerless.not_commits_iff.1 hNot⟩
    · have hCommits := Font.commits_parse_of_not_stops files options hSigns hStops
      exact ⟨fun _ h => hStops h.2.1, fun _ => hCommits⟩
  · have hCommits := Font.commits_parse_single files options hSigns hList
    exact ⟨⟨fun _ h => hList h.1, fun _ => hCommits⟩, fun h => absurd h hList⟩

/-- A list names a list, which names an empty file: that file is no font, so that both lists are
refused as data of another format. -/
theorem Format.not_commits_nested :
    let find : Bytes → Option Path :=
      fun name => if name = [0x61] then some "list" else some "empty"
    let files : FileSystem := fun path =>
      .contents (if path = "list" then PartList.encode [[0x62]] else [])
    let options : Options := ⟨none, some (.ofFunction find)⟩
    let data := PartList.encode [[0x61]]
    Format.combined.Signs data ∧
      ¬ Format.combined.Commits (Font.parse files options data).result ∧
      (Font.parse files options data).result = .error .badMagic := by
  intro find files options data
  have hSigns : Format.combined.Signs data := by decide
  have hInner : (Loader.standard files options).StopsAtNoFont 7
      #[.resolve [0x61] (some "list")] (PartList.encode [[0x62]]) :=
    ⟨.ofFunction find, [], [0x62], [], _, "empty", [], rfl, rfl, .inl ⟨rfl, rfl⟩, rfl, rfl, rfl,
      .inl fun format => by cases format <;> decide⟩
  have hStops : (Loader.standard files options).StopsAtNoFont maxNesting #[] data :=
    ⟨.ofFunction find, [], [0x61], [], _, "list", _, rfl, rfl, .inl ⟨rfl, rfl⟩, rfl, rfl, rfl,
      .inr hInner⟩
  have h := commits_iff files options .combined data hSigns
  refine ⟨hSigns, fun hCommits => ?_, h.2 rfl hStops⟩
  exact h.1.1 hCommits ⟨rfl, hStops, fun error hError => (Except.error.inj hError).symm⟩

end ConsoleFont
