import Mathlib.Data.List.Forall2
import ConsoleFont.Proofs.Lockstep

/-! # Combined fonts put together by hand

The parts of a combined font lie one level deeper than fonts that are loaded by themselves. That
makes a difference only where so many combined fonts lie within each other that the load is refused,
and so a combined font is what comes of loading its parts one by one and appending them
(`Font.ByHand`).

Main statement: `Font.parse_list_iff_byHand`.
-/

namespace ConsoleFont

open LoadM

def Resolver.Deterministic (resolver : Resolver) : Prop :=
  ∀ calls name, resolver calls name = resolver #[] name

/-- A load is followed from wherever it starts, up to where it lies too deep. -/
def Comparison.deeper : Comparison where
  Same _ _ := True
  Stops error := error = .combineTooDeep
  same_push _ _ := trivial
  not_stops_badMagic := nofun

/-- The name leads to a file, and the font in it is `part`, loaded as a font of its own. -/
def Font.IsNamed (files : FileSystem) (options : Options) (resolver : Resolver) (name : Bytes)
    (part : Font) : Prop :=
  ∃ path, resolver #[] name = some path ∧ (Font.load files options path).result = .ok part

/-- Every name leads to a font, and the fonts are appended to the first of them in order. What comes
of it is the font, but for its format. -/
def Font.ByHand (files : FileSystem) (options : Options) (names : List Bytes) (font : Font) :
    Prop :=
  ∃ resolver first parts joined, options.resolver = some resolver ∧
    List.Forall₂ (IsNamed files options resolver) names (first :: parts) ∧
    parts.foldlM Font.append first = .ok joined ∧ font = { joined with format := .combined }

namespace Loader

/-! ### Joining -/

section Join

variable {loadPart : Bytes → LoadM Font} (hQuiet : ∀ name, (loadPart name).Quiet)
  {IsPart : Bytes → Font → Prop}

include hQuiet

theorem exists_parts_of_joinBehind
    (hPart : ∀ name calls part, ((loadPart name).observe calls).1 = .ok part → IsPart name part)
    {names : List Bytes} {font joined : Font} {calls : Array Call}
    (h : ((joinBehind loadPart font names).observe calls).1 = .ok joined) :
    ∃ parts, List.Forall₂ IsPart names parts ∧ parts.foldlM Font.append font = .ok joined := by
  induction names generalizing font calls with
  | nil =>
    cases h
    exact ⟨[], .nil, rfl⟩
  | cons name names ih =>
    rw [observe_joinBehind_cons hQuiet] at h
    rcases hFirst : (loadPart name).observe calls with ⟨error | part, after⟩
    · rw [hFirst] at h
      cases h
    · rw [hFirst] at h
      simp only at h
      cases hAppend : font.append part with
      | error failure =>
        rw [hAppend] at h
        cases h
      | ok more =>
        rw [hAppend] at h
        obtain ⟨parts, hParts, hJoined⟩ := ih h
        refine ⟨part :: parts, .cons (hPart name calls part (by rw [hFirst])) hParts, ?_⟩
        rw [List.foldlM_cons, hAppend]
        exact hJoined

theorem exists_parts_of_join
    (hPart : ∀ name calls part, ((loadPart name).observe calls).1 = .ok part → IsPart name part)
    {names : List Bytes} {joined : Font} {calls : Array Call}
    (h : ((join loadPart names).observe calls).1 = .ok joined) :
    ∃ first parts, List.Forall₂ IsPart names (first :: parts) ∧
      parts.foldlM Font.append first = .ok joined := by
  cases names with
  | nil => cases h
  | cons name names =>
    rw [observe_join_cons hQuiet] at h
    rcases hFirst : (loadPart name).observe calls with ⟨error | first, after⟩
    · rw [hFirst] at h
      cases h
    · rw [hFirst] at h
      obtain ⟨parts, hParts, hJoined⟩ := exists_parts_of_joinBehind hQuiet hPart h
      exact ⟨first, parts, .cons (hPart name calls first (by rw [hFirst])) hParts, hJoined⟩

variable {error : Error} (hPart : ∀ name calls part, IsPart name part →
  ((loadPart name).observe calls).1 = .ok part ∨ ((loadPart name).observe calls).1 = .error error)

include hPart

theorem joinBehind_of_parts {names : List Bytes} {parts : List Font} {font joined : Font}
    (hParts : List.Forall₂ IsPart names parts) (calls : Array Call)
    (hJoined : parts.foldlM Font.append font = .ok joined) :
    ((joinBehind loadPart font names).observe calls).1 = .ok joined ∨
      ((joinBehind loadPart font names).observe calls).1 = .error error := by
  induction hParts generalizing font calls with
  | nil =>
    cases hJoined
    exact .inl rfl
  | @cons name part names parts hFirst _ ih =>
    rw [List.foldlM_cons] at hJoined
    obtain ⟨more, hAppend, hJoined⟩ := bind_eq_ok_iff.1 hJoined
    rw [observe_joinBehind_cons hQuiet]
    rcases hPart name calls part hFirst with hOk | hError
    · rw [observe_eq_of_result hOk]
      simp only [hAppend]
      exact ih _ hJoined
    · rw [observe_eq_of_result hError]
      exact .inr rfl

theorem join_of_parts {names : List Bytes} {first : Font} {parts : List Font} {joined : Font}
    (hParts : List.Forall₂ IsPart names (first :: parts)) (calls : Array Call)
    (hJoined : parts.foldlM Font.append first = .ok joined) :
    ((join loadPart names).observe calls).1 = .ok joined ∨
      ((join loadPart names).observe calls).1 = .error error := by
  cases hParts with
  | @cons name _ names _ hFirst hBehind =>
    rw [observe_join_cons hQuiet]
    rcases hPart name calls first hFirst with hOk | hError
    · rw [observe_eq_of_result hOk]
      exact joinBehind_of_parts hQuiet hPart hBehind _ hJoined
    · rw [observe_eq_of_result hError]
      exact .inr rfl

end Join

/-! ### Parts, and fonts loaded by themselves -/

section Parts

variable {files : FileSystem} {options : Options} {resolver : Resolver}
  (hResolver : options.resolver = some resolver) (hDeterministic : resolver.Deterministic)
  {levels : Nat} (hLevels : levels ≤ maxNesting)

include hResolver hDeterministic

theorem follows_deeper : Follows .deeper (.standard files options) (.standard files options) where
  files_eq := rfl
  order_eq := rfl
  targetHeight := .inl rfl
  resolver := by
    refine .inl ⟨resolver, resolver, hResolver, hResolver, ?_⟩
    intro calls calls' name _
    rw [hDeterministic calls, hDeterministic calls']

include hLevels

theorem agree_load (path : Path) (calls : Array Call) :
    Comparison.deeper.Agree (((Loader.standard files options).loadPath levels path).observe calls)
      (((Loader.standard files options).loadPath maxNesting path).observe #[]) := by
  let loader := Loader.standard files options
  have hFollows : Follows .deeper loader loader := follows_deeper hResolver hDeterministic
  have hFile : FollowsFile .deeper (loader.loadPart levels) (loader.loadPart maxNesting) :=
    followsFile_loadPart hFollows (.inr ⟨hLevels, rfl⟩)
  have hPath := inStep_loadPath_of_parse hFollows.files_eq
    (inStep_parse hFollows (loader.quietFile_loadPart levels)
      (loader.quietFile_loadPart maxNesting) hFile) path
  exact hPath calls #[] trivial

theorem isNamed_of_part {name : Bytes} {calls : Array Call} {part : Font}
    (h : (((Loader.standard files options).part resolver levels name).observe calls).1 =
      .ok part) : Font.IsNamed files options resolver name part := by
  rw [Loader.part, resolver.observe_withFile name (Loader.quiet_loadPath _ levels),
    hDeterministic calls] at h
  cases hPath : resolver #[] name with
  | none =>
    rw [hPath] at h
    cases h
  | some path =>
    rw [hPath] at h
    exact ⟨path, hPath, ((agree_load hResolver hDeterministic hLevels path _).ok_other h).1⟩

theorem part_of_isNamed {name : Bytes} {part : Font}
    (h : Font.IsNamed files options resolver name part) (calls : Array Call) :
    (((Loader.standard files options).part resolver levels name).observe calls).1 = .ok part ∨
      (((Loader.standard files options).part resolver levels name).observe calls).1 =
        .error .combineTooDeep := by
  obtain ⟨path, hPath, hLoad⟩ := h
  rw [Loader.part, resolver.observe_withFile name (Loader.quiet_loadPath _ levels),
    hDeterministic calls, hPath]
  rcases (agree_load hResolver hDeterministic hLevels path _).ok_or_stops hLoad with hOk | hStops
  · exact .inl hOk
  · obtain ⟨_, rfl, hError⟩ := hStops
    exact .inr hError

end Parts

end Loader

/-! ### Lists of parts -/

variable {files : FileSystem} {options : Options} {data : Bytes} {names : List Bytes} {font : Font}

theorem Font.byHand_of_resultAsList (hNames : PartList.decode data = .ok names)
    (hDeterministic : ∀ resolver ∈ options.resolver, resolver.Deterministic)
    (h : resultAsList files options data = .ok font) : ByHand files options names font := by
  let loader := Loader.standard files options
  obtain ⟨levels, hLevels⟩ : ∃ levels, maxNesting = levels + 1 := ⟨7, rfl⟩
  unfold resultAsList at h
  cases hResolver : options.resolver with
  | none =>
    rw [loader.observe_combined_of_no_resolver hResolver hNames] at h
    cases h
  | some resolver =>
    rw [hLevels, loader.observe_combined_succ hResolver hNames] at h
    obtain ⟨joined, hJoin, rfl⟩ := map_eq_ok_iff.1 h
    obtain ⟨first, parts, hParts, hJoined⟩ :=
      Loader.exists_parts_of_join (loader.quiet_part resolver levels)
        (fun _ _ _ => Loader.isNamed_of_part hResolver (hDeterministic resolver hResolver)
          (by omega)) hJoin
    exact ⟨resolver, first, parts, joined, hResolver, hParts, hJoined, rfl⟩

theorem Font.resultAsList_of_byHand (hNames : PartList.decode data = .ok names)
    (hDeterministic : ∀ resolver ∈ options.resolver, resolver.Deterministic)
    (h : ByHand files options names font) :
    resultAsList files options data = .ok font ∨
      resultAsList files options data = .error .combineTooDeep := by
  let loader := Loader.standard files options
  obtain ⟨levels, hLevels⟩ : ∃ levels, maxNesting = levels + 1 := ⟨7, rfl⟩
  obtain ⟨resolver, first, parts, joined, hResolver, hParts, hJoined, rfl⟩ := h
  have hJoin := Loader.join_of_parts (loader.quiet_part resolver levels)
    (fun _ calls _ hNamed => Loader.part_of_isNamed hResolver (hDeterministic resolver hResolver)
      (by omega) hNamed calls) hParts #[] hJoined
  unfold resultAsList
  rw [hLevels, loader.observe_combined_succ hResolver hNames]
  rcases hJoin with hOk | hDeep
  · exact .inl (map_eq_ok_iff.2 ⟨joined, hOk, rfl⟩)
  · exact .inr (map_eq_error_iff.2 hDeep)

/-- **A combined font is what comes of loading its parts one by one and appending them**, unless a
part lies too deep. -/
theorem Font.parse_list_iff_byHand (hNames : PartList.decode data = .ok names)
    (hDeterministic : ∀ resolver ∈ options.resolver, resolver.Deterministic) (font : Font) :
    (Font.parse files options data).result = .ok font ∧ font.format = .combined ↔
      ByHand files options names font ∧
        (Font.parse files options data).result ≠ .error .combineTooDeep := by
  have hList : Format.combined.Signs data :=
    Format.signs_combined.2 (PartList.signature_of_decode hNames)
  constructor
  · intro hFont
    have hOk := (parse_list_eq_ok_iff hList).1 hFont
    refine ⟨byHand_of_resultAsList hNames hDeterministic hOk, ?_⟩
    rw [hFont.1]
    rintro ⟨⟩
  · rintro ⟨hByHand, hNotDeep⟩
    refine (parse_list_eq_ok_iff hList).2 ?_
    rcases resultAsList_of_byHand hNames hDeterministic hByHand with hOk | hDeep
    · exact hOk
    · have hNe : resultAsList files options data ≠ .error .badMagic := by
        rw [hDeep]
        rintro ⟨⟩
      rw [result_parse_list hList hNe] at hNotDeep
      exact absurd hDeep hNotDeep

/-- The first of two parts is a list itself. -/
theorem Font.byHand_nested_list :
    let letter : Font := ⟨⟨8, 1, 1⟩, .psf2, 1, [0x18], [⟨0, ['A']⟩]⟩
    let letters : Font := ⟨⟨8, 1, 1⟩, .combined, 2, [0x18, 0x18], [⟨0, ['A']⟩, ⟨1, ['A']⟩]⟩
    let find : Bytes → Option Path :=
      fun name => if name = [0x61] then some "list" else some "letter"
    let files : FileSystem := fun path =>
      .contents (if path = "list" then PartList.encode [[0x62]] else Psf2.encode letter)
    let options : Options := ⟨none, some (.ofFunction find)⟩
    let data := PartList.encode [[0x61], [0x62]]
    PartList.decode data = .ok [[0x61], [0x62]] ∧
      (∀ resolver ∈ options.resolver, resolver.Deterministic) ∧
      (Font.parse files options data).result = .ok letters ∧
      ByHand files options [[0x61], [0x62]] letters := by
  intro letter letters find files options data
  have hNames : PartList.decode data = .ok [[0x61], [0x62]] := rfl
  have hDeterministic : ∀ resolver ∈ options.resolver, resolver.Deterministic := by
    rintro resolver ⟨⟩ calls name
    rfl
  have hParse : (Font.parse files options data).result = .ok letters :=
    eq_ok_of_toOption (by decide +kernel)
  have hByHand := (parse_list_iff_byHand hNames hDeterministic letters).1 ⟨hParse, rfl⟩
  exact ⟨hNames, hDeterministic, hParse, hByHand.1⟩

end ConsoleFont
