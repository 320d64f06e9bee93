import ConsoleFont.Proofs.Lockstep

/-! # Loading with more options

A load that lacks a height or a resolver where it needs one fails, and no list of parts around it
makes up for that. So whatever is loaded was loaded without them, and stays the same where they are
given (`Options.fill`).

Main statement: `Font.alike_of_fill`.
-/

namespace ConsoleFont

open LoadM

/-- The options, with a height and a resolver where they have none. -/
def Options.fill (options : Options) (targetHeight : Option Nat) (resolver : Option Resolver) :
    Options :=
  ⟨options.targetHeight.or targetHeight, options.resolver.or resolver⟩

/-- A load is followed from the same calls on, up to where it lacks a height or a resolver. -/
def Comparison.lacking : Comparison where
  Same calls calls' := calls = calls'
  Stops error :=
    error = .heightRequired ∨ error = .unsupported "combined fonts without a font resolver"
  same_push call hSame := congrArg (Array.push · call) hSame
  not_stops_badMagic := by
    rintro (h | h)
    · cases h
    · cases h

/-- Two reports that can only be told apart by their notices. -/
structure Report.Alike (report other : Report) : Prop where
  result_eq : other.result = report.result
  calls_eq : other.journal.calls = report.journal.calls

theorem Report.alike_of_inStep {load other : LoadM Font} (h : InStep .lacking load other)
    {font : Font} (hLoad : (Report.ofLoad load).result = .ok font) :
    (Report.ofLoad load).Alike (Report.ofLoad other) := by
  obtain ⟨hResult, hCalls⟩ := (h #[] #[] rfl).ok_other hLoad
  exact ⟨hResult.trans hLoad.symm, hCalls.symm⟩

namespace Loader

/-! ### Loads without a resolver -/

theorem calls_firstOf {decode : Format → LoadM Font} (hQuiet : ∀ format, (decode format).Quiet)
    (hDecode : ∀ format calls, ((decode format).observe calls).2 = calls) (formats : List Format)
    (calls : Array Call) : ((firstOf decode formats).observe calls).2 = calls := by
  induction formats with
  | nil => rfl
  | cons format formats ih =>
    by_cases hBad : ((decode format).observe calls).1 = .error .badMagic
    · rw [observe_firstOf_of_badMagic hQuiet formats (Prod.ext hBad (hDecode format calls))]
      exact ih
    · rw [observe_firstOf_of_ne hQuiet formats hBad]
      exact hDecode format calls

variable {loader : Loader} (hResolver : loader.options.resolver = none)
  {loadFile : Option (Path → LoadM Font)} (hFile : QuietFile loadFile)

include hResolver hFile

theorem calls_decode (data : Bytes) (format : Format) (calls : Array Call) :
    ((loader.decode loadFile data format).observe calls).2 = calls := by
  cases format with
  | psf2 => rfl
  | psf1 => rfl
  | raw =>
    show ((loader.headerless data).observe calls).2 = calls
    rw [observe_headerless]
  | combined =>
    show ((loader.combined loadFile data).observe calls).2 = calls
    rw [loader.observe_combined hFile]
    cases PartList.decode data with
    | error error => rfl
    | ok names =>
      unfold joinNamed
      rw [hResolver]
      rfl

theorem calls_parse (data : Bytes) (calls : Array Call) :
    ((loader.parse loadFile data).observe calls).2 = calls :=
  calls_firstOf (loader.quiet_decode hFile data) (calls_decode hResolver hFile data) loader.order
    calls

omit hFile in
theorem calls_loadPath (levels : Nat) (path : Path) (calls : Array Call) :
    ((loader.loadPath levels path).observe calls).2 = calls := by
  rw [observe_loadPath]
  cases loader.files path with
  | openFails fault => rfl
  | readFails fault => rfl
  | contents data => exact calls_parse hResolver (loader.quietFile_loadPart levels) data calls

end Loader

/-! ### Loads with more options -/

section Fill

variable (files : FileSystem) (options : Options) (targetHeight : Option Nat)
  (resolver : Option Resolver)

theorem Loader.follows_fill :
    Follows .lacking (.standard files options)
      (.standard files (options.fill targetHeight resolver)) where
  files_eq := rfl
  order_eq := rfl
  targetHeight := by
    show options.targetHeight.or targetHeight = options.targetHeight ∨ _
    cases hHeight : options.targetHeight with
    | some height => exact .inl rfl
    | none => exact .inr ⟨hHeight, .inl rfl⟩
  resolver := by
    cases hResolver : options.resolver with
    | none => exact .inr ⟨hResolver, .inr rfl⟩
    | some answer =>
      refine .inl ⟨answer, answer, hResolver, ?_, ?_⟩
      · show options.resolver.or resolver = some answer
        rw [hResolver]
        rfl
      · rintro calls _ name rfl
        rfl

theorem Loader.followsFile_fill (levels : Nat) :
    FollowsFile .lacking ((Loader.standard files options).loadPart levels)
      ((Loader.standard files (options.fill targetHeight resolver)).loadPart levels) :=
  followsFile_loadPart (follows_fill files options targetHeight resolver) (.inl rfl)

/-- **More options never change a load that works without them.** The font is the same, and so are
the calls to the resolver, of which there are none where there was no resolver. -/
theorem Font.alike_of_fill (files : FileSystem) (options : Options) (targetHeight : Option Nat)
    (resolver : Option Resolver) :
    (∀ data font, (Font.parse files options data).result = .ok font →
      (Font.parse files options data).Alike
        (Font.parse files (options.fill targetHeight resolver) data)) ∧
    (∀ path font, (Font.load files options path).result = .ok font →
      (Font.load files options path).Alike
        (Font.load files (options.fill targetHeight resolver) path)) ∧
    (options.resolver = none →
      (∀ data, (Font.parse files options data).journal.calls = #[]) ∧
        ∀ path, (Font.load files options path).journal.calls = #[]) := by
  let loader := Loader.standard files options
  let other := Loader.standard files (options.fill targetHeight resolver)
  have hFollows := Loader.follows_fill files options targetHeight resolver
  have hParse (data : Bytes) : InStep .lacking (loader.parseWhole data) (other.parseWhole data) :=
    Loader.inStep_parse hFollows (loader.quietFile_loadPart maxNesting)
      (other.quietFile_loadPart maxNesting)
      (Loader.followsFile_fill files options targetHeight resolver maxNesting) data
  refine ⟨?_, ?_, ?_⟩
  · intro data font hLoad
    exact Report.alike_of_inStep (hParse data) hLoad
  · intro path font hLoad
    have hPath : InStep .lacking (loader.loadPath maxNesting path)
        (other.loadPath maxNesting path) :=
      Loader.inStep_loadPath_of_parse hFollows.files_eq hParse path
    exact Report.alike_of_inStep hPath hLoad
  · intro hResolver
    have hNone : loader.options.resolver = none := hResolver
    constructor
    · intro data
      exact Loader.calls_parse hNone (loader.quietFile_loadPart maxNesting) data #[]
    · intro path
      exact Loader.calls_loadPath hNone maxNesting path #[]

end Fill

/-- A list of a list of two names is read with a height as it is without one, and a single font with
a resolver as it is without one. -/
theorem Font.alike_of_nested_lists :
    let letter : Font := ⟨⟨8, 1, 1⟩, .psf2, 1, [0x18], [⟨0, ['A']⟩]⟩
    let letters : Font := ⟨⟨8, 1, 1⟩, .combined, 2, [0x18, 0x18], [⟨0, ['A']⟩, ⟨1, ['A']⟩]⟩
    let find : Bytes → Option Path :=
      fun name => if name = [0x61] then some "list" else some "letter"
    let files : FileSystem := fun path =>
      .contents (if path = "list" then PartList.encode [[0x62], [0x62]] else Psf2.encode letter)
    let options : Options := ⟨none, some (.ofFunction find)⟩
    let data := PartList.encode [[0x61]]
    (Font.parse files options data).result = .ok letters ∧
      (Font.parse files options data).Alike
        (Font.parse files (options.fill (some 16) none) data) ∧
      (Font.load files .default "letter").result = .ok letter ∧
      (Font.load files .default "letter").Alike
        (Font.load files (Options.default.fill (some 16) (some (.ofFunction find))) "letter") ∧
      (Font.load files .default "letter").journal.calls = #[] := by
  intro letter letters find files options data
  have hParse : (Font.parse files options data).result = .ok letters :=
    eq_ok_of_toOption (by decide +kernel)
  have hLoad : (Font.load files .default "letter").result = .ok letter :=
    eq_ok_of_toOption (by decide +kernel)
  have hList := alike_of_fill files options (some 16) none
  have hSingle := alike_of_fill files .default (some 16) (some (.ofFunction find))
  exact ⟨hParse, hList.1 data letters hParse, hLoad, hSingle.2.1 "letter" letter hLoad,
    (hSingle.2.2 rfl).2 "letter"⟩

end ConsoleFont
