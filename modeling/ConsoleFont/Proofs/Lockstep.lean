import ConsoleFont.Proofs.Detection

/-! # Loads in lockstep

Two loads of the same files may differ in the calls made before them, in their options, or in how
deep they lie. They keep in step as long as they ask for the same and come to the same
(`LoadM.InStep`). A `Comparison` names the calls that count as the same, and the errors at which the
first load stops: from there on nothing is said of the other one, which may do better.

Main statements: `Loader.inStep_parse` and `Loader.followsFile_loadPart`, a loader keeps in step
with any loader that follows it (`Loader.Follows`), at all depths.
-/

namespace ConsoleFont

structure Comparison where
  /-- Calls between which no resolver tells a difference. -/
  Same : Array Call → Array Call → Prop
  /-- The errors at which the first load stops while the other one may go on. -/
  Stops : Error → Prop
  same_push : ∀ {calls calls' : Array Call} (call : Call), Same calls calls' →
    Same (calls.push call) (calls'.push call)
  not_stops_badMagic : ¬ Stops .badMagic

/-- What comes of the first load, beside what comes of the other one. -/
inductive Comparison.Agree (comparison : Comparison) {α : Type} :
    Except Error α × Array Call → Except Error α × Array Call → Prop
  | stopped {error : Error} (calls : Array Call) (outcome : Except Error α × Array Call) :
      comparison.Stops error → Agree comparison (.error error, calls) outcome
  | same (result : Except Error α) {calls calls' : Array Call} : comparison.Same calls calls' →
      Agree comparison (result, calls) (result, calls')

namespace Comparison.Agree

variable {comparison : Comparison} {α : Type} {outcome other : Except Error α × Array Call} {a : α}

theorem ok_other (h : comparison.Agree outcome other) (hOk : outcome.1 = .ok a) :
    other.1 = .ok a ∧ comparison.Same outcome.2 other.2 := by
  cases h with
  | stopped _ _ hStops => cases hOk
  | same result hSame => exact ⟨hOk, hSame⟩

theorem ok_or_stops (h : comparison.Agree outcome other) (hOk : other.1 = .ok a) :
    outcome.1 = .ok a ∨ ∃ error, comparison.Stops error ∧ outcome.1 = .error error := by
  cases h with
  | stopped _ _ hStops => exact .inr ⟨_, hStops, rfl⟩
  | same result hSame => exact .inl hOk

end Comparison.Agree

namespace LoadM

variable {α β : Type} (comparison : Comparison)

/-- From calls that count as the same, the loads come to the same, unless the first one stops. -/
def InStep (load other : LoadM α) : Prop :=
  ∀ calls calls', comparison.Same calls calls' →
    comparison.Agree (load.observe calls) (other.observe calls')

theorem inStep_pure (a : α) : InStep comparison (pure a) (pure a) := by
  intro calls calls' hSame
  exact .same (.ok a) hSame

theorem inStep_throw (error : Error) :
    InStep comparison (throw error : LoadM α) (throw error) := by
  intro calls calls' hSame
  exact .same (.error error) hSame

theorem inStep_lift (result : Except Error α) :
    InStep comparison (liftM result : LoadM α) (liftM result) := by
  intro calls calls' hSame
  exact .same result hSame

variable {comparison}

theorem inStep_of_stops {error : Error} (h : comparison.Stops error) (other : LoadM α) :
    InStep comparison (throw error) other := by
  intro calls calls' _
  exact .stopped calls _ h

theorem inStep_bind {load other : LoadM α} {next next' : α → LoadM β}
    (hQuiet : ∀ a, (next a).Quiet) (hQuiet' : ∀ a, (next' a).Quiet)
    (hLoad : InStep comparison load other)
    (hNext : ∀ a, InStep comparison (next a) (next' a)) :
    InStep comparison (load >>= next) (other >>= next') := by
  intro calls calls' hSame
  rw [observe_bind _ hQuiet, observe_bind _ hQuiet']
  have hFirst := hLoad calls calls' hSame
  generalize load.observe calls = outcome at hFirst ⊢
  generalize other.observe calls' = outcome' at hFirst ⊢
  cases hFirst with
  | stopped after _ hStops => exact .stopped after _ hStops
  | same result hAfter =>
    cases result with
    | error error => exact .same (.error error) hAfter
    | ok a => exact hNext a _ _ hAfter

end LoadM

open LoadM

variable {comparison : Comparison}

/-- The resolvers tell no difference between calls that count as the same, and answer alike. -/
def Comparison.Answers (comparison : Comparison) (resolver other : Resolver) : Prop :=
  ∀ calls calls' name, comparison.Same calls calls' → other calls' name = resolver calls name

theorem Resolver.inStep_withFile {α : Type} {resolver other : Resolver}
    {load load' : Path → LoadM α} (hAnswers : comparison.Answers resolver other)
    (hQuiet : ∀ path, (load path).Quiet) (hQuiet' : ∀ path, (load' path).Quiet)
    (hLoad : ∀ path, InStep comparison (load path) (load' path)) (name : Bytes) :
    InStep comparison (resolver.withFile name load) (other.withFile name load') := by
  intro calls calls' hSame
  rw [resolver.observe_withFile name hQuiet, other.observe_withFile name hQuiet',
    hAnswers calls calls' name hSame]
  cases resolver calls name with
  | none => exact .same _ (comparison.same_push _ hSame)
  | some path =>
    have hFile := hLoad path _ _ (comparison.same_push (.resolve name (some path)) hSame)
    simp only
    generalize (load path).observe _ = outcome at hFile ⊢
    generalize (load' path).observe _ = outcome' at hFile ⊢
    cases hFile with
    | stopped after _ hStops => exact .stopped _ _ hStops
    | same result hAfter => exact .same result (comparison.same_push (.release path) hAfter)

namespace Loader

/-! ### Joining -/

section Join

variable {loadPart loadPart' : Bytes → LoadM Font} (hQuiet : ∀ name, (loadPart name).Quiet)
  (hQuiet' : ∀ name, (loadPart' name).Quiet)
  (hPart : ∀ name, InStep comparison (loadPart name) (loadPart' name))

include hQuiet hQuiet' hPart

theorem inStep_joinBehind (names : List Bytes) (font : Font) :
    InStep comparison (joinBehind loadPart font names) (joinBehind loadPart' font names) := by
  induction names generalizing font with
  | nil => exact inStep_pure comparison font
  | cons name names ih =>
    rw [joinBehind_cons, joinBehind_cons]
    apply inStep_bind (quiet_joinNext hQuiet font names) (quiet_joinNext hQuiet' font names)
      (hPart name)
    intro part
    rw [joinNext, joinNext]
    cases font.append part with
    | ok joined => exact ih joined
    | error failure => exact inStep_throw comparison failure.error

theorem inStep_join (names : List Bytes) :
    InStep comparison (join loadPart names) (join loadPart' names) := by
  cases names with
  | nil => exact inStep_throw comparison .trailingGarbage
  | cons name names =>
    apply inStep_bind (fun font => quiet_joinBehind hQuiet font names)
      (fun font => quiet_joinBehind hQuiet' font names) (hPart name)
    intro font
    exact inStep_joinBehind hQuiet hQuiet' hPart names font

end Join

/-! ### One format after the other -/

theorem inStep_firstOf {decode decode' : Format → LoadM Font}
    (hQuiet : ∀ format, (decode format).Quiet) (hQuiet' : ∀ format, (decode' format).Quiet)
    (hDecode : ∀ format, InStep comparison (decode format) (decode' format))
    (formats : List Format) :
    InStep comparison (firstOf decode formats) (firstOf decode' formats) := by
  induction formats with
  | nil => exact inStep_throw comparison .badMagic
  | cons format formats ih =>
    intro calls calls' hSame
    have hFormat := hDecode format calls calls' hSame
    generalize hFirst : (decode format).observe calls = outcome at hFormat
    generalize hSecond : (decode' format).observe calls' = outcome' at hFormat
    cases hFormat with
    | @stopped error after _ hStops =>
      have hNe : ((decode format).observe calls).1 ≠ .error .badMagic := by
        rw [hFirst]
        rintro ⟨⟩
        exact comparison.not_stops_badMagic hStops
      rw [observe_firstOf_of_ne hQuiet formats hNe, hFirst]
      exact .stopped after _ hStops
    | same result hAfter =>
      by_cases hBad : result = .error .badMagic
      · subst hBad
        rw [observe_firstOf_of_badMagic hQuiet formats hFirst,
          observe_firstOf_of_badMagic hQuiet' formats hSecond]
        exact ih _ _ hAfter
      · rw [observe_firstOf_of_ne hQuiet formats (by rw [hFirst]; exact hBad),
          observe_firstOf_of_ne hQuiet' formats (by rw [hSecond]; exact hBad), hFirst, hSecond]
        exact .same result hAfter

/-! ### Loaders -/

theorem inStep_loadPath_of_parse {loader other : Loader} (hFiles : other.files = loader.files)
    {levels levels' : Nat}
    (hParse : ∀ data, InStep comparison (loader.parse (loader.loadPart levels) data)
      (other.parse (other.loadPart levels') data)) (path : Path) :
    InStep comparison (loader.loadPath levels path) (other.loadPath levels' path) := by
  intro calls calls' hSame
  rw [observe_loadPath, observe_loadPath, hFiles]
  cases loader.files path with
  | openFails fault => exact .same _ hSame
  | readFails fault => exact .same _ hSame
  | contents data => exact hParse data calls calls' hSame

/-- A loader reads the same files in the same way as the first one, and has what the first one lacks
only where the first one stops for lack of it. -/
structure Follows (comparison : Comparison) (loader other : Loader) : Prop where
  files_eq : other.files = loader.files
  order_eq : other.order = loader.order
  targetHeight : other.options.targetHeight = loader.options.targetHeight ∨
    loader.options.targetHeight = none ∧ comparison.Stops .heightRequired
  resolver : (∃ answer answer', loader.options.resolver = some answer ∧
      other.options.resolver = some answer' ∧ comparison.Answers answer answer') ∨
    loader.options.resolver = none ∧
      comparison.Stops (.unsupported "combined fonts without a font resolver")

/-- Whoever loads parts keeps in step. Where nobody loads them any more on the first side, nobody
does on the other one, or the first load stops. -/
inductive FollowsFile (comparison : Comparison) :
    Option (Path → LoadM Font) → Option (Path → LoadM Font) → Prop
  | tooDeep : FollowsFile comparison none none
  | stopped (other : Option (Path → LoadM Font)) : comparison.Stops .combineTooDeep →
      FollowsFile comparison none other
  | loads {load load' : Path → LoadM Font} :
      (∀ path, InStep comparison (load path) (load' path)) →
      FollowsFile comparison (some load) (some load')

variable {loader other : Loader} {loadFile loadFile' : Option (Path → LoadM Font)}
  (hFollows : Follows comparison loader other)

include hFollows

theorem inStep_headerless (data : Bytes) :
    InStep comparison (loader.headerless data) (other.headerless data) := by
  intro calls calls' hSame
  rw [observe_headerless, observe_headerless]
  rcases hFollows.targetHeight with hEq | ⟨hNone, hStops⟩
  · rw [hEq]
    exact .same _ hSame
  · rw [hNone]
    rcases Headerless.decode_none data with hHeight | hAny
    · rw [hHeight]
      exact .stopped calls _ hStops
    · rw [hAny other.options.targetHeight]
      exact .same _ hSame

variable (hQuiet : QuietFile loadFile) (hQuiet' : QuietFile loadFile')
  (hFile : FollowsFile comparison loadFile loadFile')

include hQuiet hQuiet' hFile

theorem inStep_joinNamed (names : List Bytes) :
    InStep comparison (loader.joinNamed loadFile names) (other.joinNamed loadFile' names) := by
  rcases hFollows.resolver with ⟨answer, answer', hAnswer, hAnswer', hAnswers⟩ | ⟨hNone, hStops⟩
  · unfold joinNamed
    rw [hAnswer, hAnswer']
    cases hFile with
    | tooDeep => exact inStep_throw comparison .combineTooDeep
    | stopped _ hStops => exact inStep_of_stops hStops _
    | @loads load load' hLoad =>
      have hWith := Resolver.inStep_withFile hAnswers (hQuiet load rfl) (hQuiet' load' rfl) hLoad
      have hWithQuiet (name : Bytes) := answer.quiet_withFile name (hQuiet load rfl)
      have hWithQuiet' (name : Bytes) := answer'.quiet_withFile name (hQuiet' load' rfl)
      apply inStep_bind (fun _ => quiet_pure _) (fun _ => quiet_pure _)
        (inStep_join hWithQuiet hWithQuiet' hWith names)
      intro font
      exact inStep_pure comparison _
  · unfold joinNamed
    rw [hNone]
    exact inStep_of_stops hStops _

theorem inStep_decode (data : Bytes) (format : Format) :
    InStep comparison (loader.decode loadFile data format)
      (other.decode loadFile' data format) := by
  cases format with
  | psf2 => exact inStep_lift comparison (Psf2.decode data)
  | psf1 => exact inStep_lift comparison (Psf1.decode data)
  | raw => exact inStep_headerless hFollows data
  | combined =>
    show InStep comparison (loader.combined loadFile data) (other.combined loadFile' data)
    rw [combined_eq, combined_eq]
    apply inStep_bind (loader.quiet_joinNamed hQuiet) (other.quiet_joinNamed hQuiet')
      (inStep_lift comparison (PartList.decode data))
    intro names
    exact inStep_joinNamed hFollows hQuiet hQuiet' hFile names

/-- **What a loader reads from data, a loader that follows it reads as well.** -/
theorem inStep_parse (data : Bytes) :
    InStep comparison (loader.parse loadFile data) (other.parse loadFile' data) := by
  rw [parse, parse, hFollows.order_eq]
  exact inStep_firstOf (loader.quiet_decode hQuiet data) (other.quiet_decode hQuiet' data)
    (inStep_decode hFollows hQuiet hQuiet' hFile data) loader.order

omit hQuiet hQuiet' hFile in
/-- Both may go as deep, or the other one deeper where the first one stops at its limit. -/
theorem followsFile_loadPart {levels levels' : Nat}
    (hLevels : levels = levels' ∨ levels ≤ levels' ∧ comparison.Stops .combineTooDeep) :
    FollowsFile comparison (loader.loadPart levels) (other.loadPart levels') := by
  induction levels generalizing levels' with
  | zero =>
    rcases hLevels with rfl | ⟨_, hStops⟩
    · exact .tooDeep
    · exact .stopped _ hStops
  | succ levels ih =>
    obtain ⟨below, rfl⟩ : ∃ below, levels' = below + 1 := ⟨levels' - 1, by omega⟩
    -- a part takes one level on either side, so that the limits stay as far apart
    have hBelow : levels = below ∨ levels ≤ below ∧ comparison.Stops .combineTooDeep := by
      rcases hLevels with hEq | ⟨hLe, hStops⟩
      · exact .inl (by omega)
      · exact .inr ⟨by omega, hStops⟩
    refine .loads (inStep_loadPath_of_parse hFollows.files_eq ?_)
    intro data
    exact inStep_parse hFollows (loader.quietFile_loadPart levels)
      (other.quietFile_loadPart below) (ih hBelow) data

end Loader

end ConsoleFont
