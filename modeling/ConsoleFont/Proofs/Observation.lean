import ConsoleFont.Loading.Load

/-! # Loading apart from its notices

A load reads the calls made before it, as a resolver may, but no notice. `LoadM.observe` runs a load
with the calls alone, and `LoadM.Quiet` says that nothing is lost by that. Every load of this
library is quiet, so that what it gives and the calls it makes are a function of the calls before.

Main statements: `observe_bind`, and `Loader.quiet_parse` with the `observe` equations of the parts
of a loader.
-/

namespace ConsoleFont

namespace LoadM

variable {α β : Type}

/-- What comes of a load, and the calls made when it ends, given the calls made before. -/
def observe (load : LoadM α) (calls : Array Call) : Except Error α × Array Call :=
  ((load.runOn ⟨calls, #[]⟩).1, (load.runOn ⟨calls, #[]⟩).2.calls)

/-- The notices told before make no difference to what comes of the load and to its calls. -/
def Quiet (load : LoadM α) : Prop :=
  ∀ journal, ((load.runOn journal).1, (load.runOn journal).2.calls) = load.observe journal.calls

/-! ### Quiet loads -/

theorem quiet_pure (a : α) : (pure a : LoadM α).Quiet := fun _ => rfl

theorem quiet_throw (error : Error) : (throw error : LoadM α).Quiet := fun _ => rfl

theorem quiet_lift (result : Except Error α) : (liftM result : LoadM α).Quiet := fun _ => rfl

theorem quiet_tell (notice : Notice) : (tell notice).Quiet := fun _ => rfl

theorem quiet_attempt {load : LoadM α} (h : load.Quiet) : load.attempt.Quiet := by
  intro journal
  have hRun := h journal
  simp only [observe, Prod.mk.injEq] at hRun
  simp only [observe, runOn_attempt, hRun.1, hRun.2]

theorem quiet_bind {load : LoadM α} {next : α → LoadM β} (hLoad : load.Quiet)
    (hNext : ∀ a, (next a).Quiet) : (load >>= next).Quiet := by
  intro journal
  rcases hFull : load.runOn journal with ⟨result, after⟩
  rcases hBare : load.runOn ⟨journal.calls, #[]⟩ with ⟨result', after'⟩
  have hRun := hLoad journal
  simp only [observe, hFull, hBare, Prod.mk.injEq] at hRun
  obtain ⟨rfl, hCalls⟩ := hRun
  simp only [observe, runOn_bind, hFull, hBare]
  cases result with
  | error error => exact congrArg _ hCalls
  | ok a =>
    -- both runs go on with the same calls, and differ in their notices alone
    have hGo := hNext a after
    rw [hCalls] at hGo
    exact hGo.trans (hNext a after').symm

/-! ### Observing step by step -/

@[simp] theorem observe_lift (result : Except Error α) (calls : Array Call) :
    observe (liftM result : LoadM α) calls = (result, calls) := rfl

@[simp] theorem observe_tell (notice : Notice) (calls : Array Call) :
    observe (tell notice) calls = (.ok (), calls) := rfl

@[simp] theorem observe_attempt (load : LoadM α) (calls : Array Call) :
    observe (attempt load) calls = (.ok (load.observe calls).1, (load.observe calls).2) := rfl

theorem observe_eq_of_result {load : LoadM α} {calls : Array Call} {result : Except Error α}
    (h : (load.observe calls).1 = result) : load.observe calls = (result, (load.observe calls).2) :=
  Prod.ext h rfl

theorem observe_bind (load : LoadM α) {next : α → LoadM β} (hNext : ∀ a, (next a).Quiet)
    (calls : Array Call) :
    (load >>= next).observe calls =
      match load.observe calls with
      | (.ok a, calls) => (next a).observe calls
      | (.error error, calls) => (.error error, calls) := by
  simp only [observe, runOn_bind]
  rcases load.runOn ⟨calls, #[]⟩ with ⟨_ | a, after⟩
  · rfl
  · exact hNext a after

end LoadM

open LoadM

namespace Resolver

variable {α : Type} (resolver : Resolver) (name : Bytes)

theorem quiet_withFile {load : Path → LoadM α} (h : ∀ path, (load path).Quiet) :
    (resolver.withFile name load).Quiet := by
  intro journal
  simp only [observe, runOn_withFile]
  cases resolver journal.calls name with
  | none => rfl
  | some path =>
    have hBoth := fun notices =>
      h path ⟨journal.calls.push (.resolve name (some path)), notices⟩
    simp only [observe, Prod.mk.injEq] at hBoth
    simp only [hBoth]

theorem observe_withFile {load : Path → LoadM α} (h : ∀ path, (load path).Quiet)
    (calls : Array Call) :
    (resolver.withFile name load).observe calls =
      match resolver calls name with
      | none => (.error (.fontNotFound name), calls.push (.resolve name none))
      | some path =>
        let outcome := (load path).observe (calls.push (.resolve name (some path)))
        (outcome.1, outcome.2.push (.release path)) := by
  simp only [observe, runOn_withFile]
  cases resolver calls name with
  | none => rfl
  | some path =>
    have hInner := h path ⟨calls.push (.resolve name (some path)), #[.partFound name path]⟩
    simp only [observe, Prod.mk.injEq] at hInner
    simp only [Array.push_empty, hInner]

end Resolver

namespace Loader

/-! ### Joining -/

variable {loadPart : Bytes → LoadM Font}

def joinNext (loadPart : Bytes → LoadM Font) (font : Font) (names : List Bytes) (part : Font) :
    LoadM Font :=
  match font.append part with
  | .ok font => joinBehind loadPart font names
  | .error failure => throw failure.error

theorem joinBehind_cons (font : Font) (name : Bytes) (names : List Bytes) :
    joinBehind loadPart font (name :: names) = loadPart name >>= joinNext loadPart font names :=
  rfl

theorem quiet_joinBehind (h : ∀ name, (loadPart name).Quiet) (font : Font) (names : List Bytes) :
    (joinBehind loadPart font names).Quiet := by
  induction names generalizing font with
  | nil => exact quiet_pure font
  | cons name names ih =>
    refine quiet_bind (h name) fun part => ?_
    split
    · exact ih _
    · exact quiet_throw _

theorem quiet_joinNext (h : ∀ name, (loadPart name).Quiet) (font : Font) (names : List Bytes)
    (part : Font) : (joinNext loadPart font names part).Quiet := by
  unfold joinNext
  split
  · exact quiet_joinBehind h _ names
  · exact quiet_throw _

theorem quiet_join (h : ∀ name, (loadPart name).Quiet) (names : List Bytes) :
    (join loadPart names).Quiet := by
  cases names with
  | nil => exact quiet_throw _
  | cons name names => exact quiet_bind (h name) fun font => quiet_joinBehind h font names

theorem observe_joinBehind_cons (h : ∀ name, (loadPart name).Quiet) (font : Font) (name : Bytes)
    (names : List Bytes) (calls : Array Call) :
    (joinBehind loadPart font (name :: names)).observe calls =
      match (loadPart name).observe calls with
      | (.error error, calls) => (.error error, calls)
      | (.ok part, calls) =>
        match font.append part with
        | .ok font => (joinBehind loadPart font names).observe calls
        | .error failure => (.error failure.error, calls) := by
  rw [joinBehind_cons, observe_bind _ (quiet_joinNext h font names)]
  rcases (loadPart name).observe calls with ⟨_ | part, after⟩
  · rfl
  · simp only [joinNext]
    cases font.append part with
    | ok font => rfl
    | error failure => rfl

theorem observe_join_cons (h : ∀ name, (loadPart name).Quiet) (name : Bytes)
    (names : List Bytes) (calls : Array Call) :
    (join loadPart (name :: names)).observe calls =
      match (loadPart name).observe calls with
      | (.error error, calls) => (.error error, calls)
      | (.ok font, calls) => (joinBehind loadPart font names).observe calls := by
  rw [join, observe_bind _ fun font => quiet_joinBehind h font names]
  rcases (loadPart name).observe calls with ⟨_ | _, _⟩ <;> rfl

/-! ### Parsing -/

variable (loader : Loader) {loadFile : Option (Path → LoadM Font)}

/-- Whoever loads parts, if anyone does, does so quietly. -/
def QuietFile (loadFile : Option (Path → LoadM Font)) : Prop :=
  ∀ load ∈ loadFile, ∀ path, (load path).Quiet

def joinNamed (loadFile : Option (Path → LoadM Font)) (names : List Bytes) : LoadM Font :=
  match loader.options.resolver, loadFile with
  | none, _ => throw (.unsupported "combined fonts without a font resolver")
  | some _, none => throw .combineTooDeep
  | some resolver, some load => do
    let font ← join (fun name => resolver.withFile name load) names
    return { font with format := .combined }

theorem combined_eq (data : Bytes) :
    loader.combined loadFile data = liftM (PartList.decode data) >>= loader.joinNamed loadFile :=
  rfl

theorem quiet_joinNamed (h : QuietFile loadFile) (names : List Bytes) :
    (loader.joinNamed loadFile names).Quiet := by
  unfold joinNamed
  split
  · exact quiet_throw _
  · exact quiet_throw _
  · refine quiet_bind (quiet_join (fun name => ?_) names) fun font => quiet_pure _
    exact Resolver.quiet_withFile _ name (h _ rfl)

theorem quiet_combined (h : QuietFile loadFile) (data : Bytes) :
    (loader.combined loadFile data).Quiet := by
  rw [combined_eq]
  exact quiet_bind (quiet_lift _) (loader.quiet_joinNamed h)

theorem observe_combined (h : QuietFile loadFile) (data : Bytes) (calls : Array Call) :
    (loader.combined loadFile data).observe calls =
      match PartList.decode data with
      | .error error => (.error error, calls)
      | .ok names => (loader.joinNamed loadFile names).observe calls := by
  rw [combined_eq, observe_bind _ (loader.quiet_joinNamed h), observe_lift]
  cases PartList.decode data <;> rfl

theorem observe_joinNamed {resolver : Resolver} {load : Path → LoadM Font}
    (hResolver : loader.options.resolver = some resolver) (names : List Bytes)
    (calls : Array Call) :
    (loader.joinNamed (some load) names).observe calls =
      let outcome := (join (fun name => resolver.withFile name load) names).observe calls
      (outcome.1.map fun font => { font with format := .combined }, outcome.2) := by
  unfold joinNamed
  rw [hResolver]
  simp only
  rw [observe_bind _ fun _ => quiet_pure _]
  rcases (join (fun name => resolver.withFile name load) names).observe calls with ⟨_ | _, _⟩
  · rfl
  · rfl

theorem quiet_headerless (data : Bytes) : (loader.headerless data).Quiet := by
  refine quiet_bind ?_ fun _ => quiet_lift _
  unfold tellHalf
  split
  · exact quiet_tell _
  · exact quiet_pure _

theorem quiet_decode (h : QuietFile loadFile) (data : Bytes) (format : Format) :
    (loader.decode loadFile data format).Quiet := by
  cases format with
  | psf2 => exact quiet_lift _
  | psf1 => exact quiet_lift _
  | combined => exact loader.quiet_combined h data
  | raw => exact loader.quiet_headerless data

def settle (decode : Format → LoadM Font) (format : Format) (formats : List Format) :
    Except Error Font → LoadM Font
  | .ok font => do
    tell (.loaded format font.glyphCount font.width font.height)
    return font
  | .error .badMagic => do
    tell (.otherFormat format)
    firstOf decode formats
  | .error error => do
    tell (.failed format error)
    throw error

theorem firstOf_cons (decode : Format → LoadM Font) (format : Format) (formats : List Format) :
    firstOf decode (format :: formats) = attempt (decode format) >>= settle decode format formats :=
  rfl

theorem quiet_settle {decode : Format → LoadM Font} {formats : List Format}
    (h : (firstOf decode formats).Quiet) (format : Format) (result : Except Error Font) :
    (settle decode format formats result).Quiet := by
  unfold settle
  split
  · exact quiet_bind (quiet_tell _) fun _ => quiet_pure _
  · exact quiet_bind (quiet_tell _) fun _ => h
  · exact quiet_bind (quiet_tell _) fun _ => quiet_throw _

theorem quiet_firstOf {decode : Format → LoadM Font} (h : ∀ format, (decode format).Quiet)
    (formats : List Format) : (firstOf decode formats).Quiet := by
  induction formats with
  | nil => exact quiet_throw _
  | cons format formats ih =>
    rw [firstOf_cons]
    exact quiet_bind (quiet_attempt (h format)) (quiet_settle ih format)

theorem quiet_parse (h : QuietFile loadFile) (data : Bytes) :
    (loader.parse loadFile data).Quiet :=
  quiet_firstOf (loader.quiet_decode h data) loader.order

theorem quiet_contents (path : Path) : (loader.contents path).Quiet := by
  unfold contents
  split
  · exact quiet_throw _
  · exact quiet_throw _
  · exact quiet_bind (quiet_tell _) fun _ => quiet_pure _

theorem quietFile_loadPart (levels : Nat) : QuietFile (loader.loadPart levels) := by
  induction levels with
  | zero => simp [QuietFile, loadPart]
  | succ levels ih =>
    rintro load ⟨⟩ path
    exact quiet_bind (loader.quiet_contents path) fun data => loader.quiet_parse ih data

end Loader

end ConsoleFont
