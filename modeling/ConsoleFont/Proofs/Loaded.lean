import ConsoleFont.Loading.Load
import ConsoleFont.Proofs.Append
import ConsoleFont.Proofs.Headerless
import ConsoleFont.Proofs.Psf1
import ConsoleFont.Proofs.Psf2

/-! # What holds of every font that is loaded

Fonts come from three decoders, and from joining fonts that were loaded before. A property of fonts
that the decoders establish and joining keeps (`Font.Invariant`) holds of whatever is loaded,
`Font.Invariant.parse` and `Font.Invariant.load`. To be well-formed is one
(`Font.invariant_wellFormed`).
-/

namespace ConsoleFont

namespace LoadM

variable {α β : Type}

/-- Whatever was written to the journal before, what the load gives has the property. -/
def Ensures (load : LoadM α) (P : α → Prop) : Prop :=
  ∀ journal a, (load.runOn journal).1 = .ok a → P a

variable {P : α → Prop} {Q : β → Prop}

theorem ensures_pure {a : α} (h : P a) : (pure a : LoadM α).Ensures P := by
  intro journal b hRun
  cases hRun
  exact h

theorem ensures_throw (error : Error) : (throw error : LoadM α).Ensures P := by
  intro journal a hRun
  cases hRun

theorem ensures_lift {result : Except Error α} (h : ∀ a, result = .ok a → P a) :
    (liftM result : LoadM α).Ensures P := fun _ => h

theorem ensures_bind {load : LoadM α} {next : α → LoadM β} (hLoad : load.Ensures P)
    (hNext : ∀ a, P a → (next a).Ensures Q) : (load >>= next).Ensures Q := by
  intro journal b hRun
  rw [runOn_bind] at hRun
  rcases hBoth : load.runOn journal with ⟨error | a, after⟩
  · rw [hBoth] at hRun
    cases hRun
  · rw [hBoth] at hRun
    exact hNext a (hLoad journal a (by rw [hBoth])) after b hRun

theorem ensures_true (load : LoadM α) : load.Ensures fun _ => True := fun _ _ _ => trivial

end LoadM

open LoadM

theorem Resolver.ensures_withFile {α : Type} {P : α → Prop} {load : Path → LoadM α}
    (resolver : Resolver) (name : Bytes) (h : ∀ path, (load path).Ensures P) :
    (resolver.withFile name load).Ensures P := by
  intro journal a hRun
  rw [runOn_withFile] at hRun
  split at hRun
  · cases hRun
  · exact h _ _ a hRun

namespace Font

/-- A property that every way to come by a font establishes or keeps. -/
structure Invariant (P : Font → Prop) : Prop where
  psf2 : ∀ data font, Psf2.decode data = .ok font → P font
  psf1 : ∀ data font, Psf1.decode data = .ok font → P font
  headerless : ∀ targetHeight data font, Headerless.decode targetHeight data = .ok font → P font
  append : ∀ front behind font, P front → P behind → front.append behind = .ok font → P font
  combined : ∀ font, P font → P { font with format := .combined }

namespace Invariant

variable {P : Font → Prop} (hP : Invariant P)

include hP

theorem joinBehind {loadPart : Bytes → LoadM Font} (hPart : ∀ name, (loadPart name).Ensures P)
    (names : List Bytes) (font : Font) (hFont : P font) :
    (Loader.joinBehind loadPart font names).Ensures P := by
  induction names generalizing font with
  | nil => exact ensures_pure hFont
  | cons name names ih =>
    refine ensures_bind (hPart name) fun part hBehind => ?_
    cases hAppend : font.append part with
    | ok joined => exact ih joined (hP.append font part joined hFont hBehind hAppend)
    | error failure => exact ensures_throw _

theorem join {loadPart : Bytes → LoadM Font} (hPart : ∀ name, (loadPart name).Ensures P)
    (names : List Bytes) : (Loader.join loadPart names).Ensures P := by
  cases names with
  | nil => exact ensures_throw _
  | cons name names =>
    exact ensures_bind (hPart name) fun font hFont => hP.joinBehind hPart names font hFont

variable (loader : Loader)

theorem loader_combined {loadFile : Option (Path → LoadM Font)}
    (hFile : ∀ load ∈ loadFile, ∀ path, (load path).Ensures P) (data : Bytes) :
    (loader.combined loadFile data).Ensures P := by
  refine ensures_bind (ensures_true _) fun names _ => ?_
  split
  · exact ensures_throw _
  · exact ensures_throw _
  · refine ensures_bind (hP.join (fun name => ?_) names) fun font hFont =>
      ensures_pure (hP.combined font hFont)
    exact Resolver.ensures_withFile _ name (hFile _ rfl)

theorem loader_decode {loadFile : Option (Path → LoadM Font)}
    (hFile : ∀ load ∈ loadFile, ∀ path, (load path).Ensures P) (data : Bytes) (format : Format) :
    (loader.decode loadFile data format).Ensures P := by
  cases format with
  | psf2 => exact ensures_lift (hP.psf2 data)
  | psf1 => exact ensures_lift (hP.psf1 data)
  | combined => exact hP.loader_combined loader hFile data
  | raw =>
    exact ensures_bind (ensures_true _) fun _ _ => ensures_lift (hP.headerless _ data)

omit hP in
theorem firstOf {decode : Format → LoadM Font} (hDecode : ∀ format, (decode format).Ensures P)
    (formats : List Format) : (Loader.firstOf decode formats).Ensures P := by
  induction formats with
  | nil => exact ensures_throw _
  | cons format formats ih =>
    intro journal font hRun
    rw [Loader.runOn_firstOf_cons] at hRun
    split at hRun
    · rename_i after hFirst
      cases hRun
      exact hDecode format journal font (by rw [hFirst])
    · exact ih _ font hRun
    · cases hRun

theorem loader_parse {loadFile : Option (Path → LoadM Font)}
    (hFile : ∀ load ∈ loadFile, ∀ path, (load path).Ensures P) (data : Bytes) :
    (loader.parse loadFile data).Ensures P :=
  firstOf (hP.loader_decode loader hFile data) loader.order

theorem loader_loadPart (levels : Nat) :
    ∀ load ∈ loader.loadPart levels, ∀ path, (load path).Ensures P := by
  induction levels with
  | zero => simp [Loader.loadPart]
  | succ levels ih =>
    rintro load ⟨⟩ path
    exact ensures_bind (ensures_true _) fun data _ => hP.loader_parse loader ih data

variable {files : FileSystem} {options : Options} {font : Font}

/-- **What the decoders establish and joining keeps holds of every font that is read.** -/
theorem parse {data : Bytes} (h : (Font.parse files options data).result = .ok font) : P font := by
  let loader : Loader := ⟨files, options, Format.detectionOrder⟩
  exact hP.loader_parse loader (hP.loader_loadPart loader maxNesting) data .empty font h

theorem load {path : Path} (h : (Font.load files options path).result = .ok font) : P font := by
  let loader : Loader := ⟨files, options, Format.detectionOrder⟩
  have hWhole : (loader.loadWhole path).Ensures P := ensures_bind (ensures_true _)
    fun data _ => hP.loader_parse loader (hP.loader_loadPart loader maxNesting) data
  exact hWhole .empty font h

end Invariant

/-! ### Well-formed fonts -/

theorem invariant_wellFormed : Invariant WellFormed where
  psf2 _ _ h := Psf2.wellFormed_of_decode h
  psf1 _ _ h := Psf1.wellFormed_of_decode h
  headerless _ _ _ h := Headerless.wellFormed_of_decode h
  append _ _ _ hFront hBehind h := hFront.append hBehind h
  combined _ h := ⟨h.metrics, h.glyphCount_lt, h.length_bitmaps, h.characters_ne_nil,
    h.position_lt, h.sorted⟩

end Font

end ConsoleFont
