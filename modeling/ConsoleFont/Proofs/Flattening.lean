import Mathlib.Data.List.Basic
import Mathlib.Logic.Relation
import ConsoleFont.Proofs.Append
import ConsoleFont.Proofs.Detection
import ConsoleFont.Proofs.Loaded
import ConsoleFont.Proofs.RoundTrip

/-! # Nested lists of parts

A list of parts may name further lists, to any depth and in circles. Where all that is named can be
read, the nested lists mean one flat list: the single fonts that they come to, in the order in which
they are met (`Library.leaves`). They are loaded exactly if no chain of references passes through
more than `maxNesting` lists (`Library.Chain`).

Main statement: `Library.parse_iff_chain`.
-/

namespace ConsoleFont

open LoadM

/-- Files, how their names are found, and the height that is asked for. -/
structure Library where
  files : FileSystem
  find : Bytes → Option Path
  targetHeight : Option Nat

namespace Library

variable (library : Library)

def options : Options := ⟨library.targetHeight, some (.ofFunction library.find)⟩

def file? (name : Bytes) : Option Bytes :=
  match library.find name with
  | none => none
  | some path =>
    match library.files path with
    | .contents data => some data
    | _ => none

def single? (data : Bytes) : Option Font :=
  if Format.combined.Signs data then none
  else (Font.parse library.files library.options data).result.toOption

def Lists (data part : Bytes) : Prop :=
  ∃ names, PartList.decode data = .ok names ∧ ∃ name ∈ names, library.file? name = some part

abbrev Reaches : Bytes → Bytes → Prop := Relation.ReflTransGen library.Lists

/-- A chain of references passes through `count` lists of parts, the data itself included. A list
that is met again counts again. -/
inductive Chain : (count : Nat) → (data : Bytes) → Prop
  | last {data names} : PartList.decode data = .ok names → Chain 1 data
  | step {count data part} : library.Lists data part → Chain count part → Chain (count + 1) data

/-- The single fonts that the data comes to where lists may lie within each other `levels` deep.
Lists that lie deeper are cut off. -/
def leaves : (levels : Nat) → (data : Bytes) → List Font
  | 0, data => (library.single? data).toList
  | levels + 1, data =>
    match PartList.decode data with
    | .ok names => names.flatMap fun name => ((library.file? name).map (leaves levels)).getD []
    | .error _ => (library.single? data).toList

def Known (data : Bytes) : Prop :=
  (∃ names, PartList.decode data = .ok names) ∨ ∃ font, library.single? data = some font

/-- Whatever references from the data lead to can be read, and all single fonts among it are of one
size. -/
structure Complete (data : Bytes) (metrics : Metrics) : Prop where
  known : ∀ list names, library.Reaches data list → PartList.decode list = .ok names →
    ∀ name ∈ names, ∃ part, library.file? name = some part ∧ library.Known part
  metrics_eq : ∀ single font, library.Reaches data single → library.single? single = some font →
    font.toMetrics = metrics

/-- Some chain of references passes through more than `levels` lists. -/
def TooDeep (levels : Nat) (data : Bytes) : Prop :=
  ∃ count, library.Chain count data ∧ levels < count

variable {library}

/-! ### Chains -/

theorem Chain.exists_names {count : Nat} {data : Bytes} (h : library.Chain count data) :
    ∃ names, PartList.decode data = .ok names := by
  cases h with
  | last hNames => exact ⟨_, hNames⟩
  | step hLists _ =>
    obtain ⟨names, hNames, _⟩ := hLists
    exact ⟨names, hNames⟩

theorem not_signs_of_single? {data : Bytes} {font : Font} (h : library.single? data = some font) :
    ¬ Format.combined.Signs data := by
  intro hList
  rw [single?, if_pos hList] at h
  cases h

theorem not_tooDeep_of_single? {data : Bytes} {font : Font} (h : library.single? data = some font)
    (levels : Nat) : ¬ library.TooDeep levels data := by
  rintro ⟨count, hChain, _⟩
  obtain ⟨names, hNames⟩ := hChain.exists_names
  exact not_signs_of_single? h (Format.signs_combined.2 (PartList.signature_of_decode hNames))

theorem tooDeep_zero {data : Bytes} {names : List Bytes}
    (hNames : PartList.decode data = .ok names) : library.TooDeep 0 data :=
  ⟨1, .last hNames, Nat.one_pos⟩

theorem tooDeep_succ_iff {data : Bytes} {names : List Bytes}
    (hNames : PartList.decode data = .ok names) (levels : Nat) :
    library.TooDeep (levels + 1) data ↔
      ∃ name ∈ names, ∃ part, library.file? name = some part ∧ library.TooDeep levels part := by
  constructor
  · rintro ⟨count, hChain, hDeep⟩
    cases hChain with
    | last _ => omega
    | step hLists hPart =>
      obtain ⟨others, hOthers, name, hName, hFile⟩ := hLists
      cases hNames.symm.trans hOthers
      exact ⟨name, hName, _, hFile, _, hPart, by omega⟩
  · rintro ⟨name, hName, part, hFile, count, hPart, hDeep⟩
    exact ⟨count + 1, .step ⟨names, hNames, name, hName, hFile⟩ hPart, by omega⟩

theorem Complete.of_lists {data part : Bytes} {metrics : Metrics}
    (h : library.Complete data metrics) (hPart : library.Lists data part) :
    library.Complete part metrics where
  known list names hReach := h.known list names (.head hPart hReach)
  metrics_eq single font hReach := h.metrics_eq single font (.head hPart hReach)

/-! ### Leaves -/

theorem leaves_of_single? {data : Bytes} {font : Font} (h : library.single? data = some font)
    (levels : Nat) : library.leaves levels data = [font] := by
  cases levels with
  | zero => rw [leaves, h, Option.toList_some]
  | succ levels =>
    have hList := fun hSigns => not_signs_of_single? h (Format.signs_combined.2 hSigns)
    rw [leaves, PartList.decode_of_no_signature hList, h, Option.toList_some]

theorem leaves_succ {data : Bytes} {names : List Bytes}
    (hNames : PartList.decode data = .ok names) (levels : Nat) :
    library.leaves (levels + 1) data =
      names.flatMap fun name => ((library.file? name).map (library.leaves levels)).getD [] := by
  rw [leaves, hNames]

/-- Where no list is cut off, more levels make no difference. -/
theorem leaves_eq_of_not_tooDeep {levels more : Nat} {data : Bytes}
    (hDeep : ¬ library.TooDeep levels data) (hMore : levels ≤ more) :
    library.leaves more data = library.leaves levels data := by
  -- on the levels that are enough: a part needs one less of them, and has one less
  induction levels generalizing more data with
  | zero =>
    cases hNames : PartList.decode data with
    | ok names => exact absurd (tooDeep_zero hNames) hDeep
    | error error =>
      cases more with
      | zero => rfl
      | succ more => rw [leaves, leaves, hNames]
  | succ levels ih =>
    obtain ⟨more, rfl⟩ : ∃ extra, more = extra + 1 := ⟨more - 1, by omega⟩
    cases hNames : PartList.decode data with
    | error error => rw [leaves, leaves, hNames]
    | ok names =>
      rw [leaves_succ hNames, leaves_succ hNames]
      refine List.flatMap_congr fun name hName => ?_
      cases hFile : library.file? name with
      | none => rfl
      | some part =>
        have hPart : ¬ library.TooDeep levels part := fun h =>
          hDeep ((tooDeep_succ_iff hNames levels).2 ⟨name, hName, part, hFile, h⟩)
        exact ih hPart (Nat.le_of_succ_le_succ hMore)

/-! ### Loading -/

variable (metrics : Metrics)

/-- What a load comes to, whatever calls were made before: `combineTooDeep` if what it loads lies
too deep, and otherwise a font of these metrics that joins the parts. -/
def Comes (load : LoadM Font) (tooDeep : Prop) (parts : List Font) : Prop :=
  ∀ calls, (tooDeep → (load.observe calls).1 = .error .combineTooDeep) ∧
    (¬ tooDeep → ∃ font, (load.observe calls).1 = .ok font ∧ font.WellFormed ∧
      font.toMetrics = metrics ∧ font.Joins parts)

variable {metrics}

theorem Comes.ne_badMagic {load : LoadM Font} {tooDeep : Prop} {parts : List Font}
    (h : Comes metrics load tooDeep parts) (calls : Array Call) :
    (load.observe calls).1 ≠ .error .badMagic := by
  obtain ⟨hDeep, hFont⟩ := h calls
  by_cases hTooDeep : tooDeep
  · rw [hDeep hTooDeep]
    simp
  · obtain ⟨font, hResult, _⟩ := hFont hTooDeep
    rw [hResult]
    simp

/-- A load that goes on with what came of another comes to what the second one does, unless the
first lies too deep. -/
theorem Comes.bind {load : LoadM Font} {next : Font → LoadM Font} {tooDeep thenTooDeep : Prop}
    {parts whole : List Font} (hLoad : Comes metrics load tooDeep parts)
    (hQuiet : ∀ font, (next font).Quiet)
    (hNext : ∀ font, font.WellFormed → font.toMetrics = metrics → font.Joins parts →
      Comes metrics (next font) thenTooDeep whole) :
    Comes metrics (load >>= next) (tooDeep ∨ thenTooDeep) whole := by
  intro calls
  rw [observe_bind _ hQuiet]
  by_cases hDeep : tooDeep
  · rw [observe_eq_of_result ((hLoad calls).1 hDeep)]
    exact ⟨fun _ => rfl, fun h => absurd (.inl hDeep) h⟩
  · obtain ⟨font, hResult, hWell, hMetrics, hJoins⟩ := (hLoad calls).2 hDeep
    obtain ⟨hThenDeep, hFont⟩ := hNext font hWell hMetrics hJoins (load.observe calls).2
    rw [observe_eq_of_result hResult]
    exact ⟨fun h => hThenDeep (h.resolve_left hDeep), fun h => hFont fun hThen => h (.inr hThen)⟩

section Join

variable {loadPart : Bytes → LoadM Font} {tooDeep : Bytes → Prop} {parts : Bytes → List Font}
  (hQuiet : ∀ name, (loadPart name).Quiet)

include hQuiet

theorem comes_joinBehind {names : List Bytes} {before : List Font} {font : Font}
    (hParts : ∀ name ∈ names, Comes metrics (loadPart name) (tooDeep name) (parts name))
    (hWell : font.WellFormed) (hMetrics : font.toMetrics = metrics) (hJoins : font.Joins before)
    (hSum : Font.glyphSum (before ++ names.flatMap parts) < glyphCountLimit) :
    Comes metrics (Loader.joinBehind loadPart font names) (∃ name ∈ names, tooDeep name)
      (before ++ names.flatMap parts) := by
  induction names generalizing before font with
  | nil =>
    intro calls
    constructor
    · rintro ⟨_, hMem, _⟩
      cases hMem
    · intro _
      refine ⟨font, rfl, hWell, hMetrics, ?_⟩
      rwa [List.flatMap_nil, List.append_nil]
  | cons name names ih =>
    obtain ⟨hPart, hRest⟩ := List.forall_mem_cons.1 hParts
    rw [List.flatMap_cons, ← List.append_assoc] at hSum ⊢
    rw [Loader.joinBehind_cons, List.exists_mem_cons_iff]
    apply hPart.bind (Loader.quiet_joinNext hQuiet font names)
    intro part hPartWell hPartMetrics hPartJoins
    -- the glyphs of all leaves can be counted, so this append is not refused
    have hCount : font.glyphCount + part.glyphCount < glyphCountLimit := by
      rw [hJoins.glyphCount_eq, hPartJoins.glyphCount_eq]
      rw [Font.glyphSum_append, Font.glyphSum_append] at hSum
      omega
    obtain ⟨joined, hAppend⟩ :=
      Font.exists_append hWell (hMetrics.trans hPartMetrics.symm) hCount
    have hJoinedMetrics : joined.toMetrics = metrics := by
      obtain ⟨_, _, rfl⟩ := Font.append_eq_ok hAppend
      exact hMetrics
    simp only [Loader.joinNext, hAppend]
    exact ih hRest (hWell.append hPartWell hAppend) hJoinedMetrics
      (hJoins.append hPartJoins hAppend) hSum

theorem comes_join {names : List Bytes} (hNames : names ≠ [])
    (hParts : ∀ name ∈ names, Comes metrics (loadPart name) (tooDeep name) (parts name))
    (hSum : Font.glyphSum (names.flatMap parts) < glyphCountLimit) :
    Comes metrics (Loader.join loadPart names) (∃ name ∈ names, tooDeep name)
      (names.flatMap parts) := by
  cases names with
  | nil => exact absurd rfl hNames
  | cons name names =>
    obtain ⟨hPart, hRest⟩ := List.forall_mem_cons.1 hParts
    rw [List.exists_mem_cons_iff]
    apply hPart.bind fun font => Loader.quiet_joinBehind hQuiet font names
    intro font hWell hMetrics hJoins
    exact comes_joinBehind hQuiet hRest hWell hMetrics hJoins hSum

end Join

variable (library) in
def loader : Loader := .standard library.files library.options

theorem decodeSingle_of_single? {data : Bytes} {font : Font}
    (h : library.single? data = some font) : decodeSingle library.targetHeight data = .ok font := by
  have hList := not_signs_of_single? h
  rw [single?, if_neg hList, Font.result_parse_single _ _ hList, options] at h
  cases hResult : decodeSingle library.targetHeight data with
  | ok found =>
    rw [hResult] at h
    cases h
    rfl
  | error error =>
    rw [hResult] at h
    cases h

theorem comes_parse_of_single? {data : Bytes} {font : Font}
    (h : library.single? data = some font) (hMetrics : font.toMetrics = metrics) (levels : Nat) :
    Comes metrics (library.loader.parse (library.loader.loadPart levels) data)
      (library.TooDeep levels data) (library.leaves levels data) := by
  intro calls
  have hDecode := decodeSingle_of_single? h
  rw [Loader.observe_parse_single calls rfl (library.loader.quietFile_loadPart levels)
    (not_signs_of_single? h), leaves_of_single? h]
  refine ⟨fun hDeep => absurd hDeep (not_tooDeep_of_single? h levels), fun _ => ?_⟩
  exact ⟨font, hDecode, wellFormed_of_decodeSingle hDecode, hMetrics, font.joins_single⟩

theorem comes_part {levels : Nat} {name part : Bytes} (hFile : library.file? name = some part)
    {tooDeep : Prop} {parts : List Font}
    (hPart : Comes metrics (library.loader.parse (library.loader.loadPart levels) part)
      tooDeep parts) :
    Comes metrics (library.loader.part (.ofFunction library.find) levels name) tooDeep parts := by
  intro calls
  unfold file? at hFile
  split at hFile
  · cases hFile
  · rename_i path hPath
    split at hFile
    · rename_i data hData
      cases hFile
      have hResolve : Resolver.ofFunction library.find calls name = some path := hPath
      have hContents : library.loader.files path = .contents part := hData
      rw [Loader.result_part, hResolve]
      simp only [hContents]
      exact hPart _
    · cases hFile

theorem glyphSum_leaves_le {names : List Bytes} {name part : Bytes} {levels : Nat}
    (hName : name ∈ names) (hFile : library.file? name = some part) :
    Font.glyphSum (library.leaves levels part) ≤ Font.glyphSum
      (names.flatMap fun name => ((library.file? name).map (library.leaves levels)).getD []) := by
  obtain ⟨front, back, rfl⟩ := List.append_of_mem hName
  rw [List.flatMap_append, List.flatMap_cons, hFile, Font.glyphSum_append, Font.glyphSum_append]
  simp only [Option.map_some, Option.getD_some]
  omega

theorem comes_combined_succ {data : Bytes} {names : List Bytes}
    (hNames : PartList.decode data = .ok names) (hComplete : library.Complete data metrics)
    {levels : Nat} (hSum : Font.glyphSum (library.leaves (levels + 1) data) < glyphCountLimit)
    (hParts : ∀ part, library.Known part → library.Complete part metrics →
      Font.glyphSum (library.leaves levels part) < glyphCountLimit →
      Comes metrics (library.loader.parse (library.loader.loadPart levels) part)
        (library.TooDeep levels part) (library.leaves levels part)) :
    Comes metrics (library.loader.combined (library.loader.loadPart (levels + 1)) data)
      (library.TooDeep (levels + 1) data) (library.leaves (levels + 1) data) := by
  rw [leaves_succ hNames] at hSum ⊢
  have hJoin : Comes metrics
      (Loader.join (library.loader.part (.ofFunction library.find) levels) names)
      (∃ name ∈ names, ∃ part, library.file? name = some part ∧ library.TooDeep levels part)
      (names.flatMap fun name => ((library.file? name).map (library.leaves levels)).getD []) := by
    refine comes_join (library.loader.quiet_part (.ofFunction library.find) levels)
      (PartList.decode_ne_nil hNames) (fun name hName => ?_) hSum
    obtain ⟨part, hFile, hKnown⟩ := hComplete.known data names .refl hNames name hName
    have hLists : library.Lists data part := ⟨names, hNames, name, hName, hFile⟩
    have hPartSum := Nat.lt_of_le_of_lt (glyphSum_leaves_le hName hFile) hSum
    have hPart := comes_part hFile (hParts part hKnown (hComplete.of_lists hLists) hPartSum)
    simpa [hFile] using hPart
  intro calls
  rw [library.loader.observe_combined_succ rfl hNames, tooDeep_succ_iff hNames]
  obtain ⟨hDeep, hFont⟩ := hJoin calls
  refine ⟨fun h => map_eq_error_iff.2 (hDeep h), fun h => ?_⟩
  obtain ⟨font, hResult, hWell, hMetrics, hJoins⟩ := hFont h
  exact ⟨_, map_eq_ok_iff.2 ⟨font, hResult, rfl⟩,
    Font.invariant_wellFormed.combined font hWell, hMetrics,
    ⟨hJoins.glyphCount_eq, hJoins.bitmaps_eq, hJoins.unicodeMap_eq⟩⟩

theorem comes_combined_zero {data : Bytes} {names : List Bytes}
    (hNames : PartList.decode data = .ok names) :
    Comes metrics (library.loader.combined (library.loader.loadPart 0) data)
      (library.TooDeep 0 data) (library.leaves 0 data) := by
  intro calls
  rw [library.loader.observe_combined_zero rfl hNames]
  exact ⟨fun _ => rfl, fun h => absurd (tooDeep_zero hNames) h⟩

theorem comes_parse_of_combined {data : Bytes} {names : List Bytes}
    (hNames : PartList.decode data = .ok names) {levels : Nat} {tooDeep : Prop} {parts : List Font}
    (h : Comes metrics (library.loader.combined (library.loader.loadPart levels) data)
      tooDeep parts) :
    Comes metrics (library.loader.parse (library.loader.loadPart levels) data) tooDeep parts := by
  intro calls
  have hList := Format.signs_combined.2 (PartList.signature_of_decode hNames)
  rw [Loader.observe_parse_list_of_ne calls rfl (library.loader.quietFile_loadPart levels) hList
    (h.ne_badMagic calls)]
  exact h calls

/-- **What is read at some depth.** -/
theorem comes_parse (levels : Nat) {data : Bytes} (hKnown : library.Known data)
    (hComplete : library.Complete data metrics)
    (hSum : Font.glyphSum (library.leaves levels data) < glyphCountLimit) :
    Comes metrics (library.loader.parse (library.loader.loadPart levels) data)
      (library.TooDeep levels data) (library.leaves levels data) := by
  induction levels generalizing data with
  | zero =>
    rcases hKnown with ⟨names, hNames⟩ | ⟨font, hFont⟩
    · exact comes_parse_of_combined hNames (comes_combined_zero hNames)
    · exact comes_parse_of_single? hFont (hComplete.metrics_eq data font .refl hFont) 0
  | succ levels ih =>
    rcases hKnown with ⟨names, hNames⟩ | ⟨font, hFont⟩
    · exact comes_parse_of_combined hNames
        (comes_combined_succ hNames hComplete hSum fun _ hKnown => ih hKnown)
    · exact comes_parse_of_single? hFont (hComplete.metrics_eq data font .refl hFont) _

theorem comes_combined (levels : Nat) {data : Bytes} {names : List Bytes}
    (hNames : PartList.decode data = .ok names) (hComplete : library.Complete data metrics)
    (hSum : Font.glyphSum (library.leaves levels data) < glyphCountLimit) :
    Comes metrics (library.loader.combined (library.loader.loadPart levels) data)
      (library.TooDeep levels data) (library.leaves levels data) := by
  cases levels with
  | zero => exact comes_combined_zero hNames
  | succ levels => exact comes_combined_succ hNames hComplete hSum fun _ => comes_parse levels

/-- **Nested lists are read exactly if no chain of references passes through more than `maxNesting`
of them.** The font that is read has the glyphs and the maps of the single fonts, in the order in
which they are met. Nothing else goes wrong. -/
theorem parse_iff_chain (library : Library) (top : Bytes) (names : List Bytes) (metrics : Metrics)
    (hNames : PartList.decode top = .ok names) (hComplete : library.Complete top metrics)
    (hSum : Font.glyphSum (library.leaves maxNesting top) < glyphCountLimit) :
    ((∃ font, (Font.parse library.files library.options top).result = .ok font) ↔
      ∀ count, library.Chain count top → count ≤ maxNesting) ∧
    (∀ font, (Font.parse library.files library.options top).result = .ok font →
      font.format = .combined ∧ font.toMetrics = metrics ∧
        ∀ levels, maxNesting ≤ levels → font.Joins (library.leaves levels top)) ∧
    (∀ error, (Font.parse library.files library.options top).result = .error error →
      error = .combineTooDeep) := by
  have hList := Format.signs_combined.2 (PartList.signature_of_decode hNames)
  have hFile := library.loader.quietFile_loadPart maxNesting
  have hCombined := comes_combined maxNesting hNames hComplete hSum
  have hResult : (Font.parse library.files library.options top).result =
      ((library.loader.combined (library.loader.loadPart maxNesting) top).observe #[]).1 := by
    rw [Font.result_parse, Loader.parseWhole, ← loader,
      Loader.observe_parse_list_of_ne #[] rfl hFile hList (hCombined.ne_badMagic #[])]
  have hDeepIff : ¬ library.TooDeep maxNesting top ↔
      ∀ count, library.Chain count top → count ≤ maxNesting := by
    constructor
    · intro h count hChain
      exact Nat.le_of_not_lt fun hLt => h ⟨count, hChain, hLt⟩
    · rintro h ⟨count, hChain, hLt⟩
      exact absurd (h count hChain) (Nat.not_le_of_lt hLt)
  rw [hResult, ← hDeepIff]
  obtain ⟨hDeep, hFont⟩ := hCombined #[]
  by_cases hTooDeep : library.TooDeep maxNesting top
  · rw [hDeep hTooDeep]
    refine ⟨⟨?_, fun h => absurd hTooDeep h⟩, ?_, ?_⟩
    · rintro ⟨_, hOk⟩
      cases hOk
    · intro font hOk
      cases hOk
    · intro error hError
      exact (Except.error.inj hError).symm
  · obtain ⟨font, hOk, _, hMetrics, hJoins⟩ := hFont hTooDeep
    refine ⟨⟨fun _ => hTooDeep, fun _ => ⟨font, hOk⟩⟩, ?_, ?_⟩
    · intro found hFound
      cases hOk.symm.trans hFound
      refine ⟨Loader.format_of_combined hFile hOk, hMetrics, ?_⟩
      intro levels hLevels
      rw [leaves_eq_of_not_tooDeep hTooDeep hLevels]
      exact hJoins
    · intro error hError
      cases hOk.symm.trans hError

/-! ### A nested list -/

def letter : Font := ⟨⟨8, 1, 1⟩, .psf2, 1, [0x18], [⟨0, ['A']⟩]⟩

def pair : Bytes := PartList.encode [[0x61], [0x61]]

/-- One name leads to the letter, and all others to the pair. -/
def letters : Library where
  files path := .contents (if path = "letter" then Psf2.encode letter else pair)
  find name := some (if name = [0x61] then "letter" else "pair")
  targetHeight := none

theorem letters_file? (name : Bytes) :
    letters.file? name = some (if name = [0x61] then Psf2.encode letter else pair) := by
  by_cases hName : name = [0x61]
  · simp [file?, letters, hName]
  · simp [file?, letters, hName]

theorem letters_single? : letters.single? (Psf2.encode letter) = some letter := by
  have hWell : letter.WellFormed := ⟨⟨by decide, by decide, by decide, by decide, by decide⟩,
    by decide, rfl, by decide, by decide, by decide⟩
  have hList : ¬ Format.combined.Signs (Psf2.encode letter) := by decide
  rw [single?, if_neg hList, Psf2.result_parse_encode _ _ rfl hWell]
  rfl

def threeLetters : Bytes := PartList.encode [[0x61], [0x62]]

theorem decode_pair : PartList.decode pair = .ok [[0x61], [0x61]] := rfl

theorem decode_threeLetters : PartList.decode threeLetters = .ok [[0x61], [0x62]] := rfl

theorem complete_threeLetters : letters.Complete threeLetters letter.toMetrics where
  known list names _ _ name _ := by
    refine ⟨_, letters_file? name, ?_⟩
    split
    · exact .inr ⟨letter, letters_single?⟩
    · exact .inl ⟨_, decode_pair⟩
  metrics_eq single font hReach h := by
    rcases Relation.ReflTransGen.cases_tail hReach with rfl | ⟨list, _, _, _, name, _, hFile⟩
    · exact absurd (by decide) (not_signs_of_single? h)
    · rw [letters_file?] at hFile
      split at hFile
      · cases hFile
        cases letters_single?.symm.trans h
        rfl
      · cases hFile
        exact absurd (by decide) (not_signs_of_single? h)

theorem leaves_threeLetters :
    letters.leaves maxNesting threeLetters = [letter, letter, letter] := by
  have hLetter (levels : Nat) := leaves_of_single? letters_single? levels
  have hPair (levels : Nat) : letters.leaves (levels + 1) pair = [letter, letter] := by
    rw [leaves_succ decode_pair]
    simp [letters_file?, hLetter]
  rw [maxNesting, leaves_succ decode_threeLetters]
  simp [letters_file?, hLetter, hPair]

theorem not_tooDeep_threeLetters : ¬ letters.TooDeep maxNesting threeLetters := by
  have hLetter (levels : Nat) := not_tooDeep_of_single? letters_single? levels
  have hPair (levels : Nat) : ¬ letters.TooDeep (levels + 1) pair := by
    rw [tooDeep_succ_iff decode_pair]
    simp [letters_file?, hLetter]
  rw [maxNesting, tooDeep_succ_iff decode_threeLetters]
  simp [letters_file?, hLetter, hPair]

/-- The two lists come to three letters. -/
theorem parse_threeLetters :
    PartList.decode threeLetters = .ok [[0x61], [0x62]] ∧
      letters.Complete threeLetters letter.toMetrics ∧
      Font.glyphSum (letters.leaves maxNesting threeLetters) < glyphCountLimit ∧
      ∃ font, (Font.parse letters.files letters.options threeLetters).result = .ok font ∧
        font.format = .combined ∧ font.Joins [letter, letter, letter] := by
  have hSum : Font.glyphSum (letters.leaves maxNesting threeLetters) < glyphCountLimit := by
    rw [leaves_threeLetters]
    decide
  obtain ⟨hIff, hFont, _⟩ := parse_iff_chain letters threeLetters _ letter.toMetrics
    decode_threeLetters complete_threeLetters hSum
  obtain ⟨font, hResult⟩ := hIff.2 fun count hChain =>
    Nat.le_of_not_lt fun hLt => not_tooDeep_threeLetters ⟨count, hChain, hLt⟩
  obtain ⟨hFormat, _, hJoins⟩ := hFont font hResult
  refine ⟨decode_threeLetters, complete_threeLetters, hSum, font, hResult, hFormat, ?_⟩
  rw [← leaves_threeLetters]
  exact hJoins maxNesting (Nat.le_refl _)

end Library

end ConsoleFont
