import ConsoleFont.Proofs.Brackets
import ConsoleFont.Proofs.Calls
import ConsoleFont.Proofs.Detection
import ConsoleFont.Proofs.PartNames

/-! # Lists that list no names

Data may start as a list of parts and go on as a text that lists no names. It is refused before
anything is done about the names that are in it (`runOn_combined_of_spoiled`), and any load that
comes upon such a file is over: `Heeds` is a rule that the steps of a load keep, and so it holds of
all loads of this library (`Loader.heeds_parse`).

Main statement: `PartList.read_or_refused`.
-/

namespace ConsoleFont

/-- The data starts as a list of parts, and the text behind that lists no names. -/
def PartList.Spoiled (data : Bytes) : Prop :=
  ∃ text, data = magic ++ text ∧ ¬ ListsNames text

namespace PartList.Spoiled

variable {data : Bytes} (h : Spoiled data)

include h

theorem signs : Format.combined.Signs data := by
  obtain ⟨text, rfl, _⟩ := h
  exact Format.signs_combined.2 (List.prefix_append magic text)

theorem decode_eq : decode data = .error .trailingGarbage := by
  obtain ⟨text, rfl, hText⟩ := h
  rw [decode_append]
  exact names_eq_error_iff.2 ⟨hText, rfl⟩

end PartList.Spoiled

/-! ### Coming upon a file -/

/-- No name led to a spoiled path. -/
def Spares (spoiled : Path → Prop) (calls : List Call) : Prop :=
  ∀ name path, .resolve name (some path) ∈ calls → ¬ spoiled path

/-- How a load ends that made these calls: where a name led to a spoiled path, no name is looked up
behind that, and the load fails. -/
inductive Heeds (spoiled : Path → Prop) {α : Type} : List Call → Except Error α → Prop
  | spared {calls : List Call} (result : Except Error α) : Spares spoiled calls →
      Heeds spoiled calls result
  | met {front : List Call} (name : Bytes) {path : Path} (opened : List Path) :
      Spares spoiled front → spoiled path →
      Heeds spoiled (front ++ .resolve name (some path) :: opened.map .release)
        (.error .trailingGarbage)

section Spares

variable {spoiled : Path → Prop} {front behind : List Call}

theorem spares_nil : Spares spoiled [] := by
  intro name path hCall
  cases hCall

theorem Spares.append (hFront : Spares spoiled front) (hBehind : Spares spoiled behind) :
    Spares spoiled (front ++ behind) := by
  intro name path hCall
  rcases List.mem_append.1 hCall with h | h
  · exact hFront name path h
  · exact hBehind name path h

theorem spares_release (path : Path) : Spares spoiled [.release path] := by
  intro name other hCall
  simp at hCall

theorem Spares.cons (name : Bytes) {path : Path} (hPath : ¬ spoiled path)
    (h : Spares spoiled behind) : Spares spoiled (.resolve name (some path) :: behind) := by
  intro other found hCall
  rcases List.mem_cons.1 hCall with hHere | hBehind
  · cases hHere
    exact hPath
  · exact h other found hBehind

end Spares

namespace Heeds

variable {spoiled : Path → Prop} {α : Type} {calls : List Call} {result : Except Error α}

theorem spares (h : Heeds spoiled calls result) (hNe : result ≠ .error .trailingGarbage) :
    Spares spoiled calls := by
  cases h with
  | spared _ hSpares => exact hSpares
  | met => exact absurd rfl hNe

theorem callRule (spoiled : Path → Prop) : CallRule fun _ _ => Heeds spoiled where
  nil _ result := .spared result spares_nil
  of_error h := by
    cases h with
    | spared _ hSpares => exact .spared _ hSpares
    | met name opened hSpares hPath => exact .met name opened hSpares hPath
  append {_ _ _ _ _ first _} h hFirst hMore := by
    have hCalls := h.spares fun hMet => nomatch hFirst _ hMet
    cases hMore with
    | spared _ hSpares => exact .spared _ (hCalls.append hSpares)
    | met name opened hFront hPath =>
      rw [← List.append_assoc]
      exact .met name opened (hCalls.append hFront) hPath

theorem bracket (h : Heeds spoiled calls result) (name : Bytes) {path : Path}
    (hPath : ¬ spoiled path) :
    Heeds spoiled (.resolve name (some path) :: (calls ++ [.release path])) result := by
  cases h with
  | spared _ hSpares => exact .spared _ ((hSpares.append (spares_release path)).cons name hPath)
  | @met front other found opened hFront hFound =>
    have hMet := met (α := α) other (opened ++ [path]) (hFront.cons name hPath) hFound
    rw [List.map_append] at hMet
    rw [List.append_assoc]
    exact hMet

theorem stops (h : Heeds spoiled calls result) {front behind : List Call} {name : Bytes}
    {path : Path} (hPath : spoiled path)
    (hCalls : calls = front ++ .resolve name (some path) :: behind) :
    result = .error .trailingGarbage ∧ ∃ released : List Path, behind = released.map .release := by
  cases h with
  | spared _ hSpares =>
    have hCall : .resolve name (some path) ∈ calls := by
      rw [hCalls]
      exact List.mem_append_right front List.mem_cons_self
    exact absurd hPath (hSpares name path hCall)
  | @met before other found opened hBefore hFound =>
    refine ⟨rfl, ?_⟩
    rcases split_append hCalls with ⟨between, rfl, _⟩ | ⟨between, rfl, hBehind⟩
    · -- the path was not among those before
      have hCall : .resolve name (some path) ∈ front ++ .resolve name (some path) :: between :=
        List.mem_append_right front List.mem_cons_self
      exact absurd hPath (hBefore name path hCall)
    · cases between with
      | nil =>
        cases hBehind
        exact ⟨opened, rfl⟩
      | cons call between =>
        -- nor is it among those behind, which are released only
        have hCall : .resolve name (some path) ∈ opened.map Call.release := by
          rw [(List.cons.inj hBehind).2]
          exact List.mem_append_right between List.mem_cons_self
        simp at hCall

end Heeds

def LoadM.Refuses {α : Type} (load : LoadM α) : Prop :=
  ∀ journal, (load.runOn journal).1 = .error .trailingGarbage ∧
    (load.runOn journal).2.calls = journal.calls

open LoadM

theorem Resolver.heeds_withFile {α : Type} {spoiled : Path → Prop} {load : Path → LoadM α}
    (resolver : Resolver) (name : Bytes) (hHeeds : ∀ path, (load path).Obeys fun _ => Heeds spoiled)
    (hRefuses : ∀ path, spoiled path → (load path).Refuses) :
    (resolver.withFile name load).Obeys fun _ => Heeds spoiled := by
  -- what is loaded from a spoiled path is refused, and from any other path it is heeded
  have hLoad (path : Path) : (load path).Obeys fun _ inner result =>
      (spoiled path → inner = [] ∧ result = .error .trailingGarbage) ∧
        (¬ spoiled path → Heeds spoiled inner result) := by
    intro journal
    by_cases hPath : spoiled path
    · obtain ⟨hResult, hCalls⟩ := hRefuses path hPath journal
      exact ⟨[], by rw [hCalls, List.append_nil], fun _ => ⟨rfl, hResult⟩, fun h => absurd hPath h⟩
    · obtain ⟨calls, hCalls, hInner⟩ := hHeeds path journal
      exact ⟨calls, hCalls, fun h => absurd h hPath, fun _ => hInner⟩
  refine resolver.obeys_withFile name (fun _ => .spared _ fun other path hCall => ?_) hLoad ?_
  · simp at hCall
  · rintro _ path inner result ⟨hMet, hOther⟩
    by_cases hPath : spoiled path
    · obtain ⟨rfl, rfl⟩ := hMet hPath
      exact .met name [path] spares_nil hPath
    · exact (hOther hPath).bracket name hPath

namespace Loader

variable (loader : Loader) {loadFile : Option (Path → LoadM Font)}

/-! ### Spoiled lists -/

def Spoiled (path : Path) : Prop :=
  ∃ data, loader.files path = .contents data ∧ PartList.Spoiled data

/-- **The names are not looked at**, neither whether there is a resolver for them nor whether parts
can be loaded. -/
theorem runOn_combined_of_spoiled {data : Bytes} (hSpoiled : PartList.Spoiled data)
    (loadFile : Option (Path → LoadM Font)) (journal : Journal) :
    (loader.combined loadFile data).runOn journal = (.error .trailingGarbage, journal) := by
  rw [combined_eq, runOn_bind, runOn_lift, hSpoiled.decode_eq]

section Order

variable (hOrder : loader.order = Format.detectionOrder)

include hOrder

theorem refuses_parse {data : Bytes} (hSpoiled : PartList.Spoiled data)
    (hFile : QuietFile loadFile) : (loader.parse loadFile data).Refuses := by
  intro journal
  have hCombined : (loader.combined loadFile data).observe journal.calls =
      (.error .trailingGarbage, journal.calls) := by
    rw [loader.observe_combined hFile, hSpoiled.decode_eq]
  have hRun := loader.quiet_parse hFile data journal
  rw [observe_parse_list_of_ne journal.calls hOrder hFile hSpoiled.signs (by simp [hCombined]),
    hCombined] at hRun
  exact Prod.mk.inj hRun

theorem refuses_loadPath (levels : Nat) {path : Path} (hPath : loader.Spoiled path) :
    (loader.loadPath levels path).Refuses := by
  obtain ⟨data, hData, hSpoiled⟩ := hPath
  intro journal
  rw [loadPath, runOn_bind, contents, hData]
  exact loader.refuses_parse hOrder hSpoiled (loader.quietFile_loadPart levels)
    ⟨journal.calls, journal.notices.push (.fileRead path data.length)⟩

theorem heeds_loadPart (levels : Nat) :
    ∀ load ∈ loader.loadPart levels, ∀ (resolver : Resolver) name,
      (resolver.withFile name load).Obeys fun _ => Heeds loader.Spoiled := by
  have hRule := Heeds.callRule loader.Spoiled
  induction levels with
  | zero => nofun
  | succ levels ih =>
    rintro load ⟨⟩ resolver name
    apply resolver.heeds_withFile name
    · intro path
      exact hRule.bind (hRule.contents loader path) fun data => hRule.parse loader ih data
    · intro path hPath
      exact loader.refuses_loadPath hOrder levels hPath

theorem heeds_parse (levels : Nat) (data : Bytes) :
    (loader.parse (loader.loadPart levels) data).Obeys fun _ => Heeds loader.Spoiled :=
  (Heeds.callRule loader.Spoiled).parse loader (loader.heeds_loadPart hOrder levels) data

theorem heeds_loadPath (levels : Nat) (path : Path) :
    (loader.loadPath levels path).Obeys fun _ => Heeds loader.Spoiled := by
  have hRule := Heeds.callRule loader.Spoiled
  exact hRule.bind (hRule.contents loader path) (loader.heeds_parse hOrder levels)

end Order

end Loader

/-- All calls behind one that led to the path are releases, and the load failed. -/
def Report.StopsAt (report : Report) (path : Path) : Prop :=
  ∀ front name behind,
    report.journal.calls.toList = front ++ .resolve name (some path) :: behind →
    report.result = .error .trailingGarbage ∧ ∃ released : List Path, behind = released.map .release

theorem LoadM.Obeys.stopsAt {spoiled : Path → Prop} {load : LoadM Font}
    (h : load.Obeys fun _ => Heeds spoiled) {path : Path} (hPath : spoiled path) :
    (Report.ofLoad load).StopsAt path := by
  obtain ⟨calls, hCalls, hHeeds⟩ := h .empty
  have hAll : (Report.ofLoad load).journal.calls.toList = calls := hCalls
  intro front name behind hSplit
  exact hHeeds.stops hPath (hAll.symm.trans hSplit)

theorem LoadM.Refuses.report {load : LoadM Font} (h : load.Refuses) :
    (Report.ofLoad load).result = .error .trailingGarbage ∧
      (Report.ofLoad load).journal.calls = #[] :=
  h .empty

namespace PartList

/-- What becomes of a list of parts that is refused, given the files and the options of a load. -/
structure Refused (files : FileSystem) (options : Options) (data : Bytes) : Prop where
  /-- The list is refused however many combined fonts may still lie within each other. -/
  combined : ∀ levels journal,
    ((Loader.standard files options).combined ((Loader.standard files options).loadPart levels)
      data).runOn journal = (.error .trailingGarbage, journal)
  /-- No other format is found in its place. -/
  parse : ∀ levels, ((Loader.standard files options).parse
    ((Loader.standard files options).loadPart levels) data).Refuses
  memory : (Font.parse files options data).result = .error .trailingGarbage ∧
    (Font.parse files options data).journal.calls = #[]
  file : ∀ path, files path = .contents data →
    (Font.load files options path).result = .error .trailingGarbage ∧
      (Font.load files options path).journal.calls = #[]
  /-- Whatever is loaded and however deep, to come upon the list is the end of it. -/
  within : ∀ path, files path = .contents data →
    (∀ whole, (Font.parse files options whole).StopsAt path) ∧
      ∀ whole, (Font.load files options whole).StopsAt path

theorem Spoiled.refused {data : Bytes} (h : Spoiled data) (files : FileSystem)
    (options : Options) : Refused files options data := by
  let loader := Loader.standard files options
  have hParse (levels : Nat) : (loader.parse (loader.loadPart levels) data).Refuses :=
    loader.refuses_parse rfl h (loader.quietFile_loadPart levels)
  have hPath {path : Path} (hData : files path = .contents data) : loader.Spoiled path :=
    ⟨data, hData, h⟩
  constructor
  case combined => exact fun levels => loader.runOn_combined_of_spoiled h (loader.loadPart levels)
  case parse => exact hParse
  case memory => exact (hParse maxNesting).report
  case file =>
    intro path hData
    exact (loader.refuses_loadPath rfl maxNesting (hPath hData)).report
  case within =>
    intro path hData
    constructor
    · intro whole
      exact (loader.heeds_parse rfl maxNesting whole).stopsAt (hPath hData)
    · intro whole
      exact (loader.heeds_loadPath rfl maxNesting whole).stopsAt (hPath hData)

/-- **A list of parts is read as its lines that are not blank, or it is refused as a whole.** -/
theorem read_or_refused (text : Bytes) :
    (∀ found, decode (magic ++ text) = .ok found ↔
      ListsNames text ∧ found = (text.splitOn newline).filter (· ≠ [])) ∧
    (∀ listed written, listed ≠ [] → (∀ name ∈ listed, name ≠ [] ∧ newline ∉ name ∧ 0 ∉ name) →
      written.filter (· ≠ []) = listed → decode (encode written) = .ok listed) ∧
    (¬ ListsNames text → ∀ files options, Refused files options (magic ++ text)) := by
  refine ⟨fun found => ?_, fun listed written hSome hListed hWritten => ?_, fun hText => ?_⟩
  · rw [decode_append]
    exact names_eq_ok_iff
  · rw [encode, decode_append]
    exact names_lines_of_filter hSome (fun name hName => (hListed name hName).2) hWritten
  · exact Spoiled.refused ⟨text, rfl, hText⟩

/-- A list names a font and a list, and that names a list with a NUL byte in it, behind a name. -/
theorem refused_within_nested_list :
    let text : Bytes := [0x61, newline, 0x62, 0x00, newline]
    let find : Bytes → Option Path := fun name =>
      if name = [0x78] then some "letters"
      else if name = [0x79] then some "list"
      else some "spoiled"
    let files : FileSystem := fun path =>
      .contents (if path = "letters" then List.replicate 256 0x18
        else if path = "list" then encode [[0x7A]] else magic ++ text)
    let report := Font.parse files ⟨none, some (.ofFunction find)⟩ (encode [[0x78], [0x79]])
    let before : List Call :=
      [.resolve [0x78] (some "letters"), .release "letters", .resolve [0x79] (some "list")]
    decode (encode [[], [0x61], [], [0x62]]) = .ok [[0x61], [0x62]] ∧ ¬ ListsNames text ∧
      report.journal.calls.toList = before ++ .resolve [0x7A] (some "spoiled") ::
        [.release "spoiled", .release "list"] ∧
      report.result = .error .trailingGarbage := by
  intro text find files report before
  obtain ⟨_, hWritten, hRefused⟩ := read_or_refused text
  have hText : ¬ ListsNames text := by decide
  have hCalls : report.journal.calls.toList = before ++ .resolve [0x7A] (some "spoiled") ::
      [.release "spoiled", .release "list"] := by decide +kernel
  refine ⟨hWritten [[0x61], [0x62]] _ (by decide) (by decide) rfl, hText, hCalls, ?_⟩
  have hStops : report.StopsAt "spoiled" :=
    ((hRefused hText files ⟨none, some (.ofFunction find)⟩).within "spoiled" rfl).1 _
  exact (hStops before [0x7A] _ hCalls).1

end PartList

end ConsoleFont
