import ConsoleFont.Proofs.Loaded
import ConsoleFont.Proofs.Machine.Formats
import ConsoleFont.Proofs.Machine.PartList
import ConsoleFont.Proofs.ShortReads

/-! # Fonts loaded by checked operations

A load reads data through heads alone, one format after the other, and joins parts by checked sums.
`CheckedLoad.Performs` says that a load comes to no fault, does what another load does, and does not
end in a short read; it has one rule for each way to put loads together.

Main statement: `never_faults`.
-/

namespace ConsoleFont.Machine

/-- A load by checked operations. -/
abbrev CheckedLoad := ExceptT Error (StateT Journal Checked)

namespace CheckedLoad

variable {α β : Type}

def runOn (load : CheckedLoad α) (journal : Journal) : Checked (Except Error α × Journal) :=
  load.run.run journal

def plain (load : LoadM α) : CheckedLoad α :=
  ExceptT.mk fun journal => .ok (load.runOn journal)

def attempt (load : CheckedLoad α) : CheckedLoad (Except Error α) := ExceptT.lift load.run

/-- Runs a step from a head, and leaves it wherever the step goes. -/
def read (step : Step α) (head : Head) : CheckedLoad α := ExceptT.mk fun journal =>
  (step.runOn head).map fun outcome => (outcome.map Prod.fst, journal)

theorem runOn_bind (load : CheckedLoad α) (next : α → CheckedLoad β) (journal : Journal) :
    (load >>= next).runOn journal =
      match load.runOn journal with
      | .ok (.ok a, journal) => (next a).runOn journal
      | .ok (.error error, journal) => .ok (.error error, journal)
      | .error fault => .error fault := by
  simp only [runOn, ExceptT.run_bind, StateT.run_bind]
  rcases load.run.run journal with fault | ⟨error | a, after⟩
  · rfl
  · rfl
  · rfl

/-- The load comes to no fault and does what the other load does, and that does not end in a short
read. -/
def Performs (load : CheckedLoad α) (other : LoadM α) : Prop :=
  ∀ journal, load.runOn journal = .ok (other.runOn journal) ∧
    (other.runOn journal).1 ≠ .error .shortRead

theorem performs_pure (a : α) : (pure a : CheckedLoad α).Performs (pure a) :=
  fun _ => ⟨rfl, nofun⟩

theorem performs_throw {error : Error} (h : error ≠ .shortRead) :
    (throw error : CheckedLoad α).Performs (throw error) :=
  fun _ => ⟨rfl, fun hShort => h (Except.error.inj hShort)⟩

theorem performs_bind {load : CheckedLoad α} {other : LoadM α} {next : α → CheckedLoad β}
    {next' : α → LoadM β} {P : α → Prop} (hLoad : load.Performs other)
    (hEnsures : other.Ensures P) (hNext : ∀ a, P a → (next a).Performs (next' a)) :
    (load >>= next).Performs (other >>= next') := by
  intro journal
  have hRun := hLoad journal
  have hOk := hEnsures journal
  rw [runOn_bind, LoadM.runOn_bind, hRun.1]
  rcases hOther : other.runOn journal with ⟨error | a, after⟩
  · rw [hOther] at hRun
    exact ⟨rfl, fun hShort => hRun.2 (congrArg Except.error (Except.error.inj hShort))⟩
  · rw [hOther] at hOk
    exact hNext a (hOk a rfl) after

theorem performs_plain {load : LoadM α}
    (h : ∀ journal, (load.runOn journal).1 ≠ .error .shortRead) : (plain load).Performs load :=
  fun journal => ⟨rfl, h journal⟩

theorem performs_lift {result : Except Error α} (h : result ≠ .error .shortRead) :
    (liftM result : CheckedLoad α).Performs (liftM result) := by
  cases result with
  | error error => exact performs_throw fun hShort => h (congrArg Except.error hShort)
  | ok a => exact performs_pure a

theorem performs_checked_bind {checked : Checked α} {a : α} {next : α → CheckedLoad β}
    {other : LoadM β} (hChecked : checked = .ok a) (h : (next a).Performs other) :
    (liftM checked >>= next).Performs other := by
  subst hChecked
  exact h

/-- A load that is gone on from where it failed did not fail by a short read. -/
theorem performs_attempt {load : CheckedLoad α} {other : LoadM α}
    {next : Except Error α → CheckedLoad β} {next' : Except Error α → LoadM β}
    (hLoad : load.Performs other)
    (hNext : ∀ result, result ≠ .error .shortRead → (next result).Performs (next' result)) :
    (attempt load >>= next).Performs (LoadM.attempt other >>= next') := by
  intro journal
  have hRun := hLoad journal
  have hAttempt : (attempt load).runOn journal =
      .ok (.ok (other.runOn journal).1, (other.runOn journal).2) := by
    show (load.runOn journal).map _ = _
    rw [hRun.1]
    rfl
  rw [runOn_bind, hAttempt, LoadM.runOn_bind, LoadM.runOn_attempt]
  exact hNext _ hRun.2 _

theorem performs_read {step : Step α} {head : Head} {outcome : Except Error α}
    (h : step.Answers head outcome) (hShort : outcome ≠ .error .shortRead) :
    (read step head).Performs (liftM outcome) := by
  intro journal
  refine ⟨?_, hShort⟩
  show (step.runOn head).map _ = _
  cases h with
  | ok a after b hRun hOutcome _ hEq =>
    rw [hRun, hOutcome, hEq]
    rfl
  | error error hRun hOutcome =>
    rw [hRun, hOutcome]
    rfl

theorem performs_read_bind {step : Step α} {head after : Head} {a : α} {next : α → CheckedLoad β}
    {other : LoadM β} (hRun : step.runOn head = .ok (.ok (a, after)))
    (h : (next a).Performs other) : (read step head >>= next).Performs other := by
  intro journal
  have hRead : (read step head).runOn journal = .ok (.ok a, journal) := by
    show (step.runOn head).map _ = _
    rw [hRun]
    rfl
  rw [runOn_bind, hRead]
  exact h journal

end CheckedLoad

/-! ### Fonts behind fonts -/

def shift (offset : Nat) (entry : Entry) : Checked Entry := do
  let position ← add wordLimit entry.position offset
  return ⟨position, entry.characters⟩

/-- The glyphs and the map of `behind` after those of `front`. A count or a size that is too big is
no fault here but a reason to refuse. -/
def append (front behind : Font) : Checked (Except AppendFailure Font) :=
  if front.toMetrics ≠ behind.toMetrics then .ok (.error ⟨.metricsMismatch, behind⟩)
  else
    match add wordLimit front.glyphCount behind.glyphCount with
    | .error _ => .ok (.error ⟨.lengthTooBig, behind⟩)
    | .ok glyphCount =>
      match mul sizeLimit glyphCount front.glyphSize with
      | .error _ => .ok (.error ⟨.lengthTooBig, behind⟩)
      | .ok _ => do
        let entries ← behind.unicodeMap.mapM (shift front.glyphCount)
        return .ok { front with
          glyphCount
          bitmaps := front.bitmaps ++ behind.bitmaps
          unicodeMap := front.unicodeMap ++ entries }

theorem mapM_eq_ok {α β ε : Type} {f : α → Except ε β} {g : α → β} {list : List α}
    (h : ∀ a ∈ list, f a = .ok (g a)) : list.mapM f = .ok (list.map g) := by
  induction list with
  | nil => rfl
  | cons a list ih =>
    obtain ⟨hHead, hTail⟩ := List.forall_mem_cons.1 h
    rw [List.mapM_cons, hHead, ok_bind, ih hTail, ok_bind, List.map_cons]
    rfl

/-- The positions of a well-formed font stay numbers behind any font that it can be put behind. -/
theorem append_eq {front behind : Font} (h : behind.WellFormed) :
    append front behind = .ok (front.append behind) := by
  rw [Font.append_eq]
  unfold append
  split
  · rfl
  · by_cases hCount : front.glyphCount + behind.glyphCount < wordLimit
    · rw [add_of_lt hCount, if_neg (by unfold glyphCountLimit; omega)]
      simp only
      by_cases hSize : (front.glyphCount + behind.glyphCount) * front.glyphSize < sizeLimit
      · have hEntries : behind.unicodeMap.mapM (shift front.glyphCount) =
            .ok (behind.unicodeMap.map (Entry.shift front.glyphCount)) := by
          refine mapM_eq_ok fun entry hEntry => ?_
          have hLt := h.position_lt entry hEntry
          rw [shift, add_of_lt (by omega), ok_bind]
          rfl
        rw [mul_of_lt hSize, if_neg (show ¬ bitmapsLimit ≤ _ from Nat.not_le.2 hSize), hEntries]
        rfl
      · have hBig := Nat.not_lt.1 hSize
        rw [mul_of_le hBig, if_pos (show bitmapsLimit ≤ _ from hBig)]
    · have hMany := Nat.not_lt.1 hCount
      rw [add_of_le hMany, if_pos (show glyphCountLimit ≤ _ from hMany)]

/-! ### Loaders -/

def allocate (data : Bytes) : Checked Head :=
  if h : data.length < sizeLimit then .ok ⟨⟨data, 0⟩, h, Nat.zero_le _⟩ else .error .outOfMemory

def withFile {α : Type} (resolver : Resolver) (name : Bytes) (load : Path → CheckedLoad α) :
    CheckedLoad α := do
  match ← CheckedLoad.plain (resolver.resolve name) with
  | none => throw (.fontNotFound name)
  | some path =>
    CheckedLoad.plain (LoadM.tell (.partFound name path))
    let result ← CheckedLoad.attempt (load path)
    CheckedLoad.plain (Resolver.release path)
    result

/-- Puts the parts behind the font that is there already, or makes the first one that font. -/
def join (loadPart : Bytes → CheckedLoad Font) : Option Font → List Bytes → CheckedLoad Font
  | none, [] => throw .trailingGarbage
  | some font, [] => return font
  | none, name :: names => do
    let font ← loadPart name
    join loadPart (some font) names
  | some front, name :: names => do
    let part ← loadPart name
    match ← append front part with
    | .ok font => join loadPart (some font) names
    | .error failure => throw failure.error

variable (loader : Loader)

def combined (loadFile : Option (Path → CheckedLoad Font)) (head : Head) : CheckedLoad Font := do
  let names ← CheckedLoad.read Step.partNames head
  match loader.options.resolver, loadFile with
  | none, _ => throw (.unsupported "combined fonts without a font resolver")
  | some _, none => throw .combineTooDeep
  | some resolver, some loadFile =>
    let font ← join (fun name => withFile resolver name loadFile) none names
    return { font with format := .combined }

def headerless (head : Head) : CheckedLoad Font := do
  CheckedLoad.plain (Loader.tellHalf head.remaining)
  CheckedLoad.read (Step.headerless loader.options.targetHeight) head

def decode (loadFile : Option (Path → CheckedLoad Font)) (head : Head) : Format → CheckedLoad Font
  | .psf2 => CheckedLoad.read Step.psf2 head
  | .psf1 => CheckedLoad.read Step.psf1 head
  | .combined => combined loader loadFile head
  | .raw => headerless loader head

def firstOf (decode : Head → Format → CheckedLoad Font) (head : Head) :
    List Format → CheckedLoad Font
  | [] => throw .badMagic
  | format :: formats => do
    let start ← CheckedLoad.read (do Step.seek 0; get) head
    match ← CheckedLoad.attempt (decode start format) with
    | .ok font =>
      CheckedLoad.plain (LoadM.tell (.loaded format font.glyphCount font.width font.height))
      return font
    | .error .badMagic =>
      CheckedLoad.plain (LoadM.tell (.otherFormat format))
      firstOf decode head formats
    | .error error =>
      CheckedLoad.plain (LoadM.tell (.failed format error))
      throw error

def parseData (loadFile : Option (Path → CheckedLoad Font)) (data : Bytes) : CheckedLoad Font := do
  let head ← allocate data
  firstOf (decode loader loadFile) head loader.order

/-- How the parts of a combined font are loaded where `levels` combined fonts, that one included,
may still lie within each other. -/
def loadPart : (levels : Nat) → Option (Path → CheckedLoad Font)
  | 0 => none
  | levels + 1 => some fun path => do
    let data ← CheckedLoad.plain (loader.contents path)
    parseData loader (loadPart levels) data

def report (load : CheckedLoad Font) : Checked Report :=
  (load.runOn .empty).map fun outcome => ⟨outcome.1, outcome.2⟩

def parse (files : FileSystem) (options : Options) (data : Bytes) : Checked Report :=
  let loader : Loader := ⟨files, options, Format.detectionOrder⟩
  report (parseData loader (loadPart loader maxNesting) data)

def load (files : FileSystem) (options : Options) (path : Path) : Checked Report :=
  let loader : Loader := ⟨files, options, Format.detectionOrder⟩
  report do
    let data ← CheckedLoad.plain (loader.contents path)
    parseData loader (loadPart loader maxNesting) data

/-! ### They do what the library does -/

open CheckedLoad LoadM

theorem allocate_of_lt {data : Bytes} (h : data.length < sizeLimit) :
    allocate data = .ok ⟨⟨data, 0⟩, h, Nat.zero_le _⟩ := dif_pos h

theorem performs_withFile {α : Type} {load : Path → CheckedLoad α} {other : Path → LoadM α}
    (hLoad : ∀ path, (load path).Performs (other path)) (resolver : Resolver) (name : Bytes) :
    (withFile resolver name load).Performs (resolver.withFile name other) := by
  refine performs_bind (performs_plain fun _ => nofun) (ensures_true _) fun path _ => ?_
  cases path with
  | none => exact performs_throw nofun
  | some path =>
    refine performs_bind (performs_plain fun _ => nofun) (ensures_true _) fun _ _ => ?_
    refine performs_attempt (hLoad path) fun result hResult => ?_
    exact performs_bind (performs_plain fun _ => nofun) (ensures_true _) fun _ _ =>
      performs_lift hResult

section Join

variable {loadPart : Bytes → CheckedLoad Font} {other : Bytes → LoadM Font}
  (hPart : ∀ name, (loadPart name).Performs (other name))
  (hWell : ∀ name, (other name).Ensures Font.WellFormed)

include hPart hWell

theorem performs_joinBehind (font : Font) (names : List Bytes) :
    (join loadPart (some font) names).Performs (Loader.joinBehind other font names) := by
  induction names generalizing font with
  | nil => exact performs_pure font
  | cons name names ih =>
    refine performs_bind (hPart name) (hWell name) fun part hBehind => ?_
    refine performs_checked_bind (append_eq hBehind) ?_
    cases hAppend : font.append part with
    | ok joined => exact ih joined
    | error failure =>
      refine performs_throw fun hShort => ?_
      rcases Font.append_eq_error hAppend with ⟨_, hError | hError⟩
      · rw [hError] at hShort
        cases hShort
      · rw [hError] at hShort
        cases hShort

theorem performs_join (names : List Bytes) :
    (join loadPart none names).Performs (Loader.join other names) := by
  cases names with
  | nil => exact performs_throw nofun
  | cons name names =>
    exact performs_bind (hPart name) (ensures_true _) fun font _ =>
      performs_joinBehind hPart hWell font names

end Join

/-- Parts are loaded by one loader as by the other one, and give well-formed fonts. -/
inductive PartsPerform :
    Option (Path → CheckedLoad Font) → Option (Path → LoadM Font) → Prop
  | none : PartsPerform none none
  | some {load : Path → CheckedLoad Font} {other : Path → LoadM Font} :
      (∀ path, (load path).Performs (other path)) →
      (∀ path, (other path).Ensures Font.WellFormed) → PartsPerform (some load) (some other)

section Loader

variable {loadFile : Option (Path → CheckedLoad Font)}
  {other : Option (Path → LoadM Font)} (hParts : PartsPerform loadFile other)
  {head : Head} (hStart : head.position = 0)

include hParts hStart

theorem performs_combined (loader : Loader) :
    (combined loader loadFile head).Performs (loader.combined other head.data) := by
  refine performs_bind (performs_read (Step.answers_partNames hStart)
    (PartList.decode_ne_shortRead _)) (ensures_true _) fun names _ => ?_
  cases hResolver : loader.options.resolver with
  | none => exact performs_throw nofun
  | some resolver =>
    cases hParts with
    | none => exact performs_throw nofun
    | some hLoad hWell =>
      refine performs_bind (performs_join (fun name => performs_withFile hLoad resolver name)
        (fun name => resolver.ensures_withFile name hWell) names) (ensures_true _) fun font _ => ?_
      exact performs_pure _

theorem performs_decode (loader : Loader) (format : Format) :
    (decode loader loadFile head format).Performs (loader.decode other head.data format) := by
  cases format with
  | psf2 => exact performs_read (Step.answers_psf2 hStart) (Psf2.decode_ne_shortRead _)
  | psf1 => exact performs_read (Step.answers_psf1 hStart) (Psf1.decode_ne_shortRead _)
  | combined => exact performs_combined hParts hStart loader
  | raw =>
    have hLeft : head.remaining = head.data.length := by
      rw [← head.length_rest, head.rest_eq_data hStart]
    rw [decode, headerless, hLeft]
    refine performs_bind (performs_plain fun journal => ?_) (ensures_true _) fun _ _ => ?_
    · rw [Loader.tellHalf]
      split <;> nofun
    · exact performs_read (Step.answers_headerless hStart _) (Headerless.decode_ne_shortRead _ _)

end Loader

theorem runOn_seek_start (head : Head) :
    (do Step.seek 0; get : Step Head).runOn head =
      .ok (.ok (head.movedTo 0 (Nat.zero_le _), head.movedTo 0 (Nat.zero_le _))) := by
  rw [Step.runOn_bind, Step.runOn_seek (Nat.zero_le _)]
  rfl

theorem performs_firstOf {decode : Head → Format → CheckedLoad Font}
    {other : Format → LoadM Font} {data : Bytes}
    (hDecode : ∀ start : Head, start.data = data → start.position = 0 →
      ∀ format, (decode start format).Performs (other format))
    {head : Head} (hData : head.data = data) (formats : List Format) :
    (firstOf decode head formats).Performs (Loader.firstOf other formats) := by
  induction formats with
  | nil => exact performs_throw nofun
  | cons format formats ih =>
    refine performs_read_bind (runOn_seek_start head) ?_
    have hFirst := hDecode (head.movedTo 0 (Nat.zero_le _)) hData rfl format
    refine performs_attempt hFirst fun result hResult => ?_
    have hTold : ∀ notice, (plain (LoadM.tell notice)).Performs (LoadM.tell notice) :=
      fun notice => performs_plain fun _ => nofun
    -- only data of another format is left to the next one
    match result with
    | .ok font => exact performs_bind (hTold _) (ensures_true _) fun _ _ => performs_pure font
    | .error error =>
      cases error
      case badMagic => exact performs_bind (hTold _) (ensures_true _) fun _ _ => ih
      all_goals
        exact performs_bind (hTold _) (ensures_true _) fun _ _ =>
          performs_throw fun hShort => hResult (congrArg Except.error hShort)

theorem performs_parseData {loader : Loader} {loadFile : Option (Path → CheckedLoad Font)}
    {other : Option (Path → LoadM Font)} (hParts : PartsPerform loadFile other) {data : Bytes}
    (h : data.length < sizeLimit) :
    (parseData loader loadFile data).Performs (loader.parse other data) := by
  refine performs_checked_bind (allocate_of_lt h) ?_
  refine performs_firstOf (fun start hData hStart format => ?_) rfl loader.order
  have hDecode := performs_decode hParts hStart loader format
  rw [hData] at hDecode
  exact hDecode

theorem performs_contents (loader : Loader) (path : Path) :
    (plain (loader.contents path)).Performs (loader.contents path) := by
  refine performs_plain fun journal => ?_
  rw [Loader.contents]
  split <;> nofun

section Files

variable {loader : Loader}
  (hFiles : ∀ path data, loader.files path = .contents data → data.length < sizeLimit)

include hFiles

theorem ensures_contents (path : Path) :
    (loader.contents path).Ensures fun data => data.length < sizeLimit := by
  rw [Loader.contents]
  split
  · exact ensures_throw _
  · exact ensures_throw _
  · rename_i data hContents
    exact ensures_bind (ensures_true _) fun _ _ => ensures_pure (hFiles path data hContents)

theorem partsPerform_loadPart (levels : Nat) :
    PartsPerform (loadPart loader levels) (loader.loadPart levels) := by
  induction levels with
  | zero => exact .none
  | succ levels ih =>
    refine .some (fun path => ?_) fun path => ?_
    · exact performs_bind (performs_contents loader path) (ensures_contents hFiles path)
        fun data hLength => performs_parseData ih hLength
    · exact Font.invariant_wellFormed.loader_loadPart loader (levels + 1) _ rfl path

end Files

theorem report_eq {load : CheckedLoad Font} {other : LoadM Font} (h : load.Performs other) :
    report load = .ok (Report.ofLoad other) ∧
      (Report.ofLoad other).result ≠ .error .shortRead := by
  obtain ⟨hRun, hShort⟩ := h .empty
  refine ⟨?_, hShort⟩
  rw [report, hRun]
  rfl

/-- **No input reaches an unchecked operation.** Whatever the data, the options and the files are,
as long as a size can tell their lengths: a font is parsed and loaded by checked operations as it is
without the checks, so that none of them ever finds a fault, and no short read comes of it. -/
theorem never_faults (files : FileSystem) (options : Options)
    (hFiles : ∀ path data, files path = .contents data → data.length < sizeLimit) :
    (∀ data : Bytes, data.length < sizeLimit →
      parse files options data = .ok (Font.parse files options data) ∧
        (Font.parse files options data).result ≠ .error .shortRead) ∧
    ∀ path,
      load files options path = .ok (Font.load files options path) ∧
        (Font.load files options path).result ≠ .error .shortRead := by
  let loader : Loader := ⟨files, options, Format.detectionOrder⟩
  have hParts : PartsPerform (loadPart loader maxNesting) (loader.loadPart maxNesting) :=
    partsPerform_loadPart hFiles maxNesting
  refine ⟨fun data hLength => ?_, fun path => ?_⟩
  · exact report_eq (performs_parseData hParts hLength)
  · exact report_eq (performs_bind (performs_contents loader path) (ensures_contents hFiles path)
      fun data hLength => performs_parseData hParts hLength)

/-- A list of a letter and of a list with the letter in it. -/
theorem never_faults_nested_list :
    let letter : Font := ⟨⟨8, 1, 1⟩, .psf2, 1, [0x18], [⟨0, ['A']⟩]⟩
    let letters : Font := ⟨⟨8, 1, 1⟩, .combined, 2, [0x18, 0x18], [⟨0, ['A']⟩, ⟨1, ['A']⟩]⟩
    let find : Bytes → Option Path :=
      fun name => if name = [0x61] then some "list" else some "letter"
    let files : FileSystem := fun path =>
      .contents (if path = "list" then PartList.encode [[0x62]] else Psf2.encode letter)
    let options : Options := ⟨none, some (.ofFunction find)⟩
    let data := PartList.encode [[0x62], [0x61]]
    (∀ path data, files path = .contents data → data.length < sizeLimit) ∧
      data.length < sizeLimit ∧
      (parse files options data).map Report.result = .ok (.ok letters) ∧
      (load files options "letter").map Report.result = .ok (.ok letter) := by
  intro letter letters find files options data
  have hFiles : ∀ path data, files path = .contents data → data.length < sizeLimit := by
    rintro path data ⟨⟩
    split
    · decide
    · decide
  have hLength : data.length < sizeLimit := by decide
  have hNever := never_faults files options hFiles
  have hParse : (Font.parse files options data).result = .ok letters :=
    eq_ok_of_toOption (by decide +kernel)
  have hLoad : (Font.load files options "letter").result = .ok letter :=
    eq_ok_of_toOption (by decide +kernel)
  refine ⟨hFiles, hLength, ?_, ?_⟩
  · rw [(hNever.1 data hLength).1, Except.map, hParse]
  · rw [(hNever.2 "letter").1, Except.map, hLoad]

end ConsoleFont.Machine
