import ConsoleFont.Proofs.Brackets
import ConsoleFont.Proofs.Calls
import ConsoleFont.Proofs.Detection

/-! # What a load asks of the resolver

A load opens a bracket for each path that it finds, loads the file of that path within it, and
closes it when that is done or has failed. `LoadM.Nests` says so of a load that may put up to
`levels` brackets within each other, with one rule for each operator, and `Loader.nests_parse` of
all loads of this library. What stands in a bracket is what loading its path asks for at that time
(`Loader.Loads`).

Main statement: `Font.orderly_calls`.
-/

namespace ConsoleFont

/-- How a load ends that made these calls behind those in `before`: where a name was not found, that
is what it fails for. -/
inductive Ends (Loads : Loading) (levels : Nat) {α : Type} (before : List Call) :
    List Call → Except Error α → Prop
  | found {calls : List Call} (result : Except Error α) : Nested Loads levels before true calls →
      Ends Loads levels before calls result
  | notFound {calls : List Call} (name : Bytes) : Nested Loads levels before false calls →
      Ends Loads levels before calls (.error (.fontNotFound name))

namespace Ends

variable {Loads : Loading} {levels : Nat} {α : Type} {before calls : List Call}
  {result : Except Error α}

theorem nested (h : Ends Loads levels before calls result)
    (hNe : ∀ name, result ≠ .error (.fontNotFound name)) :
    Nested Loads levels before true calls := by
  cases h with
  | found _ hNested => exact hNested
  | notFound name _ => exact absurd rfl (hNe name)

theorem orderly (h : Ends Loads levels [] calls result) : Orderly Loads levels calls := by
  cases h with
  | found _ hNested => exact hNested.orderly
  | notFound _ hNested => exact hNested.orderly

theorem callRule (Loads : Loading) (levels : Nat) : CallRule fun _ => Ends Loads levels where
  nil before result := .found result (.nil levels before)
  of_error h := by
    cases h with
    | found _ hNested => exact .found _ hNested
    | notFound name hNested => exact .notFound name hNested
  append {_ _ _ _ _ first _} h hFirst hMore := by
    have hCalls := h.nested fun name hName => nomatch hFirst _ hName
    cases hMore with
    | found _ hNested => exact .found _ (hCalls.append hNested)
    | notFound name hNested => exact .notFound name (hCalls.append hNested)

theorem bracket {name : Bytes} {path : Path}
    (h : Ends Loads levels (before ++ [.resolve name (some path)]) calls result)
    (hLoads : Loads levels (before ++ [.resolve name (some path)]) path calls) :
    Ends Loads (levels + 1) before (.resolve name (some path) :: (calls ++ [.release path]))
      result := by
  cases h with
  | found _ hNested => exact .found _ (.cons name path hLoads hNested (.nil _ _))
  | notFound other hNested => exact .notFound other (.within name path hLoads hNested)

end Ends

open LoadM

namespace Loader

variable (loader : Loader)

/-- Behind the calls `before`, whatever was told by then, loading from the path calls `inner`. -/
def Loads (levels : Nat) (before : List Call) (path : Path) (inner : List Call) : Prop :=
  ∀ notices, ((loader.loadPath levels path).runOn ⟨before.toArray, notices⟩).2.calls.toList =
    before ++ inner

/-- A load has one outcome, and its notices are no part of that. -/
theorem loads_of_runOn {levels : Nat} {path : Path} {journal : Journal} {inner : List Call}
    (h : ((loader.loadPath levels path).runOn journal).2.calls.toList =
      journal.calls.toList ++ inner) :
    loader.Loads levels journal.calls.toList path inner := by
  intro notices
  have hQuiet := loader.quiet_loadPath levels path
  have hSame := (hQuiet ⟨journal.calls, notices⟩).trans (hQuiet journal).symm
  rw [Array.toArray_toList, (Prod.mk.inj hSame).2, h]

end Loader

namespace LoadM

variable {α β : Type} {loader : Loader} {levels : Nat}

/-- Whatever was asked before, the load puts up to `levels` brackets within each other, and within
each of them the file of its path is loaded. -/
def Nests (loader : Loader) (levels : Nat) (load : LoadM α) : Prop :=
  load.Obeys (Ends loader.Loads levels)

theorem nests_bind {load : LoadM α} {next : α → LoadM β} (hLoad : load.Nests loader levels)
    (hNext : ∀ a, (next a).Nests loader levels) : (load >>= next).Nests loader levels :=
  (Ends.callRule loader.Loads levels).bind hLoad hNext

end LoadM

namespace Loader

variable (loader : Loader) {levels : Nat}

theorem nests_part (resolver : Resolver) (name : Bytes)
    (h : ∀ path, (loader.loadPath levels path).Nests loader levels) :
    (loader.part resolver levels name).Nests loader (levels + 1) := by
  have hLoad (path : Path) : (loader.loadPath levels path).Obeys fun before inner result =>
      Ends loader.Loads levels before inner result ∧ loader.Loads levels before path inner := by
    intro journal
    obtain ⟨calls, hCalls, hEnds⟩ := h path journal
    exact ⟨calls, hCalls, hEnds, loader.loads_of_runOn hCalls⟩
  refine resolver.obeys_withFile name (fun before => ?_) hLoad ?_
  · exact .notFound name (.notFound levels before name)
  · rintro before path inner result ⟨hEnds, hLoads⟩
    exact hEnds.bracket hLoads

def NestsFile (levels : Nat) (loadFile : Option (Path → LoadM Font)) : Prop :=
  ∀ load ∈ loadFile, ∀ (resolver : Resolver) name,
    (resolver.withFile name load).Nests loader levels

theorem nests_parse {loadFile : Option (Path → LoadM Font)}
    (hFile : loader.NestsFile levels loadFile) (data : Bytes) :
    (loader.parse loadFile data).Nests loader levels :=
  (Ends.callRule loader.Loads levels).parse loader hFile data

theorem nests_contents (path : Path) : (loader.contents path).Nests loader levels :=
  (Ends.callRule loader.Loads levels).contents loader path

theorem nestsFile_loadPart (levels : Nat) : loader.NestsFile levels (loader.loadPart levels) := by
  induction levels with
  | zero => nofun
  | succ levels ih =>
    rintro load ⟨⟩ resolver name
    -- the parts that are loaded within this one have a level less
    refine loader.nests_part resolver name fun path => ?_
    exact nests_bind (loader.nests_contents path) fun data => loader.nests_parse ih data

end Loader

theorem LoadM.Nests.orderly {loader : Loader} {levels : Nat} {load : LoadM Font}
    (h : load.Nests loader levels) :
    Orderly loader.Loads levels (Report.ofLoad load).journal.calls.toList := by
  obtain ⟨calls, hCalls, hEnds⟩ := h .empty
  have hAll : (Report.ofLoad load).journal.calls.toList = calls := hCalls
  rw [hAll]
  exact hEnds.orderly

/-- **The calls of every load are in order**, from data in memory and from a file, whatever comes of
it. A path is released behind the calls that loading it makes, and behind nothing else. -/
theorem Font.orderly_calls (files : FileSystem) (options : Options) :
    let loader := Loader.standard files options
    (∀ data, Orderly loader.Loads maxNesting
      (Font.parse files options data).journal.calls.toList) ∧
    ∀ path, Orderly loader.Loads maxNesting
      (Font.load files options path).journal.calls.toList := by
  intro loader
  have hParse (data : Bytes) : (loader.parseWhole data).Nests loader maxNesting :=
    loader.nests_parse (loader.nestsFile_loadPart maxNesting) data
  refine ⟨fun data => (hParse data).orderly, fun path => ?_⟩
  have hLoad : (loader.loadWhole path).Nests loader maxNesting :=
    nests_bind (loader.nests_contents path) hParse
  exact hLoad.orderly

end ConsoleFont
