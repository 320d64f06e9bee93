import ConsoleFont.Loading.Load

/-! # How the calls of a load bear on its end

What is said of the calls that a load makes, of those made before it and of what comes of it is
carried from step to step, as long as it holds of no calls at all and two loads behind each other
keep it (`CallRule`). Only looking a name up is left to be shown for each such rule.

Main statements: `CallRule.combined`, `CallRule.firstOf` and `CallRule.parse`.
-/

namespace ConsoleFont

/-- A relation between the calls before a load, its own calls and what comes of it that can be
followed step by step. -/
structure CallRule (R : ∀ α : Type, List Call → List Call → Except Error α → Prop) : Prop where
  nil : ∀ {α : Type} (before : List Call) (result : Except Error α), R α before [] result
  /-- A load that failed may be part of another that fails the same way. -/
  of_error : ∀ {α β : Type} {before calls : List Call} {error : Error},
    R α before calls (.error error) → R β before calls (.error error)
  /-- Another load follows one that succeeded, and one that found no font it can read. -/
  append : ∀ {α β : Type} {before calls more : List Call} {first : Except Error α}
    {result : Except Error β}, R α before calls first →
    (∀ error, first = .error error → error = .badMagic) → R β (before ++ calls) more result →
    R β before (calls ++ more) result

namespace LoadM

variable {α : Type} {R : List Call → List Call → Except Error α → Prop}

/-- Whatever was asked before, that and the calls of the load and what comes of it are related. -/
def Obeys (R : List Call → List Call → Except Error α → Prop) (load : LoadM α) : Prop :=
  ∀ journal, ∃ calls, (load.runOn journal).2.calls.toList = journal.calls.toList ++ calls ∧
    R journal.calls.toList calls (load.runOn journal).1

theorem Obeys.mono {S : List Call → List Call → Except Error α → Prop} {load : LoadM α}
    (h : load.Obeys R)
    (hRS : ∀ before calls result, R before calls result → S before calls result) :
    load.Obeys S := by
  intro journal
  obtain ⟨calls, hCalls, hR⟩ := h journal
  exact ⟨calls, hCalls, hRS _ _ _ hR⟩

end LoadM

open LoadM

theorem Resolver.obeys_withFile {α : Type} {R : List Call → List Call → Except Error α → Prop}
    {S : Path → List Call → List Call → Except Error α → Prop} {load : Path → LoadM α}
    (resolver : Resolver) (name : Bytes)
    (hNotFound : ∀ before, R before [.resolve name none] (.error (.fontNotFound name)))
    (hLoad : ∀ path, (load path).Obeys (S path))
    (hFound : ∀ before path inner result,
      S path (before ++ [.resolve name (some path)]) inner result →
      R before (.resolve name (some path) :: (inner ++ [.release path])) result) :
    (resolver.withFile name load).Obeys R := by
  intro journal
  rw [runOn_withFile]
  cases resolver journal.calls name with
  | none =>
    refine ⟨[.resolve name none], ?_, hNotFound _⟩
    rw [Array.toList_push]
  | some path =>
    obtain ⟨inner, hInner, hS⟩ := hLoad path
      ⟨journal.calls.push (.resolve name (some path)), journal.notices.push (.partFound name path)⟩
    simp only [Array.toList_push] at hInner hS
    refine ⟨.resolve name (some path) :: (inner ++ [.release path]), ?_, hFound _ _ _ _ hS⟩
    simp only
    rw [Array.toList_push, hInner, List.append_assoc, List.append_assoc, List.singleton_append]

namespace CallRule

variable {R : ∀ α : Type, List Call → List Call → Except Error α → Prop} (hR : CallRule R)
  {α β : Type}

include hR

/-! ### Operators -/

theorem of_calls_eq {load : LoadM α} (h : ∀ journal, (load.runOn journal).2.calls = journal.calls) :
    load.Obeys (R α) := by
  intro journal
  exact ⟨[], by rw [h, List.append_nil], hR.nil _ _⟩

theorem pure (a : α) : (pure a : LoadM α).Obeys (R α) := hR.of_calls_eq fun _ => rfl

theorem throw (error : Error) : (throw error : LoadM α).Obeys (R α) := hR.of_calls_eq fun _ => rfl

theorem lift (result : Except Error α) : (liftM result : LoadM α).Obeys (R α) :=
  hR.of_calls_eq fun _ => rfl

theorem tell (notice : Notice) : (tell notice).Obeys (R Unit) := hR.of_calls_eq fun _ => rfl

theorem bind {load : LoadM α} {next : α → LoadM β} (hLoad : load.Obeys (R α))
    (hNext : ∀ a, (next a).Obeys (R β)) : (load >>= next).Obeys (R β) := by
  intro journal
  have hRun := hLoad journal
  rw [runOn_bind]
  generalize load.runOn journal = outcome at hRun ⊢
  obtain ⟨result, after⟩ := outcome
  obtain ⟨calls, hCalls, hResult⟩ := hRun
  cases result with
  | error error => exact ⟨calls, hCalls, hR.of_error hResult⟩
  | ok a =>
    obtain ⟨more, hMore, hMoreResult⟩ := hNext a after
    simp only at hCalls ⊢
    rw [hCalls] at hMore hMoreResult
    refine ⟨calls ++ more, ?_, hR.append hResult (fun _ hError => nomatch hError) hMoreResult⟩
    rw [hMore, List.append_assoc]

/-! ### Loads of fonts -/

theorem joinBehind {loadPart : Bytes → LoadM Font} (h : ∀ name, (loadPart name).Obeys (R Font))
    (names : List Bytes) (font : Font) :
    (Loader.joinBehind loadPart font names).Obeys (R Font) := by
  induction names generalizing font with
  | nil => exact hR.pure font
  | cons name names ih =>
    refine hR.bind (h name) fun part => ?_
    cases font.append part with
    | ok joined => exact ih joined
    | error failure => exact hR.throw _

theorem join {loadPart : Bytes → LoadM Font} (h : ∀ name, (loadPart name).Obeys (R Font))
    (names : List Bytes) : (Loader.join loadPart names).Obeys (R Font) := by
  cases names with
  | nil => exact hR.throw _
  | cons name names => exact hR.bind (h name) fun font => hR.joinBehind h names font

theorem firstOf {decode : Format → LoadM Font} (h : ∀ format, (decode format).Obeys (R Font))
    (formats : List Format) : (Loader.firstOf decode formats).Obeys (R Font) := by
  induction formats with
  | nil => exact hR.throw _
  | cons format formats ih =>
    intro journal
    have hRun := h format journal
    rw [Loader.runOn_firstOf_cons]
    generalize (decode format).runOn journal = outcome at hRun ⊢
    obtain ⟨calls, hCalls, hResult⟩ := hRun
    split
    · exact ⟨calls, hCalls, hResult⟩
    · rename_i after
      obtain ⟨more, hMore, hMoreResult⟩ :=
        ih ⟨after.calls, after.notices.push (.otherFormat format)⟩
      simp only at hCalls hMore hMoreResult
      rw [hCalls] at hMore hMoreResult
      refine ⟨calls ++ more, ?_,
        hR.append hResult (fun _ hError => (Except.error.inj hError).symm) hMoreResult⟩
      rw [hMore, List.append_assoc]
    · exact ⟨calls, hCalls, hResult⟩

variable (loader : Loader)

theorem contents (path : Path) : (loader.contents path).Obeys (R Bytes) := by
  rw [Loader.contents]
  split
  · exact hR.throw _
  · exact hR.throw _
  · exact hR.bind (hR.tell _) fun _ => hR.pure _

theorem headerless (data : Bytes) : (loader.headerless data).Obeys (R Font) := by
  refine hR.bind ?_ fun _ => hR.lift _
  rw [Loader.tellHalf]
  split
  · exact hR.tell _
  · exact hR.pure ()

section File

variable {loadFile : Option (Path → LoadM Font)}
  (hFile : ∀ load ∈ loadFile, ∀ (resolver : Resolver) name,
    (resolver.withFile name load).Obeys (R Font))

include hFile

theorem combined (data : Bytes) : (loader.combined loadFile data).Obeys (R Font) := by
  refine hR.bind (hR.lift _) fun names => ?_
  split
  · exact hR.throw _
  · exact hR.throw _
  · rename_i resolver load _
    exact hR.bind (hR.join (hFile load rfl resolver) names) fun font => hR.pure _

theorem parse (data : Bytes) : (loader.parse loadFile data).Obeys (R Font) := by
  refine hR.firstOf (fun format => ?_) loader.order
  cases format with
  | psf2 => exact hR.lift _
  | psf1 => exact hR.lift _
  | combined => exact hR.combined loader hFile data
  | raw => exact hR.headerless loader data

end File

end CallRule

end ConsoleFont
