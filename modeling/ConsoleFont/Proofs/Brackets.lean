import Mathlib.Data.List.Basic
import ConsoleFont.Loading.Journal

/-! # Calls in brackets

A path that a name led to opens a bracket, and its release closes it. `Bracketed` says that all
brackets match, and `unreleased?` keeps the paths that are still open. `Nested` counts how deep the
brackets lie within each other, stops where a name leads to nothing, and knows what is within a
bracket: the calls of a load from its path, made behind all calls before.

Main statement: `Nested.orderly`, what follows for each single call.
-/

namespace ConsoleFont

/-- Every path that is found is released again, and the calls in between are bracketed as well.
Where nothing is found, there is nothing to release. -/
inductive Bracketed : List Call → Prop
  | nil : Bracketed []
  | notFound (name : Bytes) {behind : List Call} : Bracketed behind →
      Bracketed (.resolve name none :: behind)
  | found (name : Bytes) (path : Path) {inner behind : List Call} : Bracketed inner →
      Bracketed behind → Bracketed (.resolve name (some path) :: (inner ++ .release path :: behind))

/-- The paths that are still to be released behind the calls, newest first, if those in `opened` are
before. Nothing if a path is released that is not the newest. -/
def unreleased? : (opened : List Path) → List Call → Option (List Path)
  | opened, [] => some opened
  | opened, .resolve _ none :: calls => unreleased? opened calls
  | opened, .resolve _ (some path) :: calls => unreleased? (path :: opened) calls
  | [], .release _ :: _ => none
  | newest :: opened, .release path :: calls =>
    if newest = path then unreleased? opened calls else none

/-- What a load from a path calls. `Loads levels before path inner` says that it calls `inner`
behind the calls `before`, where `levels` brackets may lie within its own. -/
abbrev Loading := (levels : Nat) → (before : List Call) → Path → (inner : List Call) → Prop

/-- What is to be had from the resolver calls of a load. -/
structure Orderly (Loads : Loading) (limit : Nat) (calls : List Call) : Prop where
  bracketed : Bracketed calls
  released : ∀ front name path behind, calls = front ++ .resolve name (some path) :: behind →
    ∃! inner, Bracketed inner ∧ inner ++ [.release path] <+: behind
  /-- Between a path and its release are the calls of loading it, no less and no more. The paths
  that are open before it count against the limit. -/
  loaded : ∀ front name path inner behind,
    calls = front ++ .resolve name (some path) :: (inner ++ .release path :: behind) →
    Bracketed inner → ∃ opened levels, unreleased? [] front = some opened ∧
      limit = opened.length + 1 + levels ∧
      Loads levels (front ++ [.resolve name (some path)]) path inner
  resolved : ∀ front path behind, calls = front ++ .release path :: behind →
    ∃ before name inner, front = before ++ .resolve name (some path) :: inner ∧ Bracketed inner
  unreleased_le : ∀ front, front <+: calls →
    ∃ opened, unreleased? [] front = some opened ∧ opened.length ≤ limit
  /-- Where nothing is found, the paths that are still open are released and that is all. -/
  notFound_last : ∀ front name behind, calls = front ++ .resolve name none :: behind →
    ∃ opened, unreleased? [] front = some opened ∧ behind = opened.map .release

theorem split_append {α : Type} {front behind first second : List α} {a : α}
    (h : first ++ second = front ++ a :: behind) :
    (∃ between, first = front ++ a :: between ∧ behind = between ++ second) ∨
      ∃ between, front = first ++ between ∧ second = between ++ a :: behind := by
  rcases List.append_eq_append_iff.1 h with ⟨between, hFront, hSecond⟩ | ⟨between, hFirst, hBehind⟩
  · exact .inr ⟨between, hFront, hSecond⟩
  · cases between with
    | nil =>
      rw [List.append_nil] at hFirst
      exact .inr ⟨[], by rw [List.append_nil, hFirst], hBehind.symm⟩
    | cons b between =>
      cases hBehind
      exact .inl ⟨between, hFirst, rfl⟩

/-- The places that a call can have in a bracket or behind it. -/
inductive Placed (opening closing : Call) (inner rest : List Call) :
    (front : List Call) → (call : Call) → (behind : List Call) → Prop
  | opening : Placed opening closing inner rest [] opening (inner ++ closing :: rest)
  | inside {front between : List Call} {call : Call} : inner = front ++ call :: between →
      Placed opening closing inner rest (opening :: front) call (between ++ closing :: rest)
  | closing : Placed opening closing inner rest (opening :: inner) closing rest
  | behind {front behind : List Call} {call : Call} : rest = front ++ call :: behind →
      Placed opening closing inner rest (opening :: (inner ++ closing :: front)) call behind

theorem placed_of_eq {opening closing call : Call} {inner rest front behind : List Call}
    (h : opening :: (inner ++ closing :: rest) = front ++ call :: behind) :
    Placed opening closing inner rest front call behind := by
  cases front with
  | nil =>
    cases h
    exact .opening
  | cons first front =>
    obtain ⟨rfl, hTail⟩ := List.cons.inj h
    rcases split_append hTail with ⟨between, hInner, rfl⟩ | ⟨between, rfl, hRest⟩
    · exact .inside hInner
    · cases between with
      | nil =>
        cases hRest
        rw [List.append_nil]
        exact .closing
      | cons other between =>
        obtain ⟨rfl, hBehind⟩ := List.cons.inj hRest
        exact .behind hBehind

/-! ### Matching brackets -/

theorem unreleased?_append (opened : List Path) (front behind : List Call) :
    unreleased? opened (front ++ behind) =
      (unreleased? opened front).bind fun opened => unreleased? opened behind := by
  fun_induction unreleased? opened front with
  | case1 opened => rfl
  | case2 opened name calls ih => exact ih
  | case3 opened name path calls ih => exact ih
  | case4 path calls => rfl
  | case5 opened path calls ih => exact (if_pos rfl).trans ih
  | case6 newest opened path calls hNe => exact if_neg hNe

theorem unreleased?_release (opened : List Path) (path : Path) (calls : List Call) :
    unreleased? (path :: opened) (.release path :: calls) = unreleased? opened calls :=
  if_pos rfl

namespace Bracketed

variable {calls front behind inner inner' : List Call} {name : Bytes} {path : Path}

theorem unreleased?_eq (h : Bracketed calls) (opened : List Path) :
    unreleased? opened calls = some opened := by
  induction h generalizing opened with
  | nil => rfl
  | notFound name _ ih => exact ih opened
  | found name path _ _ ihInner ihBehind =>
    rw [unreleased?, unreleased?_append, ihInner, Option.bind_some, unreleased?_release, ihBehind]

theorem exists_release (h : Bracketed calls)
    (hCalls : calls = front ++ .resolve name (some path) :: behind) :
    ∃ inner, Bracketed inner ∧ inner ++ [.release path] <+: behind := by
  induction h generalizing front behind with
  | nil => simp at hCalls
  | notFound other _ ih =>
    cases front with
    | nil => cases hCalls
    | cons call front => exact ih (List.cons.inj hCalls).2
  | @found other path' inner rest hInner _ ihInner ihBehind =>
    cases placed_of_eq hCalls with
    | opening => exact ⟨inner, hInner, rest, by rw [List.append_assoc, List.singleton_append]⟩
    | inside hFront =>
      obtain ⟨matching, hMatching, hPrefix⟩ := ihInner hFront
      exact ⟨matching, hMatching, hPrefix.trans (List.prefix_append ..)⟩
    | behind hRest => exact ihBehind hRest

theorem exists_resolve (h : Bracketed calls)
    (hCalls : calls = front ++ .release path :: behind) :
    ∃ before name inner, front = before ++ .resolve name (some path) :: inner ∧
      Bracketed inner := by
  induction h generalizing front behind with
  | nil => simp at hCalls
  | notFound other _ ih =>
    cases front with
    | nil => cases hCalls
    | cons call front =>
      obtain ⟨before, name, inner, rfl, hInner⟩ := ih (List.cons.inj hCalls).2
      exact ⟨call :: before, name, inner, rfl, hInner⟩
  | @found other path' matching rest hMatching _ ihInner ihBehind =>
    cases placed_of_eq hCalls with
    | inside hFront =>
      obtain ⟨before, name, inner, rfl, hInner⟩ := ihInner hFront
      exact ⟨.resolve other (some path') :: before, name, inner, rfl, hInner⟩
    | closing => exact ⟨[], other, matching, rfl, hMatching⟩
    | behind hRest =>
      obtain ⟨before, name, inner, rfl, hInner⟩ := ihBehind hRest
      refine ⟨.resolve other (some path') :: (matching ++ .release path' :: before), name, inner,
        ?_, hInner⟩
      rw [List.cons_append, List.append_assoc, List.cons_append]

theorem not_release_prefix (h : Bracketed calls) (hInner : Bracketed inner) :
    ¬ inner ++ [.release path] <+: calls := by
  rintro ⟨rest, rfl⟩
  have hNone : unreleased? [] (inner ++ [.release path] ++ rest) = none := by
    rw [List.append_assoc, unreleased?_append, hInner.unreleased?_eq]
    rfl
  rw [h.unreleased?_eq] at hNone
  cases hNone

theorem eq_of_release (h : Bracketed inner) (h' : Bracketed inner')
    (hRelease : inner ++ [.release path] <+: behind)
    (hRelease' : inner' ++ [.release path] <+: behind) : inner = inner' := by
  rcases List.prefix_or_prefix_of_prefix hRelease hRelease' with hPrefix | hPrefix
  · rcases List.prefix_concat_iff.1 hPrefix with hSame | hWithin
    · exact List.append_cancel_right hSame
    · exact absurd hWithin (h'.not_release_prefix h)
  · rcases List.prefix_concat_iff.1 hPrefix with hSame | hWithin
    · exact (List.append_cancel_right hSame).symm
    · exact absurd hWithin (h.not_release_prefix h')

end Bracketed

/-! ### Brackets of limited depth -/

/-- Calls behind those in `before`, with no more than `levels` brackets within each other. If not
all names were `found`, the last one was not, and then nothing but releases follow. -/
inductive Nested (Loads : Loading) : (levels : Nat) → (before : List Call) → (found : Bool) →
    List Call → Prop
  | nil (levels : Nat) (before : List Call) : Nested Loads levels before true []
  | notFound (levels : Nat) (before : List Call) (name : Bytes) :
      Nested Loads (levels + 1) before false [.resolve name none]
  | within {levels : Nat} {before inner : List Call} (name : Bytes) (path : Path) :
      Loads levels (before ++ [.resolve name (some path)]) path inner →
      Nested Loads levels (before ++ [.resolve name (some path)]) false inner →
      Nested Loads (levels + 1) before false
        (.resolve name (some path) :: (inner ++ [.release path]))
  | cons {levels : Nat} {before inner behind : List Call} {found : Bool} (name : Bytes)
      (path : Path) : Loads levels (before ++ [.resolve name (some path)]) path inner →
      Nested Loads levels (before ++ [.resolve name (some path)]) true inner →
      Nested Loads (levels + 1) (before ++ .resolve name (some path) :: (inner ++ [.release path]))
        found behind →
      Nested Loads (levels + 1) before found
        (.resolve name (some path) :: (inner ++ .release path :: behind))

namespace Nested

variable {Loads : Loading} {levels : Nat} {found : Bool} {before calls front behind : List Call}

theorem append (hFront : Nested Loads levels before true front)
    (hBehind : Nested Loads levels (before ++ front) found behind) :
    Nested Loads levels before found (front ++ behind) := by
  -- only calls that found all their names have others behind them
  generalize hAll : true = all at hFront
  induction hFront with
  | nil => rwa [List.append_nil] at hBehind
  | notFound => cases hAll
  | within => cases hAll
  | @cons levels before inner rest _ name path hLoads hInner _ _ ih =>
    subst hAll
    have hCalls : before ++ .resolve name (some path) :: (inner ++ .release path :: rest) =
        before ++ .resolve name (some path) :: (inner ++ [.release path]) ++ rest := by simp
    rw [hCalls] at hBehind
    rw [List.cons_append, List.append_assoc, List.cons_append]
    exact .cons name path hLoads hInner (ih hBehind rfl)

theorem bracketed (h : Nested Loads levels before found calls) : Bracketed calls := by
  induction h with
  | nil => exact .nil
  | notFound levels before name => exact .notFound name .nil
  | within name path _ _ ih => exact .found name path ih .nil
  | cons name path _ _ _ ihInner ihBehind => exact .found name path ihInner ihBehind

theorem not_mem_of_found (h : Nested Loads levels before true calls) (name : Bytes) :
    .resolve name none ∉ calls := by
  generalize hAll : true = all at h
  induction h with
  | nil => exact List.not_mem_nil
  | notFound => cases hAll
  | within => cases hAll
  | cons other path _ _ _ ihInner ihBehind =>
    subst hAll
    simp [ihInner rfl, ihBehind rfl]

end Nested

/-- Beside the paths in `opened`, no more than `levels` are unreleased at any time. -/
def KeepsOpen (levels : Nat) (opened : List Path) (calls : List Call) : Prop :=
  ∀ front behind, calls = front ++ behind →
    ∃ more, unreleased? opened front = some (more ++ opened) ∧ more.length ≤ levels

namespace KeepsOpen

variable {levels : Nat} {opened : List Path} {inner rest : List Call}

theorem nil (levels : Nat) (opened : List Path) : KeepsOpen levels opened [] := by
  intro front behind hCalls
  obtain ⟨rfl, _⟩ := List.append_eq_nil_iff.1 hCalls.symm
  exact ⟨[], rfl, Nat.zero_le levels⟩

theorem bracket (name : Bytes) (path : Path) (hBracketed : Bracketed inner)
    (hInner : KeepsOpen levels (path :: opened) inner)
    (hRest : KeepsOpen (levels + 1) opened rest) :
    KeepsOpen (levels + 1) opened
      (.resolve name (some path) :: (inner ++ .release path :: rest)) := by
  intro front behind hCalls
  cases front with
  | nil => exact ⟨[], rfl, Nat.zero_le _⟩
  | cons call front =>
    obtain ⟨rfl, hTail⟩ := List.cons.inj hCalls
    -- the front ends within the bracket, right before its end, or behind it
    rcases List.append_eq_append_iff.1 hTail with ⟨between, rfl, hRelease⟩ | ⟨between, hFront, _⟩
    · cases between with
      | nil =>
        refine ⟨[path], ?_, Nat.le_add_left 1 levels⟩
        rw [unreleased?, List.append_nil, hBracketed.unreleased?_eq, List.singleton_append]
      | cons call' between =>
        obtain ⟨rfl, hBehind⟩ := List.cons.inj hRelease
        obtain ⟨more, hMore, hLength⟩ := hRest between behind hBehind
        refine ⟨more, ?_, hLength⟩
        rw [unreleased?, unreleased?_append, hBracketed.unreleased?_eq, Option.bind_some,
          unreleased?_release, hMore]
    · obtain ⟨more, hMore, hLength⟩ := hInner front between hFront
      refine ⟨more ++ [path], ?_, ?_⟩
      · rw [unreleased?, hMore, List.append_assoc, List.singleton_append]
      · rw [List.length_append, List.length_singleton]
        exact Nat.succ_le_succ hLength

end KeepsOpen

/-- Right behind `before` and `front` a name leads to the path, and it is loaded there: the calls of
that come next, then the release. Beside the paths in `opened`, those that are open by then leave so
many levels less for it. -/
def LoadedAt (Loads : Loading) (levels : Nat) (before : List Call) (opened : List Path)
    (front : List Call) (name : Bytes) (path : Path) (behind : List Call) : Prop :=
  ∃ more below inner, unreleased? opened front = some (more ++ opened) ∧
    levels = more.length + 1 + below ∧ Bracketed inner ∧ inner ++ [.release path] <+: behind ∧
    Loads below (before ++ front ++ [.resolve name (some path)]) path inner

namespace LoadedAt

variable {Loads : Loading} {levels : Nat} {before front behind inner : List Call}
  {opened : List Path} {name other : Bytes} {path found : Path}

theorem here (opened : List Path) (hInner : Bracketed inner)
    (hLoads : Loads levels (before ++ [.resolve name (some path)]) path inner)
    (hRelease : inner ++ [.release path] <+: behind) :
    LoadedAt Loads (levels + 1) before opened [] name path behind := by
  have hLevels : levels + 1 = ([] : List Path).length + 1 + levels := by
    rw [List.length_nil]
    omega
  refine ⟨[], levels, inner, rfl, hLevels, hInner, hRelease, ?_⟩
  rwa [List.append_nil]

theorem inside (h : LoadedAt Loads levels (before ++ [.resolve other (some found)])
      (found :: opened) front name path behind) (rest : List Call) :
    LoadedAt Loads (levels + 1) before opened (.resolve other (some found) :: front) name path
      (behind ++ rest) := by
  obtain ⟨more, below, matching, hMore, hLevels, hMatching, hRelease, hLoads⟩ := h
  refine ⟨more ++ [found], below, matching, ?_, ?_, hMatching,
    hRelease.trans (List.prefix_append ..), ?_⟩
  · rw [unreleased?, hMore, List.append_assoc, List.singleton_append]
  · rw [List.length_append, List.length_singleton, hLevels]
    omega
  · simpa using hLoads

theorem beyond (h : LoadedAt Loads levels
      (before ++ .resolve other (some found) :: (inner ++ [.release found])) opened front name path
      behind) (hInner : Bracketed inner) :
    LoadedAt Loads levels before opened
      (.resolve other (some found) :: (inner ++ .release found :: front)) name path behind := by
  obtain ⟨more, below, matching, hMore, hLevels, hMatching, hRelease, hLoads⟩ := h
  refine ⟨more, below, matching, ?_, hLevels, hMatching, hRelease, by simpa using hLoads⟩
  rw [unreleased?, unreleased?_append, hInner.unreleased?_eq, Option.bind_some,
    unreleased?_release, hMore]

end LoadedAt

namespace Nested

variable {Loads : Loading} {levels : Nat} {found : Bool} {before calls : List Call}

/-- **Brackets of limited depth keep no more paths open than that.** -/
theorem keepsOpen (h : Nested Loads levels before found calls) (opened : List Path) :
    KeepsOpen levels opened calls := by
  induction h generalizing opened with
  | nil levels => exact .nil levels opened
  | notFound levels before name =>
    intro front behind hCalls
    cases front with
    | nil => exact ⟨[], rfl, Nat.zero_le _⟩
    | cons call front =>
      obtain ⟨rfl, hTail⟩ := List.cons.inj hCalls
      exact KeepsOpen.nil _ opened front behind hTail
  | within name path _ hInner ih =>
    exact .bracket name path hInner.bracketed (ih _) (.nil _ _)
  | cons name path _ hInner _ ihInner ihBehind =>
    exact .bracket name path hInner.bracketed (ihInner _) (ihBehind _)

theorem releases_behind (h : Nested Loads levels before found calls) (opened : List Path)
    {front behind : List Call} {name : Bytes}
    (hCalls : calls = front ++ .resolve name none :: behind) :
    ∃ more, unreleased? opened front = some (more ++ opened) ∧ behind = more.map .release := by
  induction h generalizing opened front behind with
  | nil => simp at hCalls
  | notFound levels before other =>
    cases front with
    | nil =>
      cases hCalls
      exact ⟨[], rfl, rfl⟩
    | cons call front => simp at hCalls
  | @within levels before inner other path _ _ ih =>
    cases placed_of_eq hCalls with
    | inside hFront =>
      obtain ⟨more, hMore, rfl⟩ := ih (path :: opened) hFront
      refine ⟨more ++ [path], ?_, by rw [List.map_append, List.map_singleton]⟩
      rw [unreleased?, hMore, List.append_assoc, List.singleton_append]
    | behind hRest => simp at hRest
  | @cons levels before inner rest found other path _ hInner _ _ ihBehind =>
    cases placed_of_eq hCalls with
    | inside hFront => exact absurd (hFront ▸ by simp) (hInner.not_mem_of_found name)
    | behind hRest =>
      obtain ⟨more, hMore, hReleases⟩ := ihBehind opened hRest
      refine ⟨more, ?_, hReleases⟩
      rw [unreleased?, unreleased?_append, hInner.bracketed.unreleased?_eq, Option.bind_some,
        unreleased?_release, hMore]

theorem exists_loads (h : Nested Loads levels before found calls) (opened : List Path)
    {front behind : List Call} {name : Bytes} {path : Path}
    (hCalls : calls = front ++ .resolve name (some path) :: behind) :
    LoadedAt Loads levels before opened front name path behind := by
  -- the call opens the first bracket, stands within it behind one open path more, or comes behind
  induction h generalizing opened front behind with
  | nil => simp at hCalls
  | notFound levels before other =>
    cases front with
    | nil => cases hCalls
    | cons call front => simp at hCalls
  | @within levels before inner other found hLoads hInner ih =>
    cases placed_of_eq hCalls with
    | opening => exact .here opened hInner.bracketed hLoads List.prefix_rfl
    | inside hFront => exact (ih (found :: opened) hFront).inside [.release found]
    | behind hRest => simp at hRest
  | @cons levels before inner rest _ other found hLoads hInner hRest ihInner ihBehind =>
    cases placed_of_eq hCalls with
    | opening => exact .here opened hInner.bracketed hLoads ⟨rest, by simp⟩
    | inside hFront => exact (ihInner (found :: opened) hFront).inside (.release found :: rest)
    | behind hRest => exact (ihBehind opened hRest).beyond hInner.bracketed

/-- **Calls in brackets of limited depth are in order.** -/
theorem orderly (h : Nested Loads levels [] found calls) : Orderly Loads levels calls where
  bracketed := h.bracketed
  released front name path behind hCalls := by
    obtain ⟨inner, hInner, hRelease⟩ := h.bracketed.exists_release hCalls
    exact ⟨inner, ⟨hInner, hRelease⟩, fun other hOther =>
      hOther.1.eq_of_release hInner hOther.2 hRelease⟩
  loaded front name path inner behind hCalls hInner := by
    obtain ⟨opened, below, matching, hOpened, hLevels, hMatching, hPrefix, hLoads⟩ :=
      h.exists_loads [] hCalls
    have hRelease : inner ++ [.release path] <+: inner ++ .release path :: behind :=
      ⟨behind, by simp⟩
    rw [List.append_nil] at hOpened
    rw [List.nil_append, hMatching.eq_of_release hInner hPrefix hRelease] at hLoads
    exact ⟨opened, below, hOpened, hLevels, hLoads⟩
  resolved front path behind hCalls := h.bracketed.exists_resolve hCalls
  unreleased_le := by
    rintro front ⟨behind, hCalls⟩
    obtain ⟨opened, hOpened, hLength⟩ := h.keepsOpen [] front behind hCalls.symm
    rw [List.append_nil] at hOpened
    exact ⟨opened, hOpened, hLength⟩
  notFound_last := by
    intro front name behind hCalls
    obtain ⟨opened, hOpened, hReleases⟩ := h.releases_behind [] hCalls
    rw [List.append_nil] at hOpened
    exact ⟨opened, hOpened, hReleases⟩

end Nested

end ConsoleFont
