import ConsoleFont.Loading.Journal

/-! # Finding the parts of a combined font

A resolver finds files for the names in a combined font. What it answers may depend on all calls
that it has seen.

Main statement: `runOn_withFile`, whatever comes of the load from a path, the path is released right
behind it.
-/

namespace ConsoleFont

/-- Finds the path for a name, given the calls made before. -/
abbrev Resolver := Array Call → Bytes → Option Path

namespace Resolver

def ofFunction (find : Bytes → Option Path) : Resolver := fun _ name => find name

def ofList (paths : List (Bytes × Path)) : Resolver := ofFunction fun name => paths.lookup name

def resolve (resolver : Resolver) (name : Bytes) : LoadM (Option Path) := do
  let path := resolver (← get).calls name
  LoadM.record (.resolve name path)
  return path

def release (path : Path) : LoadM Unit := LoadM.record (.release path)

/-- Loads from the file of a name, and releases its path whether that succeeded or not. -/
def withFile {α : Type} (resolver : Resolver) (name : Bytes) (load : Path → LoadM α) : LoadM α := do
  match ← resolver.resolve name with
  | none => throw (.fontNotFound name)
  | some path =>
    LoadM.tell (.partFound name path)
    let result ← LoadM.attempt (load path)
    release path
    result

@[simp] theorem runOn_resolve (resolver : Resolver) (name : Bytes) (journal : Journal) :
    (resolver.resolve name).runOn journal =
      (.ok (resolver journal.calls name),
        ⟨journal.calls.push (.resolve name (resolver journal.calls name)), journal.notices⟩) :=
  rfl

@[simp] theorem runOn_release (path : Path) (journal : Journal) :
    (release path).runOn journal =
      (.ok (), ⟨journal.calls.push (.release path), journal.notices⟩) :=
  rfl

theorem runOn_withFile {α : Type} (resolver : Resolver) (name : Bytes) (load : Path → LoadM α)
    (journal : Journal) :
    (resolver.withFile name load).runOn journal =
      match resolver journal.calls name with
      | none =>
        (.error (.fontNotFound name), ⟨journal.calls.push (.resolve name none), journal.notices⟩)
      | some path =>
        let outcome := (load path).runOn
          ⟨journal.calls.push (.resolve name (some path)),
            journal.notices.push (.partFound name path)⟩
        (outcome.1, ⟨outcome.2.calls.push (.release path), outcome.2.notices⟩) := by
  rw [withFile, LoadM.runOn_bind, runOn_resolve]
  cases resolver journal.calls name with
  | none => rfl
  | some path =>
    simp only [LoadM.runOn_bind, LoadM.runOn_tell, LoadM.runOn_attempt, runOn_release]
    rfl

def lookUp (resolver : Resolver) (name : Bytes) : LoadM (Option Path) := do
  match ← resolver.resolve name with
  | none => return none
  | some path =>
    release path
    return some path

end Resolver

end ConsoleFont
