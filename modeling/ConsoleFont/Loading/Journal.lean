import ConsoleFont.Files.Basic
import ConsoleFont.Font.Basic

/-! # What loading leaves behind

Loading asks a resolver for files and tells what it does. Both are kept in a journal, in order, and
a load that fails keeps its journal too.

Main statement: `runOn_bind`, a load goes on with the journal of the load before it; the other
`runOn` lemmas say what a single step writes.
-/

namespace ConsoleFont

inductive Call
  /-- A name was looked up, and led to a path or to nothing. -/
  | resolve (name : Bytes) (path : Option Path)
  /-- A path that had been found is no longer needed. -/
  | release (path : Path)
  deriving DecidableEq, Repr

inductive Level
  | trace
  | debug
  | warn
  deriving DecidableEq, Repr

def Level.name : Level → String
  | trace => "TRACE"
  | debug => "DEBUG"
  | warn => "WARN"

inductive Notice
  | fileRead (path : Path) (size : Nat)
  | otherFormat (format : Format)
  | failed (format : Format) (error : Error)
  | loaded (format : Format) (glyphCount width height : Nat)
  | partFound (name : Bytes) (path : Path)
  | firstOfTwoFonts
  deriving DecidableEq, Repr

namespace Notice

def level : Notice → Level
  | fileRead .. => .trace
  | otherFormat .. => .trace
  | failed .. => .debug
  | loaded .. => .debug
  | partFound .. => .debug
  | firstOfTwoFonts => .warn

def text : Notice → String
  | fileRead path size => s!"read {size} bytes from {path}"
  | otherFormat format => s!"not a {format.name}"
  | failed format error => s!"failed to load {format.name}: {error.message}"
  | loaded format glyphCount width height =>
    s!"loaded {format.name} font: {glyphCount} glyphs, {width}x{height}"
  | partFound name path => s!"combined font: loading '{Lossy.text name}' from {path}"
  | firstOfTwoFonts => "font from restorefont? using the first half"

def line (notice : Notice) : String := s!"{notice.level.name} {notice.text}"

end Notice

structure Journal where
  calls : Array Call
  notices : Array Notice
  deriving DecidableEq, Repr

namespace Journal

def empty : Journal := ⟨#[], #[]⟩

end Journal

/-- A load under way: it may fail, and it writes to the journal. -/
abbrev LoadM := ExceptT Error (StateM Journal)

namespace LoadM

def record (call : Call) : LoadM Unit :=
  modify fun journal => { journal with calls := journal.calls.push call }

def tell (notice : Notice) : LoadM Unit :=
  modify fun journal => { journal with notices := journal.notices.push notice }

/-- Runs a load, and goes on with what came of it even where it failed. -/
def attempt {α : Type} (load : LoadM α) : LoadM (Except Error α) := ExceptT.lift load.run

def runOn {α : Type} (load : LoadM α) (journal : Journal) : Except Error α × Journal :=
  load.run.run journal

/-! ### What running does, step by step -/

variable {α β : Type} (journal : Journal)

@[simp] theorem runOn_lift (result : Except Error α) :
    runOn (liftM result : LoadM α) journal = (result, journal) := rfl

@[simp] theorem runOn_tell (notice : Notice) :
    runOn (tell notice) journal = (.ok (), ⟨journal.calls, journal.notices.push notice⟩) := rfl

@[simp] theorem runOn_attempt (load : LoadM α) :
    runOn (attempt load) journal = (.ok (runOn load journal).1, (runOn load journal).2) := rfl

theorem runOn_bind (load : LoadM α) (next : α → LoadM β) :
    runOn (load >>= next) journal =
      match runOn load journal with
      | (.ok a, journal) => runOn (next a) journal
      | (.error error, journal) => (.error error, journal) := by
  simp only [runOn, ExceptT.run_bind, StateT.run_bind]
  rcases StateT.run (ExceptT.run load) journal with ⟨_ | _, _⟩
  · rfl
  · rfl

end LoadM

end ConsoleFont
