import ConsoleFont.Font.Append
import ConsoleFont.Headerless
import ConsoleFont.Loading.Options
import ConsoleFont.PartList
import ConsoleFont.Psf1
import ConsoleFont.Psf2

/-! # Loading fonts

The formats are tried in turn. One that finds another signature lets the next one try; any other
failure is final. A combined font loads its parts the same way, and its parts may be combined
fonts again, up to a limit.

Main statement: `runOn_firstOf_cons` says what trying one format more does.
-/

namespace ConsoleFont

/-- So many combined fonts can be loaded one within the other. -/
def maxNesting : Nat := 8

/-- What a load and the loads within it share. -/
structure Loader where
  files : FileSystem
  options : Options
  order : List Format

namespace Loader

def joinBehind (loadPart : Bytes → LoadM Font) (font : Font) : List Bytes → LoadM Font
  | [] => pure font
  | name :: names => do
    let part ← loadPart name
    match font.append part with
    | .ok font => joinBehind loadPart font names
    | .error failure => throw failure.error

def join (loadPart : Bytes → LoadM Font) : List Bytes → LoadM Font
  | [] => throw .trailingGarbage
  | name :: names => do
    let font ← loadPart name
    joinBehind loadPart font names

/-- Loads a combined font. Its parts are loaded by `loadFile`, which is there unless too many
combined fonts lie around this one. -/
def combined (loader : Loader) (loadFile : Option (Path → LoadM Font)) (data : Bytes) :
    LoadM Font := do
  let names ← PartList.decode data
  match loader.options.resolver, loadFile with
  | none, _ => throw (.unsupported "combined fonts without a font resolver")
  | some _, none => throw .combineTooDeep
  | some resolver, some loadFile =>
    let font ← join (fun name => resolver.withFile name loadFile) names
    return { font with format := .combined }

/-- Tells that half of the data will not be used, if that is so. -/
def tellHalf (length : Nat) : LoadM Unit :=
  if length = Headerless.twoFontsLength then LoadM.tell .firstOfTwoFonts else pure ()

def headerless (loader : Loader) (data : Bytes) : LoadM Font := do
  tellHalf data.length
  Headerless.decode loader.options.targetHeight data

def decode (loader : Loader) (loadFile : Option (Path → LoadM Font)) (data : Bytes) :
    Format → LoadM Font
  | .psf2 => Psf2.decode data
  | .psf1 => Psf1.decode data
  | .combined => loader.combined loadFile data
  | .raw => loader.headerless data

/-- Tries one format after the other, until one does not say that the data is of another format. -/
def firstOf (decode : Format → LoadM Font) : List Format → LoadM Font
  | [] => throw .badMagic
  | format :: formats => do
    match ← LoadM.attempt (decode format) with
    | .ok font =>
      LoadM.tell (.loaded format font.glyphCount font.width font.height)
      return font
    | .error .badMagic =>
      LoadM.tell (.otherFormat format)
      firstOf decode formats
    | .error error =>
      LoadM.tell (.failed format error)
      throw error

theorem runOn_firstOf_cons (decode : Format → LoadM Font) (format : Format) (formats : List Format)
    (journal : Journal) :
    (firstOf decode (format :: formats)).runOn journal =
      match (decode format).runOn journal with
      | (.ok font, journal) =>
        (.ok font, ⟨journal.calls,
          journal.notices.push (.loaded format font.glyphCount font.width font.height)⟩)
      | (.error .badMagic, journal) =>
        (firstOf decode formats).runOn
          ⟨journal.calls, journal.notices.push (.otherFormat format)⟩
      | (.error error, journal) =>
        (.error error, ⟨journal.calls, journal.notices.push (.failed format error)⟩) := by
  rw [firstOf, LoadM.runOn_bind, LoadM.runOn_attempt]
  rcases (decode format).runOn journal with ⟨error | font, after⟩
  · cases error <;> rfl
  · rfl

def parse (loader : Loader) (loadFile : Option (Path → LoadM Font)) (data : Bytes) : LoadM Font :=
  firstOf (loader.decode loadFile data) loader.order

def contents (loader : Loader) (path : Path) : LoadM Bytes :=
  match loader.files path with
  | .openFails fault => throw (.cannotOpen path fault)
  | .readFails fault => throw (.cannotRead path fault)
  | .contents data => do
    LoadM.tell (.fileRead path data.length)
    return data

/-- How the parts of a combined font are loaded where `levels` combined fonts, that one included,
may still lie within each other. -/
def loadPart (loader : Loader) : (levels : Nat) → Option (Path → LoadM Font)
  | 0 => none
  | levels + 1 => some fun path => do
    let data ← loader.contents path
    loader.parse (loader.loadPart levels) data

def parseWhole (loader : Loader) (data : Bytes) : LoadM Font :=
  loader.parse (loader.loadPart maxNesting) data

def loadWhole (loader : Loader) (path : Path) : LoadM Font := do
  let data ← loader.contents path
  loader.parseWhole data

end Loader

structure Report where
  result : Except Error Font
  journal : Journal

namespace Report

def ofLoad (load : LoadM Font) : Report :=
  let (result, journal) := load.runOn .empty
  ⟨result, journal⟩

end Report

def Font.parse (files : FileSystem) (options : Options) (data : Bytes) : Report :=
  .ofLoad (Loader.parseWhole ⟨files, options, Format.detectionOrder⟩ data)

def Font.load (files : FileSystem) (options : Options) (path : Path) : Report :=
  .ofLoad (Loader.loadWhole ⟨files, options, Format.detectionOrder⟩ path)

end ConsoleFont
