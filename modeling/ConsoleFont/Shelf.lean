import ConsoleFont.Loading.Load

/-! # Fonts under names

A shelf keeps fonts under names. Commands load fonts onto it, copy them, and append one to another,
which takes the font that is appended off the shelf.

Main statements: `find?_put_self`, `find?_put_of_ne`, `find?_remove_self` and `find?_remove_of_ne`
say what a name leads to behind a change.
-/

namespace ConsoleFont

/-- Fonts and their names; the first font under a name is the one that counts. -/
structure Shelf where
  fonts : List (String × Font)
  deriving DecidableEq, Repr

namespace Shelf

def empty : Shelf := ⟨[]⟩

def find? (shelf : Shelf) (name : String) : Option Font := shelf.fonts.lookup name

def remove (shelf : Shelf) (name : String) : Shelf :=
  ⟨shelf.fonts.filter fun entry => entry.1 != name⟩

def put (shelf : Shelf) (name : String) (font : Font) : Shelf :=
  ⟨(name, font) :: (shelf.remove name).fonts⟩

inductive Command
  | parse (name : String) (files : FileSystem) (options : Options) (data : Bytes)
  | load (name : String) (files : FileSystem) (options : Options) (path : Path)
  | copy (source target : String)
  | append (front behind : String)

inductive Answer
  | font (font : Font)
  | failed (error : Error)
  /-- The fonts could not be appended. This is the one in front; the other one was handed back. -/
  | refused (front : Font) (failure : AppendFailure)
  | noFont
  deriving DecidableEq, Repr

structure Outcome where
  answer : Answer
  shelf : Shelf
  journal : Journal

/-- Puts a font that was loaded under a name; one that was not leaves the shelf as it was. -/
def keep (shelf : Shelf) (name : String) (report : Report) : Outcome :=
  match report.result with
  | .ok font => ⟨.font font, shelf.put name font, report.journal⟩
  | .error error => ⟨.failed error, shelf, report.journal⟩

def copy (shelf : Shelf) (source target : String) : Outcome :=
  match shelf.find? source with
  | some font => ⟨.font font, shelf.put target font, .empty⟩
  | none => ⟨.noFont, shelf, .empty⟩

/-- Takes one font off and appends it in place to the one under `front`, which stays there as it is
then. A font that is handed back is put under its name again. No font is appended to itself. -/
def append (shelf : Shelf) (front behind : String) : Outcome :=
  match (shelf.remove behind).find? front, shelf.find? behind with
  | some frontFont, some behindFont =>
    match frontFont.runAppend behindFont with
    | (.ok (), font) => ⟨.font font, (shelf.remove behind).put front font, .empty⟩
    | (.error failure, font) =>
      ⟨.refused font failure, ((shelf.remove behind).put front font).put behind failure.font,
        .empty⟩
  | _, _ => ⟨.noFont, shelf, .empty⟩

def run (shelf : Shelf) : Command → Outcome
  | .parse name files options data => shelf.keep name (Font.parse files options data)
  | .load name files options path => shelf.keep name (Font.load files options path)
  | .copy source target => shelf.copy source target
  | .append front behind => shelf.append front behind

def runAll (shelf : Shelf) (commands : List Command) : Shelf :=
  commands.foldl (fun shelf command => (shelf.run command).shelf) shelf

/-! ### Looking up -/

theorem find?_remove_self (shelf : Shelf) (name : String) :
    (shelf.remove name).find? name = none := by
  rw [find?, List.lookup_eq_none_iff]
  intro entry hEntry
  have hNe : entry.1 ≠ name := by simpa using (List.mem_filter.1 hEntry).2
  exact bne_iff_ne.2 hNe.symm

theorem find?_remove_of_ne (shelf : Shelf) {name other : String} (h : other ≠ name) :
    (shelf.remove name).find? other = shelf.find? other := by
  obtain ⟨fonts⟩ := shelf
  simp only [find?, remove]
  induction fonts with
  | nil => rfl
  | cons entry rest ih =>
    obtain ⟨key, font⟩ := entry
    by_cases hKey : key = name
    · have hOther : (other == key) = false := by simpa [hKey] using h
      simp [hKey, List.lookup_cons, hKey ▸ hOther, ih]
    · by_cases hFound : other = key
      · simp [hFound, hKey]
      · simp [hKey, List.lookup_cons, ih]

theorem find?_put_self (shelf : Shelf) (name : String) (font : Font) :
    (shelf.put name font).find? name = some font := by
  simp [put, find?]

theorem find?_put_of_ne (shelf : Shelf) {name other : String} (font : Font) (h : other ≠ name) :
    (shelf.put name font).find? other = shelf.find? other := by
  have hOther : (other == name) = false := by simpa using h
  rw [← find?_remove_of_ne shelf h]
  simp [put, find?, List.lookup_cons, hOther]

end Shelf

end ConsoleFont
