import ConsoleFont.Files.Basic

/-! # Directory trees

A tree of directories and files in memory, and the walk along a path. Empty names and `.` stay
where they are and `..` goes up, but only from a directory. To put an item at a path makes every
directory that the path leads through, also one that it leaves again: `d/../x` needs a directory
`d`.

Paths start in a directory of unknown depth, so how the directories above it are named and where
it lies below the topmost one stays open.
-/

namespace ConsoleFont

namespace FileTree

inductive Item
  | file (data : Bytes)
  | directory
  deriving DecidableEq, Repr

inductive Base
  /-- The directory that paths start in, or the one so many levels above it. -/
  | above (levels : Nat)
  | top
  deriving DecidableEq, Repr

/-- A place is reached from a base by names, innermost first. -/
structure Place where
  base : Base
  names : List String
  deriving DecidableEq, Repr

/-- The directory around a place. The topmost one is around itself. -/
def Place.up : Place → Place
  | ⟨base, _ :: names⟩ => ⟨base, names⟩
  | ⟨.above levels, []⟩ => ⟨.above (levels + 1), []⟩
  | ⟨.top, []⟩ => ⟨.top, []⟩

def Place.follow (place : Place) (name : String) : Place :=
  if name = "" ∨ name = "." then place
  else if name = ".." then place.up
  else ⟨place.base, name :: place.names⟩

def start (path : Path) : Place :=
  if path.startsWith "/" then ⟨.top, []⟩ else ⟨.above 0, []⟩

end FileTree

/-- The items below the bases, each at its place. Of two items at one place the first counts. -/
structure FileTree where
  items : List (FileTree.Place × FileTree.Item)
  deriving DecidableEq, Repr

namespace FileTree

def empty : FileTree := ⟨[]⟩

def find? (tree : FileTree) (place : Place) : Option Item :=
  match place.names with
  | [] => some .directory
  | _ :: _ => tree.items.lookup place

def makeDirectory (tree : FileTree) (place : Place) : FileTree :=
  match tree.find? place with
  | some _ => tree
  | none => ⟨(place, .directory) :: tree.items⟩

def makeDirectories (tree : FileTree) (place : Place) : List String → FileTree × Place
  | [] => (tree, place)
  | name :: names =>
    (tree.makeDirectory (place.follow name)).makeDirectories (place.follow name) names

/-- Puts a file under a name of the directory at the place, over a file that stands there. A name
that leads to a directory is none for a file. -/
def putFile (tree : FileTree) (place : Place) (name : String) (data : Bytes) : FileTree :=
  match tree.find? (place.follow name) with
  | some .directory => tree
  | _ => ⟨(place.follow name, .file data) :: tree.items⟩

def insert (tree : FileTree) (path : Path) : Item → FileTree
  | .directory => (tree.makeDirectories (start path) (path.splitOn "/")).1
  | .file data =>
    let names := path.splitOn "/"
    let (tree, place) := tree.makeDirectories (start path) names.dropLast
    tree.putFile place (names.getLastD "") data

def ofList (items : List (Path × Item)) : FileTree :=
  items.foldl (fun tree item => tree.insert item.1 item.2) empty

/-- The longest name that a directory can hold, in bytes of UTF-8. -/
def maxName : Nat := 255

def pathLimit : Nat := 4096

def step (tree : FileTree) (place : Place) (name : String) : Except FileFault Place :=
  match tree.find? place with
  | none => .error .notFound
  | some (.file _) => .error .notADirectory
  | some .directory =>
    if maxName < name.utf8ByteSize then .error .nameTooLong
    else
      match tree.find? (place.follow name) with
      | none => .error .notFound
      | some _ => .ok (place.follow name)

def walk (tree : FileTree) (path : Path) : Except FileFault Place :=
  if path.toList.contains '\x00' then .error .invalidPath
  else if path = "" then .error .notFound
  else if pathLimit ≤ path.utf8ByteSize then .error .nameTooLong
  else (path.splitOn "/").foldlM tree.step (start path)

/-- Opens and reads the file at a path. A directory can be opened, but not read. -/
def read (tree : FileTree) : FileSystem := fun path =>
  match tree.walk path with
  | .error fault => .openFails fault
  | .ok place =>
    match tree.find? place with
    | none => .openFails .notFound
    | some .directory => .readFails .isADirectory
    | some (.file data) => .contents data

end FileTree

end ConsoleFont
