import ConsoleFont.Error

/-! # Files as loading sees them -/

namespace ConsoleFont

abbrev Path := String

/-- What comes of opening a file and reading it to its end. -/
inductive FileAnswer
  | contents (data : Bytes)
  | openFails (fault : FileFault)
  | readFails (fault : FileFault)
  deriving DecidableEq, Repr

abbrev FileSystem := Path → FileAnswer

end ConsoleFont
