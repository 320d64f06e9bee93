import ConsoleFont.Loading.Resolver

/-! # Options of a load -/

namespace ConsoleFont

structure Options where
  /-- The height to take from a file that holds fonts of several heights. -/
  targetHeight : Option Nat
  resolver : Option Resolver

namespace Options

def default : Options := ⟨none, none⟩

/-- The options with another height. Height 0 stands for none. -/
def withTargetHeight (options : Options) (height : Nat) : Options :=
  { options with targetHeight := if height = 0 then none else some height }

def withResolver (options : Options) (resolver : Resolver) : Options :=
  { options with resolver := some resolver }

def description (options : Options) : String :=
  let height :=
    match options.targetHeight with
    | none => "None"
    | some height => s!"Some({height})"
  s!"ParseOptions \x7b target_height: {height}, resolver: {options.resolver.isSome} \x7d"

end Options

end ConsoleFont
