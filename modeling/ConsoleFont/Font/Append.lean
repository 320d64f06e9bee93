import ConsoleFont.Error
import ConsoleFont.Font.Basic

/-! # Fonts behind fonts

`Font.appendInPlace` puts the glyphs of another font behind those of a font. A font that cannot be
taken is handed back as it was, and all that could stand in the way is looked at before the first
change. `Font.append` is the font that comes of it.

Main statements: `runAppend_eq`, the checks in their order with all changes behind them, and
`runAppend_eq_of_append`, an append that fails changes nothing.
-/

namespace ConsoleFont

def glyphCountLimit : Nat := wordLimit

def bitmapsLimit : Nat := 0x10000000000000000

structure AppendFailure where
  error : Error
  /-- The font that was not taken. -/
  font : Font
  deriving DecidableEq, Repr

namespace Font

/-- A program that changes a font in place. What it has changed before it fails stays changed. -/
abbrev Change := ExceptT AppendFailure (StateM Font)

namespace Change

def runOn {α : Type} (change : Change α) (font : Font) : Except AppendFailure α × Font :=
  change.run.run font

def refuseIf (p : Prop) [Decidable p] (failure : AppendFailure) : Change Unit :=
  if p then throw failure else pure ()

theorem runOn_refuseIf_bind {α : Type} (p : Prop) [Decidable p] (failure : AppendFailure)
    (next : Unit → Change α) (font : Font) :
    (refuseIf p failure >>= next).runOn font =
      if p then (.error failure, font) else (next ()).runOn font := by
  by_cases h : p
  · rw [refuseIf, if_pos h, if_pos h]
    rfl
  · rw [refuseIf, if_neg h, if_neg h]
    rfl

end Change

/-- Puts the glyphs and the map of `behind` behind those of the font that is changed, which keeps
its format. -/
def appendInPlace (behind : Font) : Change Unit := do
  let front ← get
  Change.refuseIf (front.toMetrics ≠ behind.toMetrics) ⟨.metricsMismatch, behind⟩
  let glyphCount := front.glyphCount + behind.glyphCount
  Change.refuseIf (glyphCountLimit ≤ glyphCount) ⟨.lengthTooBig, behind⟩
  Change.refuseIf (bitmapsLimit ≤ glyphCount * front.glyphSize) ⟨.lengthTooBig, behind⟩
  -- nothing fails from here on
  modify fun font => { font with bitmaps := font.bitmaps ++ behind.bitmaps }
  modify fun font => { font with
    unicodeMap := font.unicodeMap ++ behind.unicodeMap.map (Entry.shift front.glyphCount) }
  modify fun font => { font with glyphCount }

def runAppend (front behind : Font) : Except AppendFailure Unit × Font :=
  (appendInPlace behind).runOn front

def append (front behind : Font) : Except AppendFailure Font :=
  match front.runAppend behind with
  | (.ok (), font) => .ok font
  | (.error failure, _) => .error failure

def joined (front behind : Font) : Font :=
  { front with
    glyphCount := front.glyphCount + behind.glyphCount
    bitmaps := front.bitmaps ++ behind.bitmaps
    unicodeMap := front.unicodeMap ++ behind.unicodeMap.map (Entry.shift front.glyphCount) }

theorem runAppend_eq (front behind : Font) :
    front.runAppend behind =
      if front.toMetrics ≠ behind.toMetrics then (.error ⟨.metricsMismatch, behind⟩, front)
      else if glyphCountLimit ≤ front.glyphCount + behind.glyphCount then
        (.error ⟨.lengthTooBig, behind⟩, front)
      else if bitmapsLimit ≤ (front.glyphCount + behind.glyphCount) * front.glyphSize then
        (.error ⟨.lengthTooBig, behind⟩, front)
      else (.ok (), front.joined behind) := by
  have hGet (next : Font → Change Unit) :
      (get >>= next : Change Unit).runOn front = (next front).runOn front := rfl
  rw [runAppend, appendInPlace, hGet, Change.runOn_refuseIf_bind, Change.runOn_refuseIf_bind,
    Change.runOn_refuseIf_bind]
  rfl

theorem append_eq (front behind : Font) :
    front.append behind =
      if front.toMetrics ≠ behind.toMetrics then .error ⟨.metricsMismatch, behind⟩
      else if glyphCountLimit ≤ front.glyphCount + behind.glyphCount then
        .error ⟨.lengthTooBig, behind⟩
      else if bitmapsLimit ≤ (front.glyphCount + behind.glyphCount) * front.glyphSize then
        .error ⟨.lengthTooBig, behind⟩
      else .ok (front.joined behind) := by
  rw [append, runAppend_eq]
  by_cases hMetrics : front.toMetrics ≠ behind.toMetrics
  · rw [if_pos hMetrics, if_pos hMetrics]
  rw [if_neg hMetrics, if_neg hMetrics]
  by_cases hCount : glyphCountLimit ≤ front.glyphCount + behind.glyphCount
  · rw [if_pos hCount, if_pos hCount]
  rw [if_neg hCount, if_neg hCount]
  by_cases hSize : bitmapsLimit ≤ (front.glyphCount + behind.glyphCount) * front.glyphSize
  · rw [if_pos hSize, if_pos hSize]
  · rw [if_neg hSize, if_neg hSize]

/-- **An append that fails changes nothing.** -/
theorem runAppend_eq_of_append (front behind : Font) :
    front.runAppend behind =
      match front.append behind with
      | .ok font => (.ok (), font)
      | .error failure => (.error failure, front) := by
  rw [append_eq, runAppend_eq]
  split
  · rfl
  split
  · rfl
  split
  · rfl
  · rfl

end Font

end ConsoleFont
