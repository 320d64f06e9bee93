import ConsoleFont.Proofs.Bitmaps
import ConsoleFont.Proofs.Loaded
import ConsoleFont.Shelf

/-! # What holds of every font on a shelf

A command puts on the shelf what was loaded, what was there already, or two fonts joined
(`Shelf.All.run`). So the invariants of loading hold of every font that any run of commands leaves
on a shelf (`Shelf.All.runAll`).

Main statement: `Shelf.wellFormed_of_find?_runAll`.
-/

namespace ConsoleFont.Shelf

def All (P : Font → Prop) (shelf : Shelf) : Prop :=
  ∀ name font, shelf.find? name = some font → P font

variable {P : Font → Prop} {shelf : Shelf}

theorem all_empty : empty.All P := by
  intro name font hFind
  cases hFind

namespace All

theorem remove (h : shelf.All P) (name : String) : (shelf.remove name).All P := by
  intro other font hFind
  by_cases hName : other = name
  · rw [hName, find?_remove_self] at hFind
    cases hFind
  · rw [find?_remove_of_ne shelf hName] at hFind
    exact h other font hFind

theorem put (h : shelf.All P) (name : String) {font : Font} (hFont : P font) :
    (shelf.put name font).All P := by
  intro other found hFind
  by_cases hName : other = name
  · rw [hName, find?_put_self] at hFind
    cases hFind
    exact hFont
  · rw [find?_put_of_ne shelf font hName] at hFind
    exact h other found hFind

theorem keep (h : shelf.All P) (name : String) {report : Report}
    (hReport : ∀ font, report.result = .ok font → P font) :
    (shelf.keep name report).shelf.All P := by
  unfold Shelf.keep
  split
  · rename_i font hResult
    exact h.put name (hReport font hResult)
  · exact h

theorem copy (h : shelf.All P) (source target : String) :
    (shelf.copy source target).shelf.All P := by
  unfold Shelf.copy
  split
  · rename_i font hFind
    exact h.put target (h source font hFind)
  · exact h

theorem append (hP : Font.Invariant P) (h : shelf.All P) (front behind : String) :
    (shelf.append front behind).shelf.All P := by
  unfold Shelf.append
  split
  · rename_i frontFont behindFont hFront hBehind
    have hFrontFont := h.remove behind front frontFont hFront
    have hBehindFont := h behind behindFont hBehind
    have hRun := frontFont.runAppend_eq_of_append behindFont
    cases hAppend : frontFont.append behindFont with
    | ok font =>
      rw [hAppend] at hRun
      rw [hRun]
      exact (h.remove behind).put front
        (hP.append frontFont behindFont font hFrontFont hBehindFont hAppend)
    | error failure =>
      rw [hAppend] at hRun
      rw [hRun]
      refine ((h.remove behind).put front hFrontFont).put behind ?_
      rw [(Font.append_eq_error hAppend).1]
      exact hBehindFont
  · exact h

theorem run (hP : Font.Invariant P) (h : shelf.All P) (command : Command) :
    (shelf.run command).shelf.All P := by
  cases command with
  | parse name files options data => exact h.keep name fun _ => hP.parse
  | load name files options path => exact h.keep name fun _ => hP.load
  | copy source target => exact h.copy source target
  | append front behind => exact h.append hP front behind

theorem runAll (hP : Font.Invariant P) (h : shelf.All P) (commands : List Command) :
    (shelf.runAll commands).All P := by
  induction commands generalizing shelf with
  | nil => exact h
  | cons command commands ih => exact ih (h.run hP command)

end All

/-- **Every font that a run of commands leaves on the shelf is well-formed.** Its rows lie within
its glyphs, and its bitmaps tile its table. -/
theorem wellFormed_of_find?_runAll (commands : List Command) (name : String) (font : Font)
    (hFind : (empty.runAll commands).find? name = some font) :
    font.WellFormed ∧ font.height * font.rowSize ≤ font.glyphSize ∧ font.Tiled := by
  have h : font.WellFormed := all_empty.runAll Font.invariant_wellFormed commands name font hFind
  exact ⟨h, h.metrics.height_mul_pitch_le, h.tiled⟩

/-- A font is appended to its copy, between commands that fail. -/
theorem wellFormed_of_appended_copy :
    let letter : Font := ⟨⟨8, 1, 1⟩, .psf2, 1, [0x18], [⟨0, ['A']⟩]⟩
    let letters : Font := ⟨⟨8, 1, 1⟩, .psf2, 2, [0x18, 0x18], [⟨0, ['A']⟩, ⟨1, ['A']⟩]⟩
    let files : FileSystem := fun _ => .openFails .notFound
    let commands : List Command := [.parse "a" files .default (Psf2.encode letter), .copy "a" "b",
      .load "b" files .default "gone", .append "b" "a", .append "b" "a"]
    (empty.runAll commands).find? "b" = some letters ∧ letters.WellFormed ∧
      letters.height * letters.rowSize ≤ letters.glyphSize ∧ letters.Tiled := by
  intro letter letters files commands
  have hFind : (empty.runAll commands).find? "b" = some letters := by decide +kernel
  exact ⟨hFind, wellFormed_of_find?_runAll commands "b" letters hFind⟩

end ConsoleFont.Shelf

namespace ConsoleFont.Font

/-- Some run of commands leaves the font on a shelf. -/
def Obtained (font : Font) : Prop :=
  ∃ commands name, (Shelf.empty.runAll commands).find? name = some font

theorem Obtained.wellFormed {font : Font} (h : font.Obtained) : font.WellFormed := by
  obtain ⟨commands, name, hFind⟩ := h
  exact Shelf.all_empty.runAll invariant_wellFormed commands name font hFind

theorem Obtained.of_parse {files : FileSystem} {options : Options} {data : Bytes} {font : Font}
    (h : (Font.parse files options data).result = .ok font) : font.Obtained := by
  refine ⟨[.parse "font" files options data], "font", ?_⟩
  show (Shelf.empty.keep "font" (Font.parse files options data)).shelf.find? "font" = some font
  rw [Shelf.keep, h]
  exact Shelf.find?_put_self Shelf.empty "font" font

end ConsoleFont.Font
