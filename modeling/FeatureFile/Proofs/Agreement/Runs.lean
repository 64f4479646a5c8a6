import FeatureFile.Proofs.Agreement.KeywordRules
import FeatureFile.Document.Description
/-!
Runs of lines: what the template's rules for the lines of a description and for the lines of a doc
string repeat over. A run is as long as it can be, and the text it covers has the lines of the run.
-/

namespace FeatureFile

open Text (FirstLine Unbroken isBlankChar)

section

variable {c d : Cursor} {q brk rest : Text}

/-- Behind a line with text behind it there is the next line. -/
theorem Text.FirstLine.line_next (line : FirstLine c.rest q brk rest) (more : rest ≠ []) :
    (c.after (q ++ brk)).line = c.line + 1 := by
  have feeds : brk.count '\n' = 1 := by
    rcases line.brk_cases with ⟨_, last⟩ | rfl | rfl
    · exact absurd last more
    · rfl
    · rfl
  simp [Cursor.after, List.count_eq_zero_of_not_mem line.not_mem_line, feeds]

namespace Cursor

/-- The lines from a place on that have a property, and the place behind them. -/
inductive Run (P : Text → Text → Prop) : Cursor → List Text → Cursor → Prop where
  | stop {c : Cursor} {q brk rest : Text} (line : FirstLine c.rest q brk rest) (ends : ¬ P q brk) :
    Run P c [] c
  | line {c d : Cursor} {q brk rest : Text} {raws : List Text} (line : FirstLine c.rest q brk rest)
      (holds : P q brk) (others : Run P (c.after (q ++ brk)) raws d) : Run P c (q :: raws) d

variable {P : Text → Text → Prop} {raws : List Text}

/-- A property of lines that the end of the text does not have. -/
def Progresses (P : Text → Text → Prop) : Prop :=
  ∀ q brk, P q brk → q ++ brk ≠ []

theorem exists_run (progresses : Progresses P) (c : Cursor) : ∃ raws d, Run P c raws d := by
  induction size : c.rest.length using Nat.strong_induction_on generalizing c with
  | _ n ih =>
  subst size
  obtain ⟨q, brk, rest, line⟩ := Text.exists_firstLine c.rest
  by_cases holds : P q brk
  · have shorter := line.length_rest_after (progresses q brk holds)
    obtain ⟨raws, d, others⟩ := ih _ shorter _ rfl
    exact ⟨q :: raws, d, .line line holds others⟩
  · exact ⟨[], c, .stop line holds⟩

namespace Run

/-- Where a run ends, the next line does not have the property. -/
theorem stopped (run : Run P c raws d) : ∃ q brk rest, FirstLine d.rest q brk rest ∧ ¬ P q brk := by
  induction run with
  | stop line ends => exact ⟨_, _, _, line, ends⟩
  | line _ _ _ ih => exact ih

theorem not_mem (run : Run P c raws d) : ∀ l ∈ raws, '\n' ∉ l := by
  induction run with
  | stop => simp
  | line line _ _ ih => simpa using ⟨line.not_mem_line, ih⟩

/-- The text of a run has the lines of the run. -/
theorem text (run : Run P c raws d) (progresses : Progresses P) :
    ∃ w, c.rest = w ++ d.rest ∧ d = c.after w ∧ w.lines = raws := by
  induction run with
  | stop => exact ⟨[], rfl, (after_nil _).symm, rfl⟩
  | @line c d q brk rest raws line holds _ ih =>
    obtain ⟨w, split, rfl, rfl⟩ := ih
    rw [line.rest_after] at split
    have faces : FirstLine (q ++ (brk ++ w)) q brk w := by
      by_cases last : brk = []
      · -- Nothing follows, so the line is all there is.
        obtain ⟨_, atEnd⟩ | ends | ends := line.brk_cases
        · obtain ⟨rfl, -⟩ : w = [] ∧ _ := by simpa [atEnd] using split.symm
          have whole := line.eq_append
          subst last atEnd
          simpa [whole] using line
        · cases last.symm.trans ends
        · cases last.symm.trans ends
      · exact line.change last w
    refine ⟨q ++ (brk ++ w), ?_, by simp, faces.lines_eq ?_⟩
    · rw [line.eq_append, split, List.append_assoc, List.append_assoc]
    · have some := progresses q brk holds
      simp_all

theorem line_eq (run : Run P c raws d) (progresses : Progresses P) (more : d.rest ≠ []) :
    d.line = c.line + raws.length := by
  induction run with
  | stop => rfl
  | @line c d q brk rest raws line holds others ih =>
    obtain ⟨w, split, _⟩ := others.text progresses
    rw [line.rest_after] at split
    have next : rest ≠ [] := by simp_all
    rw [ih more, line.line_next next]
    simp [Nat.add_assoc, Nat.add_comm 1]

end Run

end Cursor

end

/-- A repetition that takes one line at a time takes a run of lines. -/
theorem Rules.Gives.star_run {rules : List Rule} {e : Expr} {P : Text → Text → Prop} {c d : Cursor}
    {raws : List Text}
    (one : ∀ (c : Cursor) (q brk rest : Text), FirstLine c.rest q brk rest → P q brk →
      ∃ nodes, Gives rules e c (some (nodes, c.after (q ++ brk))))
    (other : ∀ (c : Cursor) (q brk rest : Text), FirstLine c.rest q brk rest → ¬ P q brk →
      Gives rules e c none)
    (run : Cursor.Run P c raws d) : ∃ nodes, Gives rules (.star e) c (some (nodes, d)) := by
  induction run with
  | stop line ends => exact ⟨_, .star_stop (other _ _ _ _ line ends)⟩
  | line line holds _ ih =>
    obtain ⟨first, gives⟩ := one _ _ _ _ line holds
    obtain ⟨others, gives'⟩ := ih
    exact ⟨_, .star_step gives gives'⟩

end FeatureFile
