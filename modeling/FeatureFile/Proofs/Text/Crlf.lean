import FeatureFile.Proofs.Text.Lines
import Mathlib.Data.List.Count
/-!
Texts with a CR in front of every LF. The lines stay the same, provided that no line ended at CR LF
before; a CR on its own is part of a line both before and afterwards.
-/

namespace FeatureFile.Text

/-- The text with CR LF for every LF. -/
def withCrlf (t : Text) : Text :=
  t.flatMap fun c => if c = '\n' then ['\r', '\n'] else [c]

@[simp]
theorem withCrlf_nil : withCrlf [] = [] := rfl

@[simp]
theorem withCrlf_feed (t : Text) : withCrlf ('\n' :: t) = '\r' :: '\n' :: withCrlf t := rfl

theorem withCrlf_cons {c : Char} (plain : c ≠ '\n') (t : Text) :
    withCrlf (c :: t) = c :: withCrlf t := by
  simp [withCrlf, plain]

@[simp]
theorem withCrlf_append (s t : Text) : withCrlf (s ++ t) = withCrlf s ++ withCrlf t :=
  List.flatMap_append

theorem withCrlf_of_not_mem {t : Text} (unbroken : '\n' ∉ t) : withCrlf t = t := by
  induction t with
  | nil => rfl
  | cons c t ih =>
    simp only [List.mem_cons, not_or] at unbroken
    rw [withCrlf_cons (Ne.symm unbroken.1), ih unbroken.2]

theorem withCrlf_of_unbroken {t : Text} (unbroken : Unbroken t) : withCrlf t = t :=
  withCrlf_of_not_mem fun member => (unbroken _ member).2 rfl

@[simp]
theorem withCrlf_eq_nil {t : Text} : withCrlf t = [] ↔ t = [] := by
  cases t with
  | nil => simp
  | cons c t =>
    by_cases feed : c = '\n'
    · simp [feed]
    · simp [withCrlf_cons feed]

theorem head?_withCrlf (t : Text) : (withCrlf t).head? ≠ some '\n' := by
  cases t with
  | nil => nofun
  | cons c t =>
    by_cases feed : c = '\n'
    · simp [feed]
    · simpa [withCrlf_cons feed] using feed

@[simp]
theorem count_withCrlf (t : Text) : (withCrlf t).count '\n' = t.count '\n' := by
  induction t with
  | nil => rfl
  | cons c t ih =>
    by_cases feed : c = '\n'
    · simp [feed, ih]
    · simp [withCrlf_cons feed, feed, ih]

theorem prefix_withCrlf_iff {w t : Text} (unbroken : Unbroken w) :
    w <+: withCrlf t ↔ w <+: t := by
  induction w generalizing t with
  | nil => simp
  | cons d w ih =>
    obtain ⟨plain, others⟩ := List.forall_mem_cons.mp unbroken
    cases t with
    | nil => simp
    | cons c t =>
      by_cases feed : c = '\n'
      -- In front of the LF there is a CR now; the prefix begins with neither.
      · subst feed
        simp [List.cons_prefix_cons, plain]
      · rw [withCrlf_cons feed, List.cons_prefix_cons, List.cons_prefix_cons, ih others]

theorem indentation_withCrlf (t : Text) : (withCrlf t).indentation = t.indentation := by
  induction t with
  | nil => rfl
  | cons c t ih =>
    by_cases feed : c = '\n'
    · subst feed
      rfl
    · simp only [indentation, withCrlf_cons feed, List.takeWhile_cons] at ih ⊢
      split <;> simp [ih]

private theorem unpaired_of_cons {c : Char} {t : Text} (unpaired : ¬ ['\r', '\n'] <:+: c :: t) :
    ¬ ['\r', '\n'] <:+: t :=
  fun inside => unpaired (inside.trans (List.infix_cons (List.infix_refl t)))

private theorem unfed_of_unpaired {c : Char} {t : Text} (unpaired : ¬ ['\r', '\n'] <:+: c :: t)
    (carriage : c = '\r') :
    t.head? ≠ some '\n' := by
  cases t with
  | nil => nofun
  | cons d t =>
    rintro ⟨⟩
    subst carriage
    exact unpaired (List.prefix_append _ t).isInfix

section

variable {t : Text} (unpaired : ¬ ['\r', '\n'] <:+: t)
include unpaired

/-- The first line is the same, and its break is a CR LF if it was an LF. -/
theorem FirstLine.withCrlf {line brk rest : Text} (h : FirstLine t line brk rest) :
    FirstLine t.withCrlf line brk.withCrlf rest.withCrlf := by
  induction h with
  | last => exact .last
  | feed rest => exact .carriage _
  | carriage rest => exact absurd (List.prefix_append _ rest).isInfix unpaired
  -- A CR that stood alone does so still: what is behind it does not begin with an LF.
  | @cons c t line brk rest feed _ _ ih =>
    rw [withCrlf_cons feed]
    refine .cons feed (fun more _ next => ?_) (ih (unpaired_of_cons unpaired))
    exact head?_withCrlf t (by rw [next]; rfl)

theorem lines_withCrlf : (withCrlf t).lines = t.lines := by
  induction t with
  | nil => rfl
  | cons c t ih =>
    have others := ih (unpaired_of_cons unpaired)
    -- At an LF both texts end a line; at any other character both go on with the first one.
    by_cases feed : c = '\n'
    · subst feed
      simp [lines, others]
    · rw [withCrlf_cons feed, lines_cons feed fun _ => head?_withCrlf t,
        lines_cons feed (unfed_of_unpaired unpaired), others]

/-- All characters but LF stand in the lines, every CR among them. -/
theorem flatten_lines : t.lines.flatten = t.filter (· ≠ '\n') := by
  induction t with
  | nil => rfl
  | cons c t ih =>
    have others := ih (unpaired_of_cons unpaired)
    by_cases feed : c = '\n'
    · subst feed
      simpa [lines] using others
    · rw [lines_cons feed (unfed_of_unpaired unpaired), List.filter_cons_of_pos (by simpa using feed),
        ← others]
      cases lines t <;> rfl

end

end FeatureFile.Text
