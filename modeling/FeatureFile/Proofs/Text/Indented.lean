import FeatureFile.Proofs.Text.Lines
/-!
Texts with the same indentation put in front of every line. Line breaks stay as they are, and so the
lines are the old ones behind the indentation.
-/

namespace FeatureFile.Text

/-- The lines together with their line breaks. -/
def pieces : Text → List Text
  | [] => []
  | '\n' :: rest => ['\n'] :: pieces rest
  | c :: rest =>
    match pieces rest with
    | [] => [[c]]
    | piece :: more => (c :: piece) :: more

/-- The text with `w` in front of every line. -/
def indentLines (w t : Text) : Text :=
  t.pieces.flatMap (w ++ ·)

theorem flatten_pieces (t : Text) : t.pieces.flatten = t := by
  induction t with
  | nil => rfl
  | cons c t ih =>
    by_cases feed : c = '\n'
    · subst feed
      simpa [pieces] using ih
    · rw [pieces.eq_3 c t feed]
      cases split : pieces t with
      | nil => simpa [split] using ih
      | cons piece more => simpa [split] using ih

/-- What `w` is put in front of: the text with `w` in front of every line but the first. -/
def indentBehind (w : Text) : Text → Text
  | [] => []
  | '\n' :: rest => '\n' :: indentLines w rest
  | c :: rest => c :: indentBehind w rest

theorem indentLines_eq {w t : Text} (some : t ≠ []) : indentLines w t = w ++ indentBehind w t := by
  induction t with
  | nil => exact absurd rfl some
  | cons c t ih =>
    by_cases feed : c = '\n'
    · subst feed
      simp [indentLines, indentBehind, pieces]
    · rw [indentLines, pieces.eq_3 c t feed, indentBehind.eq_3 w c t feed]
      cases t with
      | nil => simp [pieces, indentBehind]
      | cons d t =>
        have others := ih (by simp)
        cases split : pieces (d :: t) with
        | nil =>
          have whole := flatten_pieces (d :: t)
          simp [split] at whole
        | cons piece more =>
          rw [indentLines, split, List.flatMap_cons, List.append_assoc] at others
          simp [List.append_cancel_left others]

/-- An unbroken text becomes part of the first line behind it. -/
theorem lines_append {w t first : Text} {others : List Text} (unbroken : Unbroken w)
    (split : t.lines = first :: others) : (w ++ t).lines = (w ++ first) :: others := by
  induction w with
  | nil => exact split
  | cons c w ih =>
    obtain ⟨⟨carriage, feed⟩, plain⟩ := List.forall_mem_cons.mp unbroken
    rw [List.cons_append, lines.eq_4 c _ feed fun _ same => absurd same carriage, ih plain]
    rfl

/-- Lines that are written with a line feed each. -/
theorem lines_flatMap_feed {raws : List Text} (unbroken : ∀ raw ∈ raws, Unbroken raw) :
    lines (raws.flatMap (· ++ ['\n'])) = raws := by
  induction raws with
  | nil => rfl
  | cons raw raws ih =>
    obtain ⟨first, others⟩ := List.forall_mem_cons.mp unbroken
    have behind : lines ('\n' :: raws.flatMap (· ++ ['\n'])) = [] :: raws := by
      rw [lines, ih others]
    rw [List.flatMap_cons, List.append_assoc, List.singleton_append, lines_append first behind,
      List.append_nil]

theorem lines_eq_nil_iff {t : Text} : t.lines = [] ↔ t = [] := by
  constructor
  · intro none
    by_contra some
    obtain ⟨line, brk, rest, split⟩ := exists_firstLine t
    rw [split.lines_eq some] at none
    cases none
  · rintro rfl
    rfl

theorem head?_indentBehind (w t : Text) : (indentBehind w t).head? = t.head? := by
  cases t with
  | nil => rfl
  | cons c t =>
    by_cases feed : c = '\n'
    · subst feed
      rfl
    · rw [indentBehind.eq_3 w c t feed]
      rfl

section

variable {w : Text} (unbroken : Unbroken w)
include unbroken

/-- Where the lines behind the first one are indented, the first one may be, too. -/
private theorem lines_indentLines_of_behind {t : Text}
    (behind : (indentBehind w t).lines = t.lines.take 1 ++ (t.lines.drop 1).map (w ++ ·)) :
    (indentLines w t).lines = t.lines.map (w ++ ·) := by
  cases split : t.lines with
  | nil =>
    obtain rfl := lines_eq_nil_iff.mp split
    rfl
  | cons first others =>
    have some : t ≠ [] := fun none => by simp [none, lines] at split
    rw [split] at behind
    rw [indentLines_eq some, lines_append unbroken behind]
    rfl

/-- The first line stays as it is, the others are indented. -/
private theorem lines_indentBehind (t : Text) :
    (indentBehind w t).lines = t.lines.take 1 ++ (t.lines.drop 1).map (w ++ ·) := by
  induction t with
  | nil => rfl
  | cons c t ih =>
    by_cases feed : c = '\n'
    · subst feed
      have others := lines_indentLines_of_behind unbroken ih
      simp [indentBehind, lines, others]
    · rw [indentBehind.eq_3 w c t feed]
      by_cases carriage : c = '\r' ∧ t.head? = some '\n'
      · -- The CR belongs to the break behind it.
        obtain ⟨rfl, head⟩ := carriage
        obtain ⟨rest, rfl⟩ := List.head?_eq_some_iff.mp head
        exact ih
      · have unfed : c = '\r' → t.head? ≠ some '\n' := fun same head => carriage ⟨same, head⟩
        rw [lines_cons feed unfed, lines_cons feed (by rwa [head?_indentBehind]), ih]
        cases lines t <;> simp

/-- The lines of an indented text are the indented lines of the text. -/
theorem lines_indentLines (t : Text) : (indentLines w t).lines = t.lines.map (w ++ ·) :=
  lines_indentLines_of_behind unbroken (lines_indentBehind unbroken t)

end

end FeatureFile.Text
