import FeatureFile.Proofs.Document.WellFormed
import FeatureFile.Proofs.Line.Forward
/-!
Which lines are tag lines. What is read from the right, character by character, is said by the parts of the
line: tags in order, and blanks wherever there is none.
-/

namespace FeatureFile.TagLine

open Text (isBlankChar)

variable {t name : Text} {tags : List Text}

/-- The line has these tags in this order and blanks in front of them, between them and behind them. -/
inductive Bears : Text → List Text → Prop where
  | blanks {w : Text} (blank : ∀ c ∈ w, isBlankChar c = true) : Bears w []
  | tag {w tag rest : Text} {tags : List Text} (blank : ∀ c ∈ w, isBlankChar c = true)
    (is : tag.IsTag) (others : Bears rest tags) : Bears (w ++ (tag ++ rest)) (tag :: tags)

namespace Bears

theorem cons_blank {c : Char} (blank : isBlankChar c = true) (h : Bears t tags) :
    Bears (c :: t) tags := by
  cases h with
  | blanks blanks => exact .blanks (List.forall_mem_cons.mpr ⟨blank, blanks⟩)
  | tag blanks is others =>
    rw [← List.cons_append]
    exact .tag (List.forall_mem_cons.mpr ⟨blank, blanks⟩) is others

theorem isTag (h : Bears t tags) : ∀ tag ∈ tags, tag.IsTag := by
  induction h with
  | blanks => simp
  | tag _ is _ ih => exact List.forall_mem_cons.mpr ⟨is, ih⟩

end Bears

/-- The characters of a tag behind its `@`. -/
theorem isNameChar_iff {c : Char} : isNameChar c = true ↔ c ≠ '@' ∧ c ≠ ' ' ∧ c ≠ '\t' := by
  simp [isNameChar, isBlankChar, and_comm]

theorem filter_isTag {tag : Text} (is : tag.IsTag) : tag.filter (!isBlankChar ·) = tag := by
  obtain ⟨name, rfl, -, inside⟩ := is
  rw [List.filter_eq_self]
  refine List.forall_mem_cons.mpr ⟨by decide, fun c member => ?_⟩
  obtain ⟨-, space, tab, -⟩ := inside c member
  simp [isBlankChar, space, tab]

/-- The tags of a line are all of it but the blanks. -/
theorem Bears.flatten (h : Bears t tags) : tags.flatten = t.filter (!isBlankChar ·) := by
  induction h with
  | blanks blank =>
    rw [List.flatten_nil, eq_comm, List.filter_eq_nil_iff]
    exact fun c member => by simp [blank c member]
  | @tag w tag rest tags blank is others ih =>
    have none : w.filter (!isBlankChar ·) = [] := by simpa using blank
    rw [List.flatten_cons, ih, List.filter_append, List.filter_append, none, filter_isTag is,
      List.nil_append]

/-- What is read of a line: the characters of a tag that is still open, and the line behind them. -/
private theorem exists_bears_of_read? (h : read? t = some (name, tags)) :
    ∃ rest, t = name ++ rest ∧ (∀ c ∈ name, c ≠ '@' ∧ c ≠ ' ' ∧ c ≠ '\t' ∧ c ≠ '\n') ∧
      Bears rest tags := by
  induction t generalizing name tags with
  | nil =>
    cases h
    exact ⟨[], rfl, by simp, .blanks (by simp)⟩
  | cons c t ih =>
    obtain ⟨⟨behind, others⟩, found, next⟩ := Option.bind_eq_some_iff.mp h
    obtain ⟨rest, rfl, inside, bears⟩ := ih found
    dsimp only at next
    split_ifs at next with feed blank closed mark bare
    · cases next
      rw [List.isEmpty_iff.mp closed]
      exact ⟨c :: rest, rfl, by simp, bears.cons_blank blank⟩
    · cases next
      -- The mark makes a tag of the name behind it.
      have is : Text.IsTag (c :: behind) := ⟨behind, by rw [mark], by simpa using bare, inside⟩
      exact ⟨c :: behind ++ rest, rfl, by simp, .tag (w := []) (by simp) is bears⟩
    · cases next
      simp only [isBlankChar, Bool.or_eq_true, decide_eq_true_eq, not_or] at blank
      exact ⟨rest, rfl, List.forall_mem_cons.mpr ⟨⟨mark, blank.1, blank.2, feed⟩, inside⟩, bears⟩

private theorem read?_blanks {w : Text} (blank : ∀ c ∈ w, isBlankChar c = true)
    (h : read? t = some ([], tags)) : read? (w ++ t) = some ([], tags) := by
  induction w with
  | nil => exact h
  | cons c w ih =>
    obtain ⟨first, others⟩ := List.forall_mem_cons.mp blank
    have feed : c ≠ '\n' := by
      rintro rfl
      cases first
    simp [read?, ih others, first, feed]

private theorem Bears.read? (h : Bears t tags) : TagLine.read? t = some ([], tags) := by
  induction h with
  | @blanks w blank => simpa using read?_blanks blank (t := []) rfl
  | @tag w tag rest tags blank is _ ih =>
    obtain ⟨name, rfl, bare, inside⟩ := is
    have unbroken : '\n' ∉ name := fun member => (inside _ member).2.2.2 rfl
    have named : ∀ c ∈ name, isNameChar c = true := fun c member =>
      isNameChar_iff.mpr ⟨(inside c member).1, (inside c member).2.1, (inside c member).2.2.1⟩
    refine read?_blanks blank ?_
    rw [List.cons_append, TagLine.read?, read?_name unbroken named, ih]
    simp [bare, show isBlankChar '@' = false by decide]

/-- The tags that are read off a line are those that it has. -/
theorem split?_iff_bears : split? t = some tags ↔ Bears t tags := by
  constructor
  · intro h
    obtain ⟨⟨name, all⟩, found, closed⟩ := Option.bind_eq_some_iff.mp h
    dsimp only at closed
    split_ifs at closed with bare
    cases closed
    obtain ⟨rest, rfl, -, bears⟩ := exists_bears_of_read? found
    rwa [List.isEmpty_iff.mp bare]
  · intro h
    rw [split?, h.read?]
    rfl

theorem isTag_of_split? (h : split? t = some tags) : ∀ tag ∈ tags, tag.IsTag :=
  (split?_iff_bears.mp h).isTag

theorem flatten_of_split? (h : split? t = some tags) : tags.flatten = t.filter (!isBlankChar ·) :=
  (split?_iff_bears.mp h).flatten

end FeatureFile.TagLine
