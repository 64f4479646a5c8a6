import FeatureFile.Text.Basic
/-!
The pieces of a text that is split at a character: one more than the character stands in the text, and each
is a part of the text without the character.
-/

namespace FeatureFile.Text

variable {x : Char}

theorem length_splitOn (x : Char) (t : Text) : (t.splitOn x).length = t.count x + 1 := by
  induction t with
  | nil => simp [List.splitOn_nil]
  | cons c t ih => by_cases same : c = x <;> simp [List.splitOn_cons_eq_if_modifyHead, same, ih]

theorem of_mem_splitOn {t piece : Text} (member : piece ∈ t.splitOn x) : x ∉ piece ∧ piece ⊆ t := by
  induction t generalizing piece with
  | nil =>
    obtain rfl : piece = [] := by simpa [List.splitOn_nil] using member
    simp
  | cons y t ih =>
    rw [List.splitOn_cons_eq_if_modifyHead] at member
    split at member
    · rcases List.mem_cons.mp member with rfl | behind
      · simp
      · obtain ⟨apart, inside⟩ := ih behind
        exact ⟨apart, List.subset_cons_of_subset y inside⟩
    next other =>
      cases pieces : t.splitOn x with
      | nil => exact absurd pieces (List.splitOn_ne_nil x t)
      | cons first others =>
        rw [pieces] at member ih
        rcases List.mem_cons.mp member with rfl | behind
        · -- The character goes in front of the first piece, and it is another one.
          obtain ⟨apart, inside⟩ := ih List.mem_cons_self
          have differs : x ≠ y := fun same => other (by simp [same])
          exact ⟨by simp [apart, differs], List.cons_subset_cons y inside⟩
        · obtain ⟨apart, inside⟩ := ih (List.mem_cons_of_mem _ behind)
          exact ⟨apart, List.subset_cons_of_subset y inside⟩

end FeatureFile.Text
