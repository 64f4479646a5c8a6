import Mathlib.Data.List.Induction
/-!
The first occurrences of the entries of a list. Entries that a function makes the same may be dropped before
it is applied or behind: what is left at the end does not change.
-/

namespace FeatureFile

section

variable {α β : Type} [BEq α] [LawfulBEq α] [BEq β] [LawfulBEq β]

/-- What stands behind is dropped by what has occurred, and not by how often it has. -/
theorem eraseDups_append_congr {xs ys : List α} (same : xs.eraseDups = ys.eraseDups) (others : List α) :
    (xs ++ others).eraseDups = (ys ++ others).eraseDups := by
  have occurs (x : α) : x ∈ xs ↔ x ∈ ys := by
    rw [← List.mem_eraseDups, same, List.mem_eraseDups]
  have fresh : others.removeAll xs = others.removeAll ys :=
    List.filter_congr fun x _ => by simp [occurs]
  rw [List.eraseDups_append, List.eraseDups_append, same, fresh]

theorem eraseDups_concat_of_mem {xs : List α} {x : α} (seen : x ∈ xs) :
    (xs ++ [x]).eraseDups = xs.eraseDups := by
  simp [List.eraseDups_append, List.removeAll, seen]

theorem eraseDups_concat_of_not_mem {xs : List α} {x : α} (fresh : x ∉ xs) :
    (xs ++ [x]).eraseDups = xs.eraseDups ++ [x] := by
  simp [List.eraseDups_append, List.removeAll, fresh, List.eraseDups_cons]

theorem nodup_eraseDups (xs : List α) : xs.eraseDups.Nodup := by
  induction xs using List.reverseRecOn with
  | nil => exact List.nodup_nil
  | append_singleton xs x ih =>
    by_cases seen : x ∈ xs
    · rwa [eraseDups_concat_of_mem seen]
    · have apart : ∀ y ∈ xs, y ≠ x := fun y member => ne_of_mem_of_not_mem member seen
      rw [eraseDups_concat_of_not_mem seen]
      simpa [List.nodup_append, ih] using apart

theorem eraseDups_map_eraseDups (f : α → β) (xs : List α) :
    (xs.eraseDups.map f).eraseDups = (xs.map f).eraseDups := by
  -- From the right, since what stands in front decides whether an entry is kept.
  induction xs using List.reverseRecOn with
  | nil => rfl
  | append_singleton xs x ih =>
    by_cases seen : x ∈ xs
    · rw [eraseDups_concat_of_mem seen, ih, List.map_append, List.map_singleton,
        eraseDups_concat_of_mem (List.mem_map_of_mem seen)]
    · rw [eraseDups_concat_of_not_mem seen, List.map_append, List.map_append]
      exact eraseDups_append_congr ih _

end

end FeatureFile
