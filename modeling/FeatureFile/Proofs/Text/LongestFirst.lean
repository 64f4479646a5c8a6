import FeatureFile.Text.Basic
import Mathlib.Data.List.Infix
/-!
Lists in falling length. The first element of such a list that has a property is the longest, and of
the longest the one that was listed first; which one that is, the members of the list decide.
-/

namespace FeatureFile

section

variable {α : Type} {length : α → Nat}

private theorem insertLongestFirst_perm (x : α) (xs : List α) :
    (insertLongestFirst length x xs).Perm (x :: xs) := by
  induction xs with
  | nil => exact .refl _
  | cons y ys ih =>
    simp only [insertLongestFirst]
    split
    · exact .refl _
    · exact (ih.cons y).trans (.swap x y ys)

theorem longestFirst_perm (xs : List α) : (longestFirst length xs).Perm xs := by
  induction xs with
  | nil => exact .refl _
  | cons x xs ih => exact (insertLongestFirst_perm x _).trans (ih.cons x)

/-- The order of a list that is sorted: by falling length, and then as before. -/
def FallsBy (length : α → Nat) (before : α → α → Prop) (a b : α) : Prop :=
  length b < length a ∨ length b = length a ∧ before a b

private theorem pairwise_insertLongestFirst {before : α → α → Prop} {x : α} {xs : List α}
    (first : ∀ y ∈ xs, before x y) (sorted : xs.Pairwise (FallsBy length before)) :
    (insertLongestFirst length x xs).Pairwise (FallsBy length before) := by
  induction xs with
  | nil => simp [insertLongestFirst]
  | cons y ys ih =>
    obtain ⟨leads, others⟩ := List.pairwise_cons.mp sorted
    simp only [insertLongestFirst]
    split
    -- In front of an element that is not longer it leads that element and all those behind it.
    next shorter =>
      refine List.pairwise_cons.mpr ⟨fun z member => ?_, sorted⟩
      have least : length z ≤ length y := by
        rcases List.mem_cons.mp member with rfl | member
        · exact Nat.le_refl _
        · rcases leads z member with less | ⟨same, _⟩ <;> omega
      rcases Nat.lt_or_eq_of_le (Nat.le_trans least shorter) with less | same
      · exact .inl less
      · exact .inr ⟨same, first z member⟩
    -- Behind a longer one it is that element that leads.
    next longer =>
      obtain ⟨_, behind⟩ := List.forall_mem_cons.mp first
      refine List.pairwise_cons.mpr ⟨fun z member => ?_, ih behind others⟩
      rcases List.mem_cons.mp ((insertLongestFirst_perm x ys).mem_iff.mp member) with rfl | member
      · exact .inl (by omega)
      · exact leads z member

/-- Elements of one length keep their order. -/
theorem pairwise_longestFirst_stable {before : α → α → Prop} {xs : List α}
    (ordered : xs.Pairwise before) : (longestFirst length xs).Pairwise (FallsBy length before) := by
  induction xs with
  | nil => exact .nil
  | cons x xs ih =>
    obtain ⟨first, others⟩ := List.pairwise_cons.mp ordered
    exact pairwise_insertLongestFirst
      (fun y member => first y ((longestFirst_perm xs).mem_iff.mp member)) (ih others)

theorem pairwise_longestFirst (xs : List α) :
    (longestFirst length xs).Pairwise fun a b => length b ≤ length a := by
  have ordered : xs.Pairwise fun _ _ => True := List.pairwise_of_forall fun _ _ => trivial
  refine (pairwise_longestFirst_stable ordered).imp ?_
  rintro a b (less | ⟨same, _⟩) <;> omega

end

section

variable {α : Type} {before : α → α → Prop} {p : α → Bool}

/-- The first element with a property stands before all others that have it. -/
theorem find?_of_pairwise {xs : List α} {x : α}
    (apart : ∀ x y, p x = true → p y = true → before x y → before y x → x = y)
    (sorted : xs.Pairwise before) :
    xs.find? p = some x ↔ x ∈ xs ∧ p x = true ∧ ∀ y ∈ xs, p y = true → x = y ∨ before x y := by
  have leads {x : α} (found : xs.find? p = some x) :
      x ∈ xs ∧ p x = true ∧ ∀ y ∈ xs, p y = true → x = y ∨ before x y := by
    obtain ⟨holds, front, behind, rfl, none⟩ := List.find?_eq_some_iff_append.mp found
    refine ⟨by simp, holds, fun y member has => ?_⟩
    rcases List.mem_append.mp member with earlier | later
    · have without := none y earlier
      simp [has] at without
    · rcases List.mem_cons.mp later with same | later
      · exact .inl same.symm
      · exact .inr (List.pairwise_cons.mp (List.pairwise_append.mp sorted).2.1 |>.1 y later)
  -- Some element is found, and it stands before this one as this one does before it.
  refine ⟨leads, ?_⟩
  rintro ⟨member, holds, first⟩
  obtain ⟨y, found⟩ : ∃ y, xs.find? p = some y :=
    Option.isSome_iff_exists.mp (List.find?_isSome.mpr ⟨x, member, holds⟩)
  obtain ⟨member', holds', first'⟩ := leads found
  rw [found]
  rcases first y member' holds' with rfl | earlier
  · rfl
  · rcases first' x member holds with rfl | later
    · rfl
    · rw [apart x y holds holds' earlier later]

end

/-- Two beginnings of one text have different lengths. -/
theorem eq_of_prefix {a b t : Text} (first : a <+: t) (second : b <+: t)
    (same : a.length = b.length) : a = b :=
  (List.prefix_of_prefix_length_le first second same.le).eq_of_length same

/-- Of keywords in falling length the first one that a text starts with is the longest. -/
theorem find?_longestFirst {keywords : List Text} {t k : Text} :
    (longestFirst List.length keywords).find? (·.isPrefixOf t) = some k ↔
      k ∈ keywords ∧ k <+: t ∧ ∀ other ∈ keywords, other <+: t → other.length ≤ k.length := by
  have apart (a b : Text) (first : a.isPrefixOf t = true) (second : b.isPrefixOf t = true)
      (before : b.length ≤ a.length) (behind : a.length ≤ b.length) : a = b :=
    eq_of_prefix (by simpa using first) (by simpa using second) (Nat.le_antisymm behind before)
  rw [find?_of_pairwise apart (pairwise_longestFirst keywords)]
  simp only [(longestFirst_perm keywords).mem_iff, List.isPrefixOf_iff_prefix]
  refine and_congr_right fun _ => and_congr_right fun _ => ?_
  refine forall_congr' fun other => imp_congr_right fun _ => imp_congr_right fun _ => ?_
  exact or_iff_right_of_imp fun same => same ▸ Nat.le_refl _

end FeatureFile
