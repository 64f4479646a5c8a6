import FeatureFile.Text.Whitespace
import Mathlib.Data.List.DropRight
/-!
What trimming leaves of a text: a part of it, to which trimming does nothing more. Indentation is what
goes at the front when spaces and tabs are trimmed.
-/

namespace FeatureFile.Text

theorem trimEndBy_concat {p : Char → Bool} {x : Char} (drops : p x = true) (t : Text) :
    trimEndBy p (t ++ [x]) = trimEndBy p t := by
  induction t with
  | nil => simp [trimEndBy, drops]
  | cons y t ih => rw [List.cons_append, trimEndBy, ih, trimEndBy]

theorem trimEndBy_eq_rdropWhile (p : Char → Bool) (t : Text) : trimEndBy p t = t.rdropWhile p := by
  induction t using List.reverseRecOn with
  | nil => rfl
  | append_singleton t x ih =>
    cases inside : p x with
    | true =>
      rw [List.rdropWhile_concat_pos _ _ _ inside, ← ih]
      exact trimEndBy_concat inside t
    | false =>
      -- The last character stays, and with it all in front: an induction from the other end.
      rw [List.rdropWhile_concat_neg _ _ _ (by simp [inside])]
      clear ih
      induction t with
      | nil => simp [trimEndBy, inside]
      | cons y t ih =>
        rw [List.cons_append, trimEndBy, ih]
        cases t <;> rfl

theorem trimBy_trimBy (p : Char → Bool) (t : Text) : trimBy p (trimBy p t) = trimBy p t := by
  have last : (trimBy p t).rdropWhile p = trimBy p t := by
    rw [List.rdropWhile_eq_self_iff]
    intro some
    -- The last character is that of the text trimmed at its end only.
    have suffix : trimBy p t <:+ t.rdropWhile p := by
      rw [trimBy, trimEndBy_eq_rdropWhile]
      exact List.dropWhile_suffix p
    have more : t.rdropWhile p ≠ [] := fun none => some (List.suffix_nil.mp (none ▸ suffix))
    rw [suffix.getLast some]
    exact List.rdropWhile_last_not p t more
  rw [trimBy, trimEndBy_eq_rdropWhile, last, trimBy, trimStartBy, trimStartBy,
    List.dropWhile_idempotent]

/-- What a filter drops anyway may be trimmed before. -/
theorem filter_trimEndBy {p kept : Char → Bool} (drops : ∀ c, p c = true → kept c = false) (t : Text) :
    (trimEndBy p t).filter kept = t.filter kept := by
  rw [trimEndBy_eq_rdropWhile]
  induction t using List.reverseRecOn with
  | nil => rfl
  | append_singleton t x ih =>
    cases inside : p x with
    | true =>
      rw [List.rdropWhile_concat_pos _ _ _ inside, ih]
      simp [drops x inside]
    | false => rw [List.rdropWhile_concat_neg _ _ _ (by simp [inside])]

theorem trim_nil : trim [] = [] := rfl

theorem trim_trim (t : Text) : t.trim.trim = t.trim :=
  trimBy_trimBy isWhitespace t

theorem mem_of_mem_trimBy {p : Char → Bool} {c : Char} {t : Text} (h : c ∈ trimBy p t) : c ∈ t := by
  rw [trimBy, trimEndBy_eq_rdropWhile] at h
  exact (List.rdropWhile_prefix p t).subset ((List.dropWhile_suffix p).subset h)

/-- A character that is not trimmed stays in front. -/
theorem head?_trim {c : Char} {t : Text} (visible : isWhitespace c = false)
    (head : t.head? = some c) : t.trim.head? = some c := by
  cases t with
  | nil => cases head
  | cons d t =>
    obtain rfl : d = c := by simpa using head
    have kept : ∃ more, trimEndBy isWhitespace (d :: t) = d :: more := by
      rw [trimEndBy]
      split
      · exact ⟨[], by simp [visible]⟩
      · exact ⟨_, rfl⟩
    obtain ⟨more, kept⟩ := kept
    simp [trim, trimBy, trimStartBy, kept, visible]

/-! ### Indentation -/

theorem unindent_eq_nil_iff {t : Text} : t.unindent = [] ↔ t.all isBlankChar = true := by
  rw [unindent, trimStartBy, List.dropWhile_eq_nil_iff, List.all_eq_true]

theorem takeWhile_of_unindent_eq_nil {t : Text} (blank : t.unindent = []) :
    t.takeWhile isBlankChar = t :=
  List.takeWhile_eq_self_iff.mpr (List.dropWhile_eq_nil_iff.mp blank)

theorem indentation_append_unindent (t : Text) : t.takeWhile isBlankChar ++ t.unindent = t :=
  List.takeWhile_append_dropWhile

/-- Blanks in front of a text go with its indentation. -/
theorem unindent_append {w : Text} (blank : ∀ c ∈ w, isBlankChar c = true) (t : Text) :
    unindent (w ++ t) = t.unindent :=
  List.dropWhile_append_of_pos blank

end FeatureFile.Text
