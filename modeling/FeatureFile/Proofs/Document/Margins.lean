import FeatureFile.Document.Description
import Mathlib.Data.List.Forall2
/-!
The content of a doc string, told without reading it: each line loses the whitespace it begins with, as far
as its fence was indented, and keeps the rest.
-/

namespace FeatureFile

/-- A line without its margin: the whitespace it begins with goes, but never more than `indent` characters
of it. -/
def Text.IsDedented (indent : Nat) (line kept : Text) : Prop :=
  ∃ margin, line = margin ++ kept ∧ (∀ c ∈ margin, isWhitespace c = true) ∧ margin.length ≤ indent ∧
    (margin.length < indent → ∀ c, kept.head? = some c → isWhitespace c = false)

/-- The content of lines behind a fence with that indentation: a line feed stands between any two of them. -/
def Text.IsContent (indent : Nat) (body : List Text) (content : Text) : Prop :=
  ∃ kept, List.Forall₂ (IsDedented indent) body kept ∧ content = joinLines kept

theorem dedentLine_eq_iff {indent : Nat} {line kept : Text} :
    dedentLine indent line = kept ↔ Text.IsDedented indent line kept := by
  induction indent, line using dedentLine.induct with
  | case1 line =>
    rw [dedentLine]
    constructor
    · rintro rfl
      exact ⟨[], rfl, by simp, Nat.le_refl 0, by simp⟩
    · rintro ⟨margin, rfl, -, short, -⟩
      simp [List.length_eq_zero_iff.mp (Nat.le_zero.mp short)]
  | case2 indent =>
    rw [dedentLine]
    constructor
    · rintro rfl
      exact ⟨[], rfl, by simp, Nat.zero_le _, by simp⟩
    · rintro ⟨margin, split, -⟩
      exact (List.append_eq_nil_iff.mp split.symm).2.symm
  | case3 indent c line white ih =>
    rw [dedentLine, if_pos white, ih]
    constructor
    · rintro ⟨margin, rfl, all, short, ends⟩
      exact ⟨c :: margin, rfl, List.forall_mem_cons.mpr ⟨white, all⟩, Nat.succ_le_succ short,
        fun shorter => ends (Nat.lt_of_succ_lt_succ shorter)⟩
    · rintro ⟨margin, split, all, short, ends⟩
      cases margin with
      | nil =>
        -- A margin may end early only in front of a character that is no whitespace.
        have visible := ends (Nat.succ_pos _) c (by rw [← List.nil_append kept, ← split]; rfl)
        rw [white] at visible
        cases visible
      | cons first margin =>
        obtain ⟨rfl, rfl⟩ := List.cons.inj split
        exact ⟨margin, rfl, (List.forall_mem_cons.mp all).2, Nat.le_of_succ_le_succ short,
          fun shorter => ends (Nat.succ_lt_succ shorter)⟩
  | case4 indent c line visible =>
    rw [dedentLine, if_neg visible]
    constructor
    · rintro rfl
      refine ⟨[], rfl, by simp, Nat.zero_le _, fun _ _ first => ?_⟩
      cases first
      exact Bool.eq_false_iff.mpr visible
    · rintro ⟨margin, split, all, -⟩
      cases margin with
      | nil => exact split
      | cons first margin =>
        obtain ⟨rfl, -⟩ := List.cons.inj split
        exact absurd (List.forall_mem_cons.mp all).1 visible

theorem dedent_eq_iff {indent : Nat} {body : List Text} {content : Text} :
    dedent body indent = content ↔ Text.IsContent indent body content := by
  constructor
  · rintro rfl
    refine ⟨body.map (dedentLine indent), ?_, rfl⟩
    exact List.forall₂_map_right_iff.mpr
      (List.forall₂_same.mpr fun line _ => dedentLine_eq_iff.mp rfl)
  · rintro ⟨kept, each, rfl⟩
    have same : body.map (dedentLine indent) = kept := by
      induction each with
      | nil => rfl
      | cons less _ ih => rw [List.map_cons, dedentLine_eq_iff.mpr less, ih]
    rw [dedent, same]

end FeatureFile
