import FeatureFile.Proofs.Grammar.Derivation
import Mathlib.Data.List.Basic
/-!
Places in a text. Every match ends at a later place of the text, and a place is determined by what
precedes it.
-/

namespace FeatureFile

namespace Cursor

/-- The place behind the characters of `w`, which are the next ones. -/
def after (c : Cursor) (w : Text) : Cursor :=
  ⟨c.rest.drop w.length, c.offset + w.length, c.line + w.count '\n'⟩

variable {c d : Cursor} {v w t : Text}

@[simp]
theorem after_nil (c : Cursor) : c.after [] = c := by
  simp [after]

@[simp]
theorem after_after (c : Cursor) (v w : Text) : (c.after v).after w = c.after (v ++ w) := by
  simp [after, Nat.add_assoc, Nat.add_comm v.length]

theorem rest_after (h : c.rest = w ++ t) : (c.after w).rest = t := by
  simp [after, h]

@[simp]
theorem offset_after (c : Cursor) (w : Text) : (c.after w).offset = c.offset + w.length := rfl

theorem line_after (h : '\n' ∉ w) : (c.after w).line = c.line := by
  simp [after, List.count_eq_zero_of_not_mem h]

theorem upTo_after (h : c.rest = w ++ t) : c.upTo (c.after w) = w := by
  simp [upTo, after, h]

theorem behind_eq_after {x : Char} {rest : Text} (h : c.rest = x :: rest) :
    c.behind x rest = c.after [x] := by
  by_cases feed : x = '\n' <;> simp [behind, after, h, feed]

theorem skip?_eq_some_iff : c.skip? w = some d ↔ c.rest = w ++ d.rest ∧ d = c.after w := by
  induction w generalizing c with
  | nil =>
    simp only [skip?, Option.some.injEq, List.nil_append, after_nil]
    constructor
    · rintro rfl
      exact ⟨rfl, rfl⟩
    · exact fun h => h.2.symm
  | cons l lead ih =>
    cases rest : c.rest with
    | nil => simp [skip?, rest]
    | cons x more =>
      by_cases same : l = x
      · subst same
        have behind := behind_eq_after rest
        simp [skip?, rest, ih, behind, rest_after (w := [l]) rest]
      · simp [skip?, rest, same, Ne.symm same]

theorem skip?_of_rest (h : c.rest = w ++ t) : c.skip? w = some (c.after w) :=
  skip?_eq_some_iff.mpr ⟨by rw [rest_after h, h], rfl⟩

theorem skip?_eq_none (h : ¬ w <+: c.rest) : c.skip? w = none := by
  refine Option.eq_none_iff_forall_not_mem.mpr fun d found => h ?_
  exact ⟨d.rest, (skip?_eq_some_iff.mp found).1.symm⟩

/-- Whether one place is behind another in the same text. -/
def Reaches (c d : Cursor) : Prop :=
  ∃ w, c.rest = w ++ d.rest ∧ d = c.after w

theorem Reaches.refl (c : Cursor) : c.Reaches c :=
  ⟨[], rfl, (after_nil c).symm⟩

theorem Reaches.trans {e : Cursor} (first : c.Reaches d) (second : d.Reaches e) : c.Reaches e := by
  obtain ⟨v, rest, rfl⟩ := first
  obtain ⟨w, rest', rfl⟩ := second
  exact ⟨v ++ w, by rw [rest, rest', List.append_assoc], by rw [after_after]⟩

theorem Reaches.suffix (h : c.Reaches d) : d.rest <:+ c.rest := by
  obtain ⟨w, rest, _⟩ := h
  exact ⟨w, rest.symm⟩

theorem Reaches.length_le (h : c.Reaches d) : d.rest.length ≤ c.rest.length :=
  h.suffix.length_le

end Cursor

namespace Rules

variable {rules : List Rule}

/-- A derivation ends at a later place of the text. -/
theorem Matches.reaches {e : Expr} {c d : Cursor} {nodes : List Node}
    (h : Matches rules e c nodes d) : c.Reaches d := by
  induction h with
  | literal skips => exact ⟨_, Cursor.skip?_eq_some_iff.mp skips⟩
  | @any c d next =>
    cases rest : c.rest with
    | nil => simp [Cursor.next?, rest] at next
    | cons x more =>
      have same : c.after [x] = d := by
        simpa [Cursor.next?, rest, Cursor.behind_eq_after rest] using next
      subst same
      exact ⟨[x], by rw [rest, Cursor.rest_after (w := [x]) rest]; rfl, rfl⟩
  | startOfInput | endOfInput | starStop | optNone | not | and => exact .refl _
  | call _ _ ih | choiceFirst _ _ ih | choiceSecond _ _ ih | optSome _ ih => exact ih
  | seq _ _ first others | starStep _ _ first others | plus _ _ first others =>
    exact first.trans others

end Rules

end FeatureFile
