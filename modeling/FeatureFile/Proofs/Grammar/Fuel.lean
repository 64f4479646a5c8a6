import FeatureFile.Proofs.Grammar.Needs
import Mathlib.Data.Finset.Card
import Mathlib.Data.Finset.Image
import Mathlib.Data.Finset.Prod
/-!
The fuel of a match. A match needs other matches with less fuel, and there are only so many
expressions and places: as long as matching goes on, every unit of fuel adds a match that needs it.
So a match that ends at all ends within the fuel it is given.
-/

namespace FeatureFile

namespace Expr

/-- The expressions that matching the expression may come to, without entering a rule. -/
def stages : Expr → List Expr
  | seq a b => seq a b :: (a.stages ++ b.stages)
  | choice a b => choice a b :: (a.stages ++ b.stages)
  | star e => star e :: e.stages
  | plus e => plus e :: star e :: e.stages
  | opt e => opt e :: e.stages
  | not e => not e :: e.stages
  | and e => and e :: e.stages
  | e => [e]

theorem mem_stages (e : Expr) : e ∈ e.stages := by
  cases e <;> simp [stages]

end Expr

namespace Rules

variable {rules : List Rule}

/-- A set of expressions that matching stays in. -/
structure Closed (rules : List Rule) (known : List Expr) : Prop where
  body {name rule} : Expr.call name ∈ known → find? rules name = some rule → rule.body ∈ known
  seq {a b} : Expr.seq a b ∈ known → a ∈ known ∧ b ∈ known
  choice {a b} : Expr.choice a b ∈ known → a ∈ known ∧ b ∈ known
  star {e} : Expr.star e ∈ known → e ∈ known
  plus {e} : Expr.plus e ∈ known → e ∈ known ∧ Expr.star e ∈ known
  opt {e} : Expr.opt e ∈ known → e ∈ known
  not {e} : Expr.not e ∈ known → e ∈ known
  and {e} : Expr.and e ∈ known → e ∈ known

/-- The expressions that matching a call may come to. -/
def stages (rules : List Rule) (name : String) : List Expr :=
  .call name :: rules.flatMap (·.body.stages)

private theorem stages_operands (e : Expr) {d : Expr} (within : d ∈ e.stages) :
    ∀ operand ∈ d.stages, operand ∈ e.stages := by
  induction e with
  | literal | any | startOfInput | endOfInput | call =>
    obtain rfl := List.mem_singleton.mp within
    exact fun _ h => h
  | seq a b iha ihb | choice a b iha ihb =>
    simp only [Expr.stages, List.mem_cons, List.mem_append] at within
    rcases within with rfl | first | second
    · exact fun _ h => h
    · exact fun operand h => List.mem_cons_of_mem _ (List.mem_append_left _ (iha first operand h))
    · exact fun operand h => List.mem_cons_of_mem _ (List.mem_append_right _ (ihb second operand h))
  | star e ih | opt e ih | not e ih | and e ih =>
    simp only [Expr.stages, List.mem_cons] at within
    rcases within with rfl | inner
    · exact fun _ h => h
    · exact fun operand h => List.mem_cons_of_mem _ (ih inner operand h)
  | plus e ih =>
    simp only [Expr.stages, List.mem_cons] at within
    rcases within with rfl | rfl | inner
    · exact fun _ h => h
    · exact fun operand h => List.mem_cons_of_mem _ h
    · exact fun operand h =>
        List.mem_cons_of_mem _ (List.mem_cons_of_mem _ (ih inner operand h))

/-- Matching a call stays in the expressions of the rules. -/
theorem closed_stages (rules : List Rule) (name : String) : Closed rules (stages rules name) := by
  have operands {e d : Expr} (member : e ∈ stages rules name) (below : d ∈ e.stages) :
      d ∈ stages rules name := by
    rcases List.mem_cons.mp member with rfl | inside
    · rw [List.mem_singleton.mp below]
      exact List.mem_cons_self
    · obtain ⟨rule, known, within⟩ := List.mem_flatMap.mp inside
      exact List.mem_cons_of_mem _
        (List.mem_flatMap.mpr ⟨rule, known, stages_operands _ within _ below⟩)
  exact {
    body := fun _ found => List.mem_cons_of_mem _
      (List.mem_flatMap.mpr ⟨_, List.mem_of_find?_eq_some found, Expr.mem_stages _⟩)
    seq := fun member =>
      ⟨operands member (by simp [Expr.stages, Expr.mem_stages]),
        operands member (by simp [Expr.stages, Expr.mem_stages])⟩
    choice := fun member =>
      ⟨operands member (by simp [Expr.stages, Expr.mem_stages]),
        operands member (by simp [Expr.stages, Expr.mem_stages])⟩
    star := fun member => operands member (by simp [Expr.stages, Expr.mem_stages])
    plus := fun member =>
      ⟨operands member (by simp [Expr.stages, Expr.mem_stages]),
        operands member (by simp [Expr.stages])⟩
    opt := fun member => operands member (by simp [Expr.stages, Expr.mem_stages])
    not := fun member => operands member (by simp [Expr.stages, Expr.mem_stages])
    and := fun member => operands member (by simp [Expr.stages, Expr.mem_stages]) }

/-- What a match in the set needs is in the set. -/
theorem Closed.needs {known : List Expr} (closed : Closed rules known) {e e' : Expr} {c d : Cursor}
    (needed : NeededBy rules (e', d) (e, c)) (member : e ∈ known) : e' ∈ known := by
  cases needed with
  | body found => exact closed.body member found
  | seqFirst => exact (closed.seq member).1
  | seqSecond => exact (closed.seq member).2
  | choiceFirst => exact (closed.choice member).1
  | choiceSecond => exact (closed.choice member).2
  | starFirst => exact closed.star member
  | starOthers => exact member
  | plusFirst => exact (closed.plus member).1
  | plusOthers => exact (closed.plus member).2
  | opt => exact closed.opt member
  | not => exact closed.not member
  | and => exact closed.and member

/-- The places of a text. -/
def places (text : Text) : List Cursor :=
  (List.range (text.length + 1)).map fun n => (Cursor.start text).after (text.take n)

theorem mem_places {text : Text} {c : Cursor} :
    c ∈ places text ↔ (Cursor.start text).Reaches c := by
  constructor
  · intro member
    obtain ⟨n, _, rfl⟩ := List.mem_map.mp member
    have split : (Cursor.start text).rest = text.take n ++ text.drop n :=
      (List.take_append_drop n text).symm
    exact ⟨text.take n, by rw [Cursor.rest_after split, ← split], rfl⟩
  · rintro ⟨w, split, rfl⟩
    have whole : text = w ++ ((Cursor.start text).after w).rest := split
    refine List.mem_map.mpr ⟨w.length, List.mem_range.mpr ?_, ?_⟩
    · rw [whole, List.length_append]
      omega
    · rw [whole]
      simp

section

variable {known : List Expr} {text : Text}

/-- Two amounts of fuel agree on a set of expressions at the places of a text. -/
def Agree (rules : List Rule) (known : List Expr) (text : Text) (m n : Nat) : Prop :=
  ∀ e ∈ known, ∀ c ∈ places text, run rules m e c = run rules n e c

/-- Once more fuel adds nothing, it never does. -/
private theorem Agree.always (closed : Closed rules known) {m : Nat}
    (agree : Agree rules known text m (m + 1)) (k : Nat) : Agree rules known text m (m + k) := by
  induction k with
  | zero => exact fun _ _ _ _ => rfl
  | succ k ih =>
    intro e member c place
    rw [agree e member c place, ← Nat.add_assoc]
    refine run_congr fun e' d needed => ih e' (closed.needs needed member) d ?_
    exact mem_places.mpr ((mem_places.mp place).trans needed.reaches)

/-- The matches that end with some fuel. -/
noncomputable def ended (rules : List Rule) (known : List Expr) (text : Text) (fuel : Nat) :
    Finset (Expr × Cursor) :=
  (known.toFinset ×ˢ (places text).toFinset).filter fun state =>
    (run rules fuel state.1 state.2).isSome

/-- Fuel that changes anything adds a match that ends. -/
private theorem card_ended_lt {m : Nat} (changes : ¬ Agree rules known text m (m + 1)) :
    (ended rules known text m).card < (ended rules known text (m + 1)).card := by
  simp only [Agree, not_forall] at changes
  obtain ⟨e, member, c, place, differ⟩ := changes
  refine Finset.card_lt_card ((Finset.ssubset_iff_of_subset ?_).mpr ⟨(e, c), ?_, ?_⟩)
  · intro state ends
    simp only [ended, Finset.mem_filter] at ends ⊢
    obtain ⟨found, runs⟩ := ends
    obtain ⟨first, same⟩ := Option.isSome_iff_exists.mp runs
    exact ⟨found, by rw [run_mono (Nat.le_succ m) same]; rfl⟩
  · simp only [ended, Finset.mem_filter, Finset.mem_product, List.mem_toFinset]
    refine ⟨⟨member, place⟩, Option.isSome_iff_ne_none.mpr fun none => differ ?_⟩
    rw [none]
    exact Option.eq_none_iff_forall_not_mem.mpr fun first runs => by
      rw [run_mono (Nat.le_succ m) runs] at none
      cases none
  · simp only [ended, Finset.mem_filter, not_and]
    rintro - runs
    obtain ⟨first, same⟩ := Option.isSome_iff_exists.mp runs
    exact differ (by rw [same, run_mono (Nat.le_succ m) same])

/-- A match that ends at all ends with as much fuel as there are expressions and places. -/
theorem run_of_enough (closed : Closed rules known) {fuel enough : Nat}
    (bound : known.length * (text.length + 1) ≤ enough) {e : Expr} (member : e ∈ known) {c : Cursor}
    (place : c ∈ places text) {m : Match} (h : run rules fuel e c = some m) :
    run rules enough e c = some m := by
  -- Either some smaller amount is already stable, or one match more ends with every unit.
  have grows : ∀ n, (∃ k < n, Agree rules known text k (k + 1)) ∨
      n ≤ (ended rules known text n).card := by
    intro n
    induction n with
    | zero => exact .inr (Nat.zero_le _)
    | succ n ih =>
      rcases ih with ⟨k, less, stable⟩ | size
      · exact .inl ⟨k, by omega, stable⟩
      · by_cases stable : Agree rules known text n (n + 1)
        · exact .inl ⟨n, by omega, stable⟩
        · exact .inr (by have := card_ended_lt stable; omega)
  have small : (ended rules known text (enough + 1)).card ≤ known.length * (text.length + 1) := by
    refine (Finset.card_filter_le _ _).trans ?_
    rw [Finset.card_product]
    refine Nat.mul_le_mul (List.toFinset_card_le _) ((List.toFinset_card_le _).trans ?_)
    simp [places]
  obtain ⟨k, less, stable⟩ : ∃ k < enough + 1, Agree rules known text k (k + 1) :=
    (grows (enough + 1)).resolve_right (by omega)
  have both := run_mono (Nat.le_max_left fuel enough) h
  rw [show max fuel enough = k + (max fuel enough - k) by omega] at both
  rw [← stable.always closed _ e member c place] at both
  exact run_mono (by omega) both

end

/-- Whether no rule repeats more than its size accounts for. -/
def Thrifty (rules : List Rule) : Prop :=
  ∀ rule ∈ rules, rule.body.stages.length ≤ rule.body.size + 1

theorem length_stages_le (thrifty : Thrifty rules) (name : String) :
    (stages rules name).length ≤ size rules + 1 := by
  rw [stages, List.length_cons, Nat.add_le_add_iff_right]
  induction rules with
  | nil => exact Nat.zero_le _
  | cons rule rules ih =>
    rw [List.flatMap_cons, List.length_append, size]
    have first := thrifty rule List.mem_cons_self
    have others := ih fun other member => thrifty other (List.mem_cons_of_mem _ member)
    omega

end Rules

/-- A grammar matches a text with what its rule gives there. -/
theorem Grammar.match?_iff {grammar : Grammar} (thrifty : Rules.Thrifty grammar.arranged) {rule : String}
    {text : Text} {result : Option (List Node × Cursor)} :
    (∃ m, grammar.match? rule text = some m ∧ m.result = result) ↔
      Rules.Gives grammar.arranged (.call rule) (.start text) result := by
  constructor
  · rintro ⟨m, runs, same⟩
    exact ⟨_, m, runs, same⟩
  · rintro ⟨fuel, m, runs, same⟩
    refine ⟨m, ?_, same⟩
    refine Rules.run_of_enough (Rules.closed_stages _ rule) ?_ List.mem_cons_self
      (Rules.mem_places.mpr (.refl _)) runs
    rw [Rules.fuel, Nat.mul_comm]
    exact Nat.mul_le_mul_left _ ((Rules.length_stages_le thrifty rule).trans (Nat.le_succ _))

end FeatureFile
