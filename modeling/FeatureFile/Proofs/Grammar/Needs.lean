import FeatureFile.Proofs.Grammar.Cursor
/-!
What a match needs: the matches of the operands, each at the place that those in front of it leave, and
for a call the match of the body of its rule. What a match gives depends on nothing else, so it ends where
no chain of needs goes on for ever.
-/

namespace FeatureFile

namespace Rules

variable {rules : List Rule}

/-- The match of the first expression at its place is needed next for the match of the second at its
place. -/
inductive NeededBy (rules : List Rule) : Expr × Cursor → Expr × Cursor → Prop where
  | body {name : String} {rule : Rule} (found : find? rules name = some rule) (c : Cursor) :
    NeededBy rules (rule.body, c) (.call name, c)
  | seqFirst (a b : Expr) (c : Cursor) : NeededBy rules (a, c) (.seq a b, c)
  | seqSecond {a : Expr} (b : Expr) {c d : Cursor} {nodes : List Node}
    (first : Gives rules a c (some (nodes, d))) : NeededBy rules (b, d) (.seq a b, c)
  | choiceFirst (a b : Expr) (c : Cursor) : NeededBy rules (a, c) (.choice a b, c)
  | choiceSecond {a : Expr} (b : Expr) {c : Cursor} (first : Gives rules a c none) :
    NeededBy rules (b, c) (.choice a b, c)
  | starFirst (a : Expr) (c : Cursor) : NeededBy rules (a, c) (.star a, c)
  | starOthers {a : Expr} {c d : Cursor} {nodes : List Node}
    (first : Gives rules a c (some (nodes, d))) : NeededBy rules (.star a, d) (.star a, c)
  | plusFirst (a : Expr) (c : Cursor) : NeededBy rules (a, c) (.plus a, c)
  | plusOthers {a : Expr} {c d : Cursor} {nodes : List Node}
    (first : Gives rules a c (some (nodes, d))) : NeededBy rules (.star a, d) (.plus a, c)
  | opt (a : Expr) (c : Cursor) : NeededBy rules (a, c) (.opt a, c)
  | not (a : Expr) (c : Cursor) : NeededBy rules (a, c) (.not a, c)
  | and (a : Expr) (c : Cursor) : NeededBy rules (a, c) (.and a, c)

variable {e : Expr} {c : Cursor}

/-- What is needed is at the same place or at a later one. -/
theorem NeededBy.reaches {e' : Expr} {d : Cursor} (h : NeededBy rules (e', d) (e, c)) :
    c.Reaches d := by
  cases h with
  | seqSecond _ first | starOthers first | plusOthers first => exact first.matches.reaches
  | _ => exact .refl c

/-- What follows a first match depends on the matches that are needed only. -/
private theorem chain_congr {m n : Nat} {a b : Expr} (first : run rules m a c = run rules n a c)
    (second : ∀ nodes d, Gives rules a c (some (nodes, d)) → run rules m b d = run rules n b d)
    (g : Match → Match) :
    ((run rules m a c).bind fun first =>
      match first.result with
      | none => some (g first)
      | some (nodes, last) => (run rules m b last).map (·.behind nodes first.probes)) =
    ((run rules n a c).bind fun first =>
      match first.result with
      | none => some (g first)
      | some (nodes, last) => (run rules n b last).map (·.behind nodes first.probes)) := by
  rw [first]
  cases runs : run rules n a c with
  | none => rfl
  | some first =>
    simp only [Option.bind_some]
    split
    next none => rfl
    next nodes last found => rw [second nodes last ⟨n, first, runs, found⟩]

/-- Two amounts of fuel that agree on what a match needs agree on the match. -/
theorem run_congr {m n : Nat}
    (agree : ∀ e' d, NeededBy rules (e', d) (e, c) → run rules m e' d = run rules n e' d) :
    run rules (m + 1) e c = run rules (n + 1) e c := by
  rw [run_succ, run_succ]
  cases e with
  | literal | any | startOfInput | endOfInput => rfl
  | call name =>
    simp only [layer]
    split
    · rfl
    next found => rw [agree _ _ (.body found c)]
  | seq a b =>
    exact chain_congr (agree _ _ (.seqFirst a b c)) (fun _ _ first => agree _ _ (.seqSecond b first))
      fun first => first
  | star a =>
    exact chain_congr (agree _ _ (.starFirst a c)) (fun _ _ first => agree _ _ (.starOthers first))
      fun first => ⟨some ([], c), first.probes⟩
  | plus a =>
    exact chain_congr (agree _ _ (.plusFirst a c)) (fun _ _ first => agree _ _ (.plusOthers first))
      fun first => first
  | choice a b =>
    simp only [layer, agree _ _ (.choiceFirst a b c)]
    cases runs : run rules n a c with
    | none => rfl
    | some first =>
      simp only [Option.bind_some]
      split
      next none => rw [agree _ _ (.choiceSecond b ⟨n, first, runs, none⟩)]
      next => rfl
  | opt a => simp only [layer, agree _ _ (.opt a c)]
  | not a => simp only [layer, agree _ _ (.not a c)]
  | and a => simp only [layer, agree _ _ (.and a c)]

/-- A match gives something if all that it needs does. -/
theorem exists_gives_of_needs
    (ends : ∀ e' d, NeededBy rules (e', d) (e, c) → ∃ result, Gives rules e' d result) :
    ∃ result, Gives rules e c result := by
  -- Where the first operand fails the second is not needed; otherwise it is needed where that one ends.
  cases e with
  | literal text => exact ⟨_, .literal text c⟩
  | any => exact ⟨_, .any c⟩
  | startOfInput => exact ⟨_, 1, _, rfl, rfl⟩
  | endOfInput => exact ⟨_, .endOfInput c⟩
  | call name =>
    cases found : find? rules name with
    | none => exact ⟨none, .undefined found c⟩
    | some rule =>
      obtain ⟨result, body⟩ := ends _ _ (.body found c)
      exact body.exists_call found
  | seq a b =>
    obtain ⟨first | ⟨nodes, d⟩, gives⟩ := ends _ _ (.seqFirst a b c)
    · exact ⟨_, .seq_fail gives⟩
    · obtain ⟨second, behind⟩ := ends _ _ (.seqSecond b gives)
      exact ⟨_, .seq gives behind⟩
  | choice a b =>
    obtain ⟨first | ⟨nodes, d⟩, gives⟩ := ends _ _ (.choiceFirst a b c)
    · obtain ⟨second, other⟩ := ends _ _ (.choiceSecond b gives)
      exact ⟨_, .choice_second gives other⟩
    · exact ⟨_, .choice_first gives⟩
  | star a =>
    obtain ⟨first | ⟨nodes, d⟩, gives⟩ := ends _ _ (.starFirst a c)
    · exact ⟨_, .star_stop gives⟩
    · obtain ⟨others, behind⟩ := ends _ _ (.starOthers gives)
      exact ⟨_, .star_step gives behind⟩
  | plus a =>
    obtain ⟨first | ⟨nodes, d⟩, gives⟩ := ends _ _ (.plusFirst a c)
    · exact ⟨_, .plus (.seq_fail gives)⟩
    · obtain ⟨others, behind⟩ := ends _ _ (.plusOthers gives)
      exact ⟨_, .plus (.seq gives behind)⟩
  | opt a =>
    obtain ⟨result, gives⟩ := ends _ _ (.opt a c)
    exact ⟨_, .opt gives⟩
  | not a =>
    obtain ⟨result, gives⟩ := ends _ _ (.not a c)
    exact ⟨_, .not gives⟩
  | and a =>
    obtain ⟨result, gives⟩ := ends _ _ (.and a c)
    exact ⟨_, .and gives⟩

/-- A match ends if its needs go on for ever in no chain. -/
theorem exists_gives_of_acc {stage : Expr × Cursor} (h : Acc (NeededBy rules) stage) :
    ∃ result, Gives rules stage.1 stage.2 result := by
  induction h with
  | intro stage _ ih => exact exists_gives_of_needs fun e' d needed => ih (e', d) needed

end Rules

end FeatureFile
