import FeatureFile.Proofs.Grammar.Matching
/-!
What an expression yields at a place, whether it matches or not, by what its operands yield. Of
everything that was tried it is known how it ended, so what holds of all results can be shown by
induction on how they come about.
-/

namespace FeatureFile

/-- What a rule leaves of a match of its body between two places. -/
def Rule.leaves (rule : Rule) (first last : Cursor) (nodes : List Node) : List Node :=
  match rule.kind with
  | .silent => nodes
  | .normal => [.mk rule.name (first.upTo last) first.line nodes]
  | .atomic => [.mk rule.name (first.upTo last) first.line []]

namespace Rules

variable {rules : List Rule}

/-- The expression yields the result at the place, by what its operands yield. -/
inductive Yields (rules : List Rule) : Expr → Cursor → Option (List Node × Cursor) → Prop where
  | literal (text : Text) (c : Cursor) :
    Yields rules (.literal text) c ((c.skip? text).map ([], ·))
  | any (c : Cursor) : Yields rules .any c (c.next?.map ([], ·))
  | startOfInput (c : Cursor) :
    Yields rules .startOfInput c (if c.offset = 0 then some ([], c) else none)
  | endOfInput (c : Cursor) :
    Yields rules .endOfInput c
      (if c.rest.isEmpty then some ([.mk "EOI" (c.upTo c) c.line []], c) else none)
  | undefined {name : String} (absent : find? rules name = none) (c : Cursor) :
    Yields rules (.call name) c none
  | call {name : String} {rule : Rule} {c : Cursor} {result : Option (List Node × Cursor)}
    (found : find? rules name = some rule) (body : Yields rules rule.body c result) :
    Yields rules (.call name) c (result.map fun (nodes, d) => (rule.leaves c d nodes, d))
  | seq {a b : Expr} {c d : Cursor} {nodes : List Node} {result : Option (List Node × Cursor)}
    (first : Yields rules a c (some (nodes, d))) (second : Yields rules b d result) :
    Yields rules (.seq a b) c (result.map fun (more, last) => (nodes ++ more, last))
  | seqFail {a : Expr} (b : Expr) {c : Cursor} (first : Yields rules a c none) :
    Yields rules (.seq a b) c none
  | choiceFirst {a : Expr} (b : Expr) {c d : Cursor} {nodes : List Node}
    (first : Yields rules a c (some (nodes, d))) :
    Yields rules (.choice a b) c (some (nodes, d))
  | choiceSecond {a b : Expr} {c : Cursor} {result : Option (List Node × Cursor)}
    (first : Yields rules a c none) (second : Yields rules b c result) :
    Yields rules (.choice a b) c result
  | starStop {a : Expr} {c : Cursor} (first : Yields rules a c none) :
    Yields rules (.star a) c (some ([], c))
  | starStep {a : Expr} {c d : Cursor} {nodes : List Node} {result : Option (List Node × Cursor)}
    (first : Yields rules a c (some (nodes, d))) (others : Yields rules (.star a) d result) :
    Yields rules (.star a) c (result.map fun (more, last) => (nodes ++ more, last))
  | plusFail {a : Expr} {c : Cursor} (first : Yields rules a c none) :
    Yields rules (.plus a) c none
  | plusStep {a : Expr} {c d : Cursor} {nodes : List Node} {result : Option (List Node × Cursor)}
    (first : Yields rules a c (some (nodes, d))) (others : Yields rules (.star a) d result) :
    Yields rules (.plus a) c (result.map fun (more, last) => (nodes ++ more, last))
  | opt {a : Expr} {c : Cursor} {result : Option (List Node × Cursor)}
    (body : Yields rules a c result) : Yields rules (.opt a) c (some (result.getD ([], c)))
  | not {a : Expr} {c : Cursor} {result : Option (List Node × Cursor)}
    (body : Yields rules a c result) :
    Yields rules (.not a) c (if result.isSome then none else some ([], c))
  | and {a : Expr} {c : Cursor} {result : Option (List Node × Cursor)}
    (body : Yields rules a c result) : Yields rules (.and a) c (result.map fun _ => ([], c))

/-- A match behind others, without their nodes. -/
theorem exists_behind {before nodes : List Node} {last : Cursor} {result : Option (List Node × Cursor)}
    (given : result.map (fun (more, last) => (before ++ more, last)) = some (nodes, last)) :
    ∃ more, nodes = before ++ more ∧ result = some (more, last) := by
  obtain ⟨⟨more, _⟩, rfl, ends⟩ := Option.map_eq_some_iff.mp given
  cases ends
  exact ⟨more, rfl, rfl⟩

/-- What a match of a rule has as its result. -/
private theorem result_ofRule (m : Match) (rule : Rule) (c : Cursor) :
    (m.ofRule rule c).result = m.result.map fun (nodes, d) => (rule.leaves c d nodes, d) := by
  obtain ⟨result, probes⟩ := m
  cases kind : rule.kind <;> cases result <;> simp [Match.ofRule, Match.node, Rule.leaves, kind]

/-- A layer yields its result if everything below it does. -/
private theorem layer_yields {inner : Expr → Cursor → Option Match}
    (known : ∀ e c m, inner e c = some m → Yields rules e c m.result) {e : Expr} {c : Cursor}
    {m : Match} (h : layer rules inner e c = some m) : Yields rules e c m.result := by
  -- An operator by what its first operand did: that decides which of its constructors applies, and
  -- whether the second operand was tried at all.
  cases e with
  | literal text =>
    cases h
    exact .literal text c
  | any =>
    cases h
    exact .any c
  | startOfInput =>
    cases h
    simpa [Match.plain, apply_ite] using Yields.startOfInput c
  | endOfInput =>
    cases h
    by_cases last : c.rest.isEmpty <;>
      simpa [Match.plain, Match.node, last] using Yields.endOfInput c
  | call name =>
    simp only [layer] at h
    split at h
    next absent =>
      cases h
      exact .undefined absent c
    next rule found =>
      obtain ⟨first, runs, rfl⟩ := Option.map_eq_some_iff.mp h
      rw [result_ofRule]
      exact .call found (known _ _ _ runs)
  | seq a b =>
    obtain ⟨first, runs, next⟩ := Option.bind_eq_some_iff.mp h
    have given := known _ _ _ runs
    split at next
    next none =>
      cases next
      rw [none] at given ⊢
      exact .seqFail b given
    next some =>
      obtain ⟨second, behind, rfl⟩ := Option.map_eq_some_iff.mp next
      exact .seq (some ▸ given) (known _ _ _ behind)
  | choice a b =>
    obtain ⟨first, runs, next⟩ := Option.bind_eq_some_iff.mp h
    have given := known _ _ _ runs
    split at next
    next none =>
      obtain ⟨second, behind, rfl⟩ := Option.map_eq_some_iff.mp next
      simpa [Match.behind] using Yields.choiceSecond (none ▸ given) (known _ _ _ behind)
    next some =>
      cases next
      rw [some] at given ⊢
      exact .choiceFirst b given
  | star a =>
    obtain ⟨first, runs, next⟩ := Option.bind_eq_some_iff.mp h
    have given := known _ _ _ runs
    split at next
    next none =>
      cases next
      exact .starStop (none ▸ given)
    next some =>
      obtain ⟨others, behind, rfl⟩ := Option.map_eq_some_iff.mp next
      exact .starStep (some ▸ given) (known _ _ _ behind)
  | plus a =>
    obtain ⟨first, runs, next⟩ := Option.bind_eq_some_iff.mp h
    have given := known _ _ _ runs
    split at next
    next none =>
      cases next
      rw [none] at given ⊢
      exact .plusFail given
    next some =>
      obtain ⟨others, behind, rfl⟩ := Option.map_eq_some_iff.mp next
      exact .plusStep (some ▸ given) (known _ _ _ behind)
  | opt a =>
    obtain ⟨first, runs, rfl⟩ := Option.map_eq_some_iff.mp h
    exact .opt (known _ _ _ runs)
  | not a =>
    obtain ⟨first, runs, rfl⟩ := Option.map_eq_some_iff.mp h
    exact .not (known _ _ _ runs)
  | and a =>
    obtain ⟨first, runs, rfl⟩ := Option.map_eq_some_iff.mp h
    exact .and (known _ _ _ runs)

private theorem yields_of_run {fuel : Nat} {e : Expr} {c : Cursor} {m : Match}
    (h : run rules fuel e c = some m) : Yields rules e c m.result := by
  -- A layer runs everything below it with less fuel.
  induction fuel generalizing e c m with
  | zero => cases h
  | succ fuel ih =>
    rw [run_succ] at h
    exact layer_yields (fun _ _ _ h => ih h) h

theorem Yields.gives {e : Expr} {c : Cursor} {result : Option (List Node × Cursor)}
    (h : Yields rules e c result) : Gives rules e c result := by
  induction h with
  | literal text c => exact .literal text c
  | any c => exact .any c
  | startOfInput c =>
    refine ⟨1, _, rfl, ?_⟩
    by_cases first : c.offset = 0 <;> simp [Match.plain, first]
  | endOfInput c => exact .endOfInput c
  | undefined absent c => exact .undefined absent c
  | @call name rule c result found _ ih =>
    obtain rfl : rule.name = name := by simpa using List.find?_some found
    obtain ⟨name, kind, body⟩ := rule
    cases kind with
    | silent => simpa [Rule.leaves] using Gives.silent found ih
    | normal => exact .normal found ih
    | atomic => exact .atomic found ih
  | seq _ _ first second => exact .seq first second
  | seqFail _ _ first => exact .seq_fail first
  | choiceFirst _ _ first => exact .choice_first first
  | choiceSecond _ _ first second => exact .choice_second first second
  | starStop _ first => exact .star_stop first
  | starStep _ _ first others => exact .star_step first others
  -- `plus` is matched as its operand in sequence with the repetition of it.
  | plusFail _ first => exact .plus (.seq_fail first)
  | plusStep _ _ first others => exact .plus (.seq first others)
  | opt _ body => exact .opt body
  | not _ body => exact .not body
  | and _ body => exact .and body

/-- Whatever is given comes about in one of these ways. -/
theorem yields_iff_gives {e : Expr} {c : Cursor} {result : Option (List Node × Cursor)} :
    Yields rules e c result ↔ Gives rules e c result := by
  refine ⟨Yields.gives, ?_⟩
  rintro ⟨fuel, m, runs, rfl⟩
  exact yields_of_run runs

end Rules

end FeatureFile
