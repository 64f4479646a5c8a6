import FeatureFile.Proofs.Grammar.Yields
/-!
What a match is made of: matches of the operands, one behind the other, and of the bodies of rules.
Of what failed on the way only the operands of `not` are kept, so an expression may have more
derivations than matches. In exchange a derivation can be taken apart by induction.
-/

namespace FeatureFile

namespace Rules

variable {rules : List Rule}

/-- The expression takes the text from one place to the other, and leaves the nodes. -/
inductive Matches (rules : List Rule) : Expr → Cursor → List Node → Cursor → Prop where
  | literal {text : Text} {c d : Cursor} (skips : c.skip? text = some d) :
    Matches rules (.literal text) c [] d
  | any {c d : Cursor} (next : c.next? = some d) : Matches rules .any c [] d
  | startOfInput (c : Cursor) : Matches rules .startOfInput c [] c
  | endOfInput (c : Cursor) : Matches rules .endOfInput c [.mk "EOI" (c.upTo c) c.line []] c
  | call {name : String} {rule : Rule} {c d : Cursor} {nodes : List Node}
    (found : find? rules name = some rule) (body : Matches rules rule.body c nodes d) :
    Matches rules (.call name) c (rule.leaves c d nodes) d
  | seq {a b : Expr} {c d last : Cursor} {nodes more : List Node}
    (first : Matches rules a c nodes d) (second : Matches rules b d more last) :
    Matches rules (.seq a b) c (nodes ++ more) last
  | choiceFirst {a : Expr} (b : Expr) {c d : Cursor} {nodes : List Node}
    (first : Matches rules a c nodes d) : Matches rules (.choice a b) c nodes d
  | choiceSecond (a : Expr) {b : Expr} {c d : Cursor} {nodes : List Node}
    (second : Matches rules b c nodes d) : Matches rules (.choice a b) c nodes d
  | starStop (a : Expr) (c : Cursor) : Matches rules (.star a) c [] c
  | starStep {a : Expr} {c d last : Cursor} {nodes more : List Node}
    (first : Matches rules a c nodes d) (others : Matches rules (.star a) d more last) :
    Matches rules (.star a) c (nodes ++ more) last
  | plus {a : Expr} {c d last : Cursor} {nodes more : List Node}
    (first : Matches rules a c nodes d) (others : Matches rules (.star a) d more last) :
    Matches rules (.plus a) c (nodes ++ more) last
  | optNone (a : Expr) (c : Cursor) : Matches rules (.opt a) c [] c
  | optSome {a : Expr} {c d : Cursor} {nodes : List Node} (body : Matches rules a c nodes d) :
    Matches rules (.opt a) c nodes d
  | not {a : Expr} {c : Cursor} (fails : Gives rules a c none) : Matches rules (.not a) c [] c
  | and {a : Expr} {c d : Cursor} {nodes : List Node} (body : Matches rules a c nodes d) :
    Matches rules (.and a) c [] c

/-- A result that is a match has a derivation. -/
theorem Yields.matches {e : Expr} {c : Cursor} {result : Option (List Node × Cursor)}
    (h : Yields rules e c result) :
    ∀ nodes d, result = some (nodes, d) → Matches rules e c nodes d := by
  -- The induction is over all results, as a sequence needs its first operand before its own result
  -- is known; where the result is a failure there is nothing to derive.
  induction h with
  | literal text c =>
    intro nodes d given
    obtain ⟨last, skips, ends⟩ := Option.map_eq_some_iff.mp given
    cases ends
    exact .literal skips
  | any c =>
    intro nodes d given
    obtain ⟨last, next, ends⟩ := Option.map_eq_some_iff.mp given
    cases ends
    exact .any next
  | startOfInput c =>
    intro nodes d given
    split at given <;> cases given
    exact .startOfInput c
  | endOfInput c =>
    intro nodes d given
    split at given <;> cases given
    exact .endOfInput c
  | call found _ ih =>
    intro nodes d given
    obtain ⟨⟨inside, _⟩, rfl, ends⟩ := Option.map_eq_some_iff.mp given
    cases ends
    exact .call found (ih _ _ rfl)
  | seq _ _ first second =>
    intro nodes d given
    obtain ⟨more, rfl, behind⟩ := exists_behind given
    exact .seq (first _ _ rfl) (second _ _ behind)
  | choiceFirst b _ first => exact fun nodes d given => .choiceFirst b (first _ _ given)
  | choiceSecond _ _ _ second => exact fun nodes d given => .choiceSecond _ (second _ _ given)
  | starStop =>
    rintro nodes d ⟨⟩
    exact .starStop _ _
  | starStep _ _ first others =>
    intro nodes d given
    obtain ⟨more, rfl, behind⟩ := exists_behind given
    exact .starStep (first _ _ rfl) (others _ _ behind)
  | plusStep _ _ first others =>
    intro nodes d given
    obtain ⟨more, rfl, behind⟩ := exists_behind given
    exact .plus (first _ _ rfl) (others _ _ behind)
  | @opt a c result _ ih =>
    -- An option never fails, so it is the operand that decides which of the two rules applies.
    rintro nodes d given
    cases result with
    | none =>
      cases given
      exact .optNone a c
    | some pair =>
      cases given
      exact .optSome (ih _ _ rfl)
  | @not a c result body _ =>
    intro nodes d given
    cases result with
    | none =>
      cases given
      exact .not body.gives
    | some => cases given
  | and _ ih =>
    intro nodes d given
    obtain ⟨⟨inside, _⟩, rfl, ends⟩ := Option.map_eq_some_iff.mp given
    cases ends
    exact .and (ih _ _ rfl)
  | undefined | seqFail | plusFail => exact nofun

theorem Gives.matches {e : Expr} {c d : Cursor} {nodes : List Node}
    (h : Gives rules e c (some (nodes, d))) : Matches rules e c nodes d :=
  (yields_iff_gives.mpr h).matches _ _ rfl

end Rules

end FeatureFile
