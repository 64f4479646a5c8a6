import FeatureFile.Proofs.Grammar.Compiled
import FeatureFile.Proofs.Line.Separation
import Mathlib.Logic.Relation
/-!
Why matching ends. Rules that call only rules of a lower rank cannot come back to themselves, and a
repetition whose body takes a character every time runs out of text. Both are read off the rules,
given a list of those that may match nothing.
-/

namespace FeatureFile

open GrammarText

namespace Expr

variable {known more : List String} {e : Expr}

/-- Only the rules that an expression calls matter to whether it may match nothing. -/
theorem nullable_mono (within : ∀ name ∈ e.calls, name ∈ known → name ∈ more)
    (h : e.nullable known = true) : e.nullable more = true := by
  induction e with
  | literal | any | startOfInput | endOfInput => exact h
  | call name =>
    have listed : name ∈ known := by simpa [nullable] using h
    simpa [nullable] using within name (by simp [calls]) listed
  | seq a b iha ihb =>
    simp only [calls, List.forall_mem_append] at within
    simp only [nullable, Bool.and_eq_true] at h ⊢
    exact ⟨iha within.1 h.1, ihb within.2 h.2⟩
  | choice a b iha ihb =>
    simp only [calls, List.forall_mem_append] at within
    simp only [nullable, Bool.or_eq_true] at h ⊢
    exact h.imp (iha within.1) (ihb within.2)
  | plus e ih => exact ih within h
  | star | opt | not | and => rfl

theorem calls_of_mem_repeated {body : Expr} (member : body ∈ e.repeated) :
    body.calls ⊆ e.calls := by
  induction e with
  | literal | any | startOfInput | endOfInput | call => cases member
  | seq a b iha ihb | choice a b iha ihb =>
    rcases List.mem_append.mp member with first | second
    · exact List.Subset.trans (iha first) (List.subset_append_left _ _)
    · exact List.Subset.trans (ihb second) (List.subset_append_right _ _)
  | star e ih | plus e ih =>
    rcases List.mem_cons.mp member with rfl | inside
    · exact fun _ h => h
    · exact ih inside
  | opt e ih | not e ih | and e ih => exact ih member

end Expr

/-- A rule that calls only rules of lower rank, is listed if it may match nothing, and repeats only
what takes a character. -/
structure Rule.Descends (rank : String → Nat) (empty : List String) (rule : Rule) : Prop where
  below : ∀ name ∈ rule.body.calls, rank name < rank rule.name
  listed : rule.body.nullable empty = true → rule.name ∈ empty
  progress : ∀ body ∈ rule.body.repeated, body.nullable empty = false

instance (rank : String → Nat) (empty : List String) (rule : Rule) :
    Decidable (rule.Descends rank empty) :=
  decidable_of_iff
    ((∀ name ∈ rule.body.calls, rank name < rank rule.name) ∧
      (rule.body.nullable empty = true → rule.name ∈ empty) ∧
      ∀ body ∈ rule.body.repeated, body.nullable empty = false)
    ⟨fun ⟨below, listed, progress⟩ => ⟨below, listed, progress⟩,
      fun ⟨below, listed, progress⟩ => ⟨below, listed, progress⟩⟩

theorem Rule.Descends.cons {rank : String → Nat} {empty : List String} {rule : Rule}
    (descends : rule.Descends rank empty) {name : String} (uncalled : name ∉ rule.body.calls) :
    rule.Descends rank (name :: empty) := by
  -- Of the two lists the body and its parts see the same: the name is not among their calls.
  have within {e : Expr} (inside : e.calls ⊆ rule.body.calls) :
      ∀ callee ∈ e.calls, callee ∈ name :: empty → callee ∈ empty := by
    intro callee calls member
    rcases List.mem_cons.mp member with rfl | listed
    · exact absurd (inside calls) uncalled
    · exact listed
  refine ⟨descends.below, ?_, ?_⟩
  · intro nullable
    exact List.mem_cons_of_mem _
      (descends.listed (Expr.nullable_mono (within fun _ h => h) nullable))
  · intro body member
    rw [Bool.eq_false_iff]
    intro nullable
    have idle := Expr.nullable_mono (within (Expr.calls_of_mem_repeated member)) nullable
    rw [descends.progress body member] at idle
    cases idle

namespace Rules

/-- All rules descend. -/
def Ranked (rules : List Rule) (rank : String → Nat) (empty : List String) : Prop :=
  ∀ rule ∈ rules, rule.Descends rank empty

variable {rules : List Rule} {rank : String → Nat} {empty : List String}
  {e : Expr} {c d : Cursor} {nodes : List Node}

theorem name_of_find? {rule : Rule} {name : String} (found : find? rules name = some rule) :
    rule.name = name := by
  simpa using List.find?_some found

namespace Ranked

variable (ranked : Ranked rules rank empty)
include ranked

theorem nullable_of_matches (h : Matches rules e c nodes d)
    (stays : c.rest.length ≤ d.rest.length) : e.nullable empty = true := by
  -- Matching only moves forward, so if the whole takes no character then none of its parts does.
  induction h with
  | @literal text c d skips =>
    obtain ⟨rest, _⟩ := Cursor.skip?_eq_some_iff.mp skips
    have nothing : text.length = 0 := by
      rw [rest, List.length_append] at stays
      omega
    simpa [Expr.nullable] using nothing
  | @any c d next =>
    unfold Cursor.next? at next
    split at next
    · cases next
    next x rest split =>
      cases next
      rw [split, List.length_cons] at stays
      exact absurd stays (Nat.not_succ_le_self _)
  | @call name rule c d nodes found _ ih =>
    obtain rfl := name_of_find? found
    have listed := (ranked rule (List.mem_of_find?_eq_some found)).listed (ih stays)
    simpa [Expr.nullable] using listed
  | seq first second ih ih' =>
    have before := first.reaches.length_le
    have behind := second.reaches.length_le
    simp [Expr.nullable, ih (by omega), ih' (by omega)]
  | plus first others ih =>
    have behind := others.reaches.length_le
    exact ih (by omega)
  | choiceFirst _ _ ih => simp [Expr.nullable, ih stays]
  | choiceSecond _ _ ih => simp [Expr.nullable, ih stays]
  | startOfInput | endOfInput | starStop | starStep | optNone | optSome | not | and => rfl

/-- What cannot match nothing takes a character wherever it matches. -/
theorem progresses (progress : e.nullable empty = false) (gives : Gives rules e c (some (nodes, d))) :
    d.rest.length < c.rest.length := by
  by_contra stays
  rw [ranked.nullable_of_matches gives.matches (by omega)] at progress
  cases progress

/-- The needs of a repetition come to an end if those of its body do and it takes a character every
time. -/
theorem acc_star (body : ∀ c, Acc (NeededBy rules) (e, c)) (progress : e.nullable empty = false)
    (c : Cursor) : Acc (NeededBy rules) (.star e, c) := by
  -- The induction is on what is left of the text.
  induction size : c.rest.length using Nat.strong_induction_on generalizing c with
  | _ n ih =>
  subst size
  refine .intro _ fun stage needed => ?_
  cases needed with
  | starFirst => exact body c
  | @starOthers _ _ d _ first => exact ih _ (ranked.progresses progress first) d rfl

/-- The needs of an expression come to an end if those of the rules it calls do. -/
theorem acc_of_calls (called : ∀ name ∈ e.calls, ∀ c, Acc (NeededBy rules) (.call name, c))
    (progress : ∀ body ∈ e.repeated, body.nullable empty = false) :
    ∀ c, Acc (NeededBy rules) (e, c) := by
  intro c
  induction e generalizing c with
  | literal | any | startOfInput | endOfInput => exact .intro _ nofun
  | call name => exact called name (by simp [Expr.calls]) c
  | seq a b iha ihb =>
    simp only [Expr.calls, Expr.repeated, List.forall_mem_append] at called progress
    refine .intro _ fun stage needed => ?_
    cases needed with
    | seqFirst => exact iha called.1 progress.1 c
    | seqSecond => exact ihb called.2 progress.2 _
  | choice a b iha ihb =>
    simp only [Expr.calls, Expr.repeated, List.forall_mem_append] at called progress
    refine .intro _ fun stage needed => ?_
    cases needed with
    | choiceFirst => exact iha called.1 progress.1 c
    | choiceSecond => exact ihb called.2 progress.2 c
  | star a ih =>
    simp only [Expr.repeated, List.forall_mem_cons] at progress
    exact ranked.acc_star (ih called progress.2) progress.1 c
  | plus a ih =>
    simp only [Expr.repeated, List.forall_mem_cons] at progress
    refine .intro _ fun stage needed => ?_
    cases needed with
    | plusFirst => exact ih called progress.2 c
    | plusOthers => exact ranked.acc_star (ih called progress.2) progress.1 _
  | opt a ih | not a ih | and a ih =>
    refine .intro _ fun stage needed => ?_
    cases needed
    exact ih called progress c

/-- The needs of a rule come to an end at every place. -/
theorem acc_call (name : String) (c : Cursor) : Acc (NeededBy rules) (.call name, c) := by
  -- The induction is on the rank; the place does not matter, since it starts anew for each callee.
  induction level : rank name using Nat.strong_induction_on generalizing name c with
  | _ n ih =>
  subst level
  refine .intro _ fun stage needed => ?_
  cases needed with
  | @body _ rule found =>
    have descends := ranked rule (List.mem_of_find?_eq_some found)
    obtain rfl := name_of_find? found
    exact ranked.acc_of_calls (fun callee member c => ih _ (descends.below callee member) callee c rfl)
      descends.progress c

/-- Matching a rule ends at every place. -/
theorem exists_call (name : String) (c : Cursor) :
    ∃ result, Gives rules (.call name) c result :=
  exists_gives_of_acc (ranked.acc_call name c)

/-- What a match needs calls rules of no higher rank. -/
theorem calls_of_needed {stage stage' : Expr × Cursor} {level : Nat}
    (needed : NeededBy rules stage' stage) (below : ∀ name ∈ stage.1.calls, rank name < level) :
    ∀ name ∈ stage'.1.calls, rank name < level := by
  cases needed with
  | @body name rule found =>
    obtain rfl := name_of_find? found
    intro callee calls
    have lower := (ranked rule (List.mem_of_find?_eq_some found)).below callee calls
    exact lower.trans (below rule.name (by simp [Expr.calls]))
  | seqFirst | choiceFirst => exact (List.forall_mem_append.mp below).1
  | seqSecond | choiceSecond => exact (List.forall_mem_append.mp below).2
  | starFirst | starOthers | plusFirst | plusOthers | opt | not | and => exact below

/-- All that a match needs, next or later, calls rules of no higher rank. -/
theorem calls_of_needs {stage stage' : Expr × Cursor} {level : Nat}
    (needs : Relation.ReflTransGen (NeededBy rules) stage' stage)
    (below : ∀ name ∈ stage.1.calls, rank name < level) :
    ∀ name ∈ stage'.1.calls, rank name < level := by
  induction needs using Relation.ReflTransGen.head_induction_on with
  | refl => exact below
  | head needed _ ih => exact ranked.calls_of_needed needed ih

/-- A rule never needs itself, at whatever place. -/
theorem not_needed_by_itself (name : String) (c d : Cursor) :
    ¬ Relation.TransGen (NeededBy rules) (.call name, d) (.call name, c) := by
  intro chain
  obtain ⟨stage, needs, body⟩ := Relation.TransGen.tail'_iff.mp chain
  have entered : ∀ callee ∈ stage.1.calls, rank callee < rank name := by
    cases body with
    | @body _ rule found =>
      obtain rfl := name_of_find? found
      exact (ranked rule (List.mem_of_find?_eq_some found)).below
  have below := ranked.calls_of_needs needs entered name (by simp [Expr.calls])
  exact Nat.lt_irrefl _ below

end Ranked

end Rules

/-! ### The shipped template -/

namespace GrammarText

/-- What holds of the expression that never matches, and of alternatives with a character each. -/
theorem keywordChoice_induction {P : Expr → Prop} {keywords : List Text}
    (none : P (.seq (.not .any) .any)) (single : ∀ k ∈ keywords, k ≠ [] → P (.literal k))
    (several : ∀ k ∈ keywords, k ≠ [] → ∀ e, P e → P (.choice (.literal k) e)) :
    P (keywordChoice keywords) := by
  unfold keywordChoice
  cases listed : Template.alternatives keywords with
  | nil => exact none
  | cons first rest =>
    have full : ∀ k ∈ first :: rest, k ∈ keywords ∧ k ≠ [] := by
      intro k member
      exact Vocabulary.mem_alternatives.mp (listed ▸ member)
    clear listed
    induction rest generalizing first with
    | nil =>
      obtain ⟨member, some⟩ := full first List.mem_cons_self
      exact single first member some
    | cons second rest ih =>
      rw [List.forall_mem_cons] at full
      exact several first full.1.1 full.1.2 _ (ih second full.2)

/-- Keywords call nothing, repeat nothing, and take a character. -/
theorem keywordChoice_plain (keywords : List Text) :
    (keywordChoice keywords).calls = [] ∧ (keywordChoice keywords).repeated = [] ∧
      ∀ empty, (keywordChoice keywords).nullable empty = false := by
  refine keywordChoice_induction
    (P := fun e => e.calls = [] ∧ e.repeated = [] ∧ ∀ empty, e.nullable empty = false)
    ⟨rfl, rfl, fun _ => rfl⟩ ?_ ?_
  · intro k _ full
    exact ⟨rfl, rfl, fun _ => by simpa [Expr.nullable] using full⟩
  · rintro k _ full e ⟨calls, repeated, nullable⟩
    refine ⟨calls, repeated, fun empty => ?_⟩
    simpa [Expr.nullable, nullable empty] using full

end GrammarText

namespace Template

/-- The names of the rules behind the first, each behind those it calls. -/
def calledFirst : List String :=
  ["nl", "sp", "doc_string_fence", "text", "comment", "tag", "cell",
    "feature_keyword", "background_keyword", "scenario_keyword", "scenario_outline_keyword",
    "examples_keyword", "step_keyword", "line_end", "blank_line", "comment_line", "ignorable",
    "tag_line", "tags", "section_header", "structural_start", "description_line", "description",
    "table_row", "table", "doc_string_line", "doc_string_body", "doc_string", "step", "steps",
    "examples", "scenario_outline", "scenario", "background", "feature"]

/-- The rules among them that may match nothing. -/
def emptyRules : List String :=
  ["sp", "text", "cell", "line_end", "tags", "description", "doc_string_body", "steps"]

/-- The entry rule is named as none of the other rules. -/
theorem entryRule_not_mem (language : Language) : language.entryRule ∉ calledFirst := by
  have other : ∀ name ∈ calledFirst, ¬ "Parser".toList <:+ name.toList := by
    decide +kernel
  intro member
  exact entryRule_ne language (other _ member) rfl

/-- The rules of the shipped template descend, as they are written and as they are matched. -/
theorem ranked_shipped (language : Language) {fixed : List Rule}
    (known : fixed ⊆ fixedRules ++ fixedRules.map Rule.arranged) :
    Rules.Ranked (entryRule language.entryRule :: (fixed ++
        (keywordLists language).map fun (name, keywords) =>
          (⟨name, .atomic, keywordChoice keywords⟩ : Rule)))
      calledFirst.idxOf (language.entryRule :: emptyRules) := by
  have apart := entryRule_not_mem language
  intro rule member
  rcases List.mem_cons.mp member with rfl | other
  · -- The name of the entry rule varies, so it is ranked above the list that all others are in.
    refine ⟨?_, fun _ => List.mem_cons_self, ?_⟩
    · have called : ∀ name ∈ (entryRule "").body.calls, name ∈ calledFirst := by
        decide +kernel
      intro name calls
      show calledFirst.idxOf name < calledFirst.idxOf language.entryRule
      rw [List.idxOf_eq_length apart]
      exact List.idxOf_lt_length_of_mem (called name calls)
    · have repeated : ∀ body ∈ (entryRule "").body.repeated, body = .call "ignorable" := by
        decide
      intro body inside
      have other : "ignorable" ≠ language.entryRule := by
        rintro same
        exact apart (same ▸ by decide)
      obtain rfl := repeated body inside
      simp [Expr.nullable, other, emptyRules]
  · rcases List.mem_append.mp other with fixedRule | keyword
    · -- These rules are closed terms: they are checked by running the definitions.
      have descends : ∀ rule ∈ fixedRules ++ fixedRules.map Rule.arranged,
          rule.Descends calledFirst.idxOf emptyRules ∧ rule.body.calls ⊆ calledFirst := by
        decide +kernel
      obtain ⟨descends, calls⟩ := descends rule (known fixedRule)
      exact descends.cons fun called => apart (calls called)
    · obtain ⟨⟨name, keywords⟩, _, rfl⟩ := List.mem_map.mp keyword
      obtain ⟨calls, repeated, nullable⟩ := keywordChoice_plain keywords
      exact ⟨by simp [calls], by simp [nullable], by simp [repeated]⟩

end Template

/-- The rules of a compiled grammar descend, as they are written and as they are matched. -/
theorem Parser.ranked_of_compile {language : Language} {parser : Parser}
    (compiled : Parser.compile Template.shipped language = .ok parser) :
    ∀ rules ∈ [parser.grammar.rules, parser.grammar.arranged],
      Rules.Ranked rules Template.calledFirst.idxOf (language.entryRule :: Template.emptyRules) := by
  intro rules member
  rcases List.mem_pair.mp member with rfl | rfl
  · rw [(compile_shipped compiled).1]
    exact Template.ranked_shipped language (List.subset_append_left _ _)
  · rw [arranged_shipped compiled, Template.map_arranged_shippedRules]
    exact Template.ranked_shipped language (List.subset_append_right _ _)

/-- A rule of a compiled grammar gives something on every text. -/
theorem Parser.exists_gives {language : Language} {parser : Parser}
    (compiled : Parser.compile Template.shipped language = .ok parser) (rule : String)
    (source : Text) :
    ∃ result, Rules.Gives parser.grammar.arranged (.call rule) (.start source) result :=
  (ranked_of_compile compiled _ (by simp)).exists_call rule (.start source)

/-- Matching a rule of a compiled grammar ends on every text. -/
theorem Parser.exists_match? {language : Language} {parser : Parser}
    (compiled : Parser.compile Template.shipped language = .ok parser) (rule : String)
    (source : Text) : ∃ m, parser.grammar.match? rule source = some m := by
  obtain ⟨result, gives⟩ := exists_gives compiled rule source
  obtain ⟨m, found, _⟩ := (Grammar.match?_iff (thrifty_shipped compiled)).mpr gives
  exact ⟨m, found⟩

end FeatureFile
