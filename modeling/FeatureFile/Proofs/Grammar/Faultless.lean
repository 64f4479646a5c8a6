import FeatureFile.Proofs.Grammar.Ranking
import FeatureFile.Proofs.Text.FirstOccurrences
import Mathlib.Logic.Function.Iterate
/-!
Rules without a fault. The checks on a grammar look names up in sets that are found by iteration;
where a list of names is closed under what the iteration adds, the set stays within the list. For
the shipped template such lists are known whatever the keywords are, so every language whose name
can name a rule has a grammar.
-/

namespace FeatureFile

open GrammarText

theorem settle_eq_iterate {α : Type} [DecidableEq α] (f : α → α) (n : Nat) (a : α) :
    settle f n a = f^[n] a := by
  induction n generalizing a with
  | zero => rfl
  | succ n ih =>
    rw [settle, Function.iterate_succ_apply]
    split
    next same => rw [same, Function.iterate_fixed same]
    next => exact ih (f a)

namespace Expr

variable {known more : List String} {e : Expr}

theorem unfailing_mono (within : known ⊆ more) (h : e.unfailing known = true) :
    e.unfailing more = true := by
  induction e with
  | literal | any | startOfInput | endOfInput | not => exact h
  | call name =>
    have listed : name ∈ known := by simpa [unfailing] using h
    simpa [unfailing] using within listed
  | seq a b iha ihb =>
    simp only [unfailing, Bool.and_eq_true] at h ⊢
    exact ⟨iha h.1, ihb h.2⟩
  | choice a b iha ihb =>
    simp only [unfailing, Bool.or_eq_true] at h ⊢
    exact h.imp iha ihb
  | plus e ih | and e ih => exact ih h
  | star | opt => rfl

theorem frontCalls_subset (sure : List String) (e : Expr) : e.frontCalls sure ⊆ e.calls := by
  induction e with
  | literal | any | startOfInput | endOfInput | call => exact fun _ h => h
  | seq a b iha ihb =>
    simp only [frontCalls, calls]
    split
    · exact List.Subset.trans ihb (List.subset_append_right _ _)
    · exact List.Subset.trans iha (List.subset_append_left _ _)
  | choice a b iha ihb =>
    exact List.append_subset.mpr ⟨List.Subset.trans iha (List.subset_append_left _ _),
      List.Subset.trans ihb (List.subset_append_right _ _)⟩
  | star e ih | plus e ih | opt e ih | not e ih | and e ih => exact ih

end Expr

/-- A rule that is listed if it matches at every place, and hides none of its alternatives. -/
structure Rule.Reaches (sure : List String) (rule : Rule) : Prop where
  listed : rule.body.unfailing sure = true → rule.name ∈ sure
  reached : ∀ e ∈ rule.body.preceding, e.unfailing sure = false

instance (sure : List String) (rule : Rule) : Decidable (rule.Reaches sure) :=
  decidable_of_iff
    ((rule.body.unfailing sure = true → rule.name ∈ sure) ∧
      ∀ e ∈ rule.body.preceding, e.unfailing sure = false)
    ⟨fun ⟨listed, reached⟩ => ⟨listed, reached⟩, fun ⟨listed, reached⟩ => ⟨listed, reached⟩⟩

namespace Rules

variable {rules : List Rule} {rank : String → Nat} {empty sure : List String}

/-- A list that is closed under the property has the least set in it. -/
theorem least_subset {holds : List String → Expr → Bool} {bound : List String}
    (mono : ∀ {known more e}, known ⊆ more → holds known e = true → holds more e = true)
    (closed : ∀ rule ∈ rules, holds bound rule.body = true → rule.name ∈ bound) :
    least holds rules ⊆ bound := by
  rw [least, settle_eq_iterate]
  -- Every round stays within the list, so the number of rounds does not matter.
  generalize rules.length = n
  induction n with
  | zero => exact List.nil_subset _
  | succ n ih =>
    rw [Function.iterate_succ_apply']
    intro name member
    obtain ⟨rule, kept, rfl⟩ := List.mem_map.mp member
    obtain ⟨inside, given⟩ := List.mem_filter.mp kept
    exact closed rule inside (mono ih given)

/-- Rules whose fronts go down in rank cannot come back to themselves. -/
theorem mem_grounded {fronts : List (String × List String)}
    (below : ∀ front ∈ fronts, ∀ name ∈ front.2,
      name ∈ fronts.map Prod.fst ∧ rank name < rank front.1)
    {front : String × List String} (member : front ∈ fronts)
    (bound : rank front.1 < fronts.length) : front.1 ∈ grounded fronts := by
  rw [grounded, settle_eq_iterate]
  -- After `n` rounds the rules of rank below `n` are in.
  generalize fronts.length = n at bound
  induction n generalizing front with
  | zero => omega
  | succ n ih =>
    rw [Function.iterate_succ_apply']
    refine List.mem_map.mpr ⟨front, List.mem_filter.mpr ⟨member, ?_⟩, rfl⟩
    rw [List.all_eq_true]
    intro name inside
    obtain ⟨defined, lower⟩ := below front member name inside
    obtain ⟨other, known, rfl⟩ := List.mem_map.mp defined
    simpa using ih known (by omega)

theorem repeatedName?_eq_none {names : List String} (distinct : names.Nodup) :
    repeatedName? names = none := by
  induction distinct with
  | nil => rfl
  | cons other _ ih =>
    rw [repeatedName?, if_neg, ih]
    simpa using fun member => other _ member rfl

theorem idleRule?_eq_none (ranked : Ranked rules rank empty) : idleRule? rules = none := by
  have within : nullable rules ⊆ empty :=
    least_subset (fun sub => Expr.nullable_mono fun _ _ h => sub h)
      fun rule member => (ranked rule member).listed
  refine List.find?_eq_none.mpr fun rule member => ?_
  simp only [List.any_eq_true, not_exists, not_and]
  intro body inside idle
  have repeats := Expr.nullable_mono (fun _ _ h => within h) idle
  rw [(ranked rule member).progress body inside] at repeats
  cases repeats

theorem hidingRule?_eq_none (reaches : ∀ rule ∈ rules, rule.Reaches sure) :
    hidingRule? rules = none := by
  have within : unfailing rules ⊆ sure :=
    least_subset Expr.unfailing_mono fun rule member => (reaches rule member).listed
  refine List.find?_eq_none.mpr fun rule member => ?_
  simp only [List.any_eq_true, not_exists, not_and]
  intro e inside hides
  have everywhere := Expr.unfailing_mono within hides
  rw [(reaches rule member).reached e inside] at everywhere
  cases everywhere

theorem recursiveName?_eq_none (ranked : Ranked rules rank empty)
    (defined : ∀ rule ∈ rules, ∀ name ∈ rule.body.calls, name ∈ names rules)
    (bound : ∀ rule ∈ rules, rank rule.name < rules.length) : recursiveName? rules = none := by
  -- The rules at whose front a rule starts are among those it calls, and so rank below it.
  let fronts := rules.map fun rule => (rule.name, front rules rule)
  have below : ∀ entry ∈ fronts, ∀ name ∈ entry.2,
      name ∈ fronts.map Prod.fst ∧ rank name < rank entry.1 := by
    intro entry listed name first
    obtain ⟨rule, inside, rfl⟩ := List.mem_map.mp listed
    have called := Expr.frontCalls_subset _ _ first
    exact ⟨by simpa [fronts, names] using defined rule inside name called,
      (ranked rule inside).below name called⟩
  refine List.find?_eq_none.mpr fun name member => ?_
  obtain ⟨rule, inside, rfl⟩ := List.mem_map.mp member
  have listed : (rule.name, front rules rule) ∈ fronts := List.mem_map_of_mem inside
  simpa using mem_grounded below listed (by simpa [fronts] using bound rule inside)

/-- Rules that pass every check. -/
theorem fault?_eq_none (unreserved : ∀ name ∈ names rules, name ∉ reservedNames)
    (distinct : (names rules).Nodup)
    (defined : ∀ rule ∈ rules, ∀ name ∈ rule.body.calls, name ∈ names rules)
    (ranked : Ranked rules rank empty) (bound : ∀ rule ∈ rules, rank rule.name < rules.length)
    (reaches : ∀ rule ∈ rules, rule.Reaches sure) : fault? rules = none := by
  have reserved : (names rules).find? reservedNames.contains = none := by
    simpa [List.find?_eq_none] using unreserved
  have undefined : (rules.flatMap (·.body.calls)).find? (!(names rules).contains ·) = none := by
    simpa [List.find?_eq_none] using defined
  simp only [fault?, reserved, repeatedName?_eq_none distinct, undefined, idleRule?_eq_none ranked,
    hidingRule?_eq_none reaches, recursiveName?_eq_none ranked defined bound, Option.map_none]
  rfl

end Rules

/-! ### The shipped template -/

/-- Keywords fail at the end of a text, and none hides those behind it. -/
theorem GrammarText.keywordChoice_fails (keywords : List Text) (sure : List String) :
    (keywordChoice keywords).unfailing sure = false ∧
      ∀ e ∈ (keywordChoice keywords).preceding, e.unfailing sure = false := by
  refine keywordChoice_induction
    (P := fun e => e.unfailing sure = false ∧ ∀ a ∈ e.preceding, a.unfailing sure = false)
    ⟨rfl, nofun⟩ ?_ ?_
  · intro k _ full
    exact ⟨by simpa [Expr.unfailing] using full, nofun⟩
  · rintro k _ full e ⟨fails, reached⟩
    have first : (Expr.literal k).unfailing sure = false := by simpa [Expr.unfailing] using full
    refine ⟨by simp [Expr.unfailing, fails, full], ?_⟩
    intro a member
    simp only [Expr.preceding, List.nil_append, List.mem_cons] at member
    rcases member with rfl | behind
    · exact first
    · exact reached a behind

namespace Template

/-- The names of the rules behind the first, in the order of the template. -/
def ruleNames : List String :=
  ["feature", "background", "scenario", "scenario_outline", "examples", "steps", "step", "table",
    "table_row", "cell", "doc_string", "doc_string_body", "doc_string_line", "doc_string_fence",
    "tags", "tag_line", "tag", "description", "description_line", "structural_start",
    "section_header", "ignorable", "comment_line", "comment", "text", "sp", "line_end",
    "blank_line", "nl", "feature_keyword", "background_keyword", "scenario_keyword",
    "scenario_outline_keyword", "examples_keyword", "step_keyword"]

/-- The rules among them that match at every place. -/
def sureRules : List String :=
  ["sp", "text", "cell", "tags", "description", "doc_string_body", "steps"]

theorem names_shippedRules (language : Language) :
    Rules.names (shippedRules language) = language.entryRule :: ruleNames :=
  rfl

/-- The rules of the shipped template have no fault, whatever the keywords are. -/
theorem fault?_shippedRules (language : Language) :
    Rules.fault? (shippedRules language) = none := by
  -- What does not depend on the language is checked by running the definitions.
  have same : ∀ name ∈ ruleNames, name ∈ calledFirst ∧ name ∉ reservedNames := by
    decide +kernel
  have reserved : ∀ name ∈ reservedNames, ¬ "Parser".toList <:+ name.toList := by
    decide +kernel
  have fixed : ∀ rule ∈ fixedRules, rule.Reaches sureRules ∧ rule.body.calls ⊆ ruleNames := by
    decide +kernel
  have entry : (entryRule "").Reaches sureRules ∧ (entryRule "").body.calls ⊆ ruleNames := by
    decide +kernel
  have rules : ∀ rule ∈ shippedRules language,
      rule.Reaches sureRules ∧ rule.body.calls ⊆ ruleNames := by
    intro rule member
    rcases List.mem_cons.mp member with rfl | other
    · -- The entry rule may fail, so its name does not matter.
      exact ⟨⟨nofun, entry.1.reached⟩, entry.2⟩
    · rcases List.mem_append.mp other with known | keyword
      · exact fixed rule known
      · obtain ⟨⟨name, keywords⟩, _, rfl⟩ := List.mem_map.mp keyword
        obtain ⟨fails, reached⟩ := keywordChoice_fails keywords sureRules
        obtain ⟨calls, _⟩ := keywordChoice_plain keywords
        exact ⟨⟨by simp [fails], reached⟩, by simp [calls]⟩
  have ranked := ranked_shipped language (List.subset_append_left _ _)
  refine Rules.fault?_eq_none ?_ ?_ ?_ ranked ?_ fun rule member => (rules rule member).1
  · rw [names_shippedRules, List.forall_mem_cons]
    exact ⟨fun member => entryRule_ne language (reserved _ member) rfl,
      fun name member => (same name member).2⟩
  · rw [names_shippedRules, List.nodup_cons]
    exact ⟨fun member => entryRule_not_mem language (same _ member).1, by decide +kernel⟩
  · intro rule member name called
    rw [names_shippedRules]
    exact List.mem_cons_of_mem _ ((rules rule member).2 called)
  · intro rule _
    have rank : calledFirst.idxOf rule.name ≤ calledFirst.length := List.idxOf_le_length
    have count : (shippedRules language).length = calledFirst.length + 1 := rfl
    rw [count]
    exact Nat.lt_succ_of_le rank

end Template

/-- A language compiles if and only if the template can be filled with its name. -/
theorem Parser.exists_compile_iff {language : Language} :
    (∃ parser, Parser.compile Template.shipped language = .ok parser) ↔
      '\n' ∉ language.name ∧ MayName language.entryRule := by
  constructor
  · rintro ⟨parser, compiled⟩
    exact Parser.named_of_compile compiled
  · rintro ⟨unbroken, may⟩
    exact ⟨_, Parser.compile_shipped_eq unbroken may (Template.fault?_shippedRules language)⟩

/-! ### Keywords in a grammar -/

/-- The rule of the name is the ordered choice of the texts; of none, it matches nowhere. -/
def Rules.IsChoice (rules : List Rule) (name : String) : List Text → Prop
  | [] => ∀ c, Gives rules (.call name) c none
  | first :: others =>
    find? rules name = some ⟨name, .atomic, .choices (.literal first) (others.map .literal)⟩

namespace Template

theorem nodup_alternatives (keywords : List Text) : (alternatives keywords).Nodup :=
  (longestFirst_perm _).nodup_iff.mpr (nodup_eraseDups _)

theorem isChoice_alternatives {rules : List Rule} {name : String} {keywords : List Text}
    (found : Rules.find? rules name = some ⟨name, .atomic, keywordChoice keywords⟩) :
    Rules.IsChoice rules name (alternatives keywords) := by
  unfold keywordChoice at found
  cases listed : alternatives keywords with
  | nil =>
    rw [listed] at found
    exact fun c => .atomic found (.never c)
  | cons first others =>
    rw [listed] at found
    exact found

end Template

/-- Every language whose name stays in its comment and can name a rule has a grammar: its rules are
those of the template, and each list of keywords has become the choice of exactly the keywords that
are not empty, with the characters they have. -/
theorem Parser.compile_shipped_keywords (language : Language) (unbroken : '\n' ∉ language.name)
    (may : MayName language.entryRule) :
    ∃ text parser, Template.render Template.shipped language = .ok text ∧
      Parser.compile Template.shipped language = .ok parser ∧
      parser.entryRule.toList = language.grammarIdentifier ++ "Parser".toList ∧
      parser.grammar.ruleNames = parser.entryRule :: Template.ruleNames ∧
      ∀ name keywords, (name, keywords) ∈ Template.keywordLists language →
        ∃ alternatives : List Text, alternatives.Nodup ∧
          (∀ k, k ∈ alternatives ↔ k ∈ keywords ∧ k ≠ []) ∧
          (alternatives.Pairwise fun a b => b.length ≤ a.length) ∧
          Rules.IsChoice parser.grammar.arranged name alternatives := by
  have compiled := compile_shipped_eq unbroken may (Template.fault?_shippedRules language)
  refine ⟨_, _, Template.render_shipped language, compiled, language.toList_entryRule, rfl, ?_⟩
  intro name keywords member
  exact ⟨Template.alternatives keywords, Template.nodup_alternatives keywords,
    fun _ => Vocabulary.mem_alternatives, pairwise_longestFirst _,
    Template.isChoice_alternatives ((shipped_rules compiled).keyword _ member)⟩

/-- A language whose keywords are made of the signs of templates and grammar texts. -/
def Language.marked : Language where
  identifier := "xx"
  table := .ofList [(.name, "Mini Tongue".toList),
    (.feature, "say \"hi\"|\\|\x7b\x7b name \x7d\x7d||\\".toList), (.given, "// \t!ANY".toList)]
  named := by decide

theorem Parser.compile_shipped_keywords_marked :
    '\n' ∉ Language.marked.name ∧ MayName Language.marked.entryRule ∧
      ∃ parser, Parser.compile Template.shipped Language.marked = .ok parser ∧
        parser.entryRule.toList = "MiniTongueParser".toList ∧
        ∃ alternatives, alternatives.Nodup ∧
          (∀ k, k ∈ alternatives ↔
            k ∈ ["say \"hi\"".toList, ['\\'], "\x7b\x7b name \x7d\x7d".toList]) ∧
          Rules.IsChoice parser.grammar.arranged "feature_keyword" alternatives := by
  have unbroken : '\n' ∉ Language.marked.name := by decide +kernel
  have may : MayName Language.marked.entryRule := by decide +kernel
  have split : Language.marked.presentKeywords .feature =
      ["say \"hi\"".toList, ['\\'], "\x7b\x7b name \x7d\x7d".toList, [], ['\\']] := by
    decide +kernel
  obtain ⟨_, parser, _, compiled, entry, _, keywords⟩ :=
    Parser.compile_shipped_keywords Language.marked unbroken may
  obtain ⟨alternatives, distinct, listed, _, choice⟩ := keywords _ _ List.mem_cons_self
  have named : parser.entryRule.toList = "MiniTongueParser".toList :=
    entry.trans (by decide +kernel)
  refine ⟨unbroken, may, parser, compiled, named, alternatives, distinct, ?_, choice⟩
  intro k
  rw [listed, split]
  simp only [List.mem_cons, List.not_mem_nil, or_false]
  constructor
  · rintro ⟨rfl | rfl | rfl | rfl | rfl, full⟩ <;> simp_all
  · rintro (rfl | rfl | rfl) <;> simp

end FeatureFile
