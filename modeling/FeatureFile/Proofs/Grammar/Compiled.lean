import FeatureFile.Proofs.Grammar.Compilation
import FeatureFile.Proofs.Grammar.Fuel
/-!
What is known about a language whose grammar compiles. Its entry rule has a name that rules may
have, so its name stays inside the comment it is put in, and the grammar has the rules of the
shipped template and no others.
-/

namespace FeatureFile

open GrammarText

namespace GrammarText

/-- What a name with a line break leaves open in the text behind it. -/
private def Mode.IsBare : Mode → Prop
  | between | name _ | carriageReturn => True
  | _ => False

private theorem Mode.bare_fresh {c : Char} (plain : c ≠ '/' ∧ c ≠ '"') {output : List Token}
    {next : Mode} (h : Mode.fresh? c = some (output, next)) : next.IsBare := by
  unfold Mode.fresh? at h
  split_ifs at h
  iterate 2
    · cases h
      trivial
  · exact absurd ‹_› plain.1
  · exact absurd ‹_› plain.2
  · cases h
    trivial
  · obtain ⟨_, _, same⟩ := Option.map_eq_some_iff.mp h
    cases same
    trivial

private theorem Mode.bare_step {mode next : Mode} (bare : mode.IsBare) {c : Char}
    (plain : c ≠ '/' ∧ c ≠ '"') {output : List Token} (h : mode.step? c = some (output, next)) :
    next.IsBare := by
  cases mode with
  | between => exact bare_fresh plain h
  | name read =>
    simp only [step?] at h
    split_ifs at h
    · cases h
      trivial
    · obtain ⟨⟨more, last⟩, fresh, same⟩ := Option.map_eq_some_iff.mp h
      cases same
      exact bare_fresh plain fresh
  | carriageReturn =>
    simp only [step?] at h
    split_ifs at h
    cases h
    trivial
  | _ => exact bare.elim

/-- Outside of comments and literals a full stop is no grammar text. -/
private theorem transduce_full_stop {mode : Mode} (bare : mode.IsBare) {text : Text}
    (plain : ∀ c ∈ text, c ≠ '/' ∧ c ≠ '"') (behind : Text) :
    transduce Mode.step? mode (text ++ '.' :: behind) = none := by
  induction text generalizing mode with
  | nil =>
    have refused : mode.step? '.' = none := by
      cases mode <;> first | exact bare.elim | decide | skip
      simp [Mode.step?, show isNameChar '.' = false by decide, show Mode.fresh? '.' = none by decide]
    simp [transduce, refused]
  | cons c text ih =>
    simp only [List.mem_cons, forall_eq_or_imp] at plain
    cases moves : mode.step? c with
    | none => simp [transduce, moves]
    | some reached =>
      simp [transduce, moves, ih (Mode.bare_step bare plain.1 moves) plain.2]

/-- A comment with a line break in it and a full stop behind the break. -/
private theorem transduce_broken_comment {heading before behind note rest : Text}
    (opens : transduce Mode.step? .between heading = some ([], .comment)) (unbroken : '\n' ∉ before)
    (plain : ∀ c ∈ behind, c ≠ '/' ∧ c ≠ '"') :
    transduce Mode.step? .between
      (heading ++ ((before ++ '\n' :: behind) ++ (('.' :: note) ++ rest))) = none := by
  have stop : transduce Mode.step? .comment ('\n' :: (behind ++ '.' :: (note ++ rest))) = none := by
    have refused : transduce Mode.step? .between (behind ++ '.' :: (note ++ rest)) = none :=
      transduce_full_stop (show Mode.between.IsBare from trivial) plain (note ++ rest)
    simp [transduce, Mode.step?, Mode.inComment, refused]
  simp [transduce_append, opens, transduce_comment unbroken, stop]

end GrammarText

namespace Language

variable {language : Language}

/-- The characters of a name from which an entry rule can be named. -/
private theorem plain_of_mayName (may : MayName language.entryRule) :
    ∀ c ∈ language.name, c ≠ '/' ∧ c ≠ '"' := by
  intro c member
  by_cases white : Text.isWhitespace c = true
  · constructor <;> rintro rfl <;> revert white <;> decide
  · have kept : c ∈ language.grammarIdentifier :=
      List.mem_filter.mpr ⟨member, by simpa using white⟩
    have named : isNameChar c = true := by
      refine may.1.2 c ?_
      rw [language.toList_entryRule]
      exact List.mem_append_left _ kept
    constructor <;> rintro rfl <;> revert named <;> decide

/-- A name with a line break breaks the comment it is put in. -/
private theorem unbroken_of_rules? (may : MayName language.entryRule) {rules : List Rule}
    (h : rules? (Template.shippedText language) = some rules) : '\n' ∉ language.name := by
  intro broken
  obtain ⟨before, behind, split, unbroken⟩ := List.eq_append_cons_of_mem broken
  obtain ⟨tokens, read, _⟩ := Option.bind_eq_some_iff.mp h
  obtain ⟨⟨output, last⟩, runs, _⟩ := Option.bind_eq_some_iff.mp read
  have heading : transduce Mode.step? .between "// Feature-file grammar for ".toList =
      some ([], .comment) := by
    decide +kernel
  have note : ".\n// Rendered once per language; keyword rules come from its keyword table.\n\n".toList =
      '.' :: "\n// Rendered once per language; keyword rules come from its keyword table.\n\n".toList := by
    decide +kernel
  have plain : ∀ c ∈ behind, c ≠ '/' ∧ c ≠ '"' := fun c member =>
    plain_of_mayName may c (by rw [split]; exact List.mem_append_right _ (List.mem_cons_of_mem _ member))
  have shape : ∃ rest, Template.shippedText language = "// Feature-file grammar for ".toList ++
      (language.name ++ (".\n// Rendered once per language; keyword rules come from its keyword table.\n\n".toList ++
        rest)) := ⟨_, rfl⟩
  obtain ⟨rest, shape⟩ := shape
  have broken := (congrArg (fun note => transduce Mode.step? .between
    ("// Feature-file grammar for ".toList ++ ((before ++ '\n' :: behind) ++ (note ++ rest)))) note).trans
    (transduce_broken_comment heading unbroken plain)
  rw [shape, split] at runs
  cases broken.symm.trans runs

end Language

theorem Template.render_of_render? {template text : Text} {language : Language}
    (filled : render? filters (values language) template = some text) :
    Template.render (R := Grammar) template language = .ok text := by
  simp [Template.render, Engine.render, filled]

theorem Template.render_shipped (language : Language) :
    Template.render (R := Grammar) Template.shipped language = .ok (Template.shippedText language) :=
  render_of_render? (render?_shipped language)

theorem Grammar.rules?_of_compile {text : Text} {grammar : Grammar} (h : compile text = .ok grammar) :
    rules? text = some grammar.rules := by
  unfold compile at h
  cases read : rules? text with
  | none => simp [read] at h
  | some rules =>
    cases made : ofRules rules with
    | error fault => simp [read, made] at h
    | ok found =>
      obtain rfl : found = grammar := by simpa [read, made] using h
      unfold ofRules at made
      split at made <;> cases made
      rfl

/-- Rules without a fault are a grammar. -/
theorem Grammar.compile_eq_ok {text : Text} {rules : List Rule} (read : rules? text = some rules)
    (sound : Rules.fault? rules = none) : compile text = .ok ⟨rules, sound⟩ := by
  have made : ofRules rules = .ok ⟨rules, sound⟩ := by
    unfold ofRules
    split
    · rfl
    next found => cases sound.symm.trans found
  simp [compile, read, made]

/-- What compiling does with the text of a template. -/
theorem Parser.compile_of_render {template text : Text} {language : Language} {parser : Parser}
    (rendered : Template.render (R := Grammar) template language = .ok text)
    (h : Parser.compile template language = .ok parser) :
    rules? text = some parser.grammar.rules ∧ parser.entryRule = language.entryRule ∧
      language.entryRule ∈ parser.grammar.ruleNames := by
  simp only [Parser.compile, rendered, Parser.grammarOf, Engine.compile, Engine.ruleNames, bind,
    Except.bind] at h
  cases made : Grammar.compile text with
  | error reasons => simp [made] at h
  | ok grammar =>
    simp only [made] at h
    split_ifs at h with named
    cases h
    exact ⟨Grammar.rules?_of_compile made, rfl, by simpa using named⟩

/-- Rules without a fault, one of them the entry rule, are compiled. -/
theorem Parser.compile_eq_ok {template text : Text} {language : Language} {rules : List Rule}
    (rendered : Template.render (R := Grammar) template language = .ok text)
    (read : rules? text = some rules)
    (sound : Rules.fault? rules = none) (named : language.entryRule ∈ Rules.names rules) :
    Parser.compile template language = .ok ⟨language, language.entryRule, rules, sound⟩ := by
  have made := Grammar.compile_eq_ok read sound
  have present : language.entryRule ∈ Grammar.ruleNames ⟨rules, sound⟩ := named
  simp [Parser.compile, rendered, Parser.grammarOf, Engine.compile, Engine.ruleNames, made, present, bind,
    Except.bind, pure, Except.pure]

/-- The name of a language that compiles is one that the template can be filled with. -/
theorem Parser.named_of_compile {language : Language} {parser : Parser}
    (h : Parser.compile Template.shipped language = .ok parser) :
    '\n' ∉ language.name ∧ MayName language.entryRule := by
  obtain ⟨read, _, named⟩ := Parser.compile_of_render (Template.render_shipped language) h
  obtain ⟨rule, member, same⟩ := List.mem_map.mp named
  have may : MayName language.entryRule := same ▸ named_rules read rule member
  exact ⟨Language.unbroken_of_rules? may read, may⟩

/-- A compiled grammar has the rules of the shipped template. -/
theorem Parser.compile_shipped {language : Language} {parser : Parser}
    (h : Parser.compile Template.shipped language = .ok parser) :
    parser.grammar.rules = Template.shippedRules language ∧
      parser.entryRule = language.entryRule := by
  obtain ⟨read, entry, _⟩ := Parser.compile_of_render (Template.render_shipped language) h
  obtain ⟨unbroken, may⟩ := Parser.named_of_compile h
  have whole := Template.rules?_shippedText unbroken may
  rw [read] at whole
  exact ⟨Option.some.inj whole, entry⟩

/-- A language whose name can name a rule compiles if its rules have no fault. -/
theorem Parser.compile_shipped_eq {language : Language} (unbroken : '\n' ∉ language.name)
    (may : MayName language.entryRule) (sound : Rules.fault? (Template.shippedRules language) = none) :
    Parser.compile Template.shipped language = .ok ⟨language, language.entryRule, _, sound⟩ := by
  have named : language.entryRule ∈ Rules.names (Template.shippedRules language) := by
    simp [Rules.names, Template.shippedRules, Template.entryRule]
  exact Parser.compile_eq_ok (Template.render_shipped language)
    (Template.rules?_shippedText unbroken may) sound named

/-! ### The rules as they are matched -/

namespace Expr

/-- Alternative literals are literals, one behind the other. -/
private theorem literals_cases {e : Expr} (h : e.isLiterals = true) :
    (∃ a, e = literal a) ∨ ∃ a b, e = choice (literal a) b ∧ b.isLiterals = true := by
  cases e with
  | literal a => exact .inl ⟨a, rfl⟩
  | choice a b =>
    cases a with
    | literal a => exact .inr ⟨a, b, rfl, h⟩
    | _ => cases h
  | _ => cases h

private theorem mapUp_literals {f : Expr → Expr} (keeps : ∀ e, isLiterals e = true → f e = e)
    {e : Expr} (h : e.isLiterals = true) : e.mapUp f = e := by
  induction e with
  | choice a b iha ihb =>
    obtain ⟨_, same⟩ | ⟨first, rest, same, others⟩ := literals_cases h
    · cases same
    · cases same
      rw [mapUp, iha rfl, ihb others]
      exact keeps _ h
  | literal => exact keeps _ h
  | _ => cases h

private theorem mapDown_literals {f : Expr → Expr} (keeps : ∀ e, isLiterals e = true → f e = e)
    (depth : Nat) {e : Expr} (h : e.isLiterals = true) : e.mapDown f depth = e := by
  induction depth generalizing e with
  | zero => rfl
  | succ depth ih =>
    rw [mapDown, keeps e h]
    obtain ⟨a, rfl⟩ | ⟨a, b, rfl, others⟩ := literals_cases h
    · rfl
    · rw [mapOperands, ih others, ih (e := literal a) rfl]

private theorem factor_literals {e : Expr} (h : e.isLiterals = true) : e.factor true = e := by
  obtain ⟨a, rfl⟩ | ⟨a, b, rfl, others⟩ := literals_cases h
  · rfl
  · obtain ⟨c, rfl⟩ | ⟨c, d, rfl, _⟩ := literals_cases others <;> rfl

/-- Alternative literals are matched as they stand. -/
theorem arranged_literals {e : Expr} (h : e.isLiterals = true) : e.arranged true = e := by
  have leaves {f : Expr → Expr} (single : ∀ a, f (literal a) = literal a)
      (several : ∀ a b, f (choice (literal a) b) = choice (literal a) b) :
      ∀ e, isLiterals e = true → f e = e := by
    intro e h
    obtain ⟨a, rfl⟩ | ⟨a, b, rfl, _⟩ := literals_cases h
    · exact single a
    · exact several a b
  have nested : e.mapUp nest = e := mapUp_literals (leaves (fun _ => rfl) fun _ _ => rfl) h
  have unrolled : e.mapUp unroll = e := mapUp_literals (leaves (fun _ => rfl) fun _ _ => rfl) h
  have merged : e.mapUp merge = e := mapUp_literals (leaves (fun _ => rfl) fun _ _ => rfl) h
  have factored : e.mapDown (factor true) e.size = e :=
    mapDown_literals (fun _ h => factor_literals h) _ h
  have shifted : e.mapUp (shift true) = e := mapUp_literals (leaves (fun _ => rfl) fun _ _ => rfl) h
  simp only [arranged, nested, unrolled, merged, if_true, factored, shifted]

end Expr

theorem GrammarText.arranged_keywordChoice (keywords : List Text) :
    (keywordChoice keywords).arranged true = keywordChoice keywords := by
  unfold keywordChoice
  split
  · decide +kernel
  next first rest _ =>
    refine Expr.arranged_literals ?_
    clear * -
    induction rest generalizing first with
    | nil => rfl
    | cons second rest ih => exact ih second

/-- The rules that a grammar of the shipped template is matched with. -/
structure Rules.Shipped (rules : List Rule) (language : Language) : Prop where
  entry : Rules.find? rules language.entryRule = some (Template.entryRule language.entryRule)
  fixed : ∀ rule ∈ Template.fixedRules.map Rule.arranged, Rules.find? rules rule.name = some rule
  keyword : ∀ list ∈ Template.keywordLists language,
    Rules.find? rules list.1 = some ⟨list.1, .atomic, keywordChoice list.2⟩

namespace Template

/-- The shipped template's rules as they are matched. -/
theorem map_arranged_shippedRules (language : Language) :
    (shippedRules language).map Rule.arranged =
      entryRule language.entryRule :: (fixedRules.map Rule.arranged ++
        (keywordLists language).map fun (name, keywords) =>
          ⟨name, .atomic, keywordChoice keywords⟩) := by
  have entry : (entryRule language.entryRule).arranged = entryRule language.entryRule := rfl
  have keyword (name : String) (keywords : List Text) :
      Rule.arranged ⟨name, .atomic, keywordChoice keywords⟩ =
        ⟨name, .atomic, keywordChoice keywords⟩ := by
    simp [Rule.arranged, arranged_keywordChoice]
  simp [shippedRules, entry, keyword]

/-- The entry rule is named apart from all others. -/
theorem entryRule_ne (language : Language) {name : String}
    (other : ¬ "Parser".toList <:+ name.toList) : language.entryRule ≠ name := by
  rintro rfl
  exact other ⟨_, (language.toList_entryRule).symm⟩

theorem shipped_arranged (language : Language) :
    Rules.Shipped ((shippedRules language).map Rule.arranged) language := by
  rw [map_arranged_shippedRules]
  have behind {name : String} (other : ¬ "Parser".toList <:+ name.toList) (rules : List Rule) :
      Rules.find? (entryRule language.entryRule :: rules) name = Rules.find? rules name :=
    List.find?_cons_of_neg (by simp [entryRule, entryRule_ne language other])
  refine ⟨by simp [Rules.find?, entryRule], fun rule member => ?_, fun list member => ?_⟩
  · have apart : ∀ rule ∈ fixedRules.map Rule.arranged, ¬ "Parser".toList <:+ rule.name.toList := by
      decide +kernel
    have found : ∀ rule ∈ fixedRules.map Rule.arranged,
        Rules.find? (fixedRules.map Rule.arranged) rule.name = some rule := by
      decide +kernel
    rw [behind (apart rule member), Rules.find?, List.find?_append, ← Rules.find?, found rule member]
    rfl
  · have names : (keywordLists language).map Prod.fst = ["feature_keyword", "background_keyword",
        "scenario_keyword", "scenario_outline_keyword", "examples_keyword", "step_keyword"] := rfl
    have apart : ∀ name ∈ (keywordLists language).map Prod.fst, ¬ "Parser".toList <:+ name.toList ∧
        Rules.find? (fixedRules.map Rule.arranged) name = none := by
      rw [names]
      decide +kernel
    obtain ⟨other, absent⟩ := apart list.1 (List.mem_map_of_mem member)
    rw [behind other, Rules.find?, List.find?_append, ← Rules.find?, absent, Option.none_or]
    simp only [keywordLists, List.mem_cons, List.not_mem_nil, or_false] at member
    rcases member with rfl | rfl | rfl | rfl | rfl | rfl <;> rfl

private theorem stages_keywordChoice (keywords : List Text) :
    (keywordChoice keywords).stages.length ≤ (keywordChoice keywords).size + 1 := by
  unfold keywordChoice
  split
  · decide
  next first rest _ =>
    clear * -
    induction rest generalizing first with
    | nil => exact Nat.le_succ 1
    | cons second rest ih =>
      have others := ih second
      simp only [List.map_cons, Expr.choices, Expr.stages, Expr.size, List.length_cons,
        List.length_append] at others ⊢
      simp only [List.length_nil]
      omega

theorem thrifty_arranged (language : Language) :
    Rules.Thrifty ((shippedRules language).map Rule.arranged) := by
  rw [map_arranged_shippedRules]
  have fixed : ∀ rule ∈ fixedRules.map Rule.arranged,
      rule.body.stages.length ≤ rule.body.size + 1 := by
    decide +kernel
  intro rule member
  rcases List.mem_cons.mp member with rfl | other
  · have entry : (entryRule "").body.stages.length ≤ (entryRule "").body.size + 1 := by
      decide
    exact entry
  · rcases List.mem_append.mp other with known | keyword
    · exact fixed rule known
    · obtain ⟨⟨name, keywords⟩, _, rfl⟩ := List.mem_map.mp keyword
      exact stages_keywordChoice keywords

end Template

namespace Parser

variable {language : Language} {parser : Parser}

theorem arranged_shipped (h : Parser.compile Template.shipped language = .ok parser) :
    parser.grammar.arranged = (Template.shippedRules language).map Rule.arranged := by
  rw [Grammar.arranged, (compile_shipped h).1]

theorem shipped_rules (h : Parser.compile Template.shipped language = .ok parser) :
    Rules.Shipped parser.grammar.arranged language := by
  rw [arranged_shipped h]
  exact Template.shipped_arranged language

theorem thrifty_shipped (h : Parser.compile Template.shipped language = .ok parser) :
    Rules.Thrifty parser.grammar.arranged := by
  rw [arranged_shipped h]
  exact Template.thrifty_arranged language

/-- A document matches exactly when the entry rule gives something at its beginning. -/
theorem nodes_eq_ok_iff (h : Parser.compile Template.shipped language = .ok parser) (source : Text)
    (path : String) (nodes : List Node) :
    parser.nodes source path = .ok nodes ↔
      ∃ last, Rules.Gives parser.grammar.arranged (.call language.entryRule) (.start source)
        (some (nodes, last)) := by
  have thrifty := thrifty_shipped h
  rw [← (compile_shipped h).2]
  constructor
  · intro matched
    simp only [Parser.nodes, Engine.run, Grammar.run] at matched
    split at matched <;> cases matched
    next ran =>
      split at ran <;> cases ran
      next last probes found => exact ⟨last, (Grammar.match?_iff thrifty).mp ⟨_, found, rfl⟩⟩
  · rintro ⟨last, gives⟩
    obtain ⟨⟨result, probes⟩, found, same⟩ := (Grammar.match?_iff thrifty).mpr gives
    cases same
    simp [Parser.nodes, Engine.run, Grammar.run, found]

end Parser

end FeatureFile
