import FeatureFile.Grammar.Parser
import Mathlib.Data.List.Basic
/-!
Grammar text read piece by piece. Each piece is read from the middle of a token and of a rule; what
the pieces give one behind the other is what the whole text gives. Quoted keywords are one token
each, whatever their characters, and all names that are read are words.
-/

namespace FeatureFile

theorem transduce_join {σ α β : Type} {step : σ → α → Option (List β × σ)} {s t u : σ}
    {first second : List α} {output more : List β} (before : transduce step s first = some (output, t))
    (behind : transduce step t second = some (more, u)) :
    transduce step s (first ++ second) = some (output ++ more, u) := by
  simp [transduce_append, before, behind]

/-- What every step keeps, a run keeps. -/
theorem transduce_forall {σ α β : Type} {step : σ → α → Option (List β × σ)} {P : σ → Prop}
    {Q : α → Prop} {R : β → Prop}
    (keeps : ∀ s a output t, P s → Q a → step s a = some (output, t) → P t ∧ ∀ b ∈ output, R b)
    {s t : σ} {input : List α} {output : List β} (start : P s) (all : ∀ a ∈ input, Q a)
    (h : transduce step s input = some (output, t)) : P t ∧ ∀ b ∈ output, R b := by
  induction input generalizing s output with
  | nil =>
    cases h
    exact ⟨start, by simp⟩
  | cons a rest ih =>
    obtain ⟨⟨first, middle⟩, moves, others⟩ := Option.bind_eq_some_iff.mp h
    obtain ⟨⟨more, last⟩, runs, same⟩ := Option.map_eq_some_iff.mp others
    cases same
    obtain ⟨reached, written⟩ := keeps s a first middle start (all a List.mem_cons_self) moves
    obtain ⟨final, rest⟩ := ih reached (fun x member => all x (List.mem_cons_of_mem _ member)) runs
    exact ⟨final, fun b member => (List.mem_append.mp member).elim (written b) (rest b)⟩

namespace GrammarText

/-- Reading grammar text from the middle of a token and of a rule: the rules finished on the way. -/
def readFrom (mode : Mode) (state : RuleState) (text : Text) : Option (List Rule × Mode × RuleState) :=
  (transduce Mode.step? mode text).bind fun (tokens, last) =>
    (transduce RuleState.step? state tokens).map fun (rules, next) => (rules, last, next)

/-- Two pieces of grammar text, one behind the other. -/
theorem readFrom_append {mode middle last : Mode} {state next final : RuleState}
    {first second : Text} {rules more : List Rule}
    (before : readFrom mode state first = some (rules, middle, next))
    (behind : readFrom middle next second = some (more, last, final)) :
    readFrom mode state (first ++ second) = some (rules ++ more, last, final) := by
  obtain ⟨⟨tokens, _⟩, read, rest⟩ := Option.bind_eq_some_iff.mp before
  obtain ⟨_, parsed, same⟩ := Option.map_eq_some_iff.mp rest
  obtain ⟨⟨tokens', _⟩, read', rest'⟩ := Option.bind_eq_some_iff.mp behind
  obtain ⟨_, parsed', same'⟩ := Option.map_eq_some_iff.mp rest'
  cases same
  cases same'
  simp [readFrom, transduce_append, read, read', parsed, parsed']

/-- Grammar text that ends between two rules. -/
theorem rules?_of_readFrom {text : Text} {rules : List Rule}
    (h : readFrom .between .opening text = some (rules, .between, .between)) :
    rules? text = some rules := by
  obtain ⟨⟨tokens, mode⟩, read, rest⟩ := Option.bind_eq_some_iff.mp h
  obtain ⟨⟨made, state⟩, parsed, same⟩ := Option.map_eq_some_iff.mp rest
  cases same
  simp [rules?, tokens?, read, Mode.finish?, rulesOf?, parsed]

/-! ### Alternatives -/

/-- The characters of a keyword, escaped, go on with the literal they stand in. -/
private theorem transduce_escaped (read text : Text) :
    transduce Mode.step? (.literal read) (text.flatMap Template.escape) =
      some ([], .literal (text.reverse ++ read)) := by
  induction text generalizing read with
  | nil => rfl
  | cons c text ih =>
    have one : transduce Mode.step? (.literal read) (Template.escape c) =
        some ([], .literal (c :: read)) := by
      unfold Template.escape
      split
      · rfl
      · rfl
      · rfl
      next quote backslash _ =>
        have plain : c ≠ '"' ∧ c ≠ '\\' := ⟨quote, backslash⟩
        simp [transduce, Mode.step?, plain]
    simpa using transduce_join one (ih (c :: read))

/-- A quoted keyword is one token. -/
private theorem transduce_literal (text : Text) :
    transduce Mode.step? .between (Template.literal text) = some ([.literal text], .between) := by
  have opened : transduce Mode.step? .between ['"'] = some ([], .literal []) := by decide
  have closed : transduce Mode.step? (.literal text.reverse) ['"'] =
      some ([.literal text], .between) := by
    simp [transduce, Mode.step?]
  have escaped := transduce_escaped [] text
  rw [List.append_nil] at escaped
  exact transduce_join opened (transduce_join escaped closed)

/-- The expression of alternatives behind others, the last of which stands first. -/
private def behindAlternatives (before : List Expr) (first : Expr) (rest : List Expr) : Expr :=
  match before.reverse ++ first :: rest with
  | first :: rest => .choices first rest
  | [] => first

private theorem readFrom_literals (name : String) (kind : RuleKind) (before : List Expr)
    (first : Text) (rest : List Text) :
    readFrom .between (.body name kind ⟨false, before, [], [], none⟩ [])
      (" | ".toList.intercalate ((first :: rest).map Template.literal) ++ " \x7d".toList) =
    some ([⟨name, kind, behindAlternatives before (.literal first) (rest.map .literal)⟩],
      .between, .between) := by
  have pushed (before : List Expr) (first : Text) :
      readFrom .between (.body name kind ⟨false, before, [], [], none⟩ [])
      (Template.literal first) =
      some ([], .between, .body name kind ⟨false, before, [], [], some (.literal first)⟩ []) := by
    rw [readFrom, transduce_literal]
    rfl
  induction rest generalizing before first with
  | nil =>
    have tokens : transduce Mode.step? .between " \x7d".toList =
        some ([.mark .closeBrace], .between) := by
      decide
    have closed : readFrom .between
        (.body name kind ⟨false, before, [], [], some (.literal first)⟩ []) " \x7d".toList =
        some ([⟨name, kind, behindAlternatives before (.literal first) []⟩], .between, .between) := by
      rw [readFrom, tokens]
      simp only [Option.bind_some, transduce, RuleState.step?, RuleState.inBody?, Frame.expression?,
        Frame.alternative?, Frame.item?, behindAlternatives, List.reverse_cons]
      rfl
    simpa using readFrom_append (pushed before first) closed
  | cons second rest ih =>
    have tokens : transduce Mode.step? .between " | ".toList = some ([.mark .bar], .between) := by
      decide
    have barred : readFrom .between
        (.body name kind ⟨false, before, [], [], some (.literal first)⟩ []) " | ".toList =
        some ([], .between, .body name kind ⟨false, .literal first :: before, [], [], none⟩ []) := by
      rw [readFrom, tokens]
      simp [transduce, RuleState.step?, RuleState.inBody?, Frame.nextAlternative?, Frame.start,
        Frame.alternative?, Frame.item?, Expr.sequence]
    have moved : behindAlternatives (.literal first :: before) (.literal second) (rest.map .literal) =
        behindAlternatives before (.literal first) ((second :: rest).map .literal) := by
      cases reversed : before.reverse <;> simp [behindAlternatives, reversed]
    have others := readFrom_append barred (ih (.literal first :: before) second)
    rw [moved] at others
    simpa using readFrom_append (pushed before first) others

/-- The expression that alternation text stands for. -/
def keywordChoice (keywords : List Text) : Expr :=
  match Template.alternatives keywords with
  | [] => .seq (.not .any) .any
  | first :: rest => .choices (.literal first) (rest.map .literal)

/-- The body of a rule of keywords, up to its end. -/
theorem readFrom_alternation (name : String) (kind : RuleKind) (keywords : List Text) :
    readFrom .between (.body name kind .start []) (Template.alternation keywords ++ " \x7d".toList) =
      some ([⟨name, kind, keywordChoice keywords⟩], .between, .between) := by
  cases found : Template.alternatives keywords with
  | nil =>
    have tokens : transduce Mode.step? .between ("!ANY ~ ANY".toList ++ " \x7d".toList) =
        some ([.mark .not, .name "ANY", .mark .tilde, .name "ANY", .mark .closeBrace], .between) := by
      decide
    simp only [Template.alternation, keywordChoice, found]
    rw [readFrom, tokens]
    rfl
  | cons first rest =>
    simp only [Template.alternation, keywordChoice, found]
    exact readFrom_literals name kind [] first rest

/-! ### Names -/

/-- A name as the tokens have them. -/
def IsWord (name : Text) : Prop :=
  (∃ c, name.head? = some c ∧ isNameStart c = true) ∧ ∀ c ∈ name, isNameChar c = true

/-- Whether a rule may have the name. -/
def MayName (name : String) : Prop :=
  IsWord name.toList ∧ (Text.after? "PUSH".toList name.toList).isSome = false

instance (name : String) : Decidable (MayName name) :=
  decidable_of_iff
    ((name.toList.head?.any isNameStart && name.toList.all isNameChar) = true ∧
      (Text.after? "PUSH".toList name.toList).isSome = false)
    (by simp [MayName, IsWord, Option.any_eq_true])

theorem isNameChar_of_isNameStart {c : Char} (h : isNameStart c = true) : isNameChar c = true := by
  simp only [isNameStart, isNameChar, Char.isAlphanum, Bool.or_eq_true] at h ⊢
  tauto

/-- The names among some tokens are words. -/
def Token.Worded : Token → Prop
  | name n => IsWord n.toList
  | _ => True

/-- A name that is being read is a word so far. -/
def Mode.Worded : Mode → Prop
  | name read => IsWord read.reverse
  | _ => True

private theorem Mode.worded_fresh {c : Char} {output : List Token} {next : Mode}
    (h : Mode.fresh? c = some (output, next)) : next.Worded ∧ ∀ token ∈ output, token.Worded := by
  unfold Mode.fresh? at h
  split_ifs at h with _ _ _ _ start
  iterate 4
    · cases h
      exact ⟨trivial, by simp⟩
  · cases h
    refine ⟨⟨⟨c, rfl, start⟩, ?_⟩, by simp⟩
    simpa using isNameChar_of_isNameStart start
  · obtain ⟨mark, _, same⟩ := Option.map_eq_some_iff.mp h
    cases same
    exact ⟨trivial, by simp [Token.Worded]⟩

theorem Mode.worded_step {mode next : Mode} {c : Char} {output : List Token} (worded : mode.Worded)
    (h : mode.step? c = some (output, next)) : next.Worded ∧ ∀ token ∈ output, token.Worded := by
  have comment : (Mode.inComment c).Worded := by
    unfold Mode.inComment
    split <;> trivial
  cases mode with
  | between => exact worded_fresh h
  | name read =>
    simp only [step?] at h
    split_ifs at h with onward
    · cases h
      obtain ⟨⟨first, head, start⟩, all⟩ := worded
      refine ⟨⟨⟨first, ?_, start⟩, ?_⟩, by simp⟩
      · simp only [List.reverse_cons, List.head?_append, head]
        rfl
      · simp only [List.reverse_cons, List.mem_append, List.mem_singleton]
        rintro d (earlier | rfl)
        · exact all d earlier
        · exact onward
    · obtain ⟨⟨more, last⟩, fresh, same⟩ := Option.map_eq_some_iff.mp h
      cases same
      obtain ⟨reached, written⟩ := worded_fresh fresh
      refine ⟨reached, ?_⟩
      simp only [List.mem_cons, forall_eq_or_imp, Token.Worded, String.toList_ofList]
      exact ⟨worded, written⟩
  | comment =>
    cases h
    exact ⟨comment, by simp⟩
  | slash | slashes | noteStart | noteBlank | carriageReturn | literal =>
    simp only [step?] at h
    split_ifs at h <;> cases h <;> first | exact ⟨comment, by simp [Token.Worded]⟩ |
      exact ⟨trivial, by simp [Token.Worded]⟩
  | escape read =>
    obtain ⟨d, _, same⟩ := Option.map_eq_some_iff.mp h
    cases same
    exact ⟨trivial, by simp⟩

/-- The tokens of a grammar text have words for names. -/
theorem worded_tokens {text : Text} {tokens : List Token} (h : tokens? text = some tokens) :
    ∀ token ∈ tokens, token.Worded := by
  obtain ⟨⟨read, last⟩, runs, rest⟩ := Option.bind_eq_some_iff.mp h
  obtain ⟨final, finished, rfl⟩ := Option.map_eq_some_iff.mp rest
  obtain ⟨worded, all⟩ := transduce_forall (Q := fun _ => True)
    (fun _ _ _ _ worded _ moves => Mode.worded_step worded moves) (s := .between) trivial
    (fun _ _ => trivial) runs
  intro token member
  rcases List.mem_append.mp member with early | late
  · exact all token early
  · cases last <;> simp only [Mode.finish?, Option.some.injEq, reduceCtorEq] at finished <;>
      subst finished <;> simp_all [Token.Worded, Mode.Worded]

/-- The rule that is being read has a name that rules may have. -/
def RuleState.Named : RuleState → Prop
  | named name | defined name | marked name _ | body name _ _ _ => MayName name
  | opening | between => True

private theorem RuleState.named_between {token : Token} {output : List Rule} {next : RuleState}
    (worded : token.Worded) (h : RuleState.between? token = some (output, next)) :
    next.Named ∧ ∀ rule ∈ output, MayName rule.name := by
  cases token with
  | name n =>
    simp only [between?] at h
    split_ifs at h with pushes
    cases h
    exact ⟨⟨worded, by simpa using pushes⟩, by simp⟩
  | ruleNote =>
    cases h
    exact ⟨trivial, by simp⟩
  | _ => cases h

private theorem RuleState.named_body {name : String} {kind : RuleKind} {frame : Frame}
    {outer : List Frame} {token : Token} {output : List Rule} {next : RuleState}
    (named : MayName name) (h : RuleState.inBody? name kind frame outer token = some (output, next)) :
    next.Named ∧ ∀ rule ∈ output, MayName rule.name := by
  cases token with
  | name called =>
    obtain ⟨_, _, same⟩ := Option.map_eq_some_iff.mp h
    cases same
    exact ⟨named, by simp⟩
  | literal text =>
    obtain ⟨_, _, same⟩ := Option.map_eq_some_iff.mp h
    cases same
    exact ⟨named, by simp⟩
  | grammarNote | ruleNote => cases h
  | mark mark =>
    cases mark with
    | star | plus | optional | not | and | tilde | bar =>
      obtain ⟨_, _, same⟩ := Option.map_eq_some_iff.mp h
      cases same
      exact ⟨named, by simp⟩
    | openParen =>
      simp only [inBody?] at h
      split_ifs at h
      cases h
      exact ⟨named, by simp⟩
    | closeParen =>
      cases outer with
      | nil => cases h
      | cons parent outer =>
        obtain ⟨_, _, same⟩ := Option.map_eq_some_iff.mp h
        cases same
        exact ⟨named, by simp⟩
    | closeBrace =>
      cases outer with
      | cons parent outer => cases h
      | nil =>
        obtain ⟨_, _, same⟩ := Option.map_eq_some_iff.mp h
        cases same
        exact ⟨trivial, by simpa using named⟩
    | equals | atomic | openBrace => cases h

theorem RuleState.named_step {state next : RuleState} {token : Token} {output : List Rule}
    (named : state.Named) (worded : token.Worded) (h : state.step? token = some (output, next)) :
    next.Named ∧ ∀ rule ∈ output, MayName rule.name := by
  unfold step? at h
  split at h
  · cases h
    exact ⟨trivial, by simp⟩
  · exact named_between worded h
  · exact named_between worded h
  · cases h
    exact ⟨named, by simp⟩
  · cases h
    exact ⟨named, by simp⟩
  · cases h
    exact ⟨named, by simp⟩
  · split_ifs at h
    cases h
    exact ⟨named, by simp⟩
  · cases h
    exact ⟨named, by simp⟩
  · exact named_body named h
  · cases h

/-- The rules of a grammar text have names that rules may have. -/
theorem named_rules {text : Text} {rules : List Rule} (h : rules? text = some rules) :
    ∀ rule ∈ rules, MayName rule.name := by
  obtain ⟨tokens, read, parsed⟩ := Option.bind_eq_some_iff.mp h
  obtain ⟨⟨made, last⟩, runs, rest⟩ := Option.bind_eq_some_iff.mp parsed
  have all := (transduce_forall (fun _ _ _ _ => RuleState.named_step) (s := .opening) trivial
    (worded_tokens read) runs).2
  cases last with
  | opening | between =>
    cases rest
    exact all
  | _ => cases rest

/-! ### Comments and names of rules -/

theorem transduce_comment {text : Text} (unbroken : '\n' ∉ text) :
    transduce Mode.step? .comment text = some ([], .comment) := by
  induction text with
  | nil => rfl
  | cons c text ih =>
    simp only [List.mem_cons, not_or] at unbroken
    have stays : Mode.inComment c = .comment := if_neg (Ne.symm unbroken.1)
    simp [transduce, Mode.step?, stays, ih unbroken.2]

/-- A comment goes on to the end of its line. -/
theorem readFrom_comment (state : RuleState) {text : Text} (unbroken : '\n' ∉ text) :
    readFrom .comment state text = some ([], .comment, state) := by
  simp [readFrom, transduce_comment unbroken, transduce]

private theorem transduce_name (read : Text) {text : Text} (all : ∀ c ∈ text, isNameChar c = true) :
    transduce Mode.step? (.name read) text = some ([], .name (text.reverse ++ read)) := by
  induction text generalizing read with
  | nil => rfl
  | cons c text ih =>
    simp only [List.mem_cons, forall_eq_or_imp] at all
    simp [transduce, Mode.step?, all.1, ih _ all.2]

theorem not_marks_of_isNameStart {c : Char} (h : isNameStart c = true) :
    c ≠ ' ' ∧ c ≠ '\t' ∧ c ≠ '\n' ∧ c ≠ '\r' ∧ c ≠ '/' ∧ c ≠ '"' := by
  refine ⟨?_, ?_, ?_, ?_, ?_, ?_⟩ <;> rintro rfl <;> revert h <;> decide

/-- A word is read as a name that may go on. -/
theorem readFrom_word (state : RuleState) {word : Text} (h : IsWord word) :
    readFrom .between state word = some ([], .name word.reverse, state) := by
  obtain ⟨⟨c, head, start⟩, all⟩ := h
  cases word with
  | nil => cases head
  | cons d rest =>
    obtain rfl : d = c := by simpa using head
    simp only [List.mem_cons, forall_eq_or_imp] at all
    have plain := not_marks_of_isNameStart start
    have first : Mode.fresh? d = some ([], .name [d]) := by
      simp [Mode.fresh?, plain, start]
    simp [readFrom, transduce, Mode.step?, first, transduce_name _ all.2]

/-- A name is over at a blank, and a rule may have it. -/
theorem readFrom_named {name : String} (may : MayName name) :
    readFrom (.name name.toList.reverse) .opening [' '] = some ([], .between, .named name) := by
  have atEnd : transduce Mode.step? (.name name.toList.reverse) [' '] =
      some ([.name name], .between) := by
    simp [transduce, Mode.step?, Mode.fresh?, show isNameChar ' ' = false by decide]
  have taken : RuleState.step? .opening (.name name) = some ([], .named name) := by
    rw [RuleState.step?, RuleState.between?, may.2]
    · rfl
    · intro same
      cases same
  rw [readFrom, atEnd]
  simp only [Option.bind_some, transduce, taken]
  rfl

end GrammarText

end FeatureFile
