import FeatureFile.Grammar.Expr
/-!
What makes a list of rules a grammar: every rule has a name of its own, every name that is called
has a rule, no repetition has a body that can match nothing, no alternative hides those behind it by
matching everywhere, and no rule comes back to itself at the front of what it matches. The front of
a sequence is its first operand, or its second one if the first matches everywhere.
-/

namespace FeatureFile

/-- `f` applied until it changes nothing, but `n` times at most. -/
def settle {α : Type} [DecidableEq α] (f : α → α) : Nat → α → α
  | 0, a => a
  | n + 1, a => let next := f a; if next = a then a else settle f n next

namespace Expr

/-- Whether the expression may succeed without consuming anything, given the rules that may. -/
def nullable (empty : List String) : Expr → Bool
  | literal text => text.isEmpty
  | any => false
  | startOfInput | endOfInput => true
  | call rule => empty.contains rule
  | seq a b => a.nullable empty && b.nullable empty
  | choice a b => a.nullable empty || b.nullable empty
  | plus e => e.nullable empty
  | star _ | opt _ | not _ | and _ => true

/-- Whether the expression matches at every place, given the rules that do. -/
def unfailing (sure : List String) : Expr → Bool
  | literal text => text.isEmpty
  | any | startOfInput | endOfInput | not _ => false
  | call rule => sure.contains rule
  | seq a b => a.unfailing sure && b.unfailing sure
  | choice a b => a.unfailing sure || b.unfailing sure
  | plus e | and e => e.unfailing sure
  | star _ | opt _ => true

/-- The rules at the front of the expression, given the rules that match at every place. -/
def frontCalls (sure : List String) : Expr → List String
  | call rule => [rule]
  | literal _ | any | startOfInput | endOfInput => []
  | seq a b => if a.unfailing sure then b.frontCalls sure else a.frontCalls sure
  | choice a b => a.frontCalls sure ++ b.frontCalls sure
  | star e | plus e | opt e | not e | and e => e.frontCalls sure

end Expr

/-- Why a list of rules is no grammar. -/
inductive GrammarFault where
  | reservedName (rule : String)
  | secondDefinition (rule : String)
  | undefinedRule (rule : String)
  | leftRecursion (rule : String)
  | emptyRepetition (rule : String)
  | hiddenAlternative (rule : String)
  deriving DecidableEq, Repr

namespace GrammarFault

/-- The wording of a fault. -/
def message : GrammarFault → String
  | reservedName rule => rule ++ " is a reserved name"
  | secondDefinition rule => "rule " ++ rule ++ " is already defined"
  | undefinedRule rule => "undefined rule " ++ rule
  | leftRecursion rule => "rule " ++ rule ++ " is left-recursive"
  | emptyRepetition rule => "a repetition in rule " ++ rule ++ " does not progress"
  | hiddenAlternative rule => "an alternative in rule " ++ rule ++ " cannot be reached"

end GrammarFault

/-- Names that stand for built-in expressions and cannot be given to a rule. -/
def reservedNames : List String :=
  ["_", "ANY", "DROP", "EOI", "PEEK", "PEEK_ALL", "POP", "POP_ALL", "PUSH", "SOI"]

namespace Rules

/-- The names of the rules, in order. -/
def names (rules : List Rule) : List String :=
  rules.map (·.name)

/-- The least set of names that has every rule in it whose body has the property, given the set. -/
def least (holds : List String → Expr → Bool) (rules : List Rule) : List String :=
  settle (fun known => names (rules.filter fun rule => holds known rule.body)) rules.length []

/-- The rules that may match nothing. -/
def nullable (rules : List Rule) : List String :=
  least Expr.nullable rules

/-- The rules that match at every place. -/
def unfailing (rules : List Rule) : List String :=
  least Expr.unfailing rules

/-- The rules at the front of a rule. That the rule itself matches is not taken for granted. -/
def front (rules : List Rule) (rule : Rule) : List String :=
  rule.body.frontCalls (unfailing (rules.filter (·.name ≠ rule.name)))

/-- The rules that cannot come back to themselves at the front, given what is at the front of
each. -/
def grounded (fronts : List (String × List String)) : List String :=
  settle (fun known => (fronts.filter fun front => front.2.all known.contains).map (·.1))
    fronts.length []

/-- The first name that stands twice. -/
def repeatedName? : List String → Option String
  | [] => none
  | name :: rest => if rest.contains name then some name else repeatedName? rest

/-- The first rule with a repetition whose body may match nothing. -/
def idleRule? (rules : List Rule) : Option Rule :=
  let empty := nullable rules
  rules.find? fun rule => rule.body.repeated.any (·.nullable empty)

/-- The first rule with an alternative that matches everywhere and has another one behind it. -/
def hidingRule? (rules : List Rule) : Option Rule :=
  let sure := unfailing rules
  rules.find? fun rule => rule.body.preceding.any (·.unfailing sure)

/-- The first rule that may come back to itself at its front. -/
def recursiveName? (rules : List Rule) : Option String :=
  let grounded := grounded (rules.map fun rule => (rule.name, front rules rule))
  (names rules).find? (!grounded.contains ·)

/-- The first fault of the rules, if they are no grammar. -/
def fault? (rules : List Rule) : Option GrammarFault :=
  let defined := names rules
  ((defined.find? reservedNames.contains).map .reservedName)
    <|> ((repeatedName? defined).map .secondDefinition)
    <|> ((rules.flatMap (·.body.calls)).find? (!defined.contains ·)).map .undefinedRule
    <|> ((idleRule? rules).map fun rule => .emptyRepetition rule.name)
    <|> ((hidingRule? rules).map fun rule => .hiddenAlternative rule.name)
    <|> ((recursiveName? rules).map .leftRecursion)

end Rules

/-- Rules that make a grammar. -/
structure Grammar where
  rules : List Rule
  faultless : Rules.fault? rules = none
  deriving DecidableEq, Repr

namespace Grammar

/-- The grammar of the rules, or their first fault. -/
def ofRules (rules : List Rule) : Except GrammarFault Grammar :=
  match h : Rules.fault? rules with
  | none => .ok ⟨rules, h⟩
  | some fault => .error fault

/-- The names of the rules, in order. -/
def ruleNames (grammar : Grammar) : List String :=
  Rules.names grammar.rules

end Grammar

end FeatureFile
