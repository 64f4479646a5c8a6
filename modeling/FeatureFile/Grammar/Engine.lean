import FeatureFile.Grammar.Attempts
import FeatureFile.Grammar.Reader
import FeatureFile.Grammar.Template
import FeatureFile.Position
/-!
What matching by a grammar rests on: something that fills templates in, that compiles grammar texts to
rules, and that matches texts against such rules. Parsers are made and used in the same way whatever stands
behind them; the engine of this library is the instance for its own grammars.
-/

namespace FeatureFile

/-- Why a text does not match. -/
inductive Mismatch.Reason where
  /-- By the rules that would have matched, and those that matched but must not. -/
  | rules (expected unexpected : List String)
  | message (text : String)
  deriving DecidableEq, Repr

/-- Why a text does not match, and where: line and column are counted from one. -/
structure Mismatch where
  line : Nat
  col : Nat
  reason : Mismatch.Reason
  deriving DecidableEq, Repr

/-- The mismatch behind the first `offset` characters of a text. -/
def Mismatch.ofOffset (text : Text) (offset : Nat) (reason : Mismatch.Reason) : Mismatch :=
  ⟨(LineCol.countOffset text offset).1, (LineCol.countOffset text offset).2, reason⟩

/-- A template engine, a compiler of grammar texts, and a matcher, with rules of a type of their own. -/
class Engine (R : Type) where
  /-- A template with values and filters, or what is wrong with it. -/
  render (filters : List (String × (List Text → Text))) (values : List (String × Template.Value))
    (template : Text) : Except String Text
  /-- The rules of a grammar text, or everything that is wrong with it. -/
  compile (text : Text) : Except (List String) R
  /-- The names of the rules, in order. -/
  ruleNames (rules : R) : List String
  /-- The matches of a text, from its beginning, against the rule of a name. -/
  run (rules : R) (rule : String) (text : Text) : Except Mismatch (List Node)

/-! ### The engine of this library -/

/-- The attempts as a reason: each rule once, in the order of the names. -/
def Attempts.reason (attempts : Attempts) : Mismatch.Reason :=
  .rules (sortNames attempts.expected) (sortNames attempts.unexpected)

namespace Grammar

/-- The grammar of a grammar text. -/
def compile (text : Text) : Except (List String) Grammar :=
  match GrammarText.rules? text with
  | none => .error ["malformed grammar text"]
  | some rules =>
    match ofRules rules with
    | .ok grammar => .ok grammar
    | .error fault => .error [fault.message]

/-- The matches of a text, or why there are none at the furthest place reached. The number of calls is
limited, and a limit that is reached is the reason. -/
def run (grammar : Grammar) (rule : String) (text : Text) : Except Mismatch (List Node) :=
  match grammar.match? rule text with
  | some ⟨some (nodes, _), _⟩ => .ok nodes
  | some ⟨none, probes⟩ =>
    let attempts := Attempts.ofProbes probes
    .error (.ofOffset text attempts.furthest attempts.reason)
  | none => .error (.ofOffset text 0 (.message "call limit reached"))

/-- The engine that stands behind parsers unless another one is named. It knows that part of the template
language and of the language of grammars in which the shipped template is written. -/
@[default_instance]
instance : Engine Grammar where
  render filters values template :=
    match Template.render? filters values template with
    | some text => .ok text
    | none => .error "malformed template"
  compile := compile
  ruleNames := ruleNames
  run := run

end Grammar

end FeatureFile
