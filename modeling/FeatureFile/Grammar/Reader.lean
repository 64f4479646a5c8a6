import FeatureFile.Grammar.Token
import FeatureFile.Grammar.Expr
/-!
Reading rules from tokens. A rule is a name, an equals sign, a mark for its kind if it is silent or
atomic, and an expression in braces. Signs behind an operand bind closest, then those before it,
then `~`, then `|`, which may also stand in front of the first alternative; open parentheses are
kept on a stack.
-/

namespace FeatureFile.GrammarText

/-- A sign in front of an operand. -/
inductive Lookahead where
  | not | and
  deriving DecidableEq, Repr

/-- The expression behind a sign. -/
def Lookahead.apply : Lookahead → Expr → Expr
  | not, e => .not e
  | and, e => .and e

/-- An expression that is still open: whether it starts with a `|`, its finished alternatives and the
finished items of the last one, both last first, the signs in front of the current operand, the
closest first, and the operand. -/
structure Frame where
  led : Bool
  alternatives : List Expr
  items : List Expr
  signs : List Lookahead
  operand : Option Expr
  deriving DecidableEq, Repr

namespace Frame

/-- Nothing read yet. -/
def start : Frame := ⟨false, [], [], [], none⟩

/-- The current operand with the signs in front of it. -/
def item? (frame : Frame) : Option Expr :=
  frame.operand.map fun operand => frame.signs.foldl (fun e sign => sign.apply e) operand

/-- The current alternative, closed. -/
def alternative? (frame : Frame) : Option Expr :=
  frame.item?.map fun last =>
    match (last :: frame.items).reverse with
    | first :: rest => .sequence first rest
    | [] => last

/-- The whole expression, closed. -/
def expression? (frame : Frame) : Option Expr :=
  frame.alternative?.map fun last =>
    match (last :: frame.alternatives).reverse with
    | first :: rest => .choices first rest
    | [] => last

/-- The frame with an operand. -/
def push? (frame : Frame) (operand : Expr) : Option Frame :=
  if frame.operand.isSome then none else some { frame with operand := some operand }

/-- The frame with its operand replaced by a repetition or option of it. -/
def wrap? (frame : Frame) (f : Expr → Expr) : Option Frame :=
  frame.operand.map fun operand => { frame with operand := some (f operand) }

/-- The frame with one more sign in front of the operand to come. -/
def sign? (frame : Frame) (sign : Lookahead) : Option Frame :=
  if frame.operand.isSome then none else some { frame with signs := sign :: frame.signs }

/-- The frame behind a `~`. -/
def nextItem? (frame : Frame) : Option Frame :=
  frame.item?.map fun item =>
    { frame with items := item :: frame.items, signs := [], operand := none }

/-- The frame behind a `|`. -/
def nextAlternative? (frame : Frame) : Option Frame :=
  if frame = start then some { start with led := true }
  else frame.alternative?.map fun alternative =>
    { start with led := frame.led, alternatives := alternative :: frame.alternatives }

end Frame

/-- The operand a name stands for; names that start like the stack operation are refused. -/
def operand? (name : String) : Option Expr :=
  if name = "ANY" then some .any
  else if name = "SOI" then some .startOfInput
  else if name = "EOI" then some .endOfInput
  else if (Text.after? "PUSH".toList name.toList).isSome then none
  else some (.call name)

/-- What has been read of a rule. -/
inductive RuleState where
  /-- Nothing, nor any rule before it. -/
  | opening
  | between
  | named (name : String)
  | defined (name : String)
  | marked (name : String) (kind : RuleKind)
  | body (name : String) (kind : RuleKind) (frame : Frame) (outer : List Frame)
  deriving DecidableEq, Repr

namespace RuleState

/-- One more token inside braces. -/
def inBody? (name : String) (kind : RuleKind) (frame : Frame) (outer : List Frame) :
    Token → Option (List Rule × RuleState) :=
  let stay (next : Option Frame) := next.map fun frame => ([], body name kind frame outer)
  fun
  | .name called => stay ((operand? called).bind frame.push?)
  | .literal text => stay (frame.push? (.literal text))
  | .mark .star => stay (frame.wrap? .star)
  | .mark .plus => stay (frame.wrap? .plus)
  | .mark .optional => stay (frame.wrap? .opt)
  | .mark .not => stay (frame.sign? .not)
  | .mark .and => stay (frame.sign? .and)
  | .mark .tilde => stay frame.nextItem?
  | .mark .bar => stay frame.nextAlternative?
  | .mark .openParen =>
    if frame.operand.isSome then none else some ([], body name kind .start (frame :: outer))
  | .mark .closeParen =>
    match outer with
    | [] => none
    | parent :: outer =>
      (frame.expression?.bind parent.push?).map fun frame => ([], body name kind frame outer)
  | .mark .closeBrace =>
    match outer with
    | [] => frame.expression?.map fun e => ([⟨name, kind, e⟩], between)
    | _ => none
  | .mark .equals | .mark .atomic | .mark .openBrace | .grammarNote | .ruleNote => none

/-- A token between two rules. -/
def between? : Token → Option (List Rule × RuleState)
  | .name name =>
    if (Text.after? "PUSH".toList name.toList).isSome then none else some ([], named name)
  | .ruleNote => some ([], between)
  | _ => none

/-- One more token. -/
def step? : RuleState → Token → Option (List Rule × RuleState)
  | opening, .grammarNote => some ([], opening)
  | opening, token => between? token
  | between, token => between? token
  | named name, .mark .equals => some ([], defined name)
  | defined name, .mark .openBrace => some ([], body name .normal .start [])
  | defined name, .mark .atomic => some ([], marked name .atomic)
  | defined name, .name sign => if sign = "_" then some ([], marked name .silent) else none
  | marked name kind, .mark .openBrace => some ([], body name kind .start [])
  | body name kind frame outer, token => inBody? name kind frame outer token
  | _, _ => none

end RuleState

/-- The rules of a list of tokens. -/
def rulesOf? (tokens : List Token) : Option (List Rule) :=
  (transduce RuleState.step? .opening tokens).bind fun (rules, last) =>
    match last with
    | .opening | .between => some rules
    | _ => none

/-- The rules of a grammar text. -/
def rules? (text : Text) : Option (List Rule) :=
  (tokens? text).bind rulesOf?

end FeatureFile.GrammarText
