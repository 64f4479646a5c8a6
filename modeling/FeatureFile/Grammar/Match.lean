import FeatureFile.Grammar.Arrangement
import FeatureFile.Grammar.Check
/-!
Matching a text against a grammar. A match gives the nodes of the rules it used and the place it
ends at; besides, every match reports which rules were tried where, from which the message for a
text that does not match is made.
-/

namespace FeatureFile

/-- A place in a text: what follows it, how many characters precede it, and its line. -/
structure Cursor where
  rest : Text
  offset : Nat
  line : Nat
  deriving DecidableEq, Repr

namespace Cursor

/-- The beginning of a text. -/
def start (text : Text) : Cursor := ⟨text, 0, 1⟩

/-- The place behind a character that is followed by `rest`. -/
def behind (cursor : Cursor) (c : Char) (rest : Text) : Cursor :=
  ⟨rest, cursor.offset + 1, if c = '\n' then cursor.line + 1 else cursor.line⟩

/-- The place behind the next character. -/
def next? (cursor : Cursor) : Option Cursor :=
  match cursor.rest with
  | [] => none
  | c :: rest => some (cursor.behind c rest)

/-- The place behind these characters, if they are the next ones. -/
def skip? : Text → Cursor → Option Cursor
  | [], cursor => some cursor
  | l :: lead, cursor =>
    match cursor.rest with
    | [] => none
    | c :: rest => if l = c then skip? lead (cursor.behind c rest) else none

/-- The text between two places. -/
def upTo (cursor last : Cursor) : Text :=
  cursor.rest.take (last.offset - cursor.offset)

end Cursor

/-- A match of a rule: the text it took, the line it starts on, and the matches below it. -/
inductive Node where
  | mk (rule : String) (text : Text) (line : Nat) (children : List Node)
  deriving Repr

/-- A rule that was tried at an offset, whether it matched, and what was tried inside. What is tried
below a `not` stands by itself, since there a match is what is unexpected. -/
inductive Probe where
  | call (rule : String) (offset : Nat) (matched : Bool) (inside : List Probe)
  | denied (inside : List Probe)
  deriving Repr

/-- What an expression matched, if it did, and what was tried on the way. -/
structure Match where
  result : Option (List Node × Cursor)
  probes : List Probe
  deriving Repr

namespace Match

/-- A match without nodes that ends at the cursor, if there is one. -/
def plain (last : Option Cursor) : Match :=
  ⟨last.map ([], ·), []⟩

/-- No match. -/
def failure : Match := ⟨none, []⟩

/-- The match with more probes in front. -/
def behind (m : Match) (nodes : List Node) (probes : List Probe) : Match :=
  ⟨m.result.map fun (more, last) => (nodes ++ more, last), probes ++ m.probes⟩

/-- The match of a rule that leaves a node. -/
def node (m : Match) (rule : String) (first : Cursor) (atomic : Bool) : Match :=
  ⟨m.result.map fun (nodes, last) =>
      ([.mk rule (first.upTo last) first.line (if atomic then [] else nodes)], last),
    [.call rule first.offset m.result.isSome (if atomic then [] else m.probes)]⟩

/-- The match of a rule. -/
def ofRule (m : Match) (rule : Rule) (first : Cursor) : Match :=
  match rule.kind with
  | .silent => m
  | .normal => m.node rule.name first false
  | .atomic => m.node rule.name first true

end Match

namespace Rules

/-- The rule of a name. -/
def find? (rules : List Rule) (name : String) : Option Rule :=
  rules.find? (·.name = name)

/-- Matches an expression at a place; nothing is skipped between the parts of a sequence. The fuel
bounds the depth of the recursion; nothing is returned when it runs out, and only then. -/
def run (rules : List Rule) : Nat → Expr → Cursor → Option Match
  | 0, _, _ => none
  | fuel + 1, e, cursor =>
    match e with
    | .literal text => some (.plain (cursor.skip? text))
    | .any => some (.plain cursor.next?)
    | .startOfInput => some (.plain (if cursor.offset = 0 then some cursor else none))
    | .endOfInput =>
      some ((Match.plain (if cursor.rest.isEmpty then some cursor else none)).node
        "EOI" cursor false)
    | .call name =>
      match find? rules name with
      | none => some .failure
      | some rule => (run rules fuel rule.body cursor).map (·.ofRule rule cursor)
    | .seq a b =>
      (run rules fuel a cursor).bind fun first =>
        match first.result with
        | none => some first
        | some (nodes, last) => (run rules fuel b last).map (·.behind nodes first.probes)
    | .choice a b =>
      (run rules fuel a cursor).bind fun first =>
        match first.result with
        | none => (run rules fuel b cursor).map (·.behind [] first.probes)
        | some _ => some first
    | .star body =>
      (run rules fuel body cursor).bind fun first =>
        match first.result with
        | none => some ⟨some ([], cursor), first.probes⟩
        | some (nodes, last) =>
          (run rules fuel (.star body) last).map (·.behind nodes first.probes)
    | .plus body =>
      (run rules fuel body cursor).bind fun first =>
        match first.result with
        | none => some first
        | some (nodes, last) =>
          (run rules fuel (.star body) last).map (·.behind nodes first.probes)
    | .opt body =>
      (run rules fuel body cursor).map fun first =>
        ⟨some (first.result.getD ([], cursor)), first.probes⟩
    | .not body =>
      (run rules fuel body cursor).map fun first =>
        ⟨if first.result.isSome then none else some ([], cursor), [.denied first.probes]⟩
    | .and body =>
      (run rules fuel body cursor).map fun first =>
        ⟨first.result.map fun _ => ([], cursor), first.probes⟩

/-- The sizes of all rules together. -/
def size : List Rule → Nat
  | [] => 0
  | rule :: rules => rule.body.size + 1 + size rules

/-- Fuel for matching a text, enough where no rule is entered twice at one place; a repetition goes
on only at a later place. -/
def fuel (rules : List Rule) (text : Text) : Nat :=
  (text.length + 1) * (size rules + 2)

end Rules

namespace Grammar

/-- The rules as they are matched. -/
def arranged (grammar : Grammar) : List Rule :=
  grammar.rules.map Rule.arranged

/-- Matches the text against a rule, from its beginning. -/
def match? (grammar : Grammar) (rule : String) (text : Text) : Option Match :=
  let rules := grammar.arranged
  Rules.run rules (Rules.fuel rules text) (.call rule) (.start text)

end Grammar

end FeatureFile
