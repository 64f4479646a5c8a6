import FeatureFile.Grammar.Transducer
import FeatureFile.Text.Basic
/-!
Tokens of grammar text: names, quoted literals and marks. Spaces, tabs and line breaks only set
tokens apart, and a comment reaches from two slashes to the end of its line. With a third slash or an
exclamation mark it documents a rule or the grammar, which is a token too.
-/

namespace FeatureFile.GrammarText

/-- The marks of a grammar text. -/
inductive Mark where
  | equals | atomic
  | openBrace | closeBrace | openParen | closeParen
  | tilde | bar
  | star | plus | optional
  | not | and
  deriving DecidableEq, Repr

/-- A token of a grammar text. -/
inductive Token where
  | name (name : String)
  | literal (text : Text)
  | mark (mark : Mark)
  /-- A comment on the grammar. -/
  | grammarNote
  /-- A comment on a rule. -/
  | ruleNote
  deriving DecidableEq, Repr

/-- The mark a character stands for. -/
def mark? : Char → Option Mark
  | '=' => some .equals
  | '@' => some .atomic
  | '\x7b' => some .openBrace
  | '\x7d' => some .closeBrace
  | '(' => some .openParen
  | ')' => some .closeParen
  | '~' => some .tilde
  | '|' => some .bar
  | '*' => some .star
  | '+' => some .plus
  | '?' => some .optional
  | '!' => some .not
  | '&' => some .and
  | _ => none

/-- Whether a name may start with the character. -/
def isNameStart (c : Char) : Bool :=
  c.isAlpha || c = '_'

/-- Whether a name may go on with the character. -/
def isNameChar (c : Char) : Bool :=
  c.isAlphanum || c = '_'

/-- The character an escape stands for. -/
def unescape? : Char → Option Char
  | '"' => some '"'
  | '\\' => some '\\'
  | 'n' => some '\n'
  | 'r' => some '\r'
  | 't' => some '\t'
  | _ => none

/-- What is open between two characters; texts are kept last character first. -/
inductive Mode where
  | between
  | name (read : Text)
  | slash
  | slashes
  | comment
  /-- Three slashes. -/
  | noteStart
  /-- Three slashes and a blank. -/
  | noteBlank
  /-- A CR, which is a line break only with an LF behind it. -/
  | carriageReturn
  | literal (read : Text)
  | escape (read : Text)
  deriving DecidableEq, Repr

namespace Mode

/-- A character between tokens. -/
def fresh? (c : Char) : Option (List Token × Mode) :=
  if c = ' ' || c = '\t' || c = '\n' then some ([], .between)
  else if c = '\r' then some ([], .carriageReturn)
  else if c = '/' then some ([], .slash)
  else if c = '"' then some ([], .literal [])
  else if isNameStart c then some ([], .name [c])
  else (mark? c).map fun mark => ([.mark mark], .between)

/-- A character of a comment. -/
def inComment (c : Char) : Mode :=
  if c = '\n' then .between else .comment

/-- One more character. -/
def step? : Mode → Char → Option (List Token × Mode)
  | between, c => fresh? c
  | name read, c =>
    if isNameChar c then some ([], .name (c :: read))
    else (fresh? c).map fun (tokens, next) =>
      (.name (String.ofList read.reverse) :: tokens, next)
  | slash, c => if c = '/' then some ([], .slashes) else none
  | slashes, c =>
    if c = '/' then some ([], .noteStart)
    else if c = '!' then some ([.grammarNote], .comment)
    else some ([], inComment c)
  | comment, c => some ([], inComment c)
  | noteStart, c =>
    if c = '/' then none
    else if c = ' ' || c = '\t' then some ([], .noteBlank)
    else some ([.ruleNote], inComment c)
  | noteBlank, c => if c = '/' then none else some ([.ruleNote], inComment c)
  | carriageReturn, c => if c = '\n' then some ([], .between) else none
  | literal read, c =>
    if c = '"' then some ([.literal read.reverse], .between)
    else if c = '\\' then some ([], .escape read)
    else some ([], .literal (c :: read))
  | escape read, c => (unescape? c).map fun c => ([], .literal (c :: read))

/-- The tokens due at the end of the text. -/
def finish? : Mode → Option (List Token)
  | between | slashes | comment => some []
  | noteStart | noteBlank => some [.ruleNote]
  | name read => some [.name (String.ofList read.reverse)]
  | slash | carriageReturn | literal _ | escape _ => none

end Mode

/-- The tokens of a grammar text. -/
def tokens? (text : Text) : Option (List Token) :=
  (transduce Mode.step? .between text).bind fun (tokens, last) =>
    last.finish?.map (tokens ++ ·)

end FeatureFile.GrammarText
