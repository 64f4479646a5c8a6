import FeatureFile.Text.Basic
/-!
Scalars of YAML: plain ones, and those in single or double quotes. A scalar may go on over several
lines. The white space between two of its words is gathered in a gap, and the gap is folded: blanks
around a line break go, a single break becomes a space, and of several breaks the first one goes.

Breaks are those of a text with unified breaks: LF, and the separators U+2028 and U+2029, which
folding keeps.
-/

namespace FeatureFile.Yaml

/-- A scalar; only a plain one can stand for the absence of a value. -/
structure Scalar where
  text : Text
  plain : Bool
  deriving DecidableEq, Repr

/-- The text with one LF for each CR LF, CR, LF and U+0085. -/
def unifyBreaks : Text → Text
  | [] => []
  | '\r' :: '\n' :: rest => '\n' :: unifyBreaks rest
  | c :: rest => (if c = '\r' || c = '\u0085' then '\n' else c) :: unifyBreaks rest

/-- Whether the character ends a line. -/
def isBreak (c : Char) : Bool :=
  c = '\n' || c = '\u2028' || c = '\u2029'

/-- Whether a word in front of the text ends there. -/
def endsWord : Text → Bool
  | [] => true
  | c :: _ => Text.isBlankChar c || isBreak c

/-- Whether the text starts with the character three times and nothing else in the word. -/
def startsTriple (c : Char) (text : Text) : Bool :=
  (Text.after? [c, c, c] text).any endsWord

/-- Whether a line starts like one that opens or closes a document. -/
def startsDocumentMark (line : Text) : Bool :=
  startsTriple '-' line || startsTriple '.' line

/-- White space read since the last word of a scalar: blanks on the line of the word, or breaks. Of
breaks, the first is kept apart from the others, and the blanks behind the last are counted. -/
inductive Gap where
  | blanks (read : Text)
  | breaks (first others : Text) (column : Nat)
  deriving DecidableEq, Repr

namespace Gap

/-- No white space. -/
def empty : Gap := blanks []

/-- The gap with one more blank. -/
def blank (c : Char) : Gap → Gap
  | blanks read => blanks (read ++ [c])
  | breaks first others column => breaks first others (column + 1)

/-- The gap with one more break. -/
def lineBreak (c : Char) : Gap → Gap
  | blanks _ => breaks [c] [] 0
  | breaks first others _ => breaks first (others ++ [c]) 0

/-- Whether there is white space. -/
def isOpen : Gap → Bool
  | blanks read => !read.isEmpty
  | breaks .. => true

/-- How many blanks precede the text behind the last break, if there is a break. -/
def column? : Gap → Option Nat
  | blanks _ => none
  | breaks _ _ column => some column

/-- What the gap leaves in the scalar. -/
def folded : Gap → Text
  | blanks read => read
  | breaks ['\n'] [] _ => [' ']
  | breaks ['\n'] others _ => others
  | breaks first others _ => first ++ others

/-- The gap and a character in front of what is read behind it. -/
def before (gap : Gap) (c : Char) (behind : Option (Text × Text)) : Option (Text × Text) :=
  behind.map fun (text, rest) => (gap.folded ++ c :: text, rest)

end Gap

namespace Scalar

/-- Whether the scalar is one of the plain words for no value. -/
def isNull (scalar : Scalar) : Bool :=
  scalar.plain && ["~", "null", "Null", "NULL"].any fun word => scalar.text = word.toList

/-- The value of a hexadecimal digit. -/
def hexDigit? (c : Char) : Option Nat :=
  if '0' ≤ c ∧ c ≤ '9' then some (c.toNat - '0'.toNat)
  else if 'a' ≤ c ∧ c ≤ 'f' then some (c.toNat - 'a'.toNat + 10)
  else if 'A' ≤ c ∧ c ≤ 'F' then some (c.toNat - 'A'.toNat + 10)
  else none

/-- The character whose code point the digits spell. -/
def hexChar? (digits : Text) : Option Char := do
  let values ← digits.mapM hexDigit?
  let code := values.foldl (fun code value => 16 * code + value) 0
  if code.isValidChar then some (Char.ofNat code) else none

/-- The character behind a backslash, for the escapes of one character. -/
def simpleEscape? : Char → Option Char
  | '0' => some '\x00'
  | 'a' => some '\x07'
  | 'b' => some '\x08'
  | 't' | '\t' => some '\t'
  | 'n' => some '\n'
  | 'v' => some '\x0b'
  | 'f' => some '\x0c'
  | 'r' => some '\r'
  | 'e' => some '\x1b'
  | ' ' => some ' '
  | '"' => some '"'
  | '/' => some '/'
  | '\\' => some '\\'
  | 'N' => some '\u0085'
  | '_' => some '\u00a0'
  | 'L' => some '\u2028'
  | 'P' => some '\u2029'
  | _ => none

/-- Reads on inside double quotes, behind a gap: the content, and the rest behind the closing quote.
A backslash at the end of a line joins it with the next one. -/
def double? (gap : Gap) : Text → Option (Text × Text)
  | [] => none
  | '"' :: rest => some (gap.folded, rest)
  | '\\' :: 'x' :: a :: b :: rest =>
    (hexChar? [a, b]).bind fun c => gap.before c (double? .empty rest)
  | '\\' :: 'u' :: a :: b :: c :: d :: rest =>
    (hexChar? [a, b, c, d]).bind fun c => gap.before c (double? .empty rest)
  | '\\' :: 'U' :: a :: b :: c :: d :: e :: f :: g :: h :: rest =>
    (hexChar? [a, b, c, d, e, f, g, h]).bind fun c => gap.before c (double? .empty rest)
  | '\\' :: c :: rest =>
    if isBreak c then
      if startsDocumentMark rest then none
      else (double? (.breaks [] [] 0) rest).map fun (text, behind) => (gap.folded ++ text, behind)
    else (simpleEscape? c).bind fun c => gap.before c (double? .empty rest)
  | c :: rest =>
    if Text.isBlankChar c then double? (gap.blank c) rest
    else if isBreak c then
      if startsDocumentMark rest then none else double? (gap.lineBreak c) rest
    else gap.before c (double? .empty rest)

/-- Reads on inside single quotes, behind a gap; a quote inside is written twice. -/
def single? (gap : Gap) : Text → Option (Text × Text)
  | [] => none
  | '\'' :: '\'' :: rest => gap.before '\'' (single? .empty rest)
  | '\'' :: rest => some (gap.folded, rest)
  | c :: rest =>
    if Text.isBlankChar c then single? (gap.blank c) rest
    else if isBreak c then
      if startsDocumentMark rest then none else single? (gap.lineBreak c) rest
    else gap.before c (single? .empty rest)

/-- Commas, braces and brackets, which end a plain scalar inside braces. -/
def isFlowMark (c : Char) : Bool :=
  ",[]\x7b\x7d".toList.contains c

/-- Whether a plain scalar may start so. A hyphen starts one where it does not stand alone, a
question mark or a colon only outside braces. -/
def startsPlain (inFlow : Bool) (c : Char) (rest : Text) : Bool :=
  if c = '-' then !endsWord rest
  else if c = '?' || c = ':' then !inFlow && !endsWord rest
  else !Text.isBlankChar c && !",[]\x7b\x7d#&*!|>'\"%@`".toList.contains c

/-- Whether a plain scalar ends in front of a character that is white space neither itself: at a
colon that ends a word, at a comment behind a gap, outside braces on a line indented less than
`indent`, inside them at their marks, and at a mark of the document. -/
def endsPlain (inFlow : Bool) (indent : Nat) (gap : Gap) (c : Char) (rest : Text) : Bool :=
  (c = ':' && endsWord rest)
    || (inFlow && isFlowMark c)
    || (gap.isOpen && c = '#')
    || gap.column?.any fun column =>
      (!inFlow && column < indent) || (column = 0 && startsDocumentMark (c :: rest))

/-- Reads on in a plain scalar, behind a gap: the rest of its text, whether a break has been read
behind it, and what follows. Tabs cannot indent a line, and inside braces a colon must not touch a
mark. -/
def plain? (inFlow : Bool) (indent : Nat) (gap : Gap) : Text → Option (Text × Bool × Text)
  | [] => some ([], gap.column?.isSome, [])
  | c :: rest =>
    if Text.isBlankChar c then
      if c = '\t' && gap.column?.any (· < indent) then none
      else plain? inFlow indent (gap.blank c) rest
    else if isBreak c then plain? inFlow indent (gap.lineBreak c) rest
    else if endsPlain inFlow indent gap c rest then some ([], gap.column?.isSome, c :: rest)
    else if inFlow && c = ':' && rest.head?.any (fun next => next = '?' || isFlowMark next) then none
    else (plain? inFlow indent .empty rest).map fun (text, broken, behind) =>
      (gap.folded ++ c :: text, broken, behind)

end Scalar

end FeatureFile.Yaml
