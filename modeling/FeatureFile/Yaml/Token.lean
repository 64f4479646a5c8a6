import FeatureFile.Yaml.Scalar
/-!
Tokens of YAML. Besides the scalars and the marks of a text they say where block mappings start and
end, which follows from how lines are indented, and which scalars are keys, which shows only at the
colon behind them: until then a scalar is pending.
-/

namespace FeatureFile.Yaml

/-- A place in a text: what follows it, its line, and how many characters and bytes of the line
precede it. -/
structure Place where
  rest : Text
  line : Nat
  column : Nat
  bytes : Nat
  deriving DecidableEq, Repr

namespace Place

/-- The beginning of a text. -/
def start (text : Text) : Place := ⟨text, 0, 0, 0⟩

/-- The place behind one character. -/
def behind (place : Place) (c : Char) : Place :=
  if isBreak c then { place with line := place.line + 1, column := 0, bytes := 0 }
  else { place with column := place.column + 1, bytes := place.bytes + c.utf8Size }

/-- The place in front of the given rest of the text. -/
def upTo (place : Place) (rest : Text) : Place :=
  let read := place.rest.take (place.rest.length - rest.length)
  { read.foldl behind place with rest := rest }

end Place

/-- A token. -/
inductive Token where
  | documentStart | documentEnd
  | blockStart | blockEnd
  | flowStart | flowEnd | comma
  | key | value
  | scalar (scalar : Scalar)
  deriving DecidableEq, Repr

/-- Where white space between tokens stands: behind indentation or not, or in a comment. -/
inductive Blankness where
  | lineStart | inLine | comment
  deriving DecidableEq, Repr

/-- Drops white space and comments. A break outside braces lets a key follow; where one may follow
outside braces, a tab is no white space. A byte order mark may start a line. -/
def dropBlank (inFlow : Bool) (blankness : Blankness) (keyAllowed : Bool) : Text → Bool × Text
  | [] => (keyAllowed, [])
  | c :: rest =>
    if isBreak c then dropBlank inFlow .lineStart (keyAllowed || !inFlow) rest
    else if c = '#' || blankness = .comment then dropBlank inFlow .comment keyAllowed rest
    else if c = ' ' || (c = '\t' && (inFlow || !keyAllowed))
        || (c = '\ufeff' && blankness = .lineStart) then
      dropBlank inFlow .inLine keyAllowed rest
    else (keyAllowed, c :: rest)

/-- A scalar that is a key if a colon follows on its line. Where a key of an open block mapping is
due, it has to be one. -/
structure Candidate where
  scalar : Scalar
  required : Bool
  line : Nat
  column : Nat
  bytes : Nat
  deriving DecidableEq, Repr

/-- How many bytes may lie between the beginning of a key and its colon. -/
def Candidate.reach : Nat := 1024

/-- Whether the candidate may still be a key at a place. -/
def Candidate.isFresh (candidate : Candidate) (place : Place) : Bool :=
  candidate.line = place.line && place.bytes ≤ candidate.bytes + reach

/-- What has been read: the tokens, last first, the pending scalar, the indentation of the open block
mappings, innermost first, how many braces are open, and whether a key may come next. -/
structure Progress where
  tokens : List Token
  pending : Option Candidate
  indents : List Nat
  depth : Nat
  keyAllowed : Bool
  deriving DecidableEq, Repr

namespace Progress

/-- Nothing read yet. -/
def start : Progress := ⟨[], none, [], 0, true⟩

/-- Whether braces are open. -/
def inFlow (progress : Progress) : Bool :=
  0 < progress.depth

/-- One more token, and whether a key may come behind it. -/
def push (progress : Progress) (token : Token) (keyAllowed : Bool) : Progress :=
  { progress with tokens := token :: progress.tokens, keyAllowed }

/-- Whether a key of the innermost block mapping is due at the column. -/
def isAligned (progress : Progress) (column : Nat) : Bool :=
  !progress.inFlow && progress.indents.head? = some column

/-- How far a plain scalar has to be indented to go on. -/
def scalarIndent (progress : Progress) : Nat :=
  (progress.indents.head?.map (· + 1)).getD 0

/-- The pending scalar becomes a token, unless it has to be a key. -/
def settle? (progress : Progress) : Option Progress :=
  match progress.pending with
  | none => some progress
  | some candidate =>
    if candidate.required then none
    else some
      { progress with tokens := .scalar candidate.scalar :: progress.tokens, pending := none }

/-- Opens a block mapping at the column, unless one is open there. -/
def openBlock (progress : Progress) (column : Nat) : Progress :=
  if !progress.inFlow && progress.indents.head?.all (· < column) then
    { progress with tokens := .blockStart :: progress.tokens, indents := column :: progress.indents }
  else progress

/-- Closes the innermost block mappings, as far as their indentation is of the kind. -/
def closeBlocks (progress : Progress) (isClosed : Nat → Bool) : Progress :=
  if progress.inFlow then progress
  else
    let closed := progress.indents.takeWhile isClosed
    { progress with
      tokens := List.replicate closed.length .blockEnd ++ progress.tokens
      indents := progress.indents.dropWhile isClosed }

/-- Whether a colon that stands for itself comes first. -/
def atColon (progress : Progress) : Text → Bool
  | ':' :: rest => progress.inFlow || endsWord rest
  | _ => false

/-- At the colon behind a candidate: the candidate is a key. -/
def resolve? (progress : Progress) (place : Place) : Option Progress :=
  match progress.pending with
  | none => none
  | some candidate =>
    if candidate.isFresh place && progress.atColon place.rest then
      let opened := { progress with pending := none }.openBlock candidate.column
      some { opened with
        tokens := .value :: .scalar candidate.scalar :: .key :: opened.tokens
        keyAllowed := false }
    else none

/-- A question mark or colon that belongs to no pending scalar. -/
def mark? (progress : Progress) (token : Token) (column : Nat) : Option Progress :=
  if progress.inFlow then some (progress.push token false)
  else if progress.keyAllowed then some ((progress.openBlock column).push token true)
  else none

/-- A scalar that starts at a place: pending where a key may come. -/
def scalar (progress : Progress) (place : Place) (scalar : Scalar) (keyAllowed : Bool) : Progress :=
  if progress.keyAllowed then
    { progress with
      pending := some
        ⟨scalar, progress.isAligned place.column, place.line, place.column, place.bytes⟩
      keyAllowed }
  else progress.push (.scalar scalar) keyAllowed

/-- A mark that opens or closes a document. -/
def documentMark (progress : Progress) (token : Token) : Progress :=
  (progress.closeBlocks fun _ => true).push token false

/-- The token at a place, where nothing is pending, and the rest behind it. Where a key is due,
braces cannot open, as no key is a mapping. -/
def token? (progress : Progress) (place : Place) : Option (Progress × Text) :=
  if place.column = 0 && startsTriple '-' place.rest then
    some (progress.documentMark .documentStart, place.rest.drop 3)
  else if place.column = 0 && startsTriple '.' place.rest then
    some (progress.documentMark .documentEnd, place.rest.drop 3)
  else match place.rest with
    | [] => none
    | '\x7b' :: rest =>
      if progress.isAligned place.column then none
      else some ({ progress.push .flowStart true with depth := progress.depth + 1 }, rest)
    | '\x7d' :: rest =>
      if progress.inFlow then
        some ({ progress.push .flowEnd false with depth := progress.depth - 1 }, rest)
      else none
    | ',' :: rest => some (progress.push .comma true, rest)
    | '"' :: rest =>
      (Scalar.double? .empty rest).map fun (text, behind) =>
        (progress.scalar place ⟨text, false⟩ false, behind)
    | '\'' :: rest =>
      (Scalar.single? .empty rest).map fun (text, behind) =>
        (progress.scalar place ⟨text, false⟩ false, behind)
    | c :: rest =>
      if c = '?' && (progress.inFlow || endsWord rest) then
        (progress.mark? .key place.column).map (·, rest)
      else if progress.atColon (c :: rest) then
        (progress.mark? .value place.column).map (·, rest)
      else if Scalar.startsPlain progress.inFlow c rest then
        (Scalar.plain? progress.inFlow progress.scalarIndent .empty (c :: rest)).map
          fun (text, broken, behind) => (progress.scalar place ⟨text, true⟩ broken, behind)
      else none

/-- Reads on at a place behind white space: the colon of a pending key, or what closes the blocks
that are indented further, and a token. -/
def step? (progress : Progress) (place : Place) : Option (Progress × Text) :=
  match progress.resolve? place with
  | some next => some (next, place.rest.drop 1)
  | none => progress.settle?.bind fun settled =>
    (settled.closeBlocks (place.column < ·)).token? place

/-- The tokens when the text has ended. -/
def finish? (progress : Progress) : Option (List Token) :=
  progress.settle?.map fun settled => (settled.closeBlocks fun _ => true).tokens.reverse

/-- The progress at the next token, and the place of it. -/
def dropBlank (progress : Progress) (place : Place) : Progress × Place :=
  let blankness := if place.column = 0 then .lineStart else .inLine
  let (keyAllowed, rest) :=
    Yaml.dropBlank progress.inFlow blankness progress.keyAllowed place.rest
  ({ progress with keyAllowed }, place.upTo rest)

/-- Reads to the end of the text. The number bounds the steps; each takes a character at least. -/
def run? : Nat → Progress → Place → Option (List Token)
  | 0, _, _ => none
  | bound + 1, progress, place =>
    let (progress, place) := progress.dropBlank place
    if place.rest.isEmpty then progress.finish?
    else (progress.step? place).bind fun (next, rest) => run? bound next (place.upTo rest)

end Progress

/-- The tokens of a text. -/
def tokens? (text : Text) : Option (List Token) :=
  Progress.run? (text.length + 1) .start (.start text)

end FeatureFile.Yaml
