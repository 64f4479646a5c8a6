import FeatureFile.Line.Kind
import FeatureFile.Line.Tags
import FeatureFile.Line.Row
import FeatureFile.Document.Reading
/-!
Reading a document line by line. A header is reported once its description is complete, which is
when the next line that is neither blank nor free text arrives; between fences every line is
content.
-/

namespace FeatureFile

/-- A header whose description is still being collected, as raw lines. -/
structure PendingHeader where
  kind : SectionKind
  keyword : Text
  name : Text
  line : Nat
  description : List Text
  deriving DecidableEq, Repr

namespace PendingHeader

/-- The header with one more line of description. -/
def extend (pending : PendingHeader) (raw : Text) : PendingHeader :=
  { pending with description := pending.description ++ [raw] }

/-- The header as it is reported. -/
def event (pending : PendingHeader) : Event :=
  .header pending.kind
    ⟨pending.keyword, pending.name, Text.joinLines pending.description, pending.line⟩

end PendingHeader

/-- A doc string whose closing fence has not come yet. -/
structure OpenDocString where
  indent : Nat
  line : Nat
  lines : List Text
  deriving DecidableEq, Repr

namespace OpenDocString

/-- The block with one more line. -/
def extend (block : OpenDocString) (raw : Text) : OpenDocString :=
  { block with lines := block.lines ++ [raw] }

/-- The block as it is reported. -/
def event (block : OpenDocString) : Event :=
  .docString (dedent block.lines block.indent) block.line

end OpenDocString

/-- What is open between two lines. -/
inductive LineState where
  | idle
  | header (pending : PendingHeader)
  | docString (block : OpenDocString)
  deriving DecidableEq, Repr

namespace LineState

/-- The events that are due before anything but description. -/
def flush : LineState → List Event
  | header pending => [pending.event]
  | _ => []

/-- The state behind a blank line, which belongs to an open description. -/
def blank (raw : Text) : LineState → LineState
  | header pending => .header (pending.extend raw)
  | state => state

/-- A line inside a doc string. -/
def inside (block : OpenDocString) (line : Nat) (raw : Text) : List Event × Except Fault LineState :=
  match fence? raw with
  | none => ([], .ok (.docString (block.extend raw)))
  | some true => ([block.event], .ok .idle)
  | some false => ([], .error ⟨.textAfterFence, line⟩)

/-- A line outside of doc strings, by its kind. -/
def outside (state : LineState) (line : Nat) (raw : Text) :
    LineKind → List Event × Except Fault LineState
  | .blank => ([], .ok (state.blank raw))
  | .comment text => (state.flush ++ [.comment text line], .ok .idle)
  | .tags text =>
    match TagLine.split? text with
    | some tags => (state.flush ++ tags.map (.tag · line), .ok .idle)
    | none => (state.flush, .error ⟨.malformedTags, line⟩)
  | .row text =>
    match TableRow.split? text with
    | some cells => (state.flush ++ [.row cells line], .ok .idle)
    | none => (state.flush, .error ⟨.openRow, line⟩)
  | .fence true => (state.flush, .ok (.docString ⟨raw.indentation, line, []⟩))
  | .fence false => (state.flush, .error ⟨.textAfterFence, line⟩)
  | .step keyword name => (state.flush ++ [.step keyword name line], .ok .idle)
  | .header kind keyword name => (state.flush, .ok (.header ⟨kind, keyword, name, line, []⟩))
  | .other text =>
    match state with
    | .header pending => ([], .ok (.header (pending.extend raw)))
    | _ => ([], .error ⟨.unexpectedText text.trimEnd, line⟩)

/-- The events of one more line, and the state behind it or the fault it has. -/
def step (vocabulary : Vocabulary) (state : LineState) (line : Nat) (raw : Text) :
    List Event × Except Fault LineState :=
  match state with
  | .docString block => inside block line raw
  | _ => state.outside line raw (vocabulary.kind raw)

/-- The end of the document. -/
def finish (state : LineState) (line : Nat) : Reading :=
  match state with
  | .docString block => ⟨[], some ⟨.unterminatedDocString, block.line⟩⟩
  | _ => ⟨state.flush ++ [.endOfInput line], none⟩

/-- The lines from number `line` on, then the end of the document. -/
def readFrom (vocabulary : Vocabulary) (state : LineState) (line : Nat) : List Text → Reading
  | [] => state.finish line
  | raw :: rest =>
    match state.step vocabulary line raw with
    | (events, .error fault) => ⟨events, some fault⟩
    | (events, .ok next) =>
      let reading := readFrom vocabulary next (line + 1) rest
      ⟨events ++ reading.events, reading.fault⟩

end LineState

/-- The reading of a document, line by line. -/
def Vocabulary.read (vocabulary : Vocabulary) (source : Text) : Reading :=
  LineState.idle.readFrom vocabulary 1 source.lines

end FeatureFile
