import FeatureFile.Line.Reader
/-!
Telling a document to a listener. An event is told as soon as it is due: a header in front of what the
line behind its description reports or is at fault for, a doc string at its closing fence. The first event
that the listener refuses ends the telling, as the first fault does.
-/

namespace FeatureFile

/-- What is done while a document is told: a listener keeps a state, and an error ends it. -/
abbrev Telling (σ ε : Type) := ExceptT ε (StateM σ)

/-- How it goes in a state: the value it comes to or the error that ends it, and the state afterwards. -/
def Telling.run {σ ε α : Type} (telling : Telling σ ε α) (state : σ) : Except ε α × σ :=
  telling state

/-- What a listener does with an event that it is told. By an error it refuses the event, and it may have
changed its state all the same. -/
abbrev Listener (σ ε : Type) := Event → Telling σ ε Unit

namespace LineState

variable {σ ε : Type} (listener : Listener σ ε) (report : Fault → ε)

/-- Tells the header that is open, if one is. -/
def tellOpen : LineState → Telling σ ε Unit
  | header pending => listener pending.event
  | _ => pure ()

/-- A line inside a doc string. -/
def tellInside (block : OpenDocString) (line : Nat) (raw : Text) : Telling σ ε LineState :=
  match fence? raw with
  | none => return docString (block.extend raw)
  | some true => do
    listener block.event
    return idle
  | some false => throw (report ⟨.textAfterFence, line⟩)

/-- A line outside of doc strings, by its kind. -/
def tellOutside (state : LineState) (line : Nat) (raw : Text) : LineKind → Telling σ ε LineState
  | .blank => return state.blank raw
  | .comment text => do
    state.tellOpen listener
    listener (.comment text line)
    return idle
  | .tags text => do
    state.tellOpen listener
    match TagLine.split? text with
    | some tags =>
      tags.forM fun tag => listener (.tag tag line)
      return idle
    | none => throw (report ⟨.malformedTags, line⟩)
  | .row text => do
    state.tellOpen listener
    match TableRow.split? text with
    | some cells =>
      listener (.row cells line)
      return idle
    | none => throw (report ⟨.openRow, line⟩)
  | .fence bare => do
    state.tellOpen listener
    if bare then return docString ⟨raw.indentation, line, []⟩
    else throw (report ⟨.textAfterFence, line⟩)
  | .step keyword name => do
    state.tellOpen listener
    listener (.step keyword name line)
    return idle
  | .header kind keyword name => do
    state.tellOpen listener
    return header ⟨kind, keyword, name, line, []⟩
  | .other text =>
    match state with
    | header pending => return header (pending.extend raw)
    | _ => throw (report ⟨.unexpectedText text.trimEnd, line⟩)

/-- One more line, and what is open behind it. -/
def tellLine (vocabulary : Vocabulary) (state : LineState) (line : Nat) (raw : Text) :
    Telling σ ε LineState :=
  match state with
  | docString block => tellInside listener report block line raw
  | _ => state.tellOutside listener report line raw (vocabulary.kind raw)

/-- The end of the document. -/
def tellEnd (state : LineState) (line : Nat) : Telling σ ε Unit :=
  match state with
  | docString block => throw (report ⟨.unterminatedDocString, block.line⟩)
  | _ => do
    state.tellOpen listener
    listener (.endOfInput line)

/-- The lines from number `line` on, then the end of the document. -/
def tellFrom (vocabulary : Vocabulary) (state : LineState) (line : Nat) : List Text → Telling σ ε Unit
  | [] => state.tellEnd listener report line
  | raw :: rest => do
    let next ← state.tellLine listener report vocabulary line raw
    tellFrom vocabulary next (line + 1) rest

end LineState

/-- How a document went that was told to a listener. -/
structure Hearing (σ ε : Type) where
  /-- The events that the listener was told, in their order, one that it refused included. -/
  told : List Event
  /-- The state it was left in. -/
  state : σ
  /-- Its refusal, or the fault of the document, if one of them ended the telling. -/
  error : Option ε
  deriving DecidableEq, Repr

namespace Listener

variable {σ ε : Type}

/-- Takes every event. -/
def accepting : Listener Unit ε := fun _ => pure ()

/-- Takes an event into its state, or refuses it and stays in the state. -/
def ofListen (listen : σ → Event → Except ε σ) : Listener σ ε := fun event => do
  match listen (← get) event with
  | .ok next => set next
  | .error refusal => throw refusal

/-- The listener with a record of what it is told. -/
def recorded (listener : Listener σ ε) : Listener (List Event × σ) ε := fun event (told, state) =>
  let (answer, next) := (listener event).run state
  (answer, told ++ [event], next)

/-- Tells it a document, line by line. -/
def hear (listener : Listener σ ε) (vocabulary : Vocabulary) (report : Fault → ε) (source : Text)
    (state : σ) : Hearing σ ε :=
  let telling := LineState.idle.tellFrom listener.recorded report vocabulary 1 source.lines
  match telling.run ([], state) with
  | (.ok (), told, last) => ⟨told, last, none⟩
  | (.error error, told, last) => ⟨told, last, some error⟩

end Listener

end FeatureFile
