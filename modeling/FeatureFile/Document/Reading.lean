import FeatureFile.Document.Assembly
/-!
Readings: the events of a document up to the point where reading stopped. Events are delivered to
a listener one by one; the first one it refuses ends the delivery, and a fault of the reading
itself is reported only when every event before it has been taken.
-/

namespace FeatureFile

/-- Delivers events to a listener. The state it was left in comes with the refusal, if any. -/
def deliver {σ ε : Type} (listen : σ → Event → Except ε σ) (state : σ) : List Event → σ × Option ε
  | [] => (state, none)
  | event :: events =>
    match listen state event with
    | .ok next => deliver listen next events
    | .error refusal => (state, some refusal)

/-- What a reader found: events in document order, and the fault that stopped it, if any. -/
structure Reading where
  events : List Event
  fault : Option Fault
  deriving DecidableEq, Repr

namespace Reading

/-- Delivers the events, then reports the fault. -/
def deliver {σ ε : Type} (listen : σ → Event → Except ε σ) (report : Fault → ε) (state : σ)
    (reading : Reading) : σ × Option ε :=
  match FeatureFile.deliver listen state reading.events with
  | (last, none) => (last, reading.fault.map report)
  | refused => refused

/-- The tree of a document behind a filter, or nothing for a document without a feature. -/
def tree (reading : Reading) (filter : Filter := .empty) : Except Fault (Option Feature) :=
  match reading.deliver Assembly.listen (fun fault => fault) (.start filter) with
  | (assembly, none) => .ok assembly.tree
  | (_, some fault) => .error fault

end Reading

end FeatureFile
