import FeatureFile.Grammar.Match
/-!
What a mismatch is reported with: the furthest place at which a rule was tried in vain, the rules
that would have matched there, and the rules that matched but must not. A rule gives way to what was
tried inside it, if that is exactly one rule at the same place.
-/

namespace FeatureFile

/-- The furthest offset reached, and the rules expected and unexpected there, in order of trial. -/
structure Attempts where
  furthest : Nat
  expected : List String
  unexpected : List String
  deriving DecidableEq, Repr

namespace Attempts

/-- Nothing tried yet. -/
def start : Attempts := ⟨0, [], []⟩

/-- Number of rules known at an offset. -/
def countAt (a : Attempts) (offset : Nat) : Nat :=
  if a.furthest = offset then a.expected.length + a.unexpected.length else 0

/-- The attempts that were known when a rule was entered at an offset: how many of each kind. -/
def markAt (a : Attempts) (offset : Nat) : Nat × Nat :=
  if a.furthest = offset then (a.expected.length, a.unexpected.length) else (0, 0)

/-- The attempts with one more rule; the side depends on whether it is tried below a `not`. -/
def push (a : Attempts) (denied : Bool) (rule : String) : Attempts :=
  if denied then { a with unexpected := a.unexpected ++ [rule] }
  else { a with expected := a.expected ++ [rule] }

/-- The attempts behind a rule that counts, entered at `offset` with `before` known. It replaces
what was tried inside it at the same place, unless that is a single rule, and it replaces
everything known about places before it. -/
def track (a before : Attempts) (denied : Bool) (rule : String) (offset : Nat) : Attempts :=
  if a.countAt offset = before.countAt offset + 1 then a
  else if a.furthest = offset then
    let (expected, unexpected) := before.markAt offset
    push ⟨offset, a.expected.take expected, a.unexpected.take unexpected⟩ denied rule
  else if a.furthest < offset then push ⟨offset, [], []⟩ denied rule
  else a

mutual

/-- The attempts behind a probe. A rule counts where it fails, and below a `not` where it matches;
a `not` below a `not` turns the sense round again. -/
def visit (denied : Bool) : Probe → Attempts → Attempts
  | .call rule offset matched inside, a =>
    let after := visitAll denied inside a
    if matched = denied then after.track a denied rule offset else after
  | .denied inside, a => visitAll (!denied) inside a

/-- The attempts behind some probes. -/
def visitAll (denied : Bool) : List Probe → Attempts → Attempts
  | [], a => a
  | probe :: probes, a => visitAll denied probes (visit denied probe a)

end

/-- The attempts behind some probes at the beginning of a text. -/
def ofProbes (probes : List Probe) : Attempts :=
  visitAll false probes start

end Attempts

/-- Puts a name in its place by order, unless it is there. -/
def insertName (name : String) : List String → List String
  | [] => [name]
  | other :: rest =>
    if name < other then name :: other :: rest
    else if name = other then other :: rest
    else other :: insertName name rest

/-- The names in order, each once. -/
def sortNames (names : List String) : List String :=
  names.foldr insertName []

end FeatureFile
