import FeatureFile.Text.Quoted
/-!
The structural roles of a feature file that every language names.
-/

namespace FeatureFile

/-- One structural role that a keyword table has an entry for. -/
inductive Concept where
  | name | native
  | feature | background | scenario | scenarioOutline | examples
  | given | «when» | «then» | and | but
  deriving DecidableEq, Repr

namespace Concept

/-- Every concept of a complete table, in canonical order. -/
def all : List Concept :=
  [name, native, feature, background, scenario, scenarioOutline, examples,
    given, «when», «then», and, but]

/-- The concepts whose keywords lead a step. -/
def steps : List Concept :=
  [given, «when», «then», and, but]

/-- The key of the concept in a keyword table. -/
def key : Concept → String
  | name => "name"
  | native => "native"
  | feature => "feature"
  | background => "background"
  | scenario => "scenario"
  | scenarioOutline => "scenario_outline"
  | examples => "examples"
  | given => "given"
  | «when» => "when"
  | «then» => "then"
  | and => "and"
  | but => "but"

/-- Whether the concept leads a step. -/
def isStep (c : Concept) : Bool :=
  steps.contains c

/-- The concept with the given key. -/
def ofKey? (key : String) : Option Concept :=
  all.find? fun c => c.key = key

/-- What is said about a key that names no concept. -/
def unknownMessage (key : String) : String :=
  "unknown keyword concept: " ++ quoted key

theorem mem_all (c : Concept) : c ∈ all := by
  cases c <;> decide

theorem key_injective {c d : Concept} (h : c.key = d.key) : c = d := by
  revert h
  cases c <;> cases d <;> decide

/-- Keys and concepts correspond. -/
theorem ofKey?_key (c : Concept) : ofKey? c.key = some c := by
  cases c <;> decide

end Concept

end FeatureFile
