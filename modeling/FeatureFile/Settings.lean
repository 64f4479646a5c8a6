import FeatureFile.Grammar.Shipped
import FeatureFile.Text.Quoted
/-!
Settings: which way documents are read, and the template that grammars are made from.
-/

namespace FeatureFile

/-- The two ways of reading a document. -/
inductive Backend where
  /-- By matching the whole text against a grammar. -/
  | grammar
  /-- Line by line. -/
  | lines
  deriving DecidableEq, Repr

namespace Backend

/-- The name of a backend in settings. -/
def name : Backend → String
  | grammar => "treetop"
  | lines => "gherkin"

/-- The name of a backend in inspection output. -/
def label : Backend → String
  | grammar => "Treetop"
  | lines => "Gherkin"

/-- The backend of a name. -/
def ofName? (name : String) : Option Backend :=
  [grammar, lines].find? fun backend => backend.name = name

/-- What is said about a name that no backend has. -/
def unknownMessage (name : String) : String :=
  "unknown parser backend: " ++ quoted name

theorem ofName?_name (backend : Backend) : ofName? backend.name = some backend := by
  cases backend <;> decide

end Backend

/-- How documents are read. -/
structure Settings where
  backend : Backend
  template : Text
  deriving DecidableEq, Repr

/-- A value as settings are written in. -/
inductive Datum where
  | null
  | flag (b : Bool)
  | number
  | text (characters : String)
  | list (items : List Datum)
  | fields (fields : List (String × Datum))
  deriving Repr

/-- A backend by its name, alone or as the only field of a record without content. -/
def Datum.backend? : Datum → Option Backend
  | text name => Backend.ofName? name
  | fields [(name, null)] => Backend.ofName? name
  | _ => none

/-- A text. -/
def Datum.text? : Datum → Option Text
  | text characters => some characters.toList
  | _ => none

namespace Settings

/-- The settings that hold unless others are given. -/
def standard : Settings := ⟨.grammar, Template.shipped⟩

instance : Inhabited Settings := ⟨standard⟩

/-- The standard settings with one of them given by a datum, if it is given at all. -/
def withBackend? (settings : Settings) : Option Datum → Option Settings
  | none => some settings
  | some datum => datum.backend?.map fun backend => { settings with backend := backend }

/-- The settings with another template, if one is given. -/
def withTemplate? (settings : Settings) : Option Datum → Option Settings
  | none => some settings
  | some datum => datum.text?.map fun template => { settings with template := template }

/-- Reads settings: a record whose unknown fields do not matter, or a list of the backend and the
template. What is left out is standard; what has the wrong form is refused. -/
def ofDatum? : Datum → Option Settings
  | .fields fields =>
    (standard.withBackend? (fields.lookup "backend")).bind
      (·.withTemplate? (fields.lookup "grammar_template"))
  | .list [] => some standard
  | .list [backend] => standard.withBackend? (some backend)
  | .list [backend, template] =>
    (standard.withBackend? (some backend)).bind (·.withTemplate? (some template))
  | _ => none

end Settings

end FeatureFile
