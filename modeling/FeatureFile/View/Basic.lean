import FeatureFile.Text.Quoted
/-!
Views: values as inspection output shows them, on one line. A view says what is shown, and `render`
alone decides how it is written.
-/

namespace FeatureFile

/-- What inspection output shows of a value. -/
inductive View where
  | word (word : String)
  | quoted (text : Text)
  | tagged (tag : String) (content : View)
  | list (items : List View)
  | mapping (entries : List (Text × Text))
  /-- A record with its fields; `more` if it has others that are not shown. -/
  | record (name : String) (fields : List (String × View)) (more : Bool)
  deriving Repr

namespace View

/-- A record whose fields are all shown. -/
def fields (name : String) (fields : List (String × View)) : View :=
  .record name fields false

/-- A number in decimal digits. -/
def nat (n : Nat) : View :=
  .word (toString n)

/-- A truth value. -/
def bool (b : Bool) : View :=
  .word (toString b)

/-- A value that may be missing. -/
def option : Option View → View
  | none => .word "None"
  | some view => .tagged "Some" view

/-- A quoted string. -/
def string (s : String) : View :=
  .quoted s.toList

/-- The pieces with commas between them, inside braces set off by spaces. -/
def braced (pieces : List String) : String :=
  "\x7b " ++ ", ".intercalate pieces ++ " \x7d"

/-- An entry of a mapping. -/
def renderEntry (entry : Text × Text) : String :=
  String.ofList (Text.quoted entry.1) ++ ": " ++ String.ofList (Text.quoted entry.2)

mutual

/-- The view on one line. -/
def render : View → String
  | .word shown => shown
  | .quoted text => String.ofList (Text.quoted text)
  | .tagged tag content => tag ++ "(" ++ content.render ++ ")"
  | .list items => "[" ++ ", ".intercalate (renderAll items) ++ "]"
  | .mapping entries => "\x7b" ++ ", ".intercalate (entries.map renderEntry) ++ "\x7d"
  | .record name fields more =>
    name ++ " " ++ braced (renderFields fields ++ if more then [".."] else [])

/-- Each view on one line. -/
def renderAll : List View → List String
  | [] => []
  | view :: views => view.render :: renderAll views

/-- Each field with its name. -/
def renderFields : List (String × View) → List String
  | [] => []
  | (name, view) :: fields => (name ++ ": " ++ view.render) :: renderFields fields

end

end View

end FeatureFile
