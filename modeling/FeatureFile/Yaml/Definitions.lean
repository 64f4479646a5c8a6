import FeatureFile.Yaml.Node
import FeatureFile.Keyword.Registry
import FeatureFile.Error
/-!
Registries written as text: a mapping of identifiers to mappings of keys to scalars. Everything
that is no such mapping is refused as a whole.
-/

namespace FeatureFile.Yaml

/-- Whether the text may hold the character. -/
def isStreamChar (c : Char) : Bool :=
  let n := c.toNat
  n = 9 || n = 10 || n = 13 || (0x20 ≤ n && n ≤ 0x7E) || n = 0x85
    || (0xA0 ≤ n && n ≤ 0xFFFD) || 0x10000 ≤ n

/-- The text without the byte order mark at its beginning. -/
def withoutByteOrderMark : Text → Text
  | '\ufeff' :: rest => rest
  | text => text

/-- The root of the document a text holds. -/
def document? (source : Text) : Option Node := do
  guard (source.all isStreamChar)
  let tokens ← tokens? (unifyBreaks (withoutByteOrderMark source))
  root? tokens

/-- The value of a key in a table: the text of a scalar, or none. -/
def tableValue? : Node → Option (Option Text)
  | .absent => some none
  | .scalar scalar => some (if scalar.isNull then none else some scalar.text)
  | .mapping _ => none

/-- The keyword table of a node. -/
def table? : Node → Option KeywordTable
  | .absent => some .empty
  | .scalar _ => none
  | .mapping entries => do
    let written ← entries.mapM fun (key, value) =>
      (tableValue? value).map fun value => (String.ofList key, value)
    return .ofEntries written

/-- The registry of a node. -/
def tables? : Node → Option Registry
  | .absent => some .empty
  | .scalar _ => none
  | .mapping entries => do
    let tables ← entries.mapM fun (key, value) =>
      (table? value).map fun table => (String.ofList key, table)
    return .ofList tables

/-- The registry a text defines. -/
def registry? (source : Text) : Option Registry :=
  (document? source).bind tables?

end FeatureFile.Yaml

namespace FeatureFile

/-- The registry a text defines; the error names the registry instead of a language. -/
def Registry.ofText (source : Text) : Except Error Registry :=
  match Yaml.registry? source with
  | some registry => .ok registry
  | none => .error (.invalidDefinition "<registry>" "not a mapping of keyword tables")

end FeatureFile
