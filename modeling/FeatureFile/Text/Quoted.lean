import FeatureFile.Text.Printable
import FeatureFile.Text.Basic
/-!
Text in double quotes, the form in which messages and inspection output show it. The quote, the
backslash and four control characters have short escapes; every other character that would not be
seen on its own is written by its code point.
-/

namespace FeatureFile.Text

/-- The code point in lowercase hexadecimal, without leading zeros. -/
def hex (n : Nat) : Text :=
  Nat.toDigits 16 n

/-- One character between the quotes. -/
def quoteChar (c : Char) : Text :=
  match c with
  | '\x00' => ['\\', '0']
  | '\t' => ['\\', 't']
  | '\r' => ['\\', 'r']
  | '\n' => ['\\', 'n']
  | '"' => ['\\', '"']
  | '\\' => ['\\', '\\']
  | c =>
    if isPrintable c then [c]
    else "\\u\x7b".toList ++ hex c.toNat ++ ['\x7d']

/-- The text in double quotes, with escapes. -/
def quoted (t : Text) : Text :=
  '"' :: t.flatMap quoteChar ++ ['"']

end FeatureFile.Text

namespace FeatureFile

/-- The string in double quotes, with escapes. -/
def quoted (s : String) : String :=
  String.ofList (Text.quoted s.toList)

end FeatureFile
