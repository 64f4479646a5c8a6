import FeatureFile.Text.Basic
/-!
The Unicode `White_Space` class and trimming by it. It is wider than the indentation class
(`Text.isBlankChar`): names, cells and descriptions are trimmed by this one, lines are indented by
spaces and tabs only.
-/

namespace FeatureFile.Text

/-- The characters of the Unicode property `White_Space`. -/
def isWhitespace (c : Char) : Bool :=
  let n := c.toNat
  (9 ≤ n && n ≤ 13) || n = 0x20 || n = 0x85 || n = 0xA0 || n = 0x1680
    || (0x2000 ≤ n && n ≤ 0x200A) || n = 0x2028 || n = 0x2029 || n = 0x202F || n = 0x205F
    || n = 0x3000

/-- The text without whitespace at its end. -/
def trimEnd (t : Text) : Text :=
  trimEndBy isWhitespace t

/-- The text without whitespace at either end. -/
def trim (t : Text) : Text :=
  trimBy isWhitespace t

/-- The text without any whitespace. -/
def withoutWhitespace (t : Text) : Text :=
  t.filter fun c => !isWhitespace c

/-- Indentation is whitespace. -/
theorem isWhitespace_of_isBlankChar {c : Char} (h : isBlankChar c = true) :
    isWhitespace c = true := by
  simp only [isBlankChar, Bool.or_eq_true, decide_eq_true_eq] at h
  rcases h with rfl | rfl <;> decide

end FeatureFile.Text
