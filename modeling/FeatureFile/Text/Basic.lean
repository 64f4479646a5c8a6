/-!
Text as a list of characters, and the operations the other modules share: trimming by a character
class, reading on behind a given beginning, indentation, and the order "longest first".

All of them recurse on the text, so closed instances evaluate in the kernel.
-/

namespace FeatureFile

/-- Text of a document, a keyword or a template: its characters in order. -/
abbrev Text := List Char

namespace Text

/-- Drops characters of the class from the front. -/
def trimStartBy (p : Char → Bool) (t : Text) : Text :=
  t.dropWhile p

/-- Drops characters of the class from the back. -/
def trimEndBy (p : Char → Bool) : Text → Text
  | [] => []
  | c :: rest =>
    match trimEndBy p rest with
    | [] => if p c then [] else [c]
    | kept => c :: kept

/-- Drops characters of the class from both ends. -/
def trimBy (p : Char → Bool) (t : Text) : Text :=
  trimStartBy p (trimEndBy p t)

/-- The rest of the text behind `lead`, if the text starts with it. -/
def after? : Text → Text → Option Text
  | [], t => some t
  | _ :: _, [] => none
  | l :: lead, c :: t => if l = c then after? lead t else none

/-- The text starts with `lead` exactly when a rest behind it remains. -/
theorem after?_eq_some_iff {lead t rest : Text} : after? lead t = some rest ↔ t = lead ++ rest := by
  induction lead generalizing t with
  | nil => simp [after?, eq_comm]
  | cons l lead ih =>
    cases t with
    | nil => simp [after?]
    | cons c t =>
      by_cases h : l = c
      · simp [after?, h, ih]
      · simp [after?, h, eq_comm]

/-- Space or tab: the characters that indent a line. -/
def isBlankChar (c : Char) : Bool :=
  c = ' ' || c = '\t'

/-- The text without its indentation. -/
def unindent (t : Text) : Text :=
  trimStartBy isBlankChar t

/-- How many spaces and tabs the text starts with. -/
def indentation (t : Text) : Nat :=
  (t.takeWhile isBlankChar).length

/-- Number of bytes of the UTF-8 form. -/
def byteSize : Text → Nat
  | [] => 0
  | c :: rest => c.utf8Size + byteSize rest

/-- Whether the part stands somewhere in the text. -/
def occursIn (part : Text) : Text → Bool
  | [] => part.isEmpty
  | c :: rest => part.isPrefixOf (c :: rest) || occursIn part rest

theorem occursIn_iff {part t : Text} : part.occursIn t = true ↔ part <:+: t := by
  induction t with
  | nil => simp [occursIn]
  | cons c rest ih => simp [occursIn, ih, List.infix_cons_iff]

end Text

/-- Puts `x` in front of the first element that is no longer than itself. -/
def insertLongestFirst {α : Type} (length : α → Nat) (x : α) : List α → List α
  | [] => [x]
  | y :: ys => if length y ≤ length x then x :: y :: ys else y :: insertLongestFirst length x ys

/-- Sorted by falling length; elements of one length keep their order. -/
def longestFirst {α : Type} (length : α → Nat) : List α → List α
  | [] => []
  | x :: xs => insertLongestFirst length x (longestFirst length xs)

end FeatureFile
