import FeatureFile.Text.Basic
/-!
Tag lines. A tag is `@` and at least one character other than `@`, space, tab and line feed; tags
may touch each other or be set apart by spaces and tabs, and nothing else may stand on the line.
-/

namespace FeatureFile.TagLine

/-- The rest of a tag that is still open at the front of the line, and the tags behind it. Read from
the right: an `@` closes the tag whose name follows it. -/
def read? : Text → Option (Text × List Text)
  | [] => some ([], [])
  | c :: rest =>
    (read? rest).bind fun (name, tags) =>
      if c = '\n' then none
      else if Text.isBlankChar c then if name.isEmpty then some ([], tags) else none
      else if c = '@' then if name.isEmpty then none else some ([], (c :: name) :: tags)
      else some (c :: name, tags)

/-- The tags of a tag line, or nothing if anything else stands on it. -/
def split? (line : Text) : Option (List Text) :=
  (read? line).bind fun (name, tags) => if name.isEmpty then some tags else none

end FeatureFile.TagLine
