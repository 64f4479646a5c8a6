import FeatureFile.Proofs.Agreement.MarkRules
import FeatureFile.Proofs.Grammar.Faultless
import FeatureFile.Proofs.Line.TagLines
/-!
The rule for tag lines and the reader of tag lines take the same lines. Blank lines are the exception: the
reader finds no tags on them, and the rule asks for one tag at least.
-/

namespace FeatureFile

open Text (FirstLine isBlankChar)

/-- The rule gives the tags that the line reader finds on the line, if there are any. -/
theorem Rules.Shipped.tag_line_split {rules : List Rule} {language : Language}
    (shipped : Shipped rules language) {c : Cursor} {q brk rest : Text}
    (line : FirstLine c.rest q brk rest) :
    GivesUpTo rules (.call "tag_line") c (c.after (q ++ brk))
      (((TagLine.split? q).filter (· ≠ [])).map fun tags => tags.map (.mk "tag" · c.line [])) := by
  rw [← TagLine.split?_unindent]
  by_cases mark : q.unindent.head? = some '@'
  · obtain ⟨v, unindented⟩ := List.head?_eq_some_iff.mp mark
    have unbroken : '\n' ∉ v := fun member => line.not_mem_unindent unindented (by simp [member])
    have tagged : (TagLine.split? ('@' :: v)).filter (· ≠ []) = TagLine.split? ('@' :: v) := by
      cases found : TagLine.split? ('@' :: v) with
      | none => rfl
      | some tags =>
        have some : tags ≠ [] := fun none => TagLine.split?_ne_nil unbroken (by rw [found, none])
        exact Option.filter_some_pos (by simpa using some)
    rw [unindented, tagged]
    exact shipped.tag_line line unindented
  · -- A blank line has no tags for the reader; anything else in front of the first tag is a fault.
    have untagged : (TagLine.split? q.unindent).filter (· ≠ []) = none := by
      cases unindented : q.unindent with
      | nil => rfl
      | cons x v =>
        have visible := Text.isBlankChar_of_unindent unindented
        have other : x ≠ '@' := by simpa [unindented] using mark
        rw [TagLine.split?_other (by simp [TagLine.isNameChar, visible, other])]
        rfl
    rw [untagged]
    exact shipped.tag_line_none line mark

namespace Parser

variable {language : Language} {parser : Parser}

/-- The tags that are read off a line are those that it has, and they are all of it but the blanks. On a text
without line feeds that has tags in this sense the rule for tag lines takes all of it, with the same tags; any
other text without line feeds it does not match. -/
theorem matches_tagLine (compiled : Parser.compile Template.shipped language = .ok parser) (line : Text) :
    (∀ tags, TagLine.split? line = some tags ↔ TagLine.Bears line tags) ∧
    (∀ tags, TagLine.split? line = some tags → tags.flatten = line.filter (!isBlankChar ·)) ∧
    ('\n' ∉ line →
      (∀ tags, TagLine.Bears line tags → tags ≠ [] →
        ∃ m ends last, parser.grammar.match? "tag_line" line = some m ∧
          m.result = some (tags.map (.mk "tag" · 1 []) ++ ends, last) ∧ Ends ends ∧ last.rest = []) ∧
      ((∀ tags, TagLine.Bears line tags → tags = []) →
        ∃ m, parser.grammar.match? "tag_line" line = some m ∧ m.result = none)) := by
  refine ⟨fun tags => TagLine.split?_iff_bears, fun tags => TagLine.flatten_of_split?,
    fun unbroken => ?_⟩
  have matched {result : Option (List Node × Cursor)} :
      (∃ m, parser.grammar.match? "tag_line" line = some m ∧ m.result = result) ↔
        Rules.Gives parser.grammar.arranged (.call "tag_line") (.start line) result :=
    Grammar.match?_iff (thrifty_shipped compiled)
  have whole : FirstLine (Cursor.start line).rest line [] [] := .of_not_mem unbroken
  have gives := (shipped_rules compiled).tag_line_split whole
  refine ⟨fun tags bears some => ?_, fun untagged => ?_⟩
  · rw [TagLine.split?_iff_bears.mpr bears, Option.filter_some_pos (by simpa using some)] at gives
    obtain ⟨ends, atEnd, gives⟩ := gives
    obtain ⟨m, found, result⟩ := matched.mpr gives
    exact ⟨m, ends, _, found, result, atEnd, whole.rest_after⟩
  · have none : (TagLine.split? line).filter (· ≠ []) = none := by
      refine Option.filter_eq_none_iff.mpr fun tags found => ?_
      simpa using untagged tags (TagLine.split?_iff_bears.mp found)
    rw [none] at gives
    exact matched.mpr gives

/-- Tags that touch, a carriage return at the end of one, and a comment, which no tag line has. -/
theorem matches_tagLine_touching :
    ∃ parser, Parser.compile Template.shipped Language.marked = .ok parser ∧
      TagLine.Bears "\t@a@é-b  @c\r ".toList ["@a".toList, "@é-b".toList, "@c\r".toList] ∧
      ["@a".toList, "@é-b".toList, "@c\r".toList].flatten =
        "\t@a@é-b  @c\r ".toList.filter (!isBlankChar ·) ∧
      '\n' ∉ "\t@a@é-b  @c\r ".toList ∧
      (∃ m ends last, parser.grammar.match? "tag_line" "\t@a@é-b  @c\r ".toList = some m ∧
        m.result = some ([.mk "tag" "@a".toList 1 [], .mk "tag" "@é-b".toList 1 [],
          .mk "tag" "@c\r".toList 1 []] ++ ends, last) ∧ Ends ends ∧ last.rest = []) ∧
      '\n' ∉ "@a # b".toList ∧ (∀ tags, TagLine.Bears "@a # b".toList tags → tags = []) ∧
      ∃ m, parser.grammar.match? "tag_line" "@a # b".toList = some m ∧ m.result = none := by
  have named : '\n' ∉ Language.marked.name ∧ GrammarText.MayName Language.marked.entryRule := by
    decide +kernel
  obtain ⟨parser, compiled⟩ := exists_compile_iff.mpr named
  have found : TagLine.split? "\t@a@é-b  @c\r ".toList =
      some ["@a".toList, "@é-b".toList, "@c\r".toList] := by
    decide +kernel
  have nothing : TagLine.split? "@a # b".toList = none := by
    decide +kernel
  have unbroken : '\n' ∉ "\t@a@é-b  @c\r ".toList ∧ '\n' ∉ "@a # b".toList := by
    decide +kernel
  obtain ⟨iff, whole, matched⟩ := matches_tagLine compiled "\t@a@é-b  @c\r ".toList
  obtain ⟨iff', -, matched'⟩ := matches_tagLine compiled "@a # b".toList
  have bears := (iff _).mp found
  have untagged (tags : List Text) (bears : TagLine.Bears "@a # b".toList tags) : tags = [] := by
    cases nothing.symm.trans ((iff' tags).mpr bears)
  exact ⟨parser, compiled, bears, whole _ found, unbroken.1,
    (matched unbroken.1).1 _ bears (List.cons_ne_nil _ _), unbroken.2, untagged,
    (matched' unbroken.2).2 untagged⟩

end Parser

end FeatureFile
