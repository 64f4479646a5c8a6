import FeatureFile.Proofs.Agreement.MarkRules
import FeatureFile.Proofs.Line.Separation
/-!
The rules of the shipped template for lines with a keyword, in a well-separated language: the beginning
of a step, the beginning of a section, and the test for a line that ends a description.
-/

namespace FeatureFile

open Text (FirstLine Unbroken isBlankChar)
open Vocabulary (ofLanguage Opens Exact)

/-- The rule for the keywords of a kind. -/
def SectionKind.keywordRule : SectionKind → String
  | feature => "feature_keyword"
  | background => "background_keyword"
  | scenario => "scenario_keyword"
  | outline => "scenario_outline_keyword"
  | examples => "examples_keyword"

theorem SectionKind.mem_keywordLists (language : Language) (kind : SectionKind) :
    (kind.keywordRule, language.presentKeywords kind.concept) ∈ Template.keywordLists language := by
  cases kind <;> simp only [keywordRule, concept, Template.keywordLists] <;> simp

/-- The keywords of each kind of section, and those of steps. -/
theorem Template.mem_keywordLists {language : Language} {rule : String} {keywords : List Text} :
    (rule, keywords) ∈ keywordLists language ↔
      (∃ kind : SectionKind,
        rule = kind.keywordRule ∧ keywords = language.presentKeywords kind.concept) ∨
        rule = "step_keyword" ∧ keywords = language.presentStepKeywords := by
  constructor
  · intro listed
    simp only [keywordLists, List.mem_cons, Prod.mk.injEq, List.not_mem_nil, or_false] at listed
    rcases listed with same | same | same | same | same | step
    · exact .inl ⟨.feature, same⟩
    · exact .inl ⟨.background, same⟩
    · exact .inl ⟨.scenario, same⟩
    · exact .inl ⟨.outline, same⟩
    · exact .inl ⟨.examples, same⟩
    · exact .inr step
  · rintro (⟨kind, rfl, rfl⟩ | ⟨rfl, rfl⟩)
    · exact kind.mem_keywordLists language
    · simp [keywordLists]

theorem Template.mem_keywordLists_step (language : Language) :
    ("step_keyword", language.presentStepKeywords) ∈ keywordLists language :=
  mem_keywordLists.mpr (.inr ⟨rfl, rfl⟩)

namespace Rules

variable {rules : List Rule} {c : Cursor} {q brk rest : Text}

/-- Keywords in order give the first one that the text goes on with. -/
private theorem literals (c : Cursor) (first : Text) (others : List Text) :
    Gives rules (.choices (.literal first) (others.map .literal)) c
      (((first :: others).find? (·.isPrefixOf c.rest)).map fun k => ([], c.after k)) := by
  have skips {w : Text} (found : w <+: c.rest) :
      Gives rules (.literal w) c (some ([], c.after w)) := by
    obtain ⟨t, same⟩ := found
    exact .skips same.symm
  induction others generalizing first with
  | nil =>
    by_cases found : first <+: c.rest
    · rw [List.find?_cons_of_pos (by simpa using found)]
      exact skips found
    · rw [List.find?_cons_of_neg (by simpa using found)]
      exact .misses found
  | cons second others ih =>
    by_cases found : first <+: c.rest
    · rw [List.find?_cons_of_pos (by simpa using found)]
      exact .choice_first (skips found)
    · rw [List.find?_cons_of_neg (by simpa using found)]
      exact .choice_second (.misses found) (ih second)

theorem keywordChoice_gives (keywords : List Text) (c : Cursor) :
    Gives rules (GrammarText.keywordChoice keywords) c
      (((Template.alternatives keywords).find? (·.isPrefixOf c.rest)).map fun k =>
        ([], c.after k)) := by
  unfold GrammarText.keywordChoice
  cases Template.alternatives keywords with
  | nil => exact .never c
  | cons first others => exact literals c first others

namespace Shipped

variable {language : Language} (shipped : Shipped rules language) (separated : language.WellSeparated)
variable {u k name : Text} {kind : SectionKind}
include shipped

/-- A rule for keywords leaves a node with the keyword that it finds. -/
theorem keyword_gives {rule : String} {keywords : List Text}
    (member : (rule, keywords) ∈ Template.keywordLists language) (c : Cursor) :
    Gives rules (.call rule) c
      (((Template.alternatives keywords).find? (·.isPrefixOf c.rest)).map fun k =>
        ([.mk rule k c.line []], c.after k)) := by
  have gives := Gives.atomic (shipped.keyword (rule, keywords) member) (keywordChoice_gives keywords c)
  cases found : (Template.alternatives keywords).find? (·.isPrefixOf c.rest) with
  | none => simpa [found] using gives
  | some k =>
    obtain ⟨behind, split⟩ : k <+: c.rest := by simpa using List.find?_some found
    simpa [found, Cursor.upTo_after split.symm] using gives

private theorem keyword_line {rule : String} {keywords : List Text}
    (member : (rule, keywords) ∈ Template.keywordLists language) (line : FirstLine c.rest u brk rest)
    (unbroken : ∀ k ∈ keywords, Unbroken k) :
    Gives rules (.call rule) c
      (((Template.alternatives keywords).find? (·.isPrefixOf u)).map fun k =>
        ([.mk rule k c.line []], c.after k)) := by
  rw [← Vocabulary.find?_alternatives_of_prefix fun k mem => line.prefix_iff (unbroken k mem)]
  exact shipped.keyword_gives member c

include separated

/-! ### Steps -/

theorem step_keyword (line : FirstLine c.rest u brk rest) :
    Gives rules (.call "step_keyword") c
      (((ofLanguage language).step? u).map fun (k, _) =>
        ([.mk "step_keyword" k c.line []], c.after k)) := by
  have gives := shipped.keyword_line (Template.mem_keywordLists_step language) line
    fun k mem => Language.unbroken_of_step separated.unbroken mem
  rw [← Vocabulary.map_step?, Option.map_map] at gives
  exact gives

/-- The line of a step, in front of what the step carries. -/
theorem step_head {e : Expr} {result : Option (List Node × Cursor)}
    (line : FirstLine c.rest q brk rest)
    (found : (ofLanguage language).step? q.unindent = some (k, name))
    (gives : Gives rules e (c.after (q ++ brk)) result) :
    ∃ ends, Ends ends ∧
      Gives rules (.seq (.call "sp") (.seq (.call "step_keyword") (.seq (.call "text")
          (.seq (.call "line_end") e)))) c
        (result.map fun (nodes, d) =>
          (.mk "step_keyword" k c.line [] :: .mk "text" name c.line [] :: (ends ++ nodes), d)) := by
  have split := (Vocabulary.step?_eq_some_iff.mp found).2
  have behind := line.behind_indentation
  have keyword := shipped.step_keyword separated behind
  rw [found] at keyword
  rw [split] at behind
  have text := shipped.text behind.behind
  have atEnd : FirstLine (((c.after (q.takeWhile isBlankChar)).after k).after name).rest [] brk rest :=
    .behind (by simpa using behind.behind)
  obtain ⟨ends, ended, lineEnd⟩ := shipped.line_end atEnd rfl
  have place := c.after_unindent split brk
  rw [List.append_assoc, ← Cursor.after_after, ← Cursor.after_after] at place
  rw [List.nil_append, place] at lineEnd
  rw [behind.line_after, line.line_after_indentation] at text
  rw [line.line_after_indentation] at keyword
  refine ⟨ends, ended, ?_⟩
  have joined := Gives.seq_nil (shipped.sp line) (.seq keyword (.seq text (.seq lineEnd gives)))
  cases result <;> simpa using joined

theorem step_head_none {e : Expr} (line : FirstLine c.rest q brk rest)
    (found : (ofLanguage language).step? q.unindent = none) :
    Gives rules (.seq (.call "sp") (.seq (.call "step_keyword") e)) c none := by
  have keyword := shipped.step_keyword separated line.behind_indentation
  rw [found] at keyword
  exact .seq_nil (shipped.sp line) (.seq_fail keyword)

/-! ### Sections -/

private theorem section_keyword (line : FirstLine c.rest u brk rest) (kind : SectionKind) :
    Gives rules (.call kind.keywordRule) c
      (((Template.alternatives (language.presentKeywords kind.concept)).find? (·.isPrefixOf u)).map
        fun k => ([.mk kind.keywordRule k c.line []], c.after k)) :=
  shipped.keyword_line (kind.mem_keywordLists language) line fun k mem =>
    separated.unbroken k (Language.mem_allKeywords_of_section mem)

/-- The keyword in front of the colon is the longest one the line begins with. -/
theorem section_keyword_some (line : FirstLine c.rest u brk rest)
    (opens : Opens language kind u k name) :
    Gives rules (.call kind.keywordRule) c (some ([.mk kind.keywordRule k c.line []], c.after k)) := by
  have gives := shipped.section_keyword separated line kind
  rw [opens.find?_alternatives separated.sectionsApart] at gives
  exact gives

/-- Where no header of the kind begins, there is no keyword with a colon behind it. -/
theorem section_keyword_none (line : FirstLine c.rest u brk rest)
    (closed : ∀ k name, ¬ Opens language kind u k name) (e : Expr) :
    Gives rules (.seq (.call kind.keywordRule) (.seq (.literal [':']) e)) c none ∧
      Gives rules (.seq (.call kind.keywordRule) (.literal [':'])) c none := by
  have gives := shipped.section_keyword separated line kind
  cases found : (Template.alternatives (language.presentKeywords kind.concept)).find?
      (·.isPrefixOf u) with
  | none =>
    rw [found] at gives
    exact ⟨.seq_fail gives, .seq_fail gives⟩
  | some k =>
    obtain ⟨mem, present⟩ := Vocabulary.mem_alternatives.mp (List.mem_of_find?_eq_some found)
    obtain ⟨v, rfl⟩ : k <+: u := by simpa using List.find?_some found
    rw [found] at gives
    have colon : Gives rules (.literal [':']) (c.after k) none := by
      refine .char_none line.behind (by decide) fun head => ?_
      cases v with
      | nil => cases head
      | cons x v =>
        obtain rfl : x = ':' := by simpa using head
        exact closed k v ⟨mem, present, rfl⟩
    exact ⟨.seq gives (.seq_fail colon), .seq gives colon⟩

omit separated in
/-- The name of a header, in front of what belongs to the section. -/
theorem title {e : Expr} {result : Option (List Node × Cursor)} (line : FirstLine c.rest q brk rest)
    (gives : Gives rules e (c.after (q ++ brk)) result) :
    ∃ ends, Ends ends ∧
      Gives rules (.seq (.call "sp") (.seq (.call "text") (.seq (.call "line_end") e))) c
        (result.map fun (nodes, d) => (.mk "text" q.unindent c.line [] :: (ends ++ nodes), d)) := by
  have behind := line.behind_indentation
  have text := shipped.text behind
  have atEnd : FirstLine ((c.after (q.takeWhile isBlankChar)).after q.unindent).rest [] brk rest :=
    .behind (by simpa using behind)
  obtain ⟨ends, ended, lineEnd⟩ := shipped.line_end atEnd rfl
  have place := c.after_unindent (q := q) rfl brk
  rw [← Cursor.after_after] at place
  rw [List.nil_append, place] at lineEnd
  rw [line.line_after_indentation] at text
  refine ⟨ends, ended, ?_⟩
  have joined := Gives.seq_nil (shipped.sp line) (.seq text (.seq lineEnd gives))
  cases result <;> simpa using joined

/-- The line of a header, in front of what belongs to the section. -/
theorem header_head {e : Expr} {result : Option (List Node × Cursor)}
    (line : FirstLine c.rest q brk rest) (opens : Opens language kind q.unindent k name)
    (gives : Gives rules e (c.after (q ++ brk)) result) :
    ∃ ends, Ends ends ∧
      Gives rules (.seq (.call "sp") (.seq (.call kind.keywordRule) (.seq (.literal [':'])
          (.seq (.call "sp") (.seq (.call "text") (.seq (.call "line_end") e)))))) c
        (result.map fun (nodes, d) =>
          (.mk kind.keywordRule k c.line [] :: .mk "text" name.unindent c.line [] :: (ends ++ nodes),
            d)) := by
  have split := opens.2.2
  have behind := line.behind_indentation
  have keyword := shipped.section_keyword_some separated behind opens
  have colon : q.unindent = (k ++ [':']) ++ name := by simp [split]
  have place := c.after_unindent colon brk
  rw [List.append_assoc, ← Cursor.after_after] at place
  rw [colon] at behind
  rw [← place] at gives
  obtain ⟨ends, ended, named⟩ := shipped.title behind.behind gives
  rw [behind.line_after, line.line_after_indentation] at named
  rw [line.line_after_indentation] at keyword
  rw [List.append_assoc] at behind
  refine ⟨ends, ended, ?_⟩
  have mark : Gives rules (.literal [':']) _ _ := .literal_some behind.behind ⟨name, rfl⟩
  rw [← Cursor.after_after] at named
  have joined := Gives.seq_nil (shipped.sp line) (.seq keyword (.seq_nil mark named))
  cases result <;> simpa using joined

theorem header_head_none {e : Expr} (line : FirstLine c.rest q brk rest)
    (closed : ∀ k name, ¬ Opens language kind q.unindent k name) :
    Gives rules (.seq (.call "sp") (.seq (.call kind.keywordRule) (.seq (.literal [':']) e))) c none :=
  .seq_nil (shipped.sp line)
    (shipped.section_keyword_none separated line.behind_indentation closed e).1

/-! ### Tests -/

end Shipped

/-- The expression gives something exactly under the condition. -/
def Tests (rules : List Rule) (e : Expr) (c : Cursor) (condition : Prop) : Prop :=
  ∃ result, Gives rules e c result ∧ (result.isSome = true ↔ condition)

theorem Tests.choice {a b : Expr} {P Q : Prop} (first : Tests rules a c P) (second : Tests rules b c Q) :
    Tests rules (.choice a b) c (P ∨ Q) := by
  obtain ⟨result, gives, found⟩ := first
  obtain ⟨other, gives', found'⟩ := second
  cases result with
  | none => exact ⟨other, .choice_second gives gives', by simp_all⟩
  | some pair => exact ⟨some pair, .choice_first gives, by simp_all⟩

theorem Tests.literal {w : Text} (line : FirstLine c.rest q brk rest) (unbroken : Unbroken w) :
    Tests rules (.literal w) c (w <+: q) := by
  by_cases found : w <+: q
  · exact ⟨_, .literal_some line found, by simp [found]⟩
  · exact ⟨_, .literal_none line unbroken found, by simp [found]⟩

theorem Tests.not {e : Expr} {P : Prop} (tests : Tests rules e c P) (absent : ¬ P) :
    Gives rules (.not e) c (some ([], c)) := by
  obtain ⟨result, gives, found⟩ := tests
  have nothing : result.isSome = false := by simpa [absent] using found
  have denied := gives.not
  rwa [nothing] at denied

theorem Tests.not_none {e : Expr} {P : Prop} (tests : Tests rules e c P) (present : P) :
    Gives rules (.not e) c none := by
  obtain ⟨result, gives, found⟩ := tests
  have denied := gives.not
  rwa [found.mpr present] at denied

namespace Shipped

variable {language : Language} (shipped : Shipped rules language)
include shipped

theorem doc_string_fence (line : FirstLine c.rest q brk rest) :
    Tests rules (.call "doc_string_fence") c (fence <+: q) := by
  obtain ⟨result, gives, found⟩ : Tests rules (.literal fence) c (fence <+: q) :=
    .literal line (by decide)
  exact ⟨result, shipped.silent "doc_string_fence" _ gives (by decide), found⟩

variable (separated : language.WellSeparated)
include separated

private theorem section_test (line : FirstLine c.rest q brk rest) (kind : SectionKind) :
    Tests rules (.seq (.call kind.keywordRule) (.literal [':'])) c
      (∃ k name, Opens language kind q k name) := by
  by_cases found : ∃ k name, Opens language kind q k name
  · obtain ⟨k, name, opens⟩ := found
    have keyword := shipped.section_keyword_some separated line opens
    have split := opens.2.2
    rw [split] at line
    exact ⟨_, .seq keyword (.literal_some line.behind ⟨name, rfl⟩), by simp; exact ⟨k, name, opens⟩⟩
  · have closed : ∀ k name, ¬ Opens language kind q k name := by simpa using found
    exact ⟨_, (shipped.section_keyword_none separated line closed .any).2, by simpa using found⟩

private theorem section_header (line : FirstLine c.rest q brk rest) :
    Tests rules (.call "section_header") c (∃ kind k name, Opens language kind q k name) := by
  obtain ⟨result, gives, found⟩ := (shipped.section_test separated line .outline).choice
    ((shipped.section_test separated line .scenario).choice
      ((shipped.section_test separated line .background).choice
        ((shipped.section_test separated line .examples).choice
          (shipped.section_test separated line .feature))))
  refine ⟨result, shipped.silent "section_header" _ gives (by decide), found.trans ?_⟩
  constructor
  · rintro (opens | opens | opens | opens | opens) <;> exact ⟨_, opens⟩
  · rintro ⟨kind, opens⟩
    cases kind <;> simp only [opens, true_or, or_true]

/-- A line ends a description unless it is blank or free text. -/
theorem structural_start (line : FirstLine c.rest q brk rest) :
    Tests rules (.call "structural_start") c
      ((ofLanguage language).kind q ≠ .blank ∧ ∀ t, (ofLanguage language).kind q ≠ .other t) := by
  have behind := line.behind_indentation
  have step : Tests rules (.call "step_keyword") (c.after (q.takeWhile isBlankChar))
      (∃ k name, (ofLanguage language).step? q.unindent = some (k, name)) :=
    ⟨_, shipped.step_keyword separated behind, by simp [Option.isSome_iff_exists]⟩
  have mark {x : Char} (unbroken : Unbroken [x]) :
      Tests rules (.literal [x]) (c.after (q.takeWhile isBlankChar)) ([x] <+: q.unindent) :=
    .literal behind unbroken
  obtain ⟨result, gives, found⟩ := (mark (x := '#') (by decide)).choice
    ((mark (x := '@') (by decide)).choice ((mark (x := '|') (by decide)).choice
      ((shipped.doc_string_fence behind).choice
        (step.choice (shipped.section_header separated behind)))))
  refine ⟨result, shipped.silent "structural_start" _ (.seq_nil (shipped.sp line) gives)
    (by decide), found.trans ?_⟩
  have exact := Vocabulary.exact separated q
  have starts {x : Char} : [x] <+: q.unindent ↔ ∃ v, q.unindent = x :: v :=
    ⟨fun ⟨v, same⟩ => ⟨v, same.symm⟩, fun ⟨v, same⟩ => ⟨v, same.symm⟩⟩
  have fenced : fence <+: q.unindent ↔ ∃ bare, fence? q = some bare := by
    constructor
    · rintro ⟨rest, same⟩
      exact ⟨_, fence?_eq_some_iff.mpr ⟨rest, same.symm, rfl⟩⟩
    · rintro ⟨bare, found⟩
      obtain ⟨rest, same, _⟩ := fence?_eq_some_iff.mp found
      exact ⟨rest, same.symm⟩
  simp only [starts, fenced, exact.comment, exact.tags, exact.row, exact.fence, exact.step,
    ← Vocabulary.header?_eq_some_iff separated.sectionsApart, exact.header]
  have decided := Vocabulary.decided (ofLanguage language) q
  generalize (ofLanguage language).kind q = kind at decided
  cases decided <;> simp

end Shipped

end Rules

end FeatureFile
