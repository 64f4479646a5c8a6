import FeatureFile.Proofs.Agreement.Runs
/-!
The rules of the shipped template that go over several lines: descriptions and doc strings.
-/

namespace FeatureFile

open Text (FirstLine Unbroken isBlankChar)
open Vocabulary (ofLanguage)

/-- A line of a description: free text, or a blank line with a line break. -/
def Vocabulary.Free (vocabulary : Vocabulary) (raw brk : Text) : Prop :=
  (vocabulary.kind raw = .blank ∧ brk ≠ []) ∨ ∃ text, vocabulary.kind raw = .other text

/-- A line of a doc string, which always has a line break. -/
def Unfenced (raw brk : Text) : Prop :=
  fence? raw = none ∧ brk ≠ []

theorem Vocabulary.progresses_free (vocabulary : Vocabulary) : Cursor.Progresses vocabulary.Free := by
  rintro raw brk (⟨_, ends⟩ | ⟨text, other⟩)
  · simp [ends]
  · have decided := vocabulary.decided raw
    rw [other] at decided
    cases decided with
    | other visible =>
      intro nothing
      obtain ⟨rfl, -⟩ := List.append_eq_nil_iff.mp nothing
      exact visible rfl

theorem progresses_unfenced : Cursor.Progresses Unfenced := by
  rintro raw brk ⟨_, ends⟩
  simp [ends]

/-- The indentation of a line that is not blank, whatever follows the line. -/
theorem Text.indentation_append {q : Text} (visible : q.unindent ≠ []) (t : Text) :
    (q ++ t).indentation = q.indentation := by
  have shorter : (q.takeWhile isBlankChar).length ≠ q.length := by
    intro same
    have whole := congrArg List.length q.indentation_append_unindent
    rw [List.length_append, same, Nat.add_eq_left, List.length_eq_zero_iff] at whole
    exact visible whole
  rw [indentation, indentation, List.takeWhile_append, if_neg shorter]

namespace Rules.Shipped

variable {rules : List Rule} {language : Language} (shipped : Shipped rules language)
variable {c d : Cursor} {q brk rest : Text} {raws : List Text}
include shipped

/-! ### Descriptions -/

private theorem description_line (line : FirstLine c.rest q brk rest) (visible : q.unindent ≠ []) :
    ∃ nodes, Gives rules (.call "description_line") c (some (nodes, c.after (q ++ brk))) := by
  have behind := line.behind_indentation
  have place := c.after_unindent (q := q) rfl brk
  cases shape : q.unindent with
  | nil => exact absurd shape visible
  | cons x v =>
    rw [shape] at behind place
    have noBreak : Gives rules (.not (.call "nl")) (c.after (q.takeWhile isBlankChar)) _ :=
      (shipped.nl_none behind (.inl (by simp))).not
    have others := shipped.remainder behind.behind_char
    have atEnd : FirstLine (((c.after (q.takeWhile isBlankChar)).after [x]).after v).rest [] brk rest :=
      .behind (by simpa using behind.behind_char)
    obtain ⟨ends, -, lineEnd⟩ := shipped.line_end atEnd rfl
    rw [← place]
    have joined := Gives.seq_nil (shipped.sp line)
      (.seq_nil noBreak (.seq_nil (.any_some behind) (.seq_nil others lineEnd)))
    refine ⟨ends, shipped.silent "description_line" _ (by simpa using joined) (by decide)⟩

private theorem description_line_none (line : FirstLine c.rest q [] rest) (blank : q.unindent = []) :
    Gives rules (.call "description_line") c none := by
  have behind := line.behind_indentation
  rw [blank] at behind
  have atEnd : (c.after (q.takeWhile isBlankChar)).rest = [] := behind.eq_nil_iff.mpr ⟨rfl, rfl⟩
  refine shipped.silent "description_line" (.seq (.call "sp") (.seq (.not (.call "nl")) (.seq .any
    (.seq (.star (.seq (.not (.call "nl")) .any)) (.call "line_end"))))) ?_ (by decide)
  exact .seq_nil (shipped.sp line)
    (.seq_nil (shipped.nl_none behind (.inr rfl)).not (.seq_fail (.any_none atEnd)))

/-- A description goes on as long as lines are blank or free text. -/
theorem description (separated : language.WellSeparated)
    (run : Cursor.Run (ofLanguage language).Free c raws d) :
    ∃ w children, w.lines = raws ∧
      Gives rules (.call "description") c (some ([.mk "description" w c.line children], d)) := by
  have exact (q : Text) := Vocabulary.exact separated q
  obtain ⟨nodes, star⟩ : ∃ nodes, Gives rules (.star (.seq (.not (.call "structural_start"))
      (.choice (.call "blank_line") (.call "description_line")))) c (some (nodes, d)) := by
    refine Gives.star_run (fun c q brk rest line free => ?_) (fun c q brk rest line closed => ?_) run
    · have start := (shipped.structural_start separated line).not (by
        rintro ⟨notBlank, notOther⟩
        rcases free with ⟨blank, _⟩ | ⟨text, other⟩
        · exact notBlank blank
        · exact notOther text other)
      rcases free with ⟨blank, ends⟩ | ⟨text, other⟩
      · have nothing := (exact q).blank.mpr blank
        exact ⟨_, .seq_nil start (.choice_first (shipped.blank_line line nothing ends))⟩
      · have visible : q.unindent ≠ [] := by
          rw [ne_eq, (exact q).blank, other]
          simp
        obtain ⟨nodes, gives⟩ := shipped.description_line line visible
        exact ⟨_, .seq_nil start (.choice_second (shipped.blank_line_none line (.inl visible)) gives)⟩
    · by_cases blank : (ofLanguage language).kind q = .blank
      · -- The end of the text is no line.
        obtain rfl : brk = [] := by
          by_contra ends
          exact closed (.inl ⟨blank, ends⟩)
        have start := (shipped.structural_start separated line).not fun h => h.1 blank
        exact .seq_nil start (.choice_second (shipped.blank_line_none line (.inr rfl))
          (shipped.description_line_none line ((exact q).blank.mpr blank)))
      · exact .seq_fail ((shipped.structural_start separated line).not_none
          ⟨blank, fun text other => closed (.inr ⟨text, other⟩)⟩)
  obtain ⟨w, split, rfl, lines⟩ := run.text (ofLanguage language).progresses_free
  refine ⟨w, nodes, lines, ?_⟩
  have member := shipped.fixed ⟨"description", .normal, .star (.seq (.not (.call "structural_start"))
      (.choice (.call "blank_line") (.call "description_line")))⟩ (by decide)
  simpa [Cursor.upTo_after split] using Gives.normal member star

/-! ### Doc strings -/

/-- A line that begins with a fence, up to what follows the fence. -/
private theorem fence_head {e : Expr} {v : Text} {result : Option (List Node × Cursor)}
    (line : FirstLine c.rest q brk rest) (split : q.unindent = fence ++ v)
    (gives : Gives rules e ((c.after (q.takeWhile isBlankChar)).after fence) result) :
    Gives rules (.seq (.call "sp") (.seq (.call "doc_string_fence") e)) c result := by
  have behind := line.behind_indentation
  have fenced := shipped.silent "doc_string_fence" _ (.literal_some behind ⟨v, split.symm⟩)
    (by decide)
  exact .seq_nil (shipped.sp line) (.seq_nil fenced gives)

private theorem fence_head_none {e : Expr} (line : FirstLine c.rest q brk rest)
    (unfenced : fence? q = none) :
    Gives rules (.seq (.call "sp") (.seq (.call "doc_string_fence") e)) c none := by
  obtain ⟨result, gives, found⟩ := shipped.doc_string_fence line.behind_indentation
  cases result with
  | none => exact .seq_nil (shipped.sp line) (.seq_fail gives)
  | some pair =>
    obtain ⟨v, split⟩ := found.mp rfl
    rw [fence?_eq_some_iff.mpr ⟨v, split.symm, rfl⟩] at unfenced
    cases unfenced

private theorem fence_test (line : FirstLine c.rest q brk rest) :
    Tests rules (.seq (.call "sp") (.call "doc_string_fence")) c (fence? q ≠ none) := by
  obtain ⟨result, gives, found⟩ := shipped.doc_string_fence line.behind_indentation
  refine ⟨result, .seq_nil (shipped.sp line) gives, found.trans ?_⟩
  rw [Option.ne_none_iff_exists']
  constructor
  · rintro ⟨v, split⟩
    exact ⟨_, fence?_eq_some_iff.mpr ⟨v, split.symm, rfl⟩⟩
  · rintro ⟨bare, fenced⟩
    obtain ⟨v, split, _⟩ := fence?_eq_some_iff.mp fenced
    exact ⟨v, split.symm⟩

/-- The lines of a doc string go on up to a fence. -/
private theorem doc_string_body (run : Cursor.Run Unfenced c raws d) :
    ∃ w line, w.lines = raws ∧
      Gives rules (.call "doc_string_body") c (some ([.mk "doc_string_body" w line []], d)) := by
  have round {c : Cursor} {result : Option (List Node × Cursor)} (gives : Gives rules
      (.seq (.not (.seq (.call "sp") (.call "doc_string_fence")))
        (.seq (.star (.seq (.not (.call "nl")) .any)) (.call "nl"))) c result) :
      Gives rules (.call "doc_string_line") c result :=
    shipped.silent "doc_string_line" _ gives (by decide)
  obtain ⟨nodes, star⟩ : ∃ nodes, Gives rules (.star (.call "doc_string_line")) c (some (nodes, d)) := by
    refine Gives.star_run (fun c q brk rest line inside => ?_) (fun c q brk rest line outside => ?_) run
    · have atEnd : FirstLine (c.after q).rest [] brk rest := .behind (by simpa using line)
      have feeds := shipped.nl_some atEnd inside.2
      rw [Cursor.after_after] at feeds
      exact ⟨_, round (.seq_nil ((shipped.fence_test line).not (by simp [inside.1]))
        (.seq_nil (shipped.remainder line) feeds))⟩
    · by_cases unfenced : fence? q = none
      · have last : brk = [] := by
          by_contra ends
          exact outside ⟨unfenced, ends⟩
        have atEnd : FirstLine (c.after q).rest [] brk rest := .behind (by simpa using line)
        exact round (.seq_nil ((shipped.fence_test line).not (by simp [unfenced]))
          (.seq_nil (shipped.remainder line) (shipped.nl_none atEnd (.inr last))))
      · exact round (.seq_fail ((shipped.fence_test line).not_none unfenced))
  obtain ⟨w, split, rfl, lines⟩ := run.text progresses_unfenced
  refine ⟨w, c.line, lines, ?_⟩
  have member := shipped.fixed ⟨"doc_string_body", .atomic, .star (.call "doc_string_line")⟩
    (by decide)
  simpa [Cursor.upTo_after split] using Gives.atomic member star

/-- The body of the rule for doc strings, behind the line of the opening fence. -/
private theorem doc_string_rule (result : Option (List Node × Cursor))
    (gives : Gives rules (.seq (.call "sp") (.seq (.call "doc_string_fence") (.seq (.call "sp")
      (.seq (.call "nl") (.seq (.call "doc_string_body") (.seq (.call "sp")
        (.seq (.call "doc_string_fence") (.call "line_end")))))))) c result) :
    Gives rules (.call "doc_string") c
      (result.map fun (nodes, d) => ([.mk "doc_string" (c.upTo d) c.line nodes], d)) :=
  .normal (shipped.fixed ⟨"doc_string", .normal, _⟩ (by decide)) gives

theorem doc_string_none (line : FirstLine c.rest q brk rest)
    (closed : fence? q ≠ some true ∨ brk = []) : Gives rules (.call "doc_string") c none := by
  refine shipped.doc_string_rule none ?_
  cases fenced : fence? q with
  | none => exact shipped.fence_head_none line fenced
  | some bare =>
    obtain ⟨v, split, blank⟩ := fence?_eq_some_iff.mp fenced
    have behind := line.behind_indentation
    rw [split] at behind
    refine shipped.fence_head line split (.seq_nil (shipped.sp behind.behind) (.seq_fail ?_))
    refine shipped.nl_none behind.behind.behind_indentation (closed.imp_left fun other => ?_)
    rw [ne_eq, Text.unindent_eq_nil_iff, blank]
    rintro rfl
    exact other fenced

/-- The place behind the opening fence and its line break. -/
private theorem doc_string_opening {e : Expr} {result : Option (List Node × Cursor)}
    (line : FirstLine c.rest q brk rest) (opens : fence? q = some true) (ends : brk ≠ [])
    (gives : Gives rules e (c.after (q ++ brk)) result) :
    Gives rules (.seq (.call "sp") (.seq (.call "doc_string_fence") (.seq (.call "sp")
      (.seq (.call "nl") e)))) c result := by
  obtain ⟨v, split, blank⟩ := fence?_eq_some_iff.mp opens
  have behind := line.behind_indentation
  rw [split] at behind
  have spaces := shipped.sp behind.behind
  have atEnd := behind.behind.behind_indentation
  have nothing := Text.unindent_eq_nil_iff.mpr blank
  rw [nothing] at atEnd
  rw [Text.takeWhile_of_unindent_eq_nil nothing] at spaces atEnd
  have feeds := shipped.nl_some atEnd ends
  have place := c.after_unindent split brk
  rw [List.append_assoc, ← Cursor.after_after, ← Cursor.after_after] at place
  rw [place] at feeds
  exact shipped.fence_head line split (.seq_nil spaces (.seq_nil feeds gives))

/-- A doc string that is not closed where its lines end. -/
theorem doc_string_unclosed (line : FirstLine c.rest q brk rest) (opens : fence? q = some true)
    (ends : brk ≠ []) (run : Cursor.Run Unfenced (c.after (q ++ brk)) raws d) {q' brk' rest' : Text}
    (line' : FirstLine d.rest q' brk' rest') (unclosed : fence? q' ≠ some true) :
    Gives rules (.call "doc_string") c none := by
  obtain ⟨w, _, _, body⟩ := shipped.doc_string_body run
  suffices closing : Gives rules
      (.seq (.call "sp") (.seq (.call "doc_string_fence") (.call "line_end"))) d none by
    have joined := Gives.seq body closing
    exact shipped.doc_string_rule none (shipped.doc_string_opening line opens ends joined)
  cases fenced : fence? q' with
  | none => exact shipped.fence_head_none line' fenced
  | some bare =>
    obtain ⟨v, split, blank⟩ := fence?_eq_some_iff.mp fenced
    have behind := line'.behind_indentation
    rw [split] at behind
    refine shipped.fence_head line' split (shipped.line_end_none behind.behind ?_)
    rw [ne_eq, Text.unindent_eq_nil_iff, blank]
    rintro rfl
    exact unclosed fenced

theorem doc_string (line : FirstLine c.rest q brk rest) (opens : fence? q = some true)
    (ends : brk ≠ []) (run : Cursor.Run Unfenced (c.after (q ++ brk)) raws d) {q' brk' rest' : Text}
    (line' : FirstLine d.rest q' brk' rest') (closes : fence? q' = some true) :
    ∃ text children,
      Node.docString (.mk "doc_string" text c.line children) =
        .docString (dedent raws q.indentation) c.line ∧
      Gives rules (.call "doc_string") c
        (some ([.mk "doc_string" text c.line children], d.after (q' ++ brk'))) := by
  obtain ⟨w, n, lines, body⟩ := shipped.doc_string_body run
  obtain ⟨v, split, blank⟩ := fence?_eq_some_iff.mp closes
  have behind := line'.behind_indentation
  rw [split] at behind
  obtain ⟨nodes, -, lineEnd⟩ := shipped.line_end behind.behind (Text.unindent_eq_nil_iff.mpr blank)
  have place := d.after_unindent split brk'
  rw [List.append_assoc, ← Cursor.after_after] at place
  rw [place] at lineEnd
  have joined := Gives.seq body (shipped.fence_head line' split lineEnd)
  refine ⟨_, _, ?_, shipped.doc_string_rule _ (shipped.doc_string_opening line opens ends joined)⟩
  -- The text of the match begins with the line of the opening fence.
  obtain ⟨covered, between, rfl, _⟩ := run.text progresses_unfenced
  have whole : c.rest = (q ++ (brk ++ (covered ++ (q' ++ brk')))) ++ rest' := by
    have last := line'.eq_append
    rw [line.rest_after] at between
    rw [line.eq_append, between, last]
    simp
  have text : c.upTo (((c.after (q ++ brk)).after covered).after (q' ++ brk')) =
      q ++ (brk ++ (covered ++ (q' ++ brk'))) := by
    rw [Cursor.after_after, Cursor.after_after, ← Cursor.upTo_after whole]
    simp
  rw [text]
  have indented : (q ++ (brk ++ (covered ++ (q' ++ brk')))).indentation = q.indentation := by
    obtain ⟨u, fenced, _⟩ := fence?_eq_some_iff.mp opens
    exact Text.indentation_append (by simp [fenced, fence]) _
  simp only [Node.docString, Node.children, Node.text, Node.line, indented, List.cons_append,
    List.nil_append, List.find?_cons, Node.rule, decide_true, Option.map_some, Option.getD_some,
    lines]

end Rules.Shipped

end FeatureFile
