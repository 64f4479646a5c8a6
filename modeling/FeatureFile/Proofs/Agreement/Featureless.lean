import FeatureFile.Proofs.Agreement.Delivery
import FeatureFile.Proofs.Agreement.Runs
import FeatureFile.Proofs.Agreement.Transfer
import FeatureFile.Proofs.Line.Featureless
/-!
Documents without a feature, by the grammar. The first repetition of the entry rule takes blank lines
and comments as long as there are any. Behind them it is decided: at the end of the text there is no
feature and nothing is missing; anywhere else a match needs a feature, and has it in its tree.
-/

namespace FeatureFile

open Text (FirstLine)
open Rules (Gives)

/-- A line that the repetition over blank lines and comments takes: blank lines need a line break. -/
def Ignored (q brk : Text) : Prop :=
  (q.unindent = [] ∧ brk ≠ []) ∨ q.unindent.head? = some '#'

theorem progresses_ignored : Cursor.Progresses Ignored := by
  rintro q brk (⟨-, ends⟩ | mark) nothing
  · exact ends (List.append_eq_nil_iff.mp nothing).2
  · rw [(List.append_eq_nil_iff.mp nothing).1] at mark
    cases mark

theorem Ignored.isIgnorable {q brk : Text} (ignored : Ignored q brk) : q.IsIgnorable :=
  Text.isIgnorable_iff.mpr (ignored.imp_left And.left)

/-- What stands behind the run is the end of the text, if all lines may be ignored. -/
theorem Cursor.Run.ends_iff {c d : Cursor} {raws : List Text} {q brk rest : Text}
    (run : Cursor.Run Ignored c raws d) (line : FirstLine d.rest q brk rest) (stops : ¬ Ignored q brk) :
    (q.unindent = [] ∧ brk = []) ↔ ∀ raw ∈ c.rest.lines, raw.IsIgnorable := by
  have taken : ∀ raw ∈ raws, raw.IsIgnorable := fun raw member => by
    obtain ⟨brk, ignored⟩ := run.forall_mem raw member
    exact ignored.isIgnorable
  rw [run.lines_eq progresses_ignored, List.forall_mem_append, and_iff_right taken]
  by_cases atEnd : d.rest = []
  · simp [atEnd, Text.lines, line.eq_nil_iff.mp atEnd, Text.unindent, Text.trimStartBy]
  · rw [line.lines_eq atEnd, List.forall_mem_cons]
    constructor
    · rintro ⟨blank, rfl⟩
      obtain ⟨-, rfl⟩ | feed | feed := line.brk_cases
      · exact ⟨Text.isIgnorable_iff.mpr (.inl blank), List.forall_mem_nil _⟩
      · cases feed
      · cases feed
    · rintro ⟨ignorable, -⟩
      rcases Text.isIgnorable_iff.mp ignorable with blank | mark
      · exact ⟨blank, by_contra fun ends => stops (.inl ⟨blank, ends⟩)⟩
      · exact absurd (.inr mark) stops

namespace Rules

variable {rules : List Rule} {a b : Expr} {c last : Cursor} {nodes : List Node}
  {result : Option (List Node × Cursor)}

/-- Nothing is found anywhere. -/
theorem Gives.nothing (c : Cursor) : Gives rules (.literal []) c (some ([], c)) := by
  have gives : Gives rules (.literal []) c (some ([], c.after [])) := .skips rfl
  rwa [Cursor.after_nil] at gives

/-- An option gives what its operand gives, or nothing in its place. -/
theorem Gives.opt_cases (h : Gives rules (.opt a) c result) :
    Gives rules a c result ∨ Gives rules (.literal []) c result := by
  cases yields_iff_gives.mpr h with
  | @opt _ _ inside body =>
    cases inside with
    | some pair => exact .inl body.gives
    | none => exact .inr (.nothing c)

/-- What a sequence gives, its operands give one behind the other. -/
theorem Gives.seq_some_iff :
    Gives rules (.seq a b) c (some (nodes, last)) ↔
      ∃ front d more, nodes = front ++ more ∧ Gives rules a c (some (front, d)) ∧
        Gives rules b d (some (more, last)) := by
  constructor
  · intro h
    rcases h.seq_cases with ⟨-, none⟩ | ⟨front, d, behind, first, second, whole⟩
    · cases none
    · obtain ⟨⟨more, _⟩, rfl, same⟩ := Option.map_eq_some_iff.mp whole.symm
      cases same
      exact ⟨front, d, more, rfl, first, second⟩
  · rintro ⟨front, d, more, rfl, first, second⟩
    exact .seq first second

/-- A node stands for what the body of its rule gives. -/
theorem Gives.call_some {name : String} (found : find? rules name = some ⟨name, .normal, a⟩)
    (h : Gives rules (.call name) c (some (nodes, last))) :
    ∃ below, Gives rules a c (some (below, last)) ∧ nodes = [.mk name (c.upTo last) c.line below] := by
  generalize given : some (nodes, last) = result at h
  cases yields_iff_gives.mpr h with
  | undefined => cases given
  | call found' body =>
    cases found.symm.trans found'
    obtain ⟨⟨below, _⟩, rfl, same⟩ := Option.map_eq_some_iff.mp given.symm
    cases same
    exact ⟨below, body.gives, rfl⟩

/-- Either there is a feature, or there is nothing in its place. -/
theorem Gives.documentWith_opt (h : Gives rules (documentWith (.opt a)) c (some (nodes, last))) :
    Gives rules (documentWith a) c (some (nodes, last)) ∨
      Gives rules (documentWith (.literal [])) c (some (nodes, last)) := by
  obtain ⟨_, _, _, rfl, start, behindStart⟩ := seq_some_iff.mp h
  obtain ⟨_, d, _, rfl, ignorables, behindIgnorables⟩ := seq_some_iff.mp behindStart
  obtain ⟨front, e, _, rfl, option, others⟩ := seq_some_iff.mp behindIgnorables
  have rebuilt {b : Expr} (inside : Gives rules b d (some (front, e))) :
      Gives rules (documentWith b) c _ :=
    seq_some_iff.mpr ⟨_, _, _, rfl, start, seq_some_iff.mpr ⟨_, _, _, rfl, ignorables,
      seq_some_iff.mpr ⟨_, _, _, rfl, inside, others⟩⟩⟩
  exact option.opt_cases.imp rebuilt rebuilt

namespace Shipped

variable {language : Language} (shipped : Shipped rules language) {d : Cursor} {q brk rest : Text}
include shipped

theorem ignorable_some (line : FirstLine c.rest q brk rest) (ignored : Ignored q brk) :
    ∃ nodes, Gives rules (.call "ignorable") c (some (nodes, c.after (q ++ brk))) := by
  suffices body : ∃ nodes, Gives rules (.choice (.call "blank_line") (.call "comment_line")) c
      (some (nodes, c.after (q ++ brk))) by
    obtain ⟨nodes, gives⟩ := body
    exact ⟨nodes, shipped.silent "ignorable" _ gives (by decide)⟩
  rcases ignored with ⟨blank, ends⟩ | mark
  · exact ⟨_, .choice_first (shipped.blank_line line blank ends)⟩
  · obtain ⟨v, split⟩ := List.head?_eq_some_iff.mp mark
    obtain ⟨ends, -, comment⟩ := shipped.comment_line line split
    exact ⟨_, .choice_second (shipped.blank_line_none line (.inl (by simp [split]))) comment⟩

theorem ignorable_none (line : FirstLine c.rest q brk rest) (other : ¬ Ignored q brk) :
    Gives rules (.call "ignorable") c none := by
  obtain ⟨notBlank, notComment⟩ := not_or.mp other
  have blank := shipped.blank_line_none line (by
    by_contra blank
    exact notBlank (by simpa using blank))
  exact shipped.silent "ignorable" _ (.choice_second blank (shipped.comment_line_none line notComment))
    (by decide)

/-- At the end of the text there is no feature, since its keyword has a character. -/
theorem feature_none (line : FirstLine c.rest q [] rest) (blank : q.unindent = []) :
    Gives rules (.call "feature") c none := by
  have untagged := shipped.tag_line_none line (by simp [blank])
  have stops := shipped.ignorable_none line (by simp [Ignored, blank])
  have tags := shipped.silent "tags" (.star (.choice (.call "tag_line") (.call "ignorable")))
    (.star_stop (.choice_second untagged stops)) (by decide)
  have atEnd := line.behind_indentation.eq_nil_iff.mpr ⟨blank, rfl⟩
  have keyword := shipped.keyword_gives (SectionKind.feature.mem_keywordLists language)
    (c.after (q.takeWhile Text.isBlankChar))
  have noKeyword : (Template.alternatives (language.presentKeywords .feature)).find?
      (·.isPrefixOf (c.after (q.takeWhile Text.isBlankChar)).rest) = none := by
    refine List.find?_eq_none.mpr fun k member => ?_
    simpa [atEnd] using (Vocabulary.mem_alternatives.mp member).2
  rw [show SectionKind.feature.concept = .feature from rfl, noKeyword] at keyword
  have found := shipped.fixed ⟨"feature", .normal, .seq (.call "tags") (SectionKind.feature.headed
    (.seq (.opt (.call "background"))
      (.star (.choice (.call "scenario_outline") (.call "scenario")))))⟩ (by decide)
  exact Gives.normal found (.seq_nil tags (.seq_nil (shipped.sp line) (.seq_fail keyword)))

/-- Where nothing is taken in the place of the feature, the document has to end. -/
theorem documentWith_gives {source : Text} {raws : List Text}
    (run : Cursor.Run Ignored (.start source) raws d) (line : FirstLine d.rest q brk rest)
    (stops : ¬ Ignored q brk) :
    ∃ result, (result.isSome = true ↔ ∀ raw ∈ source.lines, raw.IsIgnorable) ∧
      ∀ a, Gives rules a d (some ([], d)) → Gives rules (documentWith a) (.start source) result := by
  have start : Gives rules .startOfInput (.start source) _ := .startOfInput rfl
  obtain ⟨_, ignorables⟩ := Gives.star_run (fun _ _ _ _ line => shipped.ignorable_some line)
    (fun _ _ _ _ line => shipped.ignorable_none line) run
  have stopped := Gives.star_stop (shipped.ignorable_none line stops)
  have ends := run.ends_iff line stops
  have atEnd := shipped.text_end line
  split_ifs at atEnd with last
  · obtain ⟨_, _, -, atEnd⟩ := atEnd
    exact ⟨_, iff_of_true rfl (ends.mp last), fun a nothing =>
      .seq_nil start (.seq ignorables (.seq_nil nothing (.seq_nil stopped atEnd)))⟩
  · exact ⟨_, iff_of_false (by simp) (mt ends.mpr last), fun a nothing =>
      .seq_nil start (.seq ignorables (.seq_nil nothing (.seq_nil stopped atEnd)))⟩

/-- With nothing in the place of the feature, all lines of a match may be ignored. -/
theorem ignorable_of_gives {source : Text}
    (gives : Gives rules (documentWith (.literal [])) (.start source) (some (nodes, last))) :
    ∀ raw ∈ source.lines, raw.IsIgnorable := by
  obtain ⟨raws, d, run⟩ := Cursor.exists_run progresses_ignored (.start source)
  obtain ⟨q, brk, rest, line, stops⟩ := run.stopped
  obtain ⟨result, ignorable, given⟩ := shipped.documentWith_gives run line stops
  cases gives.unique (given _ (.nothing d))
  exact ignorable.mp rfl

/-- If they may, there is no feature, and the document matches with nothing in its place. -/
theorem gives_of_ignorable {source : Text} (ignorable : ∀ raw ∈ source.lines, raw.IsIgnorable) :
    ∃ nodes last,
      Gives rules (documentWith (.opt (.call "feature"))) (.start source) (some (nodes, last)) ∧
        Gives rules (documentWith (.literal [])) (.start source) (some (nodes, last)) := by
  obtain ⟨raws, d, run⟩ := Cursor.exists_run progresses_ignored (.start source)
  obtain ⟨q, brk, rest, line, stops⟩ := run.stopped
  obtain ⟨blank, rfl⟩ := (run.ends_iff line stops).mpr ignorable
  obtain ⟨result, some, given⟩ := shipped.documentWith_gives run line stops
  obtain ⟨⟨nodes, last⟩, rfl⟩ := Option.isSome_iff_exists.mp (some.mpr ignorable)
  exact ⟨nodes, last, given _ (shipped.feature_none line blank).opt, given _ (.nothing d)⟩

end Shipped

end Rules

/-! ### Documents -/

namespace Parser

variable {language : Language} {parser : Parser} {source : Text} {path : String} {filter : Filter}

/-- The entry rule leaves one node, which stands for the nodes below it. -/
private theorem nodes_eq_ok_iff_below (compiled : compile Template.shipped language = .ok parser)
    {nodes : List Node} :
    parser.nodes source path = .ok nodes ↔ ∃ below last,
      nodes = [.mk language.entryRule ((Cursor.start source).upTo last) (Cursor.start source).line below] ∧
        Gives parser.grammar.arranged (documentWith (.opt (.call "feature"))) (.start source)
          (some (below, last)) := by
  have entry := (shipped_rules compiled).entry
  rw [nodes_eq_ok_iff compiled]
  constructor
  · rintro ⟨last, gives⟩
    obtain ⟨below, body, whole⟩ := gives.call_some entry
    exact ⟨below, last, whole, body⟩
  · rintro ⟨below, last, rfl, body⟩
    exact ⟨last, .normal entry body⟩

/-- The grammar finds no tree where every line is blank or a comment, and nowhere else. -/
theorem parse_eq_none_iff (compiled : compile Template.shipped language = .ok parser) :
    parser.parse source path filter = .ok none ↔ ∀ raw ∈ source.lines, raw.IsIgnorable := by
  have shipped := shipped_rules compiled
  -- What is taken by the end of a document decides whether there is a tree.
  have reached {a : Expr} {s : Control → Prop} (final : ∀ control, s control → control.final)
      (leads : Leads parser.grammar.arranged (Stage.untagged (· = .start)) a (Stage.untagged s))
      {below : List Node} {last : Cursor}
      (gives : Gives parser.grammar.arranged (documentWith a) (.start source) (some (below, last))) :
      ∃ b : Assembly, b.Sound ∧ s b.control ∧
        (Node.reading [.mk language.entryRule ((Cursor.start source).upTo last)
          (Cursor.start source).line below] source).tree = .ok b.feature := by
    have taken := (shipped.leads_documentWith leads _ _ _ gives.matches).2
    have events (text : Text) (line : Nat) :
        Node.allEvents [.mk language.entryRule text line below] = Node.allEvents below := by
      simp [Node.allEvents, Node.events_entry]
    rw [Node.reading, events]
    exact Reading.exists_tree_of_takes final taken source.endLine
  simp only [parse_eq_ok_iff, nodes_eq_ok_iff_below compiled, Option.map_eq_none_iff]
  constructor
  · rintro ⟨_, _, ⟨below, last, rfl, gives⟩, made, rfl⟩
    rcases gives.documentWith_opt with feature | nothing
    · have leads := shipped.leads_feature.mono (s := Stage.untagged (· = .start)) (fun _ _ h => h.1)
        fun _ _ h => h
      obtain ⟨b, sound, complete, tree⟩ := reached (fun _ complete => .inr complete) leads feature
      rw [tree, Except.ok.injEq, sound.feature_eq_none_iff] at made
      rw [made] at complete
      cases complete
    · exact shipped.ignorable_of_gives nothing
  · intro ignorable
    obtain ⟨below, last, gives, nothing⟩ := shipped.gives_of_ignorable ignorable
    obtain ⟨b, sound, start, tree⟩ :=
      reached (fun _ start => .inl start) (Leads.literal [] _) nothing
    rw [sound.feature_eq_none_iff.mpr start] at tree
    exact ⟨_, none, ⟨below, last, rfl, gives⟩, tree, rfl⟩

end Parser

namespace Language

/-- Parsing ends without a tree and without an error exactly on documents of blank lines and comments,
by the line reader and by the grammar of any language that compiles. -/
theorem parseWith_eq_none_iff (language : Language) (source : Text) (path : String) (filter : Filter) :
    (∀ template, language.parseWith template .lines source path filter = .ok none ↔
      ∀ raw ∈ source.lines, raw.IsIgnorable) ∧
    ∀ parser, Parser.compile Template.shipped language = .ok parser →
      (language.parseWith Template.shipped .grammar source path filter = .ok none ↔
        ∀ raw ∈ source.lines, raw.IsIgnorable) := by
  constructor
  · intro template
    rw [← Vocabulary.tree_read_eq_none_iff language source, parseWith, parseLines_eq, mark_eq_ok_iff]
    cases ((Vocabulary.ofLanguage language).read source).tree <;> simp
  · intro parser compiled
    rw [parseWith_grammar_iff, compiled]
    simp [mark_eq_ok_iff, Parser.parse_eq_none_iff compiled]

/-- Comments and a blank line without a line break at the end, and a tag that nothing follows. -/
theorem parseWith_eq_none_iff_tag :
    let ignored : Text := "# c\r\n\n \t # d\n \t".toList
    let tagged : Text := "# c\n@t\n".toList
    ∃ parser, Parser.compile Template.shipped brief = .ok parser ∧
      brief.parseWith Template.shipped .lines ignored "f" .empty = .ok none ∧
      brief.parseWith Template.shipped .grammar ignored "f" .empty = .ok none ∧
      brief.parseWith Template.shipped .lines tagged "f" .empty ≠ .ok none ∧
      brief.parseWith Template.shipped .grammar tagged "f" .empty ≠ .ok none := by
  intro ignored tagged
  obtain ⟨parser, compiled⟩ := exists_compile_brief
  obtain ⟨lines, grammar⟩ := brief.parseWith_eq_none_iff ignored "f" .empty
  obtain ⟨lines', grammar'⟩ := brief.parseWith_eq_none_iff tagged "f" .empty
  have all : ∀ raw ∈ ignored.lines, raw.IsIgnorable := by decide +kernel
  have other : ¬ ∀ raw ∈ tagged.lines, raw.IsIgnorable := by decide +kernel
  exact ⟨parser, compiled, (lines _).mpr all, (grammar parser compiled).mpr all, mt (lines' _).mp other,
    mt (grammar' parser compiled).mp other⟩

end Language

end FeatureFile
