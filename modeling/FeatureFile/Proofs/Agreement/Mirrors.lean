import FeatureFile.Proofs.Agreement.Readers
import FeatureFile.Proofs.Agreement.Reports
/-!
The rules of the shipped template read blocks. Where a text has certain blocks in front, a rule matches
exactly when its reader succeeds; the match ends behind the blocks the reader takes, and its nodes stand
for their events.
-/

namespace FeatureFile

open Text (FirstLine)
open Vocabulary (ofLanguage Opens)
open BlockReader (one)

/-- The line of a header, the description below it, and then these contents. -/
def SectionKind.headed (kind : SectionKind) (contents : Expr) : Expr :=
  .seq (.call "sp") (.seq (.call kind.keywordRule) (.seq (.literal [':']) (.seq (.call "sp")
    (.seq (.call "text") (.seq (.call "line_end") (.seq (.call "description") contents))))))

/-- The expression does on a text what the reader does on its blocks. -/
def Mirrors (rules : List Rule) (v : Vocabulary) (view : List Node → List Event → Prop) (e : Expr)
    (p : BlockReader) : Prop :=
  ∀ (c : Cursor) (bs : List Block) (complete : Bool), Blocks v c bs complete →
    match p.read bs with
    | none => Rules.Gives rules e c none
    | some (used, left) => ∃ nodes d, Rules.Gives rules e c (some (nodes, d)) ∧
        Blocks v d left complete ∧ view nodes (used.flatMap Block.events)

namespace Mirrors

variable {rules : List Rule} {v : Vocabulary} {view : List Node → List Event → Prop} {a b : Expr}
  {p q : BlockReader}

theorem seq (append : ∀ {nodes events others more}, Reports nodes events → view others more →
      view (nodes ++ others) (events ++ more))
    (first : Mirrors rules v Reports a p) (second : Mirrors rules v view b q) :
    Mirrors rules v view (.seq a b) (p.andThen q) := by
  intro c bs complete blocks
  have front := first c bs complete blocks
  cases found : p.read bs with
  | none =>
    rw [found] at front
    simpa [BlockReader.andThen, found] using Rules.Gives.seq_fail front
  | some pair =>
    obtain ⟨used, left⟩ := pair
    rw [found] at front
    obtain ⟨nodes, d, gives, others, reports⟩ := front
    have back := second d left complete others
    cases found' : q.read left with
    | none =>
      rw [found'] at back
      simpa [BlockReader.andThen, found, found'] using Rules.Gives.seq gives back
    | some pair =>
      obtain ⟨more, rest⟩ := pair
      rw [found'] at back
      obtain ⟨nodes', d', gives', others', reports'⟩ := back
      have both := append reports reports'
      simpa [BlockReader.andThen, found, found'] using
        ⟨_, _, Rules.Gives.seq gives gives', others', both⟩

theorem choice (first : Mirrors rules v view a p) (second : Mirrors rules v view b q) :
    Mirrors rules v view (.choice a b) (p.orElse q) := by
  intro c bs complete blocks
  have front := first c bs complete blocks
  have back := second c bs complete blocks
  cases found : p.read bs with
  | some pair =>
    rw [found] at front
    obtain ⟨nodes, d, gives, others, reports⟩ := front
    simpa [BlockReader.orElse, found] using ⟨_, _, Rules.Gives.choice_first gives, others, reports⟩
  | none =>
    rw [found] at front
    cases found' : q.read bs with
    | none =>
      rw [found'] at back
      simpa [BlockReader.orElse, found, found'] using Rules.Gives.choice_second front back
    | some pair =>
      rw [found'] at back
      obtain ⟨nodes, d, gives, others, reports⟩ := back
      simpa [BlockReader.orElse, found, found'] using
        ⟨_, _, Rules.Gives.choice_second front gives, others, reports⟩

theorem opt (body : Mirrors rules v Reports a p) : Mirrors rules v Reports (.opt a) p.maybe := by
  intro c bs complete blocks
  have inside := body c bs complete blocks
  cases found : p.read bs with
  | none =>
    rw [found] at inside
    simpa [BlockReader.maybe, found] using ⟨_, _, Rules.Gives.opt inside, blocks, Reports.nil⟩
  | some pair =>
    rw [found] at inside
    obtain ⟨nodes, d, gives, others, reports⟩ := inside
    simpa [BlockReader.maybe, found] using ⟨_, _, Rules.Gives.opt gives, others, reports⟩

theorem star (body : Mirrors rules v Reports a p) (progresses : p.Progresses) :
    Mirrors rules v Reports (.star a) p.many := by
  intro c bs complete blocks
  show ∃ nodes d, Rules.Gives rules (.star a) c (some (nodes, d)) ∧
    Blocks v d (p.rounds bs).2 complete ∧ Reports nodes ((p.rounds bs).1.flatMap Block.events)
  -- Every round leaves fewer blocks.
  induction size : bs.length using Nat.strong_induction_on generalizing c bs with
  | _ n ih =>
  subst size
  have inside := body c bs complete blocks
  cases found : p.read bs with
  | none =>
    rw [found] at inside
    rw [BlockReader.rounds_none found]
    exact ⟨_, _, .star_stop inside, blocks, .nil⟩
  | some pair =>
    obtain ⟨used, left⟩ := pair
    rw [found] at inside
    obtain ⟨nodes, d, gives, others, reports⟩ := inside
    obtain ⟨nodes', d', gives', others', reports'⟩ := ih _ (progresses.length_lt found) d left others rfl
    rw [BlockReader.rounds_some found (progresses _ _ _ found), List.flatMap_append]
    exact ⟨_, _, .star_step gives gives', others', reports.append reports'⟩

theorem silent {name : String} (found : Rules.find? rules name = some ⟨name, .silent, a⟩)
    (body : Mirrors rules v view a p) : Mirrors rules v view (.call name) p := by
  intro c bs complete blocks
  have inside := body c bs complete blocks
  cases read : p.read bs with
  | none =>
    rw [read] at inside
    exact .silent found inside
  | some pair =>
    rw [read] at inside
    obtain ⟨nodes, d, gives, others, reports⟩ := inside
    exact ⟨nodes, d, .silent found gives, others, reports⟩

/-- A rule that leaves a node, which stands for the events of the nodes below it. -/
theorem normal {name : String} {view' : List Node → List Event → Prop}
    (found : Rules.find? rules name = some ⟨name, .normal, a⟩)
    (leaves : ∀ {nodes events text line}, view nodes events → view' [.mk name text line nodes] events)
    (body : Mirrors rules v view a p) : Mirrors rules v view' (.call name) p := by
  intro c bs complete blocks
  have inside := body c bs complete blocks
  cases read : p.read bs with
  | none =>
    rw [read] at inside
    exact .normal found inside
  | some pair =>
    rw [read] at inside
    obtain ⟨nodes, d, gives, others, reports⟩ := inside
    exact ⟨_, d, .normal found gives, others, leaves reports⟩

/-! ### Single blocks -/

private theorem no_block_over {c d : Cursor} {q rest : Text} {b : Block}
    (line : FirstLine c.rest q [] rest) (kind : v.kind q = .blank) : ¬ NextBlock v c b d := by
  intro next
  have other {q' brk' rest' : Text} (line' : FirstLine c.rest q' brk' rest') :
      v.kind q' = .blank ∧ brk' = [] := by
    obtain ⟨rfl, rfl, -⟩ := line.unique line'
    exact ⟨kind, rfl⟩
  cases next with
  | blank line' _ ends => exact ends (other line').2
  | comment line' kind' | tags line' kind' | header line' kind' | step line' kind'
  | row line' kind' | docString line' kind' => cases kind'.symm.trans (other line').1

/-- What becomes of an expression that depends on the next block alone. -/
theorem cases_block (shape : Block.Shape) {c : Cursor} {bs : List Block} {complete : Bool}
    (blocks : Blocks v c bs complete) :
    (∃ b d left, bs = b :: left ∧ b.shape = shape ∧ NextBlock v c b d ∧ Blocks v d left complete) ∨
      ((one shape).read bs = none ∧ (∃ q brk rest, FirstLine c.rest q brk rest) ∧
        ∀ b d, NextBlock v c b d → b.shape ≠ shape) := by
  cases blocks with
  | atEnd line kind =>
    exact .inr ⟨rfl, ⟨_, _, _, line⟩, fun b d next => absurd next (no_block_over line kind)⟩
  | stuck line more none => exact .inr ⟨rfl, ⟨_, _, _, line⟩, fun b d next => absurd next (none b d)⟩
  | @block _ d b left _ next others =>
    by_cases same : b.shape = shape
    · exact .inl ⟨b, d, left, rfl, same, next, others⟩
    · refine .inr ⟨by simp [one, same], Text.exists_firstLine c.rest, fun b' d' next' => ?_⟩
      rwa [next'.shape_unique next]

theorem block {shape : Block.Shape}
    (hit : ∀ c b d, NextBlock v c b d → b.shape = shape →
      ∃ nodes, Rules.Gives rules a c (some (nodes, d)) ∧ Reports nodes b.events)
    (miss : ∀ c q brk rest, FirstLine c.rest q brk rest →
      (∀ b d, NextBlock v c b d → b.shape ≠ shape) → Rules.Gives rules a c none) :
    Mirrors rules v Reports a (one shape) := by
  intro c bs complete blocks
  rcases cases_block shape blocks with ⟨b, d, left, rfl, same, next, others⟩ |
    ⟨fails, ⟨q, brk, rest, line⟩, other⟩
  · obtain ⟨nodes, gives, reports⟩ := hit c b d next same
    simpa [one, same] using ⟨nodes, d, gives, others, reports⟩
  · rw [fails]
    exact miss c q brk rest line other

end Mirrors

namespace Rules.Shipped

variable {rules : List Rule} {language : Language} (shipped : Shipped rules language)
  (separated : language.WellSeparated)

/-! ### Rules for single blocks -/

/-- The tags of a line are one node each. -/
private theorem reports_tags (names : List Text) (line : Nat) :
    Reports (names.map (.mk "tag" · line [])) (names.map (.tag · line)) := by
  induction names with
  | nil => exact .nil
  | cons name names ih =>
    have first : Reports [.mk "tag" name line []] [.tag name line] :=
      .single (Node.isPlain_mk (by decide) ..) rfl
    exact first.append ih

section

include shipped separated

theorem mirrors_blank :
    Mirrors rules (ofLanguage language) Reports (.call "blank_line") (one .blank) := by
  refine .block (fun c b d next same => ?_) (fun c q brk rest line other => ?_)
  · cases next with
    | @blank q brk rest line kind ends =>
      have nothing := (Vocabulary.exact separated q).blank.mpr kind
      exact ⟨_, shipped.blank_line line nothing ends, .nil⟩
    | _ => cases same
  · refine shipped.blank_line_none line ?_
    by_contra nothing
    push Not at nothing
    exact other _ _ (.blank line ((Vocabulary.exact separated q).blank.mp nothing.1) nothing.2) rfl

theorem mirrors_comment :
    Mirrors rules (ofLanguage language) Reports (.call "comment_line") (one .comment) := by
  refine .block (fun c b d next same => ?_) (fun c q brk rest line other => ?_)
  · cases next with
    | @comment q brk rest text line kind =>
      have decided := (ofLanguage language).decided q
      rw [kind] at decided
      cases decided with
      | @comment v mark =>
        obtain ⟨ends, atEnd, gives⟩ := shipped.comment_line line mark
        have comment : Reports [.mk "comment" ('#' :: v) c.line []] [.comment ('#' :: v) c.line] :=
          .single (Node.isPlain_mk (by decide) ..) rfl
        exact ⟨_, gives, comment.append (.ends atEnd)⟩
    | _ => cases same
  · refine shipped.comment_line_none line fun head => ?_
    obtain ⟨v, mark⟩ := List.head?_eq_some_iff.mp head
    exact other _ _ (.comment line (((Vocabulary.exact separated q).comment v).mp mark)) rfl

theorem mirrors_tags :
    Mirrors rules (ofLanguage language) Reports (.call "tag_line") (one .tags) := by
  refine .block (fun c b d next same => ?_) (fun c q brk rest line other => ?_)
  · cases next with
    | @tags q brk rest text first others line kind found =>
      have decided := (ofLanguage language).decided q
      rw [kind] at decided
      cases decided with
      | @tags v mark =>
        have given := shipped.tag_line line mark
        rw [found] at given
        obtain ⟨ends, atEnd, gives⟩ := given
        have tags := (reports_tags (first :: others) c.line).append (.ends atEnd)
        rw [List.append_nil] at tags
        exact ⟨_, gives, tags⟩
    | _ => cases same
  · by_cases head : q.unindent.head? = some '@'
    · obtain ⟨v, mark⟩ := List.head?_eq_some_iff.mp head
      have given := shipped.tag_line line mark
      cases found : TagLine.split? ('@' :: v) with
      | none => rwa [found] at given
      | some names =>
        cases names with
        | nil =>
          exact absurd found
            (TagLine.split?_ne_nil fun mem => line.not_mem_unindent mark (by simp [mem]))
        | cons first others =>
          have kind := ((Vocabulary.exact separated q).tags v).mp mark
          exact absurd rfl (other _ _ (.tags line kind found))
    · exact shipped.tag_line_none line head

theorem mirrors_row :
    Mirrors rules (ofLanguage language) Reports (.call "table_row") (one .row) := by
  refine .block (fun c b d next same => ?_) (fun c q brk rest line other => ?_)
  · cases next with
    | @row q brk rest text cells line kind found =>
      have decided := (ofLanguage language).decided q
      rw [kind] at decided
      cases decided with
      | @row v mark =>
        have given := shipped.table_row line mark
        rw [found] at given
        obtain ⟨text, children, rfl, gives⟩ := given
        exact ⟨_, gives, .single (Node.isPlain_mk (by decide) ..) rfl⟩
    | _ => cases same
  · by_cases head : q.unindent.head? = some '|'
    · obtain ⟨v, mark⟩ := List.head?_eq_some_iff.mp head
      have given := shipped.table_row line mark
      cases found : TableRow.split? ('|' :: v) with
      | none => rwa [found] at given
      | some cells =>
        exact absurd rfl (other _ _ (.row line (((Vocabulary.exact separated q).row v).mp mark) found))
    · exact shipped.table_row_none line head

theorem mirrors_docString :
    Mirrors rules (ofLanguage language) Reports (.call "doc_string") (one .docString) := by
  refine .block (fun c b d next same => ?_) (fun c q brk rest line other => ?_)
  · cases next with
    | @docString d q brk rest q' brk' rest' raws line kind ends run closing closes =>
      have opens := ((Vocabulary.exact separated q).fence true).mpr kind
      obtain ⟨text, children, content, gives⟩ := shipped.doc_string line opens ends run closing closes
      exact ⟨_, gives, .single (Node.isPlain_mk (by decide) ..) (congrArg ([·]) content)⟩
    | _ => cases same
  · by_cases opening : fence? q = some true ∧ brk ≠ []
    · obtain ⟨opens, ends⟩ := opening
      obtain ⟨raws, d, run⟩ := Cursor.exists_run progresses_unfenced (c.after (q ++ brk))
      obtain ⟨q', brk', rest', closing⟩ := Text.exists_firstLine d.rest
      refine shipped.doc_string_unclosed line opens ends run closing fun closes => ?_
      have kind := ((Vocabulary.exact separated q).fence true).mp opens
      exact other _ _ (.docString line kind ends run closing closes) rfl
    · refine shipped.doc_string_none line ?_
      by_contra closed
      push Not at closed
      exact opening closed

/-! ### Rules that begin with a line -/

theorem mirrors_header (kind : SectionKind) {e : Expr} {p : BlockReader}
    (contents : Mirrors rules (ofLanguage language) Reports e p) :
    Mirrors rules (ofLanguage language) (SectionReports kind) (kind.headed e)
      ((one (.header kind)).andThen p) := by
  intro c bs complete blocks
  have exact (q : Text) := Vocabulary.exact separated q
  -- Either a header of this kind comes first, and both fail or succeed with the contents; or none
  -- does, and the keyword already fails.
  rcases Mirrors.cases_block (.header kind) blocks with ⟨b, d, left, rfl, same, next, others⟩ |
    ⟨fails, ⟨q, brk, rest, line⟩, other⟩
  · cases next with
    | @header d q brk rest k name kind' raws line found run =>
      obtain rfl : kind' = kind := by simpa [Block.shape] using same
      have opens := (Vocabulary.header?_eq_some_iff separated.sectionsApart).mp
        (((exact q).header ..).mpr found)
      obtain ⟨w, children, lines, description⟩ := shipped.description separated run
      have inside := contents d left complete others
      cases read : p.read left with
      | none =>
        rw [read] at inside
        obtain ⟨_, -, gives⟩ := shipped.header_head separated line opens (description.seq inside)
        simpa [BlockReader.andThen, one, Block.shape, read, SectionKind.headed] using gives
      | some pair =>
        obtain ⟨used, rest⟩ := pair
        rw [read] at inside
        obtain ⟨nodes, d', gives, others', reports⟩ := inside
        obtain ⟨ends, atEnd, gives'⟩ := shipped.header_head separated line opens (description.seq gives)
        have whole := SectionReports.header kind' k name c.line (c.after (q ++ brk)).line children lines
          run.not_mem atEnd reports
        simpa [BlockReader.andThen, one, Block.shape, read, SectionKind.headed] using
          ⟨_, _, gives', others', whole⟩
    | _ => cases same
  · obtain ⟨raws, d, run⟩ := Cursor.exists_run (ofLanguage language).progresses_free (c.after (q ++ brk))
    have closed : ∀ k name, ¬ Opens language kind q.unindent k name := by
      intro k name opens
      have found := ((exact q).header ..).mp
        ((Vocabulary.header?_eq_some_iff separated.sectionsApart).mpr opens)
      exact other _ _ (.header line found run) rfl
    simpa [BlockReader.andThen, fails, SectionKind.headed] using
      shipped.header_head_none separated line closed

theorem mirrors_step {e : Expr} {p : BlockReader}
    (found : Rules.find? rules "step" = some ⟨"step", .normal, .seq (.call "sp")
      (.seq (.call "step_keyword") (.seq (.call "text") (.seq (.call "line_end") e)))⟩)
    (carried : Mirrors rules (ofLanguage language) Reports e p) :
    Mirrors rules (ofLanguage language) Reports (.call "step") ((one .step).andThen p) := by
  intro c bs complete blocks
  rcases Mirrors.cases_block .step blocks with ⟨b, d, left, rfl, same, next, others⟩ |
    ⟨fails, ⟨q, brk, rest, line⟩, other⟩
  · cases next with
    | @step q brk rest k name line kind =>
      have opens := ((Vocabulary.exact separated q).step k name).mpr kind
      have inside := carried _ left complete others
      cases read : p.read left with
      | none =>
        rw [read] at inside
        obtain ⟨_, -, gives⟩ := shipped.step_head separated line opens inside
        simpa [BlockReader.andThen, one, Block.shape, read] using Gives.normal found gives
      | some pair =>
        obtain ⟨used, rest⟩ := pair
        rw [read] at inside
        obtain ⟨nodes, d, gives, others', reports⟩ := inside
        obtain ⟨ends, atEnd, gives'⟩ := shipped.step_head separated line opens gives
        have whole := Reports.ofStep k name (c.upTo d) c.line atEnd reports
        simpa [BlockReader.andThen, one, Block.shape, read] using
          ⟨_, _, Gives.normal found gives', others', whole⟩
    | _ => cases same
  · have unopened : (ofLanguage language).step? q.unindent = none := by
      by_contra opened
      obtain ⟨⟨k, name⟩, opens⟩ := Option.ne_none_iff_exists'.mp opened
      exact other _ _ (.step line (((Vocabulary.exact separated q).step k name).mp opens)) rfl
    have fails' := shipped.step_head_none separated
      (e := .seq (.call "text") (.seq (.call "line_end") e)) line unopened
    simpa [BlockReader.andThen, fails] using Gives.normal found fails'

/-! ### Rules put together -/

theorem mirrors_ignorable :
    Mirrors rules (ofLanguage language) Reports (.call "ignorable") BlockReader.ignorable :=
  .silent (shipped.fixed ⟨"ignorable", .silent, _⟩ (by decide))
    (.choice (shipped.mirrors_blank separated) (shipped.mirrors_comment separated))

theorem mirrors_ignorables :
    Mirrors rules (ofLanguage language) Reports (.star (.call "ignorable")) BlockReader.ignorable.many :=
  .star (shipped.mirrors_ignorable separated) BlockReader.progresses_ignorable

theorem mirrors_tagLines :
    Mirrors rules (ofLanguage language) Reports (.call "tags") BlockReader.tags :=
  .silent (shipped.fixed ⟨"tags", .silent, _⟩ (by decide))
    (.star (.choice (shipped.mirrors_tags separated) (shipped.mirrors_ignorable separated))
      ((BlockReader.progresses_one _).orElse BlockReader.progresses_ignorable))

theorem mirrors_table :
    Mirrors rules (ofLanguage language) Reports (.call "table") BlockReader.table := by
  have rows := Mirrors.seq .append (shipped.mirrors_ignorables separated) (shipped.mirrors_row separated)
  have others := Mirrors.star rows (.andThen_right _ (BlockReader.progresses_one _))
  exact .normal (shipped.fixed ⟨"table", .normal, _⟩ (by decide)) .ofTable
    (.seq .append (shipped.mirrors_row separated) others)

theorem mirrors_wholeStep :
    Mirrors rules (ofLanguage language) Reports (.call "step") BlockReader.step := by
  have argument := Mirrors.choice (shipped.mirrors_table separated) (shipped.mirrors_docString separated)
  have carried := Mirrors.opt (.seq .append (shipped.mirrors_ignorables separated) argument)
  exact shipped.mirrors_step separated (shipped.fixed ⟨"step", .normal, _⟩ (by decide)) carried

theorem mirrors_steps :
    Mirrors rules (ofLanguage language) Reports (.call "steps") BlockReader.steps := by
  have step := Mirrors.seq .append (shipped.mirrors_ignorables separated)
    (shipped.mirrors_wholeStep separated)
  exact .silent (shipped.fixed ⟨"steps", .silent, _⟩ (by decide))
    (.star step (.andThen_right _ BlockReader.progresses_step))

theorem mirrors_background :
    Mirrors rules (ofLanguage language) Reports (.call "background") BlockReader.background :=
  .normal (shipped.fixed ⟨"background", .normal, _⟩ (by decide)) (.ofSection rfl)
    (.seq .append (shipped.mirrors_ignorables separated)
      (shipped.mirrors_header separated .background (shipped.mirrors_steps separated)))

/-- A section that may be tagged. -/
theorem mirrors_tagged {kind : SectionKind} {e : Expr} {p : BlockReader} {name : String}
    (isSection : SectionKind.ofRule? name = some kind)
    (found : Rules.find? rules name = some ⟨name, .normal, .seq (.call "tags") (kind.headed e)⟩)
    (contents : Mirrors rules (ofLanguage language) Reports e p) :
    Mirrors rules (ofLanguage language) Reports (.call name) (BlockReader.tagged kind p) :=
  .normal found (.ofSection isSection)
    (.seq .append (shipped.mirrors_tagLines separated) (shipped.mirrors_header separated kind contents))

theorem mirrors_scenario :
    Mirrors rules (ofLanguage language) Reports (.call "scenario") BlockReader.scenario :=
  shipped.mirrors_tagged separated rfl (shipped.fixed ⟨"scenario", .normal, _⟩ (by decide))
    (shipped.mirrors_steps separated)

theorem mirrors_examples :
    Mirrors rules (ofLanguage language) Reports (.call "examples") BlockReader.examples :=
  shipped.mirrors_tagged separated rfl (shipped.fixed ⟨"examples", .normal, _⟩ (by decide))
    (.seq .append (shipped.mirrors_ignorables separated) (shipped.mirrors_table separated))

theorem mirrors_outline :
    Mirrors rules (ofLanguage language) Reports (.call "scenario_outline") BlockReader.outline := by
  have examples := shipped.mirrors_examples separated
  have several := Mirrors.seq .append examples (.star examples (BlockReader.progresses_tagged _ _))
  exact shipped.mirrors_tagged separated rfl
    (shipped.fixed ⟨"scenario_outline", .normal, _⟩ (by decide))
    (.seq .append (shipped.mirrors_steps separated) several)

theorem mirrors_feature :
    Mirrors rules (ofLanguage language) Reports (.call "feature") BlockReader.feature := by
  have element := Mirrors.choice (shipped.mirrors_outline separated) (shipped.mirrors_scenario separated)
  have elements := Mirrors.star element
    ((BlockReader.progresses_tagged _ _).orElse (BlockReader.progresses_tagged _ _))
  exact shipped.mirrors_tagged separated rfl (shipped.fixed ⟨"feature", .normal, _⟩ (by decide))
    (.seq .append (.opt (shipped.mirrors_background separated)) elements)

end

end Rules.Shipped

end FeatureFile
