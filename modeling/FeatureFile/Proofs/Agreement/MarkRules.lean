import FeatureFile.Proofs.Agreement.LineRules
import FeatureFile.Proofs.Line.Forward
/-!
The rules of the shipped template for lines that begin with a mark: comments, tags and table rows.
They give what the line reader finds on such a line, and nothing where it finds a fault.
-/

namespace FeatureFile

open Text (FirstLine Unbroken isBlankChar)

section

variable {c : Cursor} {q u brk rest : Text}

/-- The rest of a line in two steps: its indentation and what is behind it. -/
theorem Cursor.after_unindent (c : Cursor) (mark : q.unindent = u) (w : Text) :
    (c.after (q.takeWhile isBlankChar)).after (u ++ w) = c.after (q ++ w) := by
  rw [← mark, Cursor.after_after, ← List.append_assoc, q.indentation_append_unindent]

theorem Text.FirstLine.line_after_indentation (line : FirstLine c.rest q brk rest) :
    (c.after (q.takeWhile isBlankChar)).line = c.line :=
  line_after (q := q.unindent) (by rwa [q.indentation_append_unindent])

theorem Text.FirstLine.not_mem_unindent (line : FirstLine c.rest q brk rest) (mark : q.unindent = u) :
    '\n' ∉ u := by
  intro mem
  refine line.not_mem_line ?_
  rw [← q.indentation_append_unindent, mark]
  exact List.mem_append_right _ mem

/-- What is behind the indentation does not begin with a blank. -/
theorem Text.isBlankChar_of_unindent {x : Char} {v : Text} (mark : q.unindent = x :: v) :
    isBlankChar x = false := by
  have first := List.head?_dropWhile_not isBlankChar q
  rw [show q.dropWhile isBlankChar = x :: v from mark] at first
  simpa using first

end

/-- What ends a tag. -/
def tagStop : Expr :=
  .choices (.literal [' ']) [.literal ['\t'], .literal ['@'], .call "nl"]

/-- What ends a cell. -/
def cellStop : Expr :=
  .choices (.literal ['|']) [.call "nl"]

/-- The cells among the nodes of a row. -/
theorem Node.cells_append_ends (cells : List Text) (line : Nat) {ends : List Node}
    (atEnd : Ends ends) :
    Node.cells (cells.map (.mk "cell" · line []) ++ ends) = cells.map Text.trim := by
  have others : ends.filter (·.rule = "cell") = [] := by
    rw [List.filter_eq_nil_iff]
    intro node mem
    rw [atEnd node mem]
    decide
  have kept : (cells.map (Node.mk "cell" · line [])).filter (·.rule = "cell") =
      cells.map (Node.mk "cell" · line []) := by
    rw [List.filter_eq_self]
    intro node mem
    obtain ⟨cell, _, rfl⟩ := List.mem_map.mp mem
    rfl
  rw [Node.cells, List.filter_append, others, kept]
  simp [Node.text]

namespace Rules

/-- The expression gives these nodes and behind them at most the end of the text, or nothing. -/
def GivesUpTo (rules : List Rule) (e : Expr) (c d : Cursor) : Option (List Node) → Prop
  | none => Gives rules e c none
  | some nodes => ∃ ends, Ends ends ∧ Gives rules e c (some (nodes ++ ends, d))

variable {rules : List Rule} {a e : Expr} {c d last : Cursor} {found : Option (List Node)}

/-- Nodes in front of what follows. -/
theorem GivesUpTo.star_seq_step {nodes : List Node} (first : Gives rules a c (some (nodes, d)))
    (others : GivesUpTo rules (.seq (.star a) e) d last found) :
    GivesUpTo rules (.seq (.star a) e) c last (found.map (nodes ++ ·)) := by
  cases found with
  | none => exact .star_seq_step first others
  | some more =>
    obtain ⟨ends, atEnd, gives⟩ := others
    exact ⟨ends, atEnd, by simpa using Gives.star_seq_step first gives⟩

theorem GivesUpTo.star_seq_stop (first : Gives rules a c none)
    (others : GivesUpTo rules e c last found) :
    GivesUpTo rules (.seq (.star a) e) c last found := by
  cases found with
  | none => exact .star_seq_stop first others
  | some more =>
    obtain ⟨ends, atEnd, gives⟩ := others
    exact ⟨ends, atEnd, .star_seq_stop first gives⟩

theorem GivesUpTo.seq {nodes : List Node} (first : Gives rules a c (some (nodes, d)))
    (others : GivesUpTo rules e d last found) :
    GivesUpTo rules (.seq a e) c last (found.map (nodes ++ ·)) := by
  cases found with
  | none => exact .seq first others
  | some more =>
    obtain ⟨ends, atEnd, gives⟩ := others
    exact ⟨ends, atEnd, by simpa using Gives.seq first gives⟩

theorem GivesUpTo.seq_nil (first : Gives rules a c (some ([], d)))
    (others : GivesUpTo rules e d last found) : GivesUpTo rules (.seq a e) c last found := by
  simpa using GivesUpTo.seq first others

namespace Shipped

variable {language : Language} (shipped : Shipped rules language) {q v brk rest : Text}
include shipped

theorem silent_upTo (name : String) (body : Expr) (gives : GivesUpTo rules body c d found)
    (member : ⟨name, .silent, body⟩ ∈ Template.fixedRules.map Rule.arranged) :
    GivesUpTo rules (.call name) c d found := by
  cases found with
  | none => exact shipped.silent name body gives member
  | some nodes =>
    obtain ⟨ends, atEnd, gives⟩ := gives
    exact ⟨ends, atEnd, shipped.silent name body gives member⟩

/-- Nothing but blanks up to the end of the line. -/
theorem line_end_upTo (line : FirstLine c.rest q brk rest) :
    GivesUpTo rules (.call "line_end") c (c.after (q ++ brk))
      (if q.unindent = [] then some [] else none) := by
  split
  next blank => exact shipped.line_end line blank
  next more => exact shipped.line_end_none line more

/-! ### Comments -/

theorem comment_line (line : FirstLine c.rest q brk rest) (mark : q.unindent = '#' :: v) :
    GivesUpTo rules (.call "comment_line") c (c.after (q ++ brk))
      (some [.mk "comment" ('#' :: v) c.line []]) := by
  have behind := line.behind_indentation
  rw [mark] at behind
  have body := Gives.seq_nil (.literal_some behind ⟨v, rfl⟩) (shipped.remainder behind.behind_char)
  rw [Cursor.after_after] at body
  have comment := shipped.atomic "comment" _ (q := []) body (by simpa using behind) (by decide)
  have atEnd := (Text.FirstLine.behind (p := '#' :: v) (q := []) (by simpa using behind) :)
  obtain ⟨ends, ended, gives⟩ := shipped.line_end atEnd rfl
  refine ⟨ends, ended, ?_⟩
  have whole := Gives.seq_nil (shipped.sp line) (.seq comment gives)
  rw [line.line_after_indentation, List.nil_append, Cursor.after_after, c.after_unindent mark] at whole
  exact shipped.silent "comment_line" _ whole (by decide)

theorem comment_line_none (line : FirstLine c.rest q brk rest) (other : q.unindent.head? ≠ some '#') :
    Gives rules (.call "comment_line") c none := by
  have comment := shipped.atomic_none "comment" (.seq _ (.star (.seq (.not (.call "nl")) .any)))
    (Gives.seq_fail (.char_none line.behind_indentation (by decide) other)) (by decide)
  exact shipped.silent "comment_line" (.seq (.call "sp") (.seq (.call "comment") (.call "line_end")))
    (.seq_nil (shipped.sp line) (.seq_fail comment)) (by decide)

/-! ### Tags -/

theorem stops_tag : Stops rules tagStop TagLine.isNameChar := by
  have stops := ((shipped.stops_nl.char (x := '@') (by decide)).char (x := '\t') (by decide)).char
    (x := ' ') (by decide)
  have same : (fun y => y ≠ ' ' && (y ≠ '\t' && (y ≠ '@' && true))) = TagLine.isNameChar := by
    funext y
    simp only [TagLine.isNameChar, isBlankChar]
    by_cases space : y = ' ' <;> by_cases tab : y = '\t' <;> simp [space, tab]
  rwa [← same]

/-- One tag, which ends in front of the first character that is in no name. -/
theorem tag (line : FirstLine c.rest ('@' :: v) brk rest) {name : Text}
    (named : v.takeWhile TagLine.isNameChar = name) (present : name ≠ []) :
    Gives rules (.call "tag") c (some ([.mk "tag" ('@' :: name) c.line []], c.after ('@' :: name))) := by
  have split : '@' :: v = ('@' :: name) ++ v.dropWhile TagLine.isNameChar := by
    rw [← named, List.cons_append, List.takeWhile_append_dropWhile]
  cases v with
  | nil => exact absurd named.symm present
  | cons x v =>
    have inside : TagLine.isNameChar x = true := by
      by_contra outside
      exact present (by simpa [List.takeWhile_cons, outside] using named.symm)
    have search := shipped.stops_tag.search_more line.behind_char inside
    rw [named] at search
    have body := Gives.seq_nil (.literal_some line ⟨x :: v, rfl⟩) search
    rw [Cursor.after_after] at body
    exact shipped.atomic "tag" _ body (by rwa [← split]) (by decide)

theorem tag_none (line : FirstLine c.rest q brk rest)
    (other : ∀ v, q = '@' :: v → v.takeWhile TagLine.isNameChar = []) :
    Gives rules (.call "tag") c none := by
  refine shipped.atomic_none "tag" (.seq (.literal ['@'])
    (.seq (.seq (.not tagStop) .any) (.star (.seq (.not tagStop) .any)))) ?_
    (by decide)
  by_cases mark : q.head? = some '@'
  · cases q with
    | nil => cases mark
    | cons x v =>
      obtain rfl : x = '@' := by simpa using mark
      refine .seq_nil (.literal_some line ⟨v, rfl⟩) (.seq_fail ?_)
      refine shipped.stops_tag.one_none line.behind_char fun y first => ?_
      have empty := other v rfl
      cases v with
      | nil => cases first
      | cons z v =>
        obtain rfl : z = y := by simpa using first
        by_contra inside
        simp [List.takeWhile_cons, inside] at empty
  · exact .seq_fail (.char_none line (by decide) mark)

/-- A tag behind the indentation of a line. -/
theorem tag_indented (line : FirstLine c.rest q brk rest) (mark : q.unindent = '@' :: v)
    (present : v.takeWhile TagLine.isNameChar ≠ []) :
    ∃ d, Gives rules (.call "tag") (c.after (q.takeWhile isBlankChar))
        (some ([.mk "tag" ('@' :: v.takeWhile TagLine.isNameChar) c.line []], d)) ∧
      FirstLine d.rest (v.dropWhile TagLine.isNameChar) brk rest ∧ d.line = c.line ∧
      d.after (v.dropWhile TagLine.isNameChar ++ brk) = c.after (q ++ brk) := by
  have split := List.takeWhile_append_dropWhile (p := TagLine.isNameChar) (l := v)
  have behind := line.behind_indentation
  rw [mark] at behind
  have first := shipped.tag behind rfl present
  rw [← split, ← List.cons_append] at behind
  have sameLine := behind.line_after
  rw [line.line_after_indentation] at first sameLine
  refine ⟨_, first, behind.behind, sameLine, ?_⟩
  rw [Cursor.after_after, ← List.append_assoc, List.cons_append, split, c.after_unindent mark]

/-- The tags of a line, each behind blanks, up to the end of the line. -/
theorem tags_behind (line : FirstLine c.rest q brk rest) :
    GivesUpTo rules (.seq (.star (.seq (.call "sp") (.call "tag"))) (.call "line_end")) c
      (c.after (q ++ brk))
      ((TagLine.split? q).map fun tags => tags.map (.mk "tag" · c.line [])) := by
  -- Each tag makes what is left of the line shorter.
  induction size : q.length using Nat.strong_induction_on generalizing c q with
  | _ n ih =>
  subst size
  have fails (other : ∀ v, q.unindent = '@' :: v → v.takeWhile TagLine.isNameChar = []) :
      Gives rules (.seq (.call "sp") (.call "tag")) c none :=
    .seq_nil (shipped.sp line) (shipped.tag_none line.behind_indentation other)
  have ending := shipped.line_end_upTo line
  rw [← TagLine.split?_unindent]
  cases unindented : q.unindent with
  | nil =>
    simp only [unindented, if_true] at ending
    exact .star_seq_stop (fails (by simp [unindented])) ending
  | cons x v =>
    simp only [unindented, reduceCtorEq, if_false] at ending
    have visible := Text.isBlankChar_of_unindent unindented
    by_cases mark : x = '@'
    · subst mark
      rw [TagLine.split?_tag fun mem => line.not_mem_unindent unindented (by simp [mem])]
      split
      next empty =>
        refine .star_seq_stop (fails fun w same => ?_) ending
        cases unindented.symm.trans same
        exact empty
      next present =>
        obtain ⟨d, first, behind, sameLine, place⟩ := shipped.tag_indented line unindented present
        have shorter : (v.dropWhile TagLine.isNameChar).length < q.length := by
          have parts := congrArg List.length q.indentation_append_unindent
          have fewer := (List.dropWhile_suffix TagLine.isNameChar (l := v)).length_le
          simp only [unindented, List.length_append, List.length_cons] at parts
          omega
        have joined :=
          GivesUpTo.star_seq_step (.seq_nil (shipped.sp line) first) (ih _ shorter behind rfl)
        rw [place, sameLine] at joined
        cases found : TagLine.split? (v.dropWhile TagLine.isNameChar) <;> simpa [found] using joined
    · rw [TagLine.split?_other (by simp [TagLine.isNameChar, visible, mark])]
      refine .star_seq_stop (fails fun w same => ?_) ending
      exact absurd (List.cons.inj (unindented.symm.trans same)).1 mark

theorem tag_line (line : FirstLine c.rest q brk rest) (mark : q.unindent = '@' :: v) :
    GivesUpTo rules (.call "tag_line") c (c.after (q ++ brk))
      ((TagLine.split? ('@' :: v)).map fun tags => tags.map (.mk "tag" · c.line [])) := by
  refine shipped.silent_upTo "tag_line" (.seq (.call "sp") (.seq (.call "tag")
    (.seq (.star (.seq (.call "sp") (.call "tag"))) (.call "line_end")))) ?_ (by decide)
  refine .seq_nil (shipped.sp line) ?_
  rw [TagLine.split?_tag fun mem => line.not_mem_unindent mark (by simp [mem])]
  split
  next empty =>
    refine Gives.seq_fail (shipped.tag_none line.behind_indentation fun w same => ?_)
    cases mark.symm.trans same
    exact empty
  next present =>
    obtain ⟨d, first, behind, sameLine, place⟩ := shipped.tag_indented line mark present
    have joined := GivesUpTo.seq first (shipped.tags_behind behind)
    rw [place, sameLine] at joined
    cases found : TagLine.split? (v.dropWhile TagLine.isNameChar) <;> simpa [found] using joined

theorem tag_line_none (line : FirstLine c.rest q brk rest) (other : q.unindent.head? ≠ some '@') :
    Gives rules (.call "tag_line") c none := by
  refine shipped.silent "tag_line" (.seq (.call "sp") (.seq (.call "tag")
    (.seq (.star (.seq (.call "sp") (.call "tag"))) (.call "line_end")))) ?_ (by decide)
  refine .seq_nil (shipped.sp line) (.seq_fail ?_)
  refine shipped.tag_none line.behind_indentation fun w same => ?_
  exact absurd (congrArg List.head? same) other

/-! ### Rows -/

theorem stops_cell : Stops rules cellStop (fun x => x ≠ '|') := by
  have stops := shipped.stops_nl.char (x := '|') (by decide)
  simp only [Bool.and_true] at stops
  exact stops

theorem cell (line : FirstLine c.rest (q ++ v) brk rest) (whole : (q ++ v).takeWhile (· ≠ '|') = q) :
    Gives rules (.call "cell") c (some ([.mk "cell" q c.line []], c.after q)) := by
  have search := shipped.stops_cell.search line
  rw [whole] at search
  exact shipped.atomic "cell" _ search line (by decide)

/-- A cell with the pipe behind it. -/
theorem cell_closed (line : FirstLine c.rest (q ++ '|' :: v) brk rest) (plain : '|' ∉ q) :
    Gives rules (.seq (.call "cell") (.literal ['|'])) c
      (some ([.mk "cell" q c.line []], c.after (q ++ ['|']))) := by
  have whole : (q ++ '|' :: v).takeWhile (· ≠ '|') = q := by
    rw [List.takeWhile_append_of_pos fun x mem => by simpa using ne_of_mem_of_not_mem mem plain]
    simp
  have joined := Gives.seq (shipped.cell line whole) (.literal_some line.behind (w := ['|']) ⟨v, rfl⟩)
  simpa using joined

/-- Behind the last pipe of a line there is no further cell. -/
theorem cell_open (line : FirstLine c.rest q brk rest) (plain : '|' ∉ q) :
    Gives rules (.seq (.call "cell") (.literal ['|'])) c none := by
  have line : FirstLine c.rest (q ++ []) brk rest := by rwa [List.append_nil]
  have whole : (q ++ []).takeWhile (· ≠ '|') = q := by
    rw [List.append_nil, List.takeWhile_eq_self_iff]
    exact fun x mem => by simpa using ne_of_mem_of_not_mem mem plain
  exact .seq (shipped.cell line whole) (.char_none line.behind (by decide) (by simp))

/-- The cells of a line, each with the pipe behind it, up to the end of the line. -/
theorem cells_behind (line : FirstLine c.rest q brk rest) :
    GivesUpTo rules (.seq (.star (.seq (.call "cell") (.literal ['|']))) (.call "line_end")) c
      (c.after (q ++ brk))
      ((TableRow.cellsBehind? q).map fun cells => cells.map (.mk "cell" · c.line [])) := by
  -- Each pipe makes what is left of the line shorter.
  induction size : q.length using Nat.strong_induction_on generalizing c q with
  | _ n ih =>
  subst size
  by_cases pipe : '|' ∈ q
  · obtain ⟨w, v, rfl, plain⟩ := List.eq_append_cons_of_mem pipe
    have unbroken : '\n' ∉ w := fun mem => line.not_mem_line (by simp [mem])
    have line' : FirstLine c.rest ((w ++ ['|']) ++ v) brk rest := by simpa using line
    have others := ih v.length (by simp; omega) line'.behind rfl
    have joined := GivesUpTo.star_seq_step (shipped.cell_closed line plain) others
    rw [line'.line_after, Cursor.after_after] at joined
    rw [TableRow.cellsBehind?_cell unbroken plain]
    cases found : TableRow.cellsBehind? v <;> simpa [found] using joined
  · rw [TableRow.cellsBehind?_last line.not_mem_line pipe]
    have ending := GivesUpTo.star_seq_stop (shipped.cell_open line pipe) (shipped.line_end_upTo line)
    split at ending
    next blank => simpa [blank] using ending
    next more => simpa [more] using ending

/-- The cells of a row behind its first pipe; there has to be one. -/
theorem cells (line : FirstLine c.rest v brk rest) :
    GivesUpTo rules (.seq (.seq (.seq (.call "cell") (.literal ['|']))
        (.star (.seq (.call "cell") (.literal ['|'])))) (.call "line_end")) c (c.after (v ++ brk))
      (((TableRow.cellsBehind? v).filter (· ≠ [])).map fun cells =>
        cells.map (.mk "cell" · c.line [])) := by
  by_cases pipe : '|' ∈ v
  · obtain ⟨w, t, rfl, plain⟩ := List.eq_append_cons_of_mem pipe
    have unbroken : '\n' ∉ w := fun mem => line.not_mem_line (by simp [mem])
    have line' : FirstLine c.rest ((w ++ ['|']) ++ t) brk rest := by simpa using line
    have joined := GivesUpTo.seq (shipped.cell_closed line plain) (shipped.cells_behind line'.behind)
    rw [line'.line_after, Cursor.after_after] at joined
    rw [TableRow.cellsBehind?_cell unbroken plain]
    cases found : TableRow.cellsBehind? t with
    | none =>
      rw [found] at joined
      exact .seq_assoc joined
    | some cells =>
      rw [found] at joined
      obtain ⟨ends, atEnd, gives⟩ := joined
      exact ⟨ends, atEnd, by simpa using Gives.seq_assoc gives⟩
  · rw [TableRow.cellsBehind?_last line.not_mem_line pipe]
    have nothing : (if v.unindent = [] then some [] else none).filter (· ≠ ([] : List Text)) = none := by
      split <;> simp
    rw [nothing]
    exact Gives.seq_fail (.seq_fail (shipped.cell_open line pipe))

theorem table_row (line : FirstLine c.rest q brk rest) (mark : q.unindent = '|' :: v) :
    match TableRow.split? ('|' :: v) with
    | none => Gives rules (.call "table_row") c none
    | some cells => ∃ text children, Node.cells children = cells ∧
        Gives rules (.call "table_row") c
          (some ([.mk "table_row" text c.line children], c.after (q ++ brk))) := by
  have behind := line.behind_indentation
  rw [mark] at behind
  have row := shipped.fixed ⟨"table_row", .normal, .seq (.call "sp") (.seq (.literal ['|'])
    (.seq (.seq (.seq (.call "cell") (.literal ['|']))
      (.star (.seq (.call "cell") (.literal ['|'])))) (.call "line_end")))⟩ (by decide)
  have pipe : Gives rules (.literal ['|']) _ _ := .literal_some behind ⟨v, rfl⟩
  have cells := shipped.cells behind.behind_char
  have place := c.after_unindent mark brk
  rw [List.cons_append, ← List.singleton_append, ← Cursor.after_after] at place
  rw [place] at cells
  rw [TableRow.split?_pipe]
  cases found : TableRow.cellsBehind? v with
  | none =>
    rw [found] at cells
    exact .normal row (.seq_nil (shipped.sp line) (.seq_nil pipe cells))
  | some read =>
    rw [found] at cells
    cases read with
    | nil => exact .normal row (.seq_nil (shipped.sp line) (.seq_nil pipe cells))
    | cons first others =>
      obtain ⟨ends, atEnd, gives⟩ := cells
      exact ⟨_, _, Node.cells_append_ends _ _ atEnd,
        .normal row (.seq_nil (shipped.sp line) (.seq_nil pipe gives))⟩

theorem table_row_none (line : FirstLine c.rest q brk rest) (other : q.unindent.head? ≠ some '|') :
    Gives rules (.call "table_row") c none := by
  have row := shipped.fixed ⟨"table_row", .normal, .seq (.call "sp") (.seq (.literal ['|'])
    (.seq (.seq (.seq (.call "cell") (.literal ['|']))
      (.star (.seq (.call "cell") (.literal ['|'])))) (.call "line_end")))⟩ (by decide)
  exact .normal row (.seq_nil (shipped.sp line)
    (.seq_fail (.char_none line.behind_indentation (by decide) other)))

end Shipped

end Rules

end FeatureFile
