import FeatureFile.Proofs.Line.Reading
import FeatureFile.Proofs.Agreement.Blocks
import FeatureFile.Proofs.Document.Layout
import FeatureFile.Proofs.Document.Normal
/-!
The line reader goes through a document block by block. What it reports for a block are the events of
the block, up to the layout of descriptions; where no block begins it stops with a fault.
-/

namespace FeatureFile

open Text (FirstLine)

namespace Reading

/-- The events in normal form, and the fault. -/
def normal (reading : Reading) : List Event × Option Fault :=
  (reading.events.map Event.normal, reading.fault)

theorem normal_behind (events : List Event) (reading : Reading) :
    (reading.behind events).normal =
      (events.map Event.normal ++ reading.normal.1, reading.normal.2) := by
  simp [normal, behind]

end Reading

variable {v : Vocabulary} {c d : Cursor} {q brk rest : Text} {raws : List Text}

theorem lines_eq_cons (line : FirstLine c.rest q brk rest) (some : q ++ brk ≠ []) :
    c.rest.lines = q :: (c.after (q ++ brk)).rest.lines := by
  rw [line.rest_after]
  refine line.lines_eq fun nothing => some ?_
  obtain ⟨rfl, rfl⟩ := line.eq_nil_iff.mp nothing
  rfl

namespace Cursor.Run

theorem lines_eq {P : Text → Text → Prop} (run : Cursor.Run P c raws d)
    (progresses : Cursor.Progresses P) : c.rest.lines = raws ++ d.rest.lines := by
  induction run with
  | stop => rfl
  | line line holds _ ih => rw [lines_eq_cons line (progresses _ _ holds), ih, List.cons_append]

theorem forall_mem {P : Text → Text → Prop} (run : Cursor.Run P c raws d) :
    ∀ l ∈ raws, ∃ brk, P l brk := by
  induction run with
  | stop => simp
  | line _ holds _ ih => exact List.forall_mem_cons.mpr ⟨⟨_, holds⟩, ih⟩

end Cursor.Run

namespace LineState

/-! ### Descriptions -/

/-- A header gathers the lines of its description. -/
theorem readFrom_description (pending : PendingHeader) (run : Cursor.Run v.Free c raws d) (n : Nat) :
    (header pending).readFrom v n c.rest.lines =
      (header { pending with description := pending.description ++ raws }).readFrom v (n + raws.length)
        d.rest.lines := by
  rw [run.lines_eq v.progresses_free]
  refine readFrom_header_text pending (fun l member => ?_) n _
  obtain ⟨_, ⟨kind, _⟩ | ⟨text, kind⟩⟩ := run.forall_mem l member <;> rw [kind] <;> rfl

/-- Where a description ends, the header is reported, and reading goes on as if none were open. -/
theorem readFrom_flush (pending : PendingHeader) (line : FirstLine c.rest q brk rest)
    (closed : ¬ v.Free q brk) (unbroken : ∀ l ∈ pending.description, '\n' ∉ l) (n : Nat) :
    ((header pending).readFrom v n c.rest.lines).normal =
      ((idle.readFrom v n c.rest.lines).behind [pending.event]).normal := by
  by_cases atEnd : c.rest = []
  · rw [atEnd]
    rfl
  · have split := line.lines_eq atEnd
    rw [split]
    by_cases blank : v.kind q = .blank
    · -- A blank line that is not free is the last one, and a blank end does not matter.
      have last : brk = [] := by
        by_contra ends
        exact closed (.inl ⟨blank, ends⟩)
      have nothing : rest = [] := by
        rcases line.brk_cases with ⟨_, nothing⟩ | ends | ends
        · exact nothing
        all_goals exact absurd (last.symm.trans ends) (by simp)
      have decided := v.decided q
      rw [blank] at decided
      cases decided with
      | blank empty =>
        have whole : ∀ l ∈ pending.description ++ [q], '\n' ∉ l := by
          intro l mem
          rcases List.mem_append.mp mem with mem | mem
          · exact unbroken l mem
          · rw [List.mem_singleton.mp mem]
            exact line.not_mem_line
        have same := normalizeDescription_concat whole empty
        subst nothing
        simp [readFrom, LineState.step, blank, outside, LineState.blank, finish, flush, Reading.normal,
          Reading.behind, PendingHeader.event, PendingHeader.extend, Event.normal, Header.normal, same,
          Text.lines]
    · refine congrArg Reading.normal (readFrom_header_closed pending (fun l first => ?_) n)
      obtain rfl : q = l := by simpa using first
      cases kind : v.kind q with
      | blank => exact absurd kind blank
      | other text => exact absurd (.inr ⟨text, kind⟩) closed
      | _ => rfl

/-! ### Doc strings -/

/-- An open doc string gathers its lines. -/
theorem readFrom_unfenced (block : OpenDocString) (run : Cursor.Run Unfenced c raws d) (n : Nat) :
    (docString block).readFrom v n c.rest.lines =
      (docString { block with lines := block.lines ++ raws }).readFrom v (n + raws.length)
        d.rest.lines := by
  rw [run.lines_eq progresses_unfenced]
  refine readFrom_docString_body block (fun l member => ?_) n _
  obtain ⟨_, unfenced, _⟩ := run.forall_mem l member
  exact unfenced

end LineState

/-! ### Blocks -/

section

open LineState

variable {n : Nat}

/-- A reading of the lines from a place on continues another one after these events. -/
def Continues (v : Vocabulary) (c : Cursor) (n : Nat) (events : List Event) (d : Cursor) : Prop :=
  ∃ m, (d.rest ≠ [] → d.line = m) ∧ m + d.rest.lines.length = n + c.rest.lines.length ∧
    (idle.readFrom v n c.rest.lines).normal = ((idle.readFrom v m d.rest.lines).behind events).normal

private theorem continues_line (line : FirstLine c.rest q brk rest) (some : q ++ brk ≠ [])
    (number : c.line = n) {events : List Event} (step : idle.step v n q = (events, .ok idle)) :
    Continues v c n events (c.after (q ++ brk)) := by
  refine ⟨n + 1, fun more => ?_, ?_, ?_⟩
  · rw [line.rest_after] at more
    rw [line.line_next more, number]
  · rw [lines_eq_cons line some, List.length_cons]
    omega
  · rw [lines_eq_cons line some, readFrom_ok step]

/-- The line behind a first line and a run of lines. -/
private theorem number_behind {P : Text → Text → Prop} (line : FirstLine c.rest q brk rest)
    (run : Cursor.Run P (c.after (q ++ brk)) raws d) (progresses : Cursor.Progresses P)
    (more : d.rest ≠ []) : d.line = c.line + 1 + raws.length := by
  obtain ⟨w, split, _⟩ := run.text progresses
  rw [line.rest_after] at split
  have next : rest ≠ [] := by simp_all
  rw [run.line_eq progresses more, line.line_next next]

theorem NextBlock.continues {b : Block} (next : NextBlock v c b d) (number : c.rest ≠ [] → c.line = n) :
    Continues v c n b.events d := by
  have number : c.line = n := number fun nothing => by
    have shorter := next.length_lt
    simp [nothing] at shorter
  have visible {q brk : Text} {kind : LineKind} (found : v.kind q = kind) (other : kind ≠ .blank) :
      q ++ brk ≠ [] := by
    have present : q ≠ [] := Vocabulary.ne_nil_of_kind (by rwa [found])
    simp [present]
  subst number
  -- A block of one line is one step of the reader. A header and a doc string open something, gather
  -- a run of lines in it, and are reported by the line that ends the run.
  cases next with
  | blank line kind ends =>
    exact continues_line line (by simp [ends]) rfl
      (by simp [LineState.step, kind, outside, LineState.blank, Block.events])
  | comment line kind | step line kind =>
    exact continues_line line (visible kind (by simp)) rfl
      (by simp [LineState.step, kind, outside, flush, Block.events])
  | tags line kind found | row line kind found =>
    exact continues_line line (visible kind (by simp)) rfl
      (by simp [LineState.step, kind, outside, found, flush, Block.events])
  | @header _ q brk rest k name kind raws line found run =>
    have some : q ++ brk ≠ [] := visible found (by simp)
    have step : idle.step v c.line q = ([], .ok (.header ⟨kind, k, name, c.line, []⟩)) := by
      simp [LineState.step, found, outside, flush]
    obtain ⟨q', brk', rest', stops, closed⟩ := run.stopped
    refine ⟨c.line + 1 + raws.length, number_behind line run v.progresses_free, ?_, ?_⟩
    · rw [lines_eq_cons line some, run.lines_eq v.progresses_free]
      simp only [List.length_cons, List.length_append]
      omega
    · rw [lines_eq_cons line some, readFrom_ok step, readFrom_description _ run]
      have flushed := readFrom_flush ⟨kind, k, name, c.line, raws⟩ stops closed run.not_mem
        (c.line + 1 + raws.length)
      simpa [Reading.behind, PendingHeader.event, Block.events] using flushed
  | @docString _ q brk rest q' brk' rest' raws line kind ends run closing closes =>
    have some : q ++ brk ≠ [] := visible kind (by simp)
    have opens : idle.step v c.line q = ([], .ok (.docString ⟨q.indentation, c.line, []⟩)) := by
      simp [LineState.step, kind, outside, flush]
    have closed : (LineState.docString ⟨q.indentation, c.line, raws⟩).step v
        (c.line + 1 + raws.length) q' =
          ([.docString (dedent raws q.indentation) c.line], .ok idle) := by
      simp [LineState.step, inside, closes, OpenDocString.event]
    have last : q' ++ brk' ≠ [] := by
      intro nothing
      obtain ⟨rfl, -⟩ := List.append_eq_nil_iff.mp nothing
      cases closes
    refine ⟨c.line + 1 + raws.length + 1, fun more => ?_, ?_, ?_⟩
    · rw [closing.rest_after] at more
      have before : Cursor.rest _ ≠ [] := fun nothing => last (by
        obtain ⟨rfl, rfl⟩ := closing.eq_nil_iff.mp nothing
        rfl)
      rw [closing.line_next more, number_behind line run progresses_unfenced before]
    · rw [lines_eq_cons line some, run.lines_eq progresses_unfenced, lines_eq_cons closing last]
      simp only [List.length_cons, List.length_append]
      omega
    · rw [lines_eq_cons line some, readFrom_ok opens, readFrom_unfenced _ run,
        lines_eq_cons closing last]
      simp only [List.nil_append]
      rw [readFrom_ok closed]
      rfl

/-- A doc string that is not closed by a bare fence is a fault. -/
private theorem fault_of_unclosed {block : OpenDocString} (line : FirstLine c.rest q brk rest)
    (stops : ¬ Unfenced q brk) (unclosed : fence? q ≠ some true) :
    ((docString block).readFrom v n c.rest.lines).fault ≠ none := by
  by_cases atEnd : c.rest = []
  · simp [atEnd, Text.lines, readFrom, finish]
  · rw [line.lines_eq atEnd]
    cases fenced : fence? q with
    | none =>
      have last : brk = [] := by
        by_contra ends
        exact stops ⟨fenced, ends⟩
      have nothing : rest = [] := by
        rcases line.brk_cases with ⟨_, nothing⟩ | ends | ends
        · exact nothing
        all_goals exact absurd (last.symm.trans ends) (by simp)
      simp [nothing, Text.lines, readFrom, LineState.step, inside, fenced, finish]
    | some bare =>
      cases bare with
      | true => exact absurd fenced unclosed
      | false => simp [readFrom, LineState.step, inside, fenced]

/-- Where no block begins, reading stops with a fault. -/
theorem fault_of_stuck (line : FirstLine c.rest q brk rest) (more : v.kind q = .blank → brk ≠ [])
    (stuck : ∀ b d, ¬ NextBlock v c b d) (n : Nat) :
    (idle.readFrom v n c.rest.lines).fault ≠ none := by
  have some : q ++ brk ≠ [] := by
    intro nothing
    obtain ⟨rfl, rfl⟩ := List.append_eq_nil_iff.mp nothing
    exact more rfl rfl
  have refused (step : ∃ fault, (idle.step v n q).2 = .error fault) :
      (idle.readFrom v n c.rest.lines).fault ≠ none := by
    obtain ⟨fault, step⟩ := step
    rw [lines_eq_cons line some, readFrom_error (Prod.ext rfl step)]
    simp
  -- A line begins a block or is refused at once, apart from a fence: it is refused if none ends it.
  cases kind : v.kind q with
  | blank => exact absurd (.blank line kind (more kind)) (stuck _ _)
  | comment text => exact absurd (.comment line kind) (stuck _ _)
  | step k name => exact absurd (.step line kind) (stuck _ _)
  | tags text =>
    have decided := v.decided q
    rw [kind] at decided
    cases decided with
    | @tags w mark =>
      have unbroken := line.not_mem_unindent mark
      simp only [List.mem_cons, not_or] at unbroken
      cases found : TagLine.split? ('@' :: w) with
      | none => exact refused (by simp [LineState.step, kind, outside, found])
      | some tags =>
        cases tags with
        | nil => exact absurd found (TagLine.split?_ne_nil unbroken.2)
        | cons first others => exact absurd (.tags line kind found) (stuck _ _)
  | row text =>
    cases found : TableRow.split? text with
    | none => exact refused (by simp [LineState.step, kind, outside, found])
    | some cells => exact absurd (.row line kind found) (stuck _ _)
  | header kind' k name =>
    obtain ⟨raws, d, run⟩ := Cursor.exists_run v.progresses_free (c.after (q ++ brk))
    exact absurd (.header line kind run) (stuck _ _)
  | other text => exact refused (by simp [LineState.step, kind, outside])
  | fence bare =>
    cases bare with
    | false => exact refused (by simp [LineState.step, kind, outside])
    | true =>
      have opens : idle.step v n q = ([], .ok (.docString ⟨q.indentation, n, []⟩)) := by
        simp [LineState.step, kind, outside, flush]
      rw [lines_eq_cons line some, readFrom_ok opens]
      obtain ⟨raws, d, run⟩ := Cursor.exists_run progresses_unfenced (c.after (q ++ brk))
      obtain ⟨q', brk', rest', closing, stops⟩ := run.stopped
      rw [readFrom_unfenced _ run]
      refine fault_of_unclosed closing stops fun closes => ?_
      by_cases ends : brk = []
      · -- Behind the end of the text there is no fence.
        obtain ⟨w, split, _⟩ := run.text progresses_unfenced
        have atEnd : rest = [] := by
          rcases line.brk_cases with ⟨_, atEnd⟩ | feed | feed
          · exact atEnd
          all_goals exact absurd (ends.symm.trans feed) (by simp)
        rw [line.rest_after, atEnd] at split
        have nothing : d.rest = [] := (List.append_eq_nil_iff.mp split.symm).2
        obtain ⟨rfl, -⟩ := closing.eq_nil_iff.mp nothing
        cases closes
      · exact stuck _ _ (.docString line kind ends run closing closes)

/-- What the line reader reports from a place on: the events of the blocks and the end of the document,
or a fault where the blocks end before the text does. -/
theorem Blocks.read {bs : List Block} {complete : Bool} (blocks : Blocks v c bs complete)
    (number : c.rest ≠ [] → c.line = n) :
    if complete then
      (idle.readFrom v n c.rest.lines).normal =
        ((bs.flatMap Block.events ++ [Event.endOfInput (n + c.rest.lines.length)]).map Event.normal,
          none)
    else (idle.readFrom v n c.rest.lines).fault ≠ none := by
  induction blocks generalizing n with
  | @atEnd c q rest line kind =>
    by_cases nothing : c.rest = []
    · simp [nothing, Text.lines, readFrom, finish, flush, Reading.normal]
    · have last : rest = [] := by
        rcases line.brk_cases with ⟨_, last⟩ | feed | feed
        · exact last
        all_goals cases feed
      simp [line.lines_eq nothing, last, Text.lines, readFrom, LineState.step, kind, outside,
        LineState.blank, finish, flush, Reading.normal]
  | @block c d b bs complete next _ ih =>
    obtain ⟨m, number', total, same⟩ := next.continues number
    have others := ih number'
    rw [total] at others
    rw [Reading.normal_behind] at same
    cases complete with
    | true =>
      simp only [if_true] at others ⊢
      rw [same, others]
      simp
    | false =>
      simp only [Bool.false_eq_true, if_false] at others ⊢
      rwa [show (idle.readFrom v n c.rest.lines).fault = _ from congrArg Prod.snd same]
  | stuck line more stuck => exact fault_of_stuck line more stuck n

end

end FeatureFile
