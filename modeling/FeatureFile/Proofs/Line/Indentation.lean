import FeatureFile.Proofs.Agreement.Backends
import FeatureFile.Proofs.Line.WellFormed
import FeatureFile.Proofs.Text.Indented
/-!
The indentation of a whole document does not matter to the line reader. What a line is shows behind its
indentation, descriptions are kept without theirs, and a doc string is dedented by as much as its fence
has been indented. Between two lines only what is open differs: it has the indented lines.
-/

namespace FeatureFile

open Text (indentLines)

/-! ### A line behind further blanks -/

section

variable {w : Text} (blank : ∀ c ∈ w, Text.isBlankChar c = true)
include blank

theorem Text.indentation_behind (raw : Text) :
    indentation (w ++ raw) = w.length + raw.indentation := by
  rw [indentation, List.takeWhile_append_of_pos blank, List.length_append, indentation]

theorem Text.trim_behind (raw : Text) : trim (w ++ raw) = raw.trim := by
  rw [← trim_unindent, unindent_append blank, trim_unindent]

theorem fence?_behind (raw : Text) : fence? (w ++ raw) = fence? raw := by
  rw [fence?, Text.unindent_append blank, fence?]

theorem Vocabulary.kind_behind (v : Vocabulary) (raw : Text) : v.kind (w ++ raw) = v.kind raw := by
  rw [kind, Text.unindent_append blank, fence?_behind blank, kind]

/-! ### Blocks of lines behind further blanks -/

theorem dedentLine_behind (indent : Nat) (line : Text) :
    dedentLine (w.length + indent) (w ++ line) = dedentLine indent line := by
  induction w with
  | nil => simp
  | cons c w ih =>
    obtain ⟨first, others⟩ := List.forall_mem_cons.mp blank
    have white := Text.isWhitespace_of_isBlankChar first
    rw [List.length_cons, Nat.add_right_comm, List.cons_append, dedentLine, if_pos white, ih others]

theorem dedent_behind (indent : Nat) (lines : List Text) :
    dedent (lines.map (w ++ ·)) (w.length + indent) = dedent lines indent := by
  rw [dedent, List.map_map, dedent]
  congr 2
  funext line
  exact dedentLine_behind blank indent line

theorem normalizeDescription_behind {raws : List Text} (unbroken : ∀ l ∈ raws, '\n' ∉ l) :
    normalizeDescription (Text.joinLines (raws.map (w ++ ·))) =
      normalizeDescription (Text.joinLines raws) := by
  have unbroken' : ∀ l ∈ raws.map (w ++ ·), '\n' ∉ l := by
    refine List.forall_mem_map.mpr fun l member feed => ?_
    rcases List.mem_append.mp feed with front | inside
    · exact absurd (blank _ front) (by decide)
    · exact unbroken l member inside
  rw [normalizeDescription_joinLines unbroken', normalizeDescription_joinLines unbroken,
    List.map_map]
  congr 3
  funext line
  exact Text.trim_behind blank line

end

namespace LineState

/-- What is open if every line so far has been indented. -/
def indented (w : Text) : LineState → LineState
  | idle => idle
  | header pending => header { pending with description := pending.description.map (w ++ ·) }
  | docString block =>
    docString { block with indent := w.length + block.indent, lines := block.lines.map (w ++ ·) }

/-- An open description is made of lines. -/
def Unbroken : LineState → Prop
  | header pending => ∀ l ∈ pending.description, '\n' ∉ l
  | idle | docString _ => True

variable {v : Vocabulary} {state : LineState} {n : Nat} {raw : Text}

/-- A line leaves open what is made of lines. -/
theorem unbroken_step (open_ : state.Unbroken) (unbroken : '\n' ∉ raw) {next : LineState}
    (moves : (state.step v n raw).2 = .ok next) : next.Unbroken := by
  have extended : (state.blank raw).Unbroken := by
    cases state with
    | header pending =>
      exact List.forall_mem_append.mpr ⟨open_, List.forall_mem_singleton.mpr unbroken⟩
    | idle | docString => trivial
  have outside (kind : LineKind) (moves : (state.outside n raw kind).2 = .ok next) :
      next.Unbroken := by
    have does := outside_cases state n raw kind
    generalize state.outside n raw kind = moved at does moves
    cases does with
    | gathered => cases moves; exact extended
    | reported => cases moves; trivial
    | opened own =>
      cases moves
      cases own with
      | docString => trivial
      | header => exact nofun
    | refused => cases moves
  cases state with
  | docString block =>
    simp only [step, inside] at moves
    split at moves <;> cases moves <;> trivial
  | idle | header => exact outside _ moves

section

variable {w : Text} (blank : ∀ c ∈ w, Text.isBlankChar c = true)
include blank

theorem flush_indented (open_ : state.Unbroken) :
    (state.indented w).flush.map Event.normal = state.flush.map Event.normal := by
  cases state with
  | header pending =>
    have same := normalizeDescription_behind blank open_
    simp [indented, flush, PendingHeader.event, Event.normal, Header.normal, same]
  | idle | docString => rfl

/-- A line inside a doc string that is indented as far as its fence. -/
private theorem inside_indented (block : OpenDocString) (n : Nat) (raw : Text) :
    inside { block with indent := w.length + block.indent, lines := block.lines.map (w ++ ·) } n
        (w ++ raw) =
      ((inside block n raw).1, (inside block n raw).2.map (indented w)) := by
  simp only [inside, fence?_behind blank]
  split
  · simp [Except.map, indented, OpenDocString.extend]
  · simp [Except.map, indented, OpenDocString.event, dedent_behind blank]
  · rfl

/-- A line outside of doc strings. -/
private theorem outside_indented (open_ : state.Unbroken) (n : Nat) (raw : Text) (kind : LineKind) :
    ((state.indented w).outside n (w ++ raw) kind).1.map Event.normal =
        (state.outside n raw kind).1.map Event.normal ∧
      ((state.indented w).outside n (w ++ raw) kind).2 =
        (state.outside n raw kind).2.map (indented w) := by
  have flushed := flush_indented blank open_
  have extended : (state.indented w).blank (w ++ raw) = (state.blank raw).indented w := by
    cases state <;> simp [indented, LineState.blank, PendingHeader.extend]
  cases kind with
  | blank => exact ⟨rfl, congrArg Except.ok extended⟩
  | comment | step => exact ⟨by simp [LineState.outside, flushed], rfl⟩
  | header => exact ⟨flushed, rfl⟩
  | tags | row =>
    simp only [LineState.outside]
    split
    · exact ⟨by simp [flushed], rfl⟩
    · exact ⟨flushed, rfl⟩
  | fence bare =>
    cases bare with
    | true =>
      refine ⟨flushed, ?_⟩
      simp [LineState.outside, Except.map, indented, Text.indentation_behind blank]
    | false => exact ⟨flushed, rfl⟩
  | other =>
    cases state with
    | header => exact ⟨rfl, congrArg Except.ok extended⟩
    | idle | docString => exact ⟨rfl, rfl⟩

/-- An indented line does the same, if what is open is indented as well. -/
theorem step_indented (open_ : state.Unbroken) (n : Nat) (raw : Text) :
    ((state.indented w).step v n (w ++ raw)).1.map Event.normal =
        (state.step v n raw).1.map Event.normal ∧
      ((state.indented w).step v n (w ++ raw)).2 = (state.step v n raw).2.map (indented w) := by
  cases state with
  | docString block =>
    simp only [step, indented]
    rw [inside_indented blank]
    exact ⟨rfl, rfl⟩
  | idle | header =>
    simp only [step, indented, v.kind_behind blank]
    exact outside_indented blank open_ n raw _

theorem finish_indented (open_ : state.Unbroken) (n : Nat) :
    ((state.indented w).finish n).normal = (state.finish n).normal := by
  have flushed := flush_indented blank open_
  cases state with
  | docString block => rfl
  | idle => rfl
  | header pending =>
    refine Prod.ext ?_ rfl
    change ((indented w (header pending)).flush ++ [Event.endOfInput n]).map Event.normal =
      ((header pending).flush ++ [Event.endOfInput n]).map Event.normal
    rw [List.map_append, List.map_append, flushed]

/-- So do the lines of a whole document. -/
theorem readFrom_indented {raws : List Text} (unbroken : ∀ raw ∈ raws, '\n' ∉ raw)
    (open_ : state.Unbroken) (n : Nat) :
    ((state.indented w).readFrom v n (raws.map (w ++ ·))).normal =
      (state.readFrom v n raws).normal := by
  induction raws generalizing state n with
  | nil => exact finish_indented blank open_ n
  | cons raw raws ih =>
    obtain ⟨first, others⟩ := List.forall_mem_cons.mp unbroken
    obtain ⟨reported, behind⟩ := step_indented (v := v) blank open_ n raw
    rcases moved : (state.indented w).step v n (w ++ raw) with ⟨events', result⟩
    rw [moved] at reported behind
    rw [List.map_cons]
    rcases moves : state.step v n raw with ⟨events, fault | next⟩
    · rw [moves] at reported behind
      obtain rfl : result = .error fault := behind
      rw [readFrom_error moved, readFrom_error moves]
      exact Prod.ext reported rfl
    · rw [moves] at reported behind
      obtain rfl : result = .ok (next.indented w) := behind
      have onward := ih others (unbroken_step open_ first (congrArg Prod.snd moves)) (n + 1)
      rw [readFrom_ok moved, readFrom_ok moves, Reading.normal_behind, Reading.normal_behind, reported,
        onward]

end

end LineState

/-- By the line reader a document means the same with any indentation in front of all its lines: the tree
is the same with every description, doc string and line number, or the fault is. -/
theorem Language.parseWith_indentLines (language : Language) {w : Text}
    (blank : ∀ c ∈ w, c = ' ' ∨ c = '\t') (template source : Text) (path : String)
    (filter : Filter) :
    language.parseWith template .lines (indentLines w source) path filter =
      language.parseWith template .lines source path filter := by
  have blank' : ∀ c ∈ w, Text.isBlankChar c = true := fun c member => by
    simpa [Text.isBlankChar] using blank c member
  have plain : Text.Unbroken w := fun c member => by
    rcases blank c member with rfl | rfl <;> decide
  have unbroken : ∀ raw ∈ source.lines, '\n' ∉ raw := fun _ => Text.not_mem_of_mem_lines
  have same : (LineState.idle.readFrom (Vocabulary.ofLanguage language) 1
      (source.lines.map (w ++ ·))).normal = ((Vocabulary.ofLanguage language).read source).normal :=
    LineState.readFrom_indented blank' unbroken (show LineState.idle.Unbroken from trivial) 1
  have tree : ((Vocabulary.ofLanguage language).read (indentLines w source)).tree =
      ((Vocabulary.ofLanguage language).read source).tree := by
    refine Reading.tree_congr ?_
    rw [Vocabulary.read, Text.lines_indentLines plain]
    exact same
  simp only [parseWith, parseLines_eq, tree]

/-- A document with a description and a doc string, a blank line in each, and one with a fault. -/
theorem Language.parseWith_indentLines_docString :
    let w := ['\t', ' ']
    let source := ("# c\nFeature: f\n\n  free\r\n text\n  Scenario: s\n    Given x\n" ++
      "    \"\"\"\n      a\n\n    b\n    \"\"\"\n").toList
    let faulty := "Feature: f\n  text\n  | a\n".toList
    (∀ c ∈ w, c = ' ' ∨ c = '\t') ∧
      indentLines w faulty = "\t Feature: f\n\t   text\n\t   | a\n".toList ∧
      brief.parseWith Template.shipped .lines (indentLines w source) "f" .empty =
        .ok (some ⟨some "en", [⟨"# c".toList, 1⟩], [], "Feature".toList, ['f'], "free\ntext".toList, 2,
          none, [.scenario ⟨[], [], "Scenario".toList, ['s'], [], 6,
            [⟨"Given ".toList, ['x'], 7, some (.docString ⟨"  a\n\nb".toList, 8⟩)⟩]⟩]⟩) ∧
      brief.parseWith Template.shipped .lines (indentLines w faulty) "f" .empty =
        .error (.document (.atLine "f" 3 Cause.openRow.message)) := by
  intro w source faulty
  have blank : ∀ c ∈ w, c = ' ' ∨ c = '\t' := by simp [w]
  refine ⟨blank, by decide +kernel, ?_, ?_⟩
  · rw [brief.parseWith_indentLines blank]
    decide +kernel
  · rw [brief.parseWith_indentLines blank]
    decide +kernel

end FeatureFile
