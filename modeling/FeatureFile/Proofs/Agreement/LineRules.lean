import FeatureFile.Proofs.Grammar.Compiled
import FeatureFile.Proofs.Text.Lines
import FeatureFile.Proofs.Text.Trim
import FeatureFile.Grammar.Events
import Mathlib.Data.List.TakeWhile
/-!
The rules of the shipped template for the parts of a line, at a place where the rest of the line is
known: indentation, line ends, blank lines, comments, and what runs up to a character.
-/

namespace FeatureFile

open Text (FirstLine Unbroken isBlankChar)

section

variable {c : Cursor} {p q brk rest : Text}

theorem Text.FirstLine.behind (line : FirstLine c.rest (p ++ q) brk rest) :
    FirstLine (c.after p).rest q brk rest := by
  obtain ⟨behind, split, faces⟩ := line.drop
  rwa [Cursor.rest_after split]

theorem Text.FirstLine.behind_char {x : Char} (line : FirstLine c.rest (x :: q) brk rest) :
    FirstLine (c.after [x]).rest q brk rest :=
  behind (p := [x]) line

theorem Text.FirstLine.behind_indentation (line : FirstLine c.rest q brk rest) :
    FirstLine (c.after (q.takeWhile isBlankChar)).rest q.unindent brk rest := by
  refine behind (q := q.unindent) ?_
  rwa [q.indentation_append_unindent]

theorem Text.FirstLine.rest_after (line : FirstLine c.rest q brk rest) :
    (c.after (q ++ brk)).rest = rest :=
  Cursor.rest_after (by rw [line.eq_append, List.append_assoc])

/-- A line or a line break that is there takes the reading on. -/
theorem Text.FirstLine.length_rest_after (line : FirstLine c.rest q brk rest) (some : q ++ brk ≠ []) :
    (c.after (q ++ brk)).rest.length < c.rest.length := by
  have present : c.rest ≠ [] := fun none => some (by simpa using line.eq_nil_iff.mp none)
  rw [line.rest_after]
  exact line.length_rest_lt present

/-- A part of a line is on the line it begins on. -/
theorem Text.FirstLine.line_after (line : FirstLine c.rest (p ++ q) brk rest) :
    (c.after p).line = c.line :=
  Cursor.line_after fun mem => line.not_mem_line (List.mem_append_left q mem)

theorem Text.FirstLine.upTo_after (line : FirstLine c.rest (p ++ q) brk rest) :
    c.upTo (c.after p) = p :=
  Cursor.upTo_after (by rw [line.eq_append, List.append_assoc])

end

/-- Nodes of the end of the text. -/
def Ends (nodes : List Node) : Prop :=
  ∀ node ∈ nodes, node.rule = "EOI"

namespace Rules

variable {rules : List Rule} {c : Cursor} {q brk rest : Text}

namespace Gives

theorem skips {w t : Text} (same : c.rest = w ++ t) :
    Gives rules (.literal w) c (some ([], c.after w)) := by
  have gives : Gives rules (.literal w) c _ := .literal w c
  simpa [Cursor.skip?_of_rest same] using gives

theorem misses {w : Text} (absent : ¬ w <+: c.rest) : Gives rules (.literal w) c none := by
  have gives : Gives rules (.literal w) c _ := .literal w c
  simpa [Cursor.skip?_eq_none absent] using gives

theorem literal_some {w : Text} (line : FirstLine c.rest q brk rest) (found : w <+: q) :
    Gives rules (.literal w) c (some ([], c.after w)) := by
  obtain ⟨behind, split⟩ := found
  exact skips (t := behind ++ (brk ++ rest)) (by rw [line.eq_append, ← split, List.append_assoc])

theorem literal_none {w : Text} (line : FirstLine c.rest q brk rest) (unbroken : Unbroken w)
    (absent : ¬ w <+: q) : Gives rules (.literal w) c none :=
  misses (absent ∘ (line.prefix_iff unbroken).mp)

/-- One character that is not the next one. -/
theorem char_none {x : Char} (line : FirstLine c.rest q brk rest) (unbroken : Unbroken [x])
    (absent : q.head? ≠ some x) : Gives rules (.literal [x]) c none := by
  refine literal_none line unbroken ?_
  rintro ⟨behind, rfl⟩
  exact absent rfl

theorem any_some {x : Char} (line : FirstLine c.rest (x :: q) brk rest) :
    Gives rules .any c (some ([], c.after [x])) := by
  have next : c.rest = x :: (q ++ (brk ++ rest)) := line.eq_append
  have moves : c.next? = some (c.after [x]) := by
    rw [Cursor.next?, next]
    exact congrArg some (Cursor.behind_eq_after next)
  have gives : Gives rules .any c _ := .any c
  simpa [moves] using gives

theorem any_none (last : c.rest = []) : Gives rules .any c none := by
  have gives : Gives rules .any c _ := .any c
  simpa [Cursor.next?, last] using gives

end Gives

/-- The expression matches in front of a line break and in front of the characters outside of the
class. -/
def Stops (rules : List Rule) (stop : Expr) (p : Char → Bool) : Prop :=
  ∀ (d : Cursor) (q brk rest : Text), FirstLine d.rest q brk rest →
    ∃ result, Gives rules stop d result ∧
      match q with
      | [] => brk ≠ [] → result.isSome = true
      | x :: _ => result.isSome = !p x

section

variable {stop : Expr} {p : Char → Bool} (stops : Stops rules stop p)
include stops

theorem Stops.one_some {x : Char} (line : FirstLine c.rest (x :: q) brk rest) (inside : p x = true) :
    Gives rules (.seq (.not stop) .any) c (some ([], c.after [x])) := by
  obtain ⟨result, gives, stopped⟩ := stops c (x :: q) brk rest line
  have allowed := gives.not
  rw [stopped, inside] at allowed
  exact .seq_nil allowed (.any_some line)

theorem Stops.one_none (line : FirstLine c.rest q brk rest)
    (outside : ∀ x, q.head? = some x → p x = false) :
    Gives rules (.seq (.not stop) .any) c none := by
  obtain ⟨result, gives, stopped⟩ := stops c q brk rest line
  have denied := gives.not
  cases q with
  | cons x q =>
    rw [stopped, outside x rfl] at denied
    exact .seq_fail denied
  | nil =>
    by_cases last : brk = []
    · -- Nothing is left, so there is no character to take, whatever the stop does.
      have atEnd : c.rest = [] := line.eq_nil_iff.mpr ⟨rfl, last⟩
      cases result with
      | none => exact .seq_nil denied (.any_none atEnd)
      | some => exact .seq_fail denied
    · rw [stopped last] at denied
      exact .seq_fail denied

/-- The search for a stop takes the rest of the line as far as its characters are in the class. -/
theorem Stops.search (line : FirstLine c.rest q brk rest) :
    Gives rules (.star (.seq (.not stop) .any)) c (some ([], c.after (q.takeWhile p))) := by
  induction q generalizing c with
  | nil => simpa using Gives.star_stop (stops.one_none line (by simp))
  | cons x q ih =>
    cases inside : p x with
    | true =>
      have step := Gives.star_step (stops.one_some line inside) (ih line.behind_char)
      simpa [List.takeWhile_cons, inside] using step
    | false =>
      simpa [List.takeWhile_cons, inside] using
        Gives.star_stop (stops.one_none line (by simpa using inside))

/-- The search that has to find one character. -/
theorem Stops.search_more {x : Char} (line : FirstLine c.rest (x :: q) brk rest)
    (inside : p x = true) :
    Gives rules (.seq (.seq (.not stop) .any) (.star (.seq (.not stop) .any))) c
      (some ([], c.after ((x :: q).takeWhile p))) := by
  have found := Gives.seq_nil (stops.one_some line inside) (stops.search line.behind_char)
  simpa [List.takeWhile_cons, inside] using found

end

/-- A stop that is tried behind one more character. -/
theorem Stops.char {stop : Expr} {p : Char → Bool} (stops : Stops rules stop p) {x : Char}
    (unbroken : Unbroken [x]) :
    Stops rules (.choice (.literal [x]) stop) (fun y => y ≠ x && p y) := by
  intro d q brk rest line
  obtain ⟨result, gives, ends⟩ := stops d q brk rest line
  cases q with
  | nil => exact ⟨result, .choice_second (.char_none line unbroken (by simp)) gives, ends⟩
  | cons y q =>
    by_cases same : y = x
    · subst same
      exact ⟨_, .choice_first (.literal_some line ⟨q, rfl⟩), by simp⟩
    · refine ⟨result, .choice_second (.char_none line unbroken (by simpa using same)) gives, ?_⟩
      simpa [same] using ends

namespace Shipped

variable {language : Language} (shipped : Shipped rules language)
include shipped

/-- What the body of a rule gives, given by its name. -/
theorem silent (name : String) (body : Expr) {result : Option (List Node × Cursor)}
    (gives : Gives rules body c result)
    (member : ⟨name, .silent, body⟩ ∈ Template.fixedRules.map Rule.arranged) :
    Gives rules (.call name) c result :=
  .silent (shipped.fixed _ member) gives

theorem nl_some (line : FirstLine c.rest [] brk rest) (ends : brk ≠ []) :
    Gives rules (.call "nl") c (some ([], c.after brk)) := by
  refine shipped.silent "nl" (.choice (.literal ['\r', '\n']) (.literal ['\n'])) ?_
    (by decide)
  have split : c.rest = brk ++ rest := line.eq_append
  rcases line.brk_cases with ⟨last, _⟩ | rfl | rfl
  · exact absurd last ends
  · refine .choice_second (.misses ?_) (.skips split)
    simp [split, List.cons_prefix_cons]
  · exact .choice_first (.skips split)

/-- Neither inside of a line nor at the end of the text is there a line break. -/
theorem nl_none (line : FirstLine c.rest q brk rest) (inside : q ≠ [] ∨ brk = []) :
    Gives rules (.call "nl") c none := by
  refine shipped.silent "nl" (.choice (.literal ['\r', '\n']) (.literal ['\n'])) ?_
    (by decide)
  have absent : ¬ ['\r', '\n'] <+: c.rest ∧ ¬ ['\n'] <+: c.rest := by
    cases q with
    | cons => exact line.not_break
    | nil =>
      have last : c.rest = [] := line.eq_nil_iff.mpr ⟨rfl, inside.resolve_left (· rfl)⟩
      simp [last]
  exact .choice_second (.misses absent.1) (.misses absent.2)

/-- A line break is found at the end of a line, if it has one. -/
theorem nl_gives (line : FirstLine c.rest q brk rest) :
    Gives rules (.call "nl") c (if q = [] ∧ brk ≠ [] then some ([], c.after brk) else none) := by
  split_ifs with ends
  · obtain ⟨rfl, feeds⟩ := ends
    exact shipped.nl_some line feeds
  · refine shipped.nl_none line ?_
    by_cases inside : q = []
    · exact .inr (by simpa [inside] using ends)
    · exact .inl inside

theorem stops_nl : Stops rules (.call "nl") (fun _ => true) := by
  intro d q brk rest line
  cases q with
  | nil =>
    by_cases last : brk = []
    · exact ⟨none, shipped.nl_none line (.inr last), fun ends => absurd last ends⟩
    · exact ⟨_, shipped.nl_some line last, fun _ => rfl⟩
  | cons => exact ⟨none, shipped.nl_none line (.inl (by simp)), rfl⟩

/-- What the body of an atomic rule takes, given as a node. -/
theorem atomic (name : String) (body : Expr) {nodes : List Node} {w q : Text}
    (gives : Gives rules body c (some (nodes, c.after w)))
    (line : FirstLine c.rest (w ++ q) brk rest)
    (member : ⟨name, .atomic, body⟩ ∈ Template.fixedRules.map Rule.arranged) :
    Gives rules (.call name) c (some ([.mk name w c.line []], c.after w)) := by
  simpa [line.upTo_after] using Gives.atomic (shipped.fixed _ member) gives

theorem atomic_none (name : String) (body : Expr) (gives : Gives rules body c none)
    (member : ⟨name, .atomic, body⟩ ∈ Template.fixedRules.map Rule.arranged) :
    Gives rules (.call name) c none :=
  Gives.atomic (shipped.fixed _ member) gives

/-- Everything up to the line break. -/
theorem remainder (line : FirstLine c.rest q brk rest) :
    Gives rules (.star (.seq (.not (.call "nl")) .any)) c (some ([], c.after q)) := by
  have whole : q.takeWhile (fun _ => true) = q := List.takeWhile_eq_self_iff.mpr fun _ _ => rfl
  simpa [whole] using shipped.stops_nl.search line

theorem sp (line : FirstLine c.rest q brk rest) :
    Gives rules (.call "sp") c (some ([], c.after (q.takeWhile isBlankChar))) := by
  refine shipped.silent "sp" (.star (.choice (.literal [' ']) (.literal ['\t']))) ?_
    (by decide)
  induction q generalizing c with
  | nil =>
    have stop : Gives rules (.choice (.literal [' ']) (.literal ['\t'])) c none :=
      .choice_second (.char_none line (by decide) (by simp)) (.char_none line (by decide) (by simp))
    simpa using Gives.star_stop stop
  | cons x q ih =>
    have others := ih line.behind_char
    by_cases space : x = ' '
    · subst space
      have step := Gives.star_step (.choice_first (.literal_some line ⟨q, rfl⟩)) others
      simpa [List.takeWhile_cons, isBlankChar] using step
    · have first : Gives rules (.literal [' ']) c none :=
        .char_none line (by decide) (by simpa using space)
      by_cases tab : x = '\t'
      · subst tab
        have step := Gives.star_step (.choice_second first (.literal_some line ⟨q, rfl⟩)) others
        simpa [List.takeWhile_cons, isBlankChar] using step
      · have second : Gives rules (.literal ['\t']) c none :=
          .char_none line (by decide) (by simpa using tab)
        simpa [List.takeWhile_cons, isBlankChar, space, tab] using
          Gives.star_stop (Gives.choice_second first second)

theorem text (line : FirstLine c.rest q brk rest) :
    Gives rules (.call "text") c (some ([.mk "text" q c.line []], c.after q)) :=
  shipped.atomic "text" _ (q := []) (shipped.remainder line) (by simpa using line) (by decide)

/-- The end of a line is found behind blanks. -/
theorem line_end (line : FirstLine c.rest q brk rest) (blank : q.unindent = []) :
    ∃ nodes, Ends nodes ∧
      Gives rules (.call "line_end") c (some (nodes, c.after (q ++ brk))) := by
  have spaces := shipped.sp line
  have behind := line.behind_indentation
  rw [Text.takeWhile_of_unindent_eq_nil blank] at spaces behind
  rw [blank] at behind
  have member : ⟨"line_end", .silent, .seq (.call "sp") (.choice (.call "nl") .endOfInput)⟩ ∈
      Template.fixedRules.map Rule.arranged := by decide
  by_cases last : brk = []
  · subst last
    have atEnd : (c.after q).rest = [] := behind.eq_nil_iff.mpr ⟨rfl, rfl⟩
    have eoi : Gives rules .endOfInput (c.after q) _ := .endOfInput _
    simp only [atEnd, List.isEmpty_nil, if_true] at eoi
    have ends := Gives.choice_second (shipped.nl_none behind (.inr rfl)) eoi
    refine ⟨_, ?_, by simpa using shipped.silent "line_end" _ (.seq_nil spaces ends) member⟩
    simp [Ends, Node.rule]
  · have feeds := shipped.nl_some behind last
    rw [Cursor.after_after] at feeds
    exact ⟨[], by simp [Ends],
      shipped.silent "line_end" _ (.seq_nil spaces (.choice_first feeds)) member⟩

theorem line_end_none (line : FirstLine c.rest q brk rest) (more : q.unindent ≠ []) :
    Gives rules (.call "line_end") c none := by
  refine shipped.silent "line_end" (.seq (.call "sp") (.choice (.call "nl") .endOfInput)) ?_
    (by decide)
  have behind := line.behind_indentation
  have goesOn : (c.after (q.takeWhile isBlankChar)).rest ≠ [] := by
    rw [behind.eq_append]
    simp [more]
  have eoi : Gives rules .endOfInput (c.after (q.takeWhile isBlankChar)) _ := .endOfInput _
  simp only [List.isEmpty_iff, goesOn, if_false] at eoi
  exact .seq_nil (shipped.sp line) (.choice_second (shipped.nl_none behind (.inl more)) eoi)

/-- The end of the text is found behind blanks. -/
theorem text_end (line : FirstLine c.rest q brk rest) :
    if q.unindent = [] ∧ brk = [] then
      ∃ nodes d, Ends nodes ∧ Gives rules (.seq (.call "sp") .endOfInput) c (some (nodes, d))
    else Gives rules (.seq (.call "sp") .endOfInput) c none := by
  have behind := line.behind_indentation
  have eoi : Gives rules .endOfInput (c.after (q.takeWhile isBlankChar)) _ := .endOfInput _
  simp only [List.isEmpty_iff, behind.eq_nil_iff] at eoi
  split_ifs at eoi ⊢
  · refine ⟨_, _, ?_, .seq_nil (shipped.sp line) eoi⟩
    simp [Ends, Node.rule]
  · exact .seq_nil (shipped.sp line) eoi

theorem blank_line (line : FirstLine c.rest q brk rest) (blank : q.unindent = []) (ends : brk ≠ []) :
    Gives rules (.call "blank_line") c (some ([], c.after (q ++ brk))) := by
  refine shipped.silent "blank_line" (.seq (.call "sp") (.call "nl")) ?_ (by decide)
  have spaces := shipped.sp line
  have behind := line.behind_indentation
  rw [Text.takeWhile_of_unindent_eq_nil blank] at spaces behind
  rw [blank] at behind
  simpa using Gives.seq_nil spaces (shipped.nl_some behind ends)

theorem blank_line_none (line : FirstLine c.rest q brk rest) (more : q.unindent ≠ [] ∨ brk = []) :
    Gives rules (.call "blank_line") c none := by
  refine shipped.silent "blank_line" (.seq (.call "sp") (.call "nl")) ?_ (by decide)
  exact .seq_nil (shipped.sp line) (shipped.nl_none line.behind_indentation more)

end Shipped

end Rules

end FeatureFile
