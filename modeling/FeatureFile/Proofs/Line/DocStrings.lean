import FeatureFile.Proofs.Line.Classes
import FeatureFile.Proofs.Line.Indentation
import FeatureFile.Proofs.Line.Listening
/-!
Doc strings behind a document. Whatever the lines between two fences look like, they are the content of the
doc string, less the indentation they share with the fences; what is reported of the document in front of it
stays the same.
-/

namespace FeatureFile

open Vocabulary (ofLanguage)

/-- The lines of a doc string with these lines of content, everything indented by `w`. -/
def docStringLines (w : Text) (body : List Text) : List Text :=
  (w ++ fence) :: (body.map (w ++ ·) ++ [w ++ fence])

/-- The doc string as a text, a line feed behind each of its lines. -/
def docStringText (w : Text) (body : List Text) : Text :=
  (docStringLines w body).flatMap (· ++ ['\n'])

theorem lines_docStringText {w : Text} {body : List Text} (plain : Text.Unbroken w)
    (unbroken : ∀ l ∈ body, Text.Unbroken l) :
    (docStringText w body).lines = docStringLines w body := by
  have append {t : Text} (more : Text.Unbroken t) : Text.Unbroken (w ++ t) := fun c member =>
    (List.mem_append.mp member).elim (plain c) (more c)
  have bare : Text.Unbroken (w ++ fence) := append (by decide)
  refine Text.lines_flatMap_feed (List.forall_mem_cons.mpr ⟨bare, ?_⟩)
  refine List.forall_mem_append.mpr ⟨?_, List.forall_mem_singleton.mpr bare⟩
  exact List.forall_mem_map.mpr fun l member => append (unbroken l member)

theorem dedent_zero (lines : List Text) : dedent lines 0 = Text.joinLines lines := by
  simp [dedent, dedentLine]

section

variable {w : Text} {body : List Text} (blank : ∀ c ∈ w, Text.isBlankChar c = true)
include blank

theorem fence?_bare : fence? (w ++ fence) = some true := by
  rw [fence?_behind blank]
  rfl

theorem Vocabulary.kind_bare (v : Vocabulary) : v.kind (w ++ fence) = .fence true :=
  kind_of_fence? (fence?_bare blank) v

/-- A doc string and nothing behind it. -/
theorem LineState.readFrom_docStringLines (v : Vocabulary) (n : Nat)
    (inside : ∀ l ∈ body, fence? l = none) :
    idle.readFrom v n (docStringLines w body) =
      ⟨[.docString (Text.joinLines body) n, .endOfInput (n + body.length + 2)], none⟩ := by
  have opens : idle.step v n (w ++ fence) = ([], .ok (docString ⟨w.length, n, []⟩)) := by
    have indent : Text.indentation (w ++ fence) = w.length := Text.indentation_behind blank fence
    simp [step, v.kind_bare blank, outside, indent, flush]
  have unfenced : ∀ l ∈ body.map (w ++ ·), fence? l = none := by
    refine List.forall_mem_map.mpr fun l member => ?_
    rw [fence?_behind blank]
    exact inside l member
  -- The fence takes exactly its own indentation from each line.
  have content : dedent (body.map (w ++ ·)) w.length = Text.joinLines body := by
    rw [← dedent_zero]
    exact dedent_behind blank 0 body
  rw [docStringLines, readFrom_ok opens, readFrom_docString_body _ unfenced,
    readFrom_docString_closed _ (fence?_bare blank), List.nil_append]
  simp [Reading.behind, OpenDocString.event, content, readFrom, finish, flush]
  omega

/-- A document of whole lines and then a doc string, however the lines of that are broken. -/
theorem Vocabulary.exists_read_docString (v : Vocabulary) {source block : Text}
    (whole : source = [] ∨ source.getLast? = some '\n') (complete : (v.read source).fault = none)
    (written : block.lines = docStringLines w body) (inside : ∀ l ∈ body, fence? l = none) :
    ∃ events, v.read source = ⟨events ++ [.endOfInput source.endLine], none⟩ ∧
      v.read (source ++ block) =
        ⟨events ++ [.docString (Text.joinLines body) source.endLine,
          .endOfInput (source.endLine + body.length + 2)], none⟩ := by
  have line : source.endLine = 1 + source.lines.length := Nat.add_comm ..
  obtain ⟨events, read, onward⟩ := LineState.exists_readFrom_append complete
  -- The fence is no text, so it ends a description that is still open.
  have closed : ∀ l, (docStringLines w body).head? = some l → (v.kind l).isText = false := by
    rintro _ ⟨⟩
    rw [v.kind_bare blank]
    rfl
  refine ⟨events, line ▸ read, ?_⟩
  rw [Vocabulary.read, Text.lines_append_of_feed whole, written, onward _ closed,
    LineState.readFrom_docStringLines blank v _ inside, line]
  rfl

end

namespace Listener

/-- A listener that takes everything is told of a document with a doc string behind it what it is told of
the document, and then the doc string: its content are the lines between the fences, less the indentation
that everything in it has, whatever they look like. -/
theorem hear_docString {ε : Type} (language : Language) (report : Fault → ε) (source w : Text)
    (body : List Text) (whole : source = [] ∨ source.getLast? = some '\n')
    (accepted : (accepting.hear (ofLanguage language) report source ()).error = none)
    (blank : ∀ c ∈ w, c = ' ' ∨ c = '\t') (unbroken : ∀ l ∈ body, Text.Unbroken l)
    (inside : ∀ l ∈ body, ¬ fence <+: l.unindent) :
    ∃ events, accepting.hear (ofLanguage language) report source () =
        ⟨events ++ [.endOfInput source.endLine], (), none⟩ ∧
      accepting.hear (ofLanguage language) report (source ++ docStringText w body) () =
        ⟨events ++ [.docString (Text.joinLines body) source.endLine,
          .endOfInput (source.endLine + body.length + 2)], (), none⟩ := by
  have blank' : ∀ c ∈ w, Text.isBlankChar c = true := fun c member => by
    simpa [Text.isBlankChar] using blank c member
  have plain : Text.Unbroken w := fun c member => by
    rcases blank c member with rfl | rfl <;> decide
  have unfenced : ∀ l ∈ body, fence? l = none := fun l member =>
    fence?_eq_none_iff.mpr (inside l member)
  simp only [hear_accepting, Option.map_eq_none_iff] at accepted ⊢
  obtain ⟨events, read, behind⟩ := (ofLanguage language).exists_read_docString blank' whole accepted
    (lines_docStringText plain unbroken) unfenced
  exact ⟨events, by rw [read]; rfl, by rw [behind]; rfl⟩

/-- A doc string of lines that would be a step, blank and a tag, and one that begins with a no-break space,
behind a header whose description is open. -/
theorem hear_docString_pending :
    let source := "Feature: f\n text\n".toList
    let body := ["Given x".toList, [], "\t @t".toList, "\u00a0\"\"".toList]
    let report (fault : Fault) : String := fault.cause.message
    (docStringText ['\t', ' '] body =
        "\t \"\"\"\n\t Given x\n\t \n\t \t @t\n\t \u00a0\"\"\n\t \"\"\"\n".toList) ∧
      accepting.hear (ofLanguage Language.brief) report (source ++ docStringText ['\t', ' '] body) () =
        ⟨[.header .feature ⟨"Feature".toList, " f".toList, " text".toList, 1⟩,
          .docString "Given x\n\n\t @t\n\u00a0\"\"".toList 3, .endOfInput 9], (), none⟩ := by
  intro source body report
  have first : accepting.hear (ofLanguage Language.brief) report source () =
      ⟨[.header .feature ⟨"Feature".toList, " f".toList, " text".toList, 1⟩] ++ [.endOfInput 3], (),
        none⟩ := by
    decide +kernel
  have accepted : (accepting.hear (ofLanguage Language.brief) report source ()).error = none := by
    rw [first]
  obtain ⟨events, heard, behind⟩ :=
    hear_docString Language.brief report source ['\t', ' '] body (.inr rfl) accepted (by simp)
      (by decide +kernel) (by decide +kernel)
  refine ⟨by decide +kernel, ?_⟩
  rw [first] at heard
  obtain rfl := List.append_cancel_right (congrArg Hearing.told heard)
  exact behind

end Listener

end FeatureFile
