import FeatureFile.Proofs.Line.Reading
import FeatureFile.Proofs.Line.Rows
import FeatureFile.Proofs.Line.Separation
import FeatureFile.Proofs.Line.TagLines
/-!
The events of a document that is read line by line are well-formed. Between two lines it is enough to
know this of the header that is still open.
-/

namespace FeatureFile

/-! ### Lines -/

namespace LineState

open Vocabulary (ofLanguage Decided)

variable {language : Language} {state next : LineState} {line : Nat} {raw : Text}

/-- What one line reports is well-formed, and so is the header it leaves open. -/
theorem wellFormed_step (unbroken : '\n' ∉ raw)
    (open_ : ∀ event ∈ state.flush, event.WellFormed language) :
    (∀ event ∈ (state.step (ofLanguage language) line raw).1, event.WellFormed language) ∧
      ∀ next, (state.step (ofLanguage language) line raw).2 = .ok next →
        ∀ event ∈ next.flush, event.WellFormed language := by
  -- Behind a line of text the same header is open, and behind any other line none.
  have blank : ∀ event ∈ (state.blank raw).flush, event.WellFormed language := by
    cases state with
    | header pending =>
      have pendingFormed : pending.event.WellFormed language := List.forall_mem_singleton.mp open_
      exact List.forall_mem_singleton.mpr pendingFormed
    | idle | docString => simp [LineState.blank, flush]
  have rest (part : Text) (inside : part <:+ raw.unindent) : '\n' ∉ part := fun member =>
    unbroken ((List.dropWhile_suffix _).subset (inside.subset member))
  have outside : ∀ kind, Decided (ofLanguage language) raw kind →
      (∀ event ∈ (state.outside line raw kind).1, event.WellFormed language) ∧
        ∀ next, (state.outside line raw kind).2 = .ok next →
          ∀ event ∈ next.flush, event.WellFormed language := by
    intro kind decided
    have does := outside_cases state line raw kind
    generalize state.outside line raw kind = moved at does ⊢
    cases does with
    | gathered => exact ⟨by simp, by rintro _ ⟨⟩; exact blank⟩
    | reported own =>
      refine ⟨List.forall_mem_append.mpr ⟨open_, ?_⟩, by rintro _ ⟨⟩; simp [flush]⟩
      cases own with
      | comment => cases decided; exact List.forall_mem_singleton.mpr rfl
      | tags found => exact List.forall_mem_map.mpr (TagLine.isTag_of_split? found)
      | row found => exact List.forall_mem_singleton.mpr (TableRow.isCells_of_split? found)
      | step k name =>
        cases decided with
        | step _ found =>
          obtain ⟨first, split⟩ := Vocabulary.step?_eq_some_iff.mp found
          obtain ⟨member, present⟩ := Vocabulary.mem_alternatives.mp (List.mem_of_find?_eq_some first)
          have plain : '\n' ∉ name := rest name ⟨k, split.symm⟩
          exact List.forall_mem_singleton.mpr ⟨member, present, plain⟩
    | opened own =>
      refine ⟨open_, ?_⟩
      rintro _ ⟨⟩
      cases own with
      | docString => simp [flush]
      | header kind k name =>
        cases decided with
        | header _ _ found =>
          obtain ⟨member, present, split⟩ := Vocabulary.opens_of_header? found
          have plain : '\n' ∉ name := rest name ⟨k ++ [':'], by simp [split]⟩
          exact List.forall_mem_singleton.mpr ⟨member, present, plain⟩
    | refused => exact ⟨open_, by rintro _ ⟨⟩⟩
  cases state with
  | docString block =>
    simp only [step, inside]
    split
    · exact ⟨by simp, by rintro _ ⟨⟩; simp [flush]⟩
    · refine ⟨List.forall_mem_singleton.mpr trivial, by rintro _ ⟨⟩; simp [flush]⟩
    · exact ⟨by simp, by rintro _ ⟨⟩⟩
  | idle => exact outside _ (Vocabulary.decided _ raw)
  | header pending => exact outside _ (Vocabulary.decided _ raw)

/-- So is what all lines report, and a reading without a fault closes with the end of the document. -/
theorem wellFormed_readFrom {raws : List Text} (unbroken : ∀ raw ∈ raws, '\n' ∉ raw)
    (open_ : ∀ event ∈ state.flush, event.WellFormed language) :
    (∀ event ∈ (state.readFrom (ofLanguage language) line raws).events,
        event.WellFormed language) ∧
      ((state.readFrom (ofLanguage language) line raws).fault = none →
        ∃ body last, (state.readFrom (ofLanguage language) line raws).events =
          body ++ [.endOfInput last]) := by
  induction raws generalizing state line with
  | nil =>
    cases state with
    | docString block => exact ⟨by simp [readFrom, finish], by rintro ⟨⟩⟩
    | idle | header =>
      exact ⟨List.forall_mem_append.mpr ⟨open_, List.forall_mem_singleton.mpr trivial⟩,
        fun _ => ⟨_, line, rfl⟩⟩
  | cons raw raws ih =>
    obtain ⟨first, others⟩ := List.forall_mem_cons.mp unbroken
    rw [readFrom]
    obtain ⟨reported, onward⟩ := wellFormed_step first open_
    split
    next events fault moves =>
      rw [moves] at reported
      exact ⟨reported, by rintro ⟨⟩⟩
    next events next moves =>
      rw [moves] at reported onward
      obtain ⟨behind, closed⟩ := ih others (onward next rfl)
      refine ⟨List.forall_mem_append.mpr ⟨reported, behind⟩, fun complete => ?_⟩
      obtain ⟨body, last, split⟩ := closed complete
      exact ⟨events ++ body, last, by simp [split]⟩

end LineState

theorem Vocabulary.wellFormed_read {language : Language} {source : Text} {f : Feature}
    (made : ((ofLanguage language).read source).tree = .ok (some f)) : f.WellFormed language := by
  have unbroken : ∀ raw ∈ source.lines, '\n' ∉ raw := fun _ => Text.not_mem_of_mem_lines
  have nothingOpen : ∀ event ∈ LineState.idle.flush, event.WellFormed language := by
    simp [LineState.flush]
  obtain ⟨formed, closed⟩ := LineState.wellFormed_readFrom unbroken nothingOpen
  exact Reading.wellFormed_of_tree formed closed made

end FeatureFile
