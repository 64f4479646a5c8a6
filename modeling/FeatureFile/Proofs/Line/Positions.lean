import FeatureFile.Proofs.Document.Positions
import FeatureFile.Proofs.Line.Reading
/-!
A document that is read line by line is reported within its lines: each event and each fault on the line
that is read, or on an earlier one that opened a header or a doc string.
-/

namespace FeatureFile

namespace LineState

variable {last line : Nat} {state : LineState}

/-- What is open was opened within the lines. -/
def Within (last : Nat) : LineState → Prop
  | idle => True
  | header pending => pending.line ≤ last
  | docString block => block.line ≤ last

private theorem within_flush (within : state.Within last) : ∀ event ∈ state.flush, event.line ≤ last := by
  cases state with
  | idle | docString => simp [flush]
  | header pending => exact List.forall_mem_singleton.mpr within

private theorem within_blank (within : state.Within last) (raw : Text) : (state.blank raw).Within last := by
  cases state <;> exact within

/-- A line is read within the lines: what it reports, and where it leaves the reader or stops it. -/
inductive StepWithin (last : Nat) : List Event × Except Fault LineState → Prop where
  | moves {events : List Event} {next : LineState} (reported : ∀ event ∈ events, event.line ≤ last)
      (onward : next.Within last) : StepWithin last (events, .ok next)
  | stops {events : List Event} {fault : Fault} (reported : ∀ event ∈ events, event.line ≤ last)
      (faulty : fault.line ≤ last) : StepWithin last (events, .error fault)

private theorem within_outside (within : state.Within last) (shown : line ≤ last) (raw : Text)
    (kind : LineKind) : StepWithin last (state.outside line raw kind) := by
  have flushed := within_flush within
  have does := outside_cases state line raw kind
  generalize state.outside line raw kind = moved at does ⊢
  cases does with
  | gathered => exact .moves (by simp) (within_blank within raw)
  | reported own =>
    refine .moves (List.forall_mem_append.mpr ⟨flushed, fun event member => ?_⟩) trivial
    rw [own.line_eq event member]
    exact shown
  | opened own =>
    cases own with
    | docString | header => exact .moves flushed shown
  | refused => exact .stops flushed shown

/-- One line. -/
theorem within_step (v : Vocabulary) (within : state.Within last) (shown : line ≤ last) (raw : Text) :
    StepWithin last (state.step v line raw) := by
  cases state with
  | idle | header => exact within_outside within shown raw _
  | docString block =>
    simp only [step, inside]
    split
    · exact .moves (by simp) within
    · refine .moves ?_ trivial
      exact List.forall_mem_singleton.mpr within
    · exact .stops (by simp) shown

/-- All lines, and the end of the document behind them. -/
theorem within_readFrom (v : Vocabulary) {raws : List Text} (within : state.Within last)
    (shown : line + raws.length ≤ last) : (state.readFrom v line raws).Within last := by
  induction raws generalizing state line with
  | nil =>
    cases state with
    | docString block =>
      refine ⟨by simp [readFrom, finish], ?_⟩
      rintro _ ⟨⟩
      exact within
    | idle | header =>
      refine ⟨List.forall_mem_append.mpr ⟨within_flush within, ?_⟩, by rintro _ ⟨⟩⟩
      exact List.forall_mem_singleton.mpr shown
  | cons raw raws ih =>
    rw [List.length_cons] at shown
    have first := within_step v within (show line ≤ last by omega) raw
    rw [readFrom]
    split
    next events fault moves =>
      rw [moves] at first
      cases first with
      | stops reported faulty =>
        refine ⟨reported, ?_⟩
        rintro _ ⟨⟩
        exact faulty
    next events next moves =>
      rw [moves] at first
      cases first with
      | moves reported onward =>
        have behind := ih onward (show line + 1 + raws.length ≤ last by omega)
        exact ⟨List.forall_mem_append.mpr ⟨reported, behind.events⟩, behind.fault⟩

end LineState

theorem Vocabulary.within_read (v : Vocabulary) (source : Text) : (v.read source).Within source.endLine := by
  have idle : LineState.idle.Within source.endLine := trivial
  exact LineState.within_readFrom v idle (Nat.le_of_eq (Nat.add_comm ..))

end FeatureFile
