import FeatureFile.Proofs.Document.Ordered
import FeatureFile.Proofs.Line.Reading
/-!
The order of the events of a document. A header is reported behind the lines of its description, and a doc
string behind its closing fence, each for the line it was opened on; but what is open was opened behind
everything that has been reported. So events come in the order of their lines, whether the document has a
fault or not.
-/

namespace FeatureFile

namespace Event

/-- Events of the lines from `first` on and before `last`, in their order. -/
structure Between (first last : Nat) (events : List Event) : Prop where
  inside : ∀ event ∈ events, event.isEnd = false ∧ first ≤ event.line ∧ event.line < last
  ordered : events.Pairwise Precedes

namespace Between

variable {first mid last line : Nat} {event : Event} {events more : List Event}

theorem nil : Between first last [] :=
  ⟨by simp, .nil⟩

theorem single (inside : event.isEnd = false) (above : first ≤ event.line) (below : event.line < last) :
    Between first last [event] :=
  ⟨List.forall_mem_singleton.mpr ⟨inside, above, below⟩, List.pairwise_singleton ..⟩

theorem mono (between : Between first mid events) (upper : mid ≤ last) : Between first last events where
  inside event member := by
    obtain ⟨inside, above, below⟩ := between.inside event member
    exact ⟨inside, above, below.trans_le upper⟩
  ordered := between.ordered

theorem append (before : Between first mid events) (behind : Between mid last more)
    (lower : first ≤ mid) (upper : mid ≤ last) : Between first last (events ++ more) := by
  constructor
  · intro event member
    rcases List.mem_append.mp member with member | member
    · obtain ⟨inside, above, below⟩ := before.inside event member
      exact ⟨inside, above, below.trans_le upper⟩
    · obtain ⟨inside, above, below⟩ := behind.inside event member
      exact ⟨inside, lower.trans above, below⟩
  · refine List.pairwise_append.mpr ⟨before.ordered, behind.ordered, fun x inside y outside => ?_⟩
    exact .inl ((before.inside x inside).2.2.trans_le (behind.inside y outside).2.1)

/-- All tags of a line. -/
theorem tags (tags : List Text) : Between line (line + 1) (tags.map (.tag · line)) := by
  constructor
  · exact List.forall_mem_map.mpr fun _ _ => ⟨rfl, Nat.le_refl _, Nat.lt_succ_self _⟩
  · exact List.pairwise_map.mpr (List.pairwise_of_forall fun _ _ => .inr ⟨rfl, rfl, rfl⟩)

end Between

end Event

open Event (Between)

theorem LineKind.Reports.between {kind : LineKind} {line : Nat} {events : List Event}
    (own : kind.Reports line events) : Between line (line + 1) events := by
  cases own with
  | comment | row | step => exact .single rfl (Nat.le_refl _) (Nat.lt_succ_self _)
  | tags => exact .tags _

namespace LineState

variable {state : LineState} {line : Nat}

/-- The line from which on events are still to be reported, if number `line` is the next one. -/
def since (line : Nat) : LineState → Nat
  | idle => line
  | header pending => pending.line
  | docString block => block.line

/-- What is open was opened on a line before the next one. -/
def OpenedBefore (line : Nat) : LineState → Prop
  | idle => True
  | header pending => pending.line < line
  | docString block => block.line < line

theorem since_le (before : state.OpenedBefore line) : state.since line ≤ line := by
  cases state with
  | idle => exact Nat.le_refl line
  | header | docString => exact Nat.le_of_lt before

theorem between_flush (before : state.OpenedBefore line) : Between (state.since line) line state.flush := by
  cases state with
  | header pending => exact .single rfl (Nat.le_refl _) before
  | idle | docString => exact .nil

/-- A line reports events in their order, all of them before those that are still to be reported. -/
inductive StepOrdered (first line : Nat) : List Event × Except Fault LineState → Prop where
  | moves {events : List Event} {next : LineState} (reported : Between first (next.since (line + 1)) events)
      (onward : first ≤ next.since (line + 1)) (opened : next.OpenedBefore (line + 1)) :
      StepOrdered first line (events, .ok next)
  | stops {events : List Event} {fault : Fault} (reported : Between first (line + 1) events) :
      StepOrdered first line (events, .error fault)

private theorem ordered_outside (before : state.OpenedBefore line) (raw : Text) (kind : LineKind) :
    StepOrdered (state.since line) line (state.outside line raw kind) := by
  have flushed := between_flush before
  have lower := since_le before
  have upper : line ≤ line + 1 := Nat.le_succ line
  have does := outside_cases state line raw kind
  generalize state.outside line raw kind = moved at does ⊢
  cases does with
  | gathered =>
    cases state with
    | idle => exact .moves .nil upper trivial
    | header | docString => exact .moves .nil (Nat.le_refl _) (Nat.lt_succ_of_lt before)
  | reported own =>
    -- What the line itself reports stands behind the header that it ends.
    exact .moves (flushed.append own.between lower upper) (lower.trans upper) trivial
  | opened own =>
    cases own with
    | docString | header => exact .moves flushed lower (Nat.lt_succ_self _)
  | refused => exact .stops (flushed.mono upper)

/-- One line. -/
theorem ordered_step (v : Vocabulary) (before : state.OpenedBefore line) (raw : Text) :
    StepOrdered (state.since line) line (state.step v line raw) := by
  cases state with
  | idle | header => exact ordered_outside before raw _
  | docString block =>
    have opened : block.line < line := before
    simp only [step, inside]
    split
    · exact .moves .nil (Nat.le_refl _) (Nat.lt_succ_of_lt opened)
    · refine .moves (.single rfl (Nat.le_refl _) ?_) ?_ trivial
      · exact Nat.lt_succ_of_lt opened
      · exact (Nat.lt_succ_of_lt opened).le
    · exact .stops .nil

/-- All lines, and the end of the document behind them, unless there is a fault. -/
theorem ordered_readFrom (v : Vocabulary) (before : state.OpenedBefore line) (raws : List Text) :
    ∃ body, Between (state.since line) (line + raws.length) body ∧
      ((state.readFrom v line raws).events = body ∨
        (state.readFrom v line raws).events = body ++ [.endOfInput (line + raws.length)]) := by
  -- Over the lines: each opens its header or doc string before the next one, and that is all the rest needs.
  induction raws generalizing state line with
  | nil =>
    refine ⟨state.flush, between_flush before, ?_⟩
    -- With a doc string open the document is at fault, and the end is not reported.
    cases state with
    | docString => exact .inl rfl
    | idle | header => exact .inr rfl
  | cons raw raws ih =>
    have first := ordered_step v before raw
    have length : line + (raw :: raws).length = line + 1 + raws.length := by
      rw [List.length_cons]
      omega
    rw [length]
    rcases moves : state.step v line raw with ⟨events, fault | next⟩
    · rw [moves] at first
      rw [readFrom_error moves]
      obtain - | ⟨reported⟩ := first
      exact ⟨events, reported.mono (Nat.le_add_right ..), .inl rfl⟩
    · rw [moves] at first
      rw [readFrom_ok moves]
      obtain ⟨reported, onward, opened⟩ | - := first
      obtain ⟨body, behind, whole⟩ := ih opened
      refine ⟨events ++ body, reported.append behind onward ?_, ?_⟩
      · exact (since_le opened).trans (Nat.le_add_right ..)
      · rcases whole with whole | whole <;> simp [Reading.behind, whole]

end LineState

/-- An event and one that is told behind it: the first is not the end, and the second is for a later line,
unless both are tags of one line. -/
def Event.ComesBefore (x y : Event) : Prop :=
  x.isEnd = false ∧ x.Precedes y

/-- Events in the order of a document of `n` lines: they are for its lines, the end for the line behind. -/
structure Event.InOrder (n : Nat) (events : List Event) : Prop where
  lines : ∀ event ∈ events, event.isEnd = false → 1 ≤ event.line ∧ event.line ≤ n
  final : ∀ event ∈ events, event.isEnd = true → event.line = n + 1
  ordered : events.Pairwise Event.ComesBefore

namespace Event

variable {n : Nat} {events body : List Event}

theorem InOrder.of_start {told : List Event} (inOrder : InOrder n events) (start : told <+: events) :
    InOrder n told :=
  ⟨fun event member => inOrder.lines event (start.mem member),
    fun event member => inOrder.final event (start.mem member), inOrder.ordered.sublist start.sublist⟩

theorem Between.inOrder (between : Between 1 (n + 1) body) : InOrder n body where
  lines event member _ := by
    obtain ⟨-, above, below⟩ := between.inside event member
    exact ⟨above, Nat.le_of_lt_succ below⟩
  final event member atEnd := by
    obtain ⟨inside, -⟩ := between.inside event member
    rw [inside] at atEnd
    cases atEnd
  ordered := between.ordered.imp_of_mem fun {x _} member _ precedes =>
    ⟨(between.inside x member).1, precedes⟩

theorem Between.inOrder_end (between : Between 1 (n + 1) body) :
    InOrder n (body ++ [.endOfInput (n + 1)]) where
  lines event member inside := by
    rcases List.mem_append.mp member with member | member
    · exact between.inOrder.lines event member inside
    · obtain rfl := List.mem_singleton.mp member
      cases inside
  final event member atEnd := by
    rcases List.mem_append.mp member with member | member
    · exact between.inOrder.final event member atEnd
    · obtain rfl := List.mem_singleton.mp member
      rfl
  ordered := by
    refine List.pairwise_append.mpr ⟨between.inOrder.ordered, List.pairwise_singleton .., ?_⟩
    intro x member y last
    obtain ⟨inside, -, below⟩ := between.inside x member
    obtain rfl := List.mem_singleton.mp last
    exact ⟨inside, .inl below⟩

end Event

namespace Vocabulary

variable {v : Vocabulary} {source : Text}

/-- What is reported of a document is in the order of its lines. -/
theorem inOrder_read (v : Vocabulary) (source : Text) :
    Event.InOrder source.lines.length (v.read source).events := by
  obtain ⟨body, between, whole⟩ :=
    LineState.ordered_readFrom v (show LineState.idle.OpenedBefore 1 from trivial) source.lines
  rw [Nat.add_comm] at between whole
  rcases whole with whole | whole
  · exact whole ▸ between.inOrder
  · exact whole ▸ between.inOrder_end

/-- The events in front of the end. -/
theorem ordered_of_read {body : List Event} {n : Nat}
    (whole : v.read source = ⟨body ++ [.endOfInput n], none⟩) :
    (∀ event ∈ body, event.isEnd = false) ∧ body.Pairwise Event.Precedes := by
  have ordered := (v.inOrder_read source).ordered
  rw [whole] at ordered
  obtain ⟨before, -, last⟩ := List.pairwise_append.mp ordered
  exact ⟨fun event member => (last event member _ (List.mem_singleton_self _)).1, before.imp And.right⟩

end Vocabulary

end FeatureFile
