import FeatureFile.Proofs.Document.Control
import FeatureFile.Proofs.Document.Noninterference
/-!
Deliveries by what is known before and behind them. Whether an assembly takes an event depends on
its control state and the tags that wait, so a sequence of events is described by a condition on the
two under which all of it is taken, and one that holds afterwards. Such descriptions compose.
-/

namespace FeatureFile

/-- What is known between two events: of the control state, and of the tags that wait. -/
abbrev Stage := Control → List Tag → Prop

namespace Stage

/-- A control state of these, without a tag that waits. -/
def untagged (states : Control → Prop) : Stage :=
  fun control tags => states control ∧ tags = []

/-- A control state of these, whether tags wait or not. -/
def tagged (states : Control → Prop) : Stage :=
  fun control _ => states control

end Stage

open Stage

/-- The states in which the host has steps. -/
def Control.hosts (host : Host) (control : Control) : Prop :=
  ∃ carried, control = .steps host carried

/-- The states in which an element may follow, or the end. -/
def Control.complete (control : Control) : Prop :=
  control.isComplete = true

/-- The states in which the document may end. -/
def Control.final (control : Control) : Prop :=
  control = start ∨ control.complete

theorem Control.complete_of_hosts {host : Host} (inner : host ≠ .outline) {control : Control}
    (h : control.hosts host) : control.complete := by
  obtain ⟨carried, rfl⟩ := h
  simpa [complete, isComplete] using inner

theorem deliver_append {σ ε : Type} {listen : σ → Event → Except ε σ} {state next : σ}
    {first : List Event} (second : List Event) (taken : deliver listen state first = (next, none)) :
    deliver listen state (first ++ second) = deliver listen next second := by
  induction first generalizing state with
  | nil =>
    cases taken
    rfl
  | cons event events ih =>
    simp only [List.cons_append, deliver] at taken ⊢
    split at taken
    · exact ih taken
    · cases taken

/-- What was delivered without refusal was delivered in both parts. -/
theorem deliver_append_iff {σ ε : Type} {listen : σ → Event → Except ε σ} {state last : σ}
    {first second : List Event} :
    deliver listen state (first ++ second) = (last, none) ↔
      ∃ next, deliver listen state first = (next, none) ∧
        deliver listen next second = (last, none) := by
  constructor
  · intro delivered
    induction first generalizing state with
    | nil => exact ⟨state, rfl, delivered⟩
    | cons event events ih =>
      simp only [List.cons_append, deliver] at delivered ⊢
      split at delivered
      · exact ih delivered
      · cases delivered
  · rintro ⟨next, taken, others⟩
    rw [deliver_append second taken, others]

/-- A reading has a tree where it has no fault and all its events are taken. -/
theorem Reading.tree_eq_ok_iff {reading : Reading} {tree : Option Feature} :
    reading.tree = .ok tree ↔
      reading.fault = none ∧ ∃ last,
        FeatureFile.deliver Assembly.listen .start reading.events = (last, none) ∧
          last.feature = tree := by
  have kept := Assembly.filter_deliver .start reading.events
  unfold Reading.tree Reading.deliver
  cases delivered : FeatureFile.deliver Assembly.listen .start reading.events with
  | mk last refusal =>
    rw [delivered] at kept
    cases refusal with
    | some refusal => simp
    | none => cases fault : reading.fault <;> simp [Assembly.tree_eq_feature kept]

namespace Assembly

/-- What every accepted event keeps, a delivery keeps. -/
theorem deliver_invariant {P : Assembly → Prop} {Q : Event → Prop}
    (keeps : ∀ a event b, P a → Q event → a.accept event = .accepted b → P b)
    {a last : Assembly} {events : List Event} (holds : P a) (all : ∀ event ∈ events, Q event)
    (delivered : deliver listen a events = (last, none)) : P last := by
  induction events generalizing a with
  | nil =>
    cases delivered
    exact holds
  | cons event events ih =>
    obtain ⟨first, others⟩ := List.forall_mem_cons.mp all
    rw [deliver, listen] at delivered
    cases done : a.accept event with
    | refused fault b => simp [done] at delivered
    | accepted b =>
      rw [done] at delivered
      exact ih (keeps a event b holds first done) others delivered

theorem accepted_of_deliver {a last : Assembly} {event : Event}
    (delivered : deliver listen a [event] = (last, none)) : a.accept event = .accepted last := by
  rw [deliver, listen] at delivered
  cases done : a.accept event with
  | refused fault b => simp [done] at delivered
  | accepted b =>
    rw [done] at delivered
    cases delivered
    rfl

/-- Events that are delivered without refusal are accepted, each of them. -/
theorem accepted_each_of_deliver {a last : Assembly} {events : List Event}
    (delivered : deliver listen a events = (last, none)) :
    (∀ outcome ∈ a.acceptEach events, outcome.fault? = none) ∧ a.afterEach events = last := by
  induction events generalizing a with
  | nil =>
    cases delivered
    exact ⟨by simp [acceptEach], rfl⟩
  | cons event events ih =>
    rw [deliver, listen] at delivered
    cases done : a.accept event with
    | refused fault b => simp [done] at delivered
    | accepted b =>
      rw [done] at delivered
      obtain ⟨others, reached⟩ := ih delivered
      rw [acceptEach, afterEach, List.foldl_cons, done]
      exact ⟨List.forall_mem_cons.mpr ⟨rfl, others⟩, reached⟩

/-- Where the first condition holds all the events are taken, and the second holds behind them. -/
def Takes (before : Stage) (events : List Event) (behind : Stage) : Prop :=
  ∀ a : Assembly, a.Sound → before a.control a.tags →
    ∃ b, deliver listen a events = (b, none) ∧ b.Sound ∧ behind b.control b.tags

namespace Takes

variable {p q r : Stage} {s t : Control → Prop} {first second : List Event}

theorem nil (p : Stage) : Takes p [] p :=
  fun a sound holds => ⟨a, rfl, sound, holds⟩

theorem append (front : Takes p first q) (back : Takes q second r) :
    Takes p (first ++ second) r := by
  intro a sound holds
  obtain ⟨b, taken, sound', between⟩ := front a sound holds
  obtain ⟨c, others, sound'', behind⟩ := back b sound' between
  exact ⟨c, (deliver_append second taken).trans others, sound'', behind⟩

/-- The condition before may be strengthened, and the one behind weakened. -/
theorem mono {p' q' : Stage} (before : ∀ control tags, p' control tags → p control tags)
    (behind : ∀ control tags, q control tags → q' control tags) (h : Takes p first q) :
    Takes p' first q' := by
  intro a sound holds
  obtain ⟨b, taken, sound', holds'⟩ := h a sound (before _ _ holds)
  exact ⟨b, taken, sound', behind _ _ holds'⟩

/-- One event, by what the control state does with it. -/
theorem event {e : Event} (moves : ∀ control tags, p control tags →
      ((e.meetsTags = true ∧ e.takesTags = false) → tags = []) ∧
        ∃ next, control.next? e = some next ∧ q next (e.tagsBehind tags)) : Takes p [e] q := by
  intro a sound holds
  obtain ⟨untagged, next, reached, behind⟩ := moves _ _ holds
  -- Only an event that meets the tags without taking them depends on whether some wait.
  have allowed : a.next? e = some next := by
    rw [Assembly.next?, if_neg, reached]
    rintro ⟨meets, takes, waiting⟩
    exact waiting (untagged ⟨meets, by simpa using takes⟩)
  obtain ⟨b, done, sound', tags, rfl⟩ := sound.exists_accepted allowed
  exact ⟨b, by simp [deliver, listen, done], sound', by rwa [tags]⟩

/-! ### Events -/

theorem comment (p : Stage) (text : Text) (line : Nat) : Takes p [.comment text line] p :=
  event fun control _ holds => ⟨by simp [Event.meetsTags], control, rfl, holds⟩

theorem tag (s : Control → Prop) (name : Text) (line : Nat) :
    Takes (tagged s) [.tag name line] (tagged s) :=
  event fun control _ holds => ⟨by simp [Event.meetsTags], control, rfl, holds⟩

/-- A header that takes the tags which wait. -/
theorem header {kind : SectionKind} (taker : kind ≠ .background)
    (opens : ∀ control, s control → ∃ next, control.open? kind = some next ∧ t next) (h : Header) :
    Takes (tagged s) [.header kind h] (untagged t) := by
  refine event fun control tags holds => ⟨?_, ?_⟩
  · rintro ⟨_, takes⟩
    simp [Event.takesTags, taker] at takes
  · obtain ⟨next, opened, behind⟩ := opens control holds
    exact ⟨next, opened, behind, rfl⟩

theorem background (h : Header) :
    Takes (untagged (· = .feature)) [.header .background h]
      (untagged (Control.hosts .background)) := by
  refine event fun control tags => ?_
  rintro ⟨rfl, none⟩
  exact ⟨fun _ => none, _, rfl, ⟨_, rfl⟩, rfl⟩

theorem step (host : Host) (keyword name : Text) (line : Nat) :
    Takes (untagged (Control.hosts host)) [.step keyword name line]
      (untagged (· = .steps host .nothing)) := by
  refine event fun control tags => ?_
  rintro ⟨⟨carried, rfl⟩, none⟩
  exact ⟨fun _ => none, _, rfl, rfl, rfl⟩

theorem row {state next : Control} (moves : state.row? = some next) (cells : List Text)
    (line : Nat) : Takes (untagged (· = state)) [.row cells line] (untagged (· = next)) := by
  refine event fun control tags => ?_
  rintro ⟨rfl, none⟩
  exact ⟨by simp [Event.meetsTags], next, moves, rfl, none⟩

theorem docString (host : Host) (content : Text) (line : Nat) :
    Takes (untagged (· = .steps host .nothing)) [.docString content line]
      (untagged (Control.hosts host)) := by
  refine event fun control tags => ?_
  rintro ⟨rfl, none⟩
  exact ⟨by simp [Event.meetsTags], _, rfl, ⟨_, rfl⟩, none⟩

/-- The end of the document changes nothing where it may come. -/
theorem endOfInput (final : ∀ control, s control → control.final) (line : Nat) :
    Takes (untagged s) [.endOfInput line] (untagged s) := by
  refine event fun control tags => ?_
  rintro ⟨holds, none⟩
  exact ⟨fun _ => none, control, if_pos (final control holds), holds, rfl⟩

end Takes

end Assembly

end FeatureFile
