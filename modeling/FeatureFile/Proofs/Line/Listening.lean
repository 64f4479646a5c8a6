import FeatureFile.Line.Listener
import FeatureFile.Proofs.Agreement.Backends
import FeatureFile.Proofs.Line.Order
/-!
What a listener is told of a document. Line by line the telling does what the reading of the document says.
So every listener is told the same events, in the order of their lines, up to the first that it refuses; and
the fault of the document comes of it only if all events in front of the fault have been taken.
-/

namespace FeatureFile

open Vocabulary (ofLanguage)

variable {σ ε α β : Type}

namespace Listener

variable (listener : Listener σ ε) (report : Fault → ε)

/-- Tells events, and then comes to a result. -/
def tell (events : List Event) : Except Fault α → Telling σ ε α
  | .ok a => do
    events.forM listener
    return a
  | .error fault => do
    events.forM listener
    throw (report fault)

theorem tell_ok_bind (events : List Event) (a : α) (onward : α → Telling σ ε β) :
    listener.tell report events (.ok a) >>= onward =
      (events.forM listener >>= fun _ => onward a) := by
  simp [tell]

theorem tell_error_bind (events : List Event) (fault : Fault) (onward : α → Telling σ ε β) :
    listener.tell report events (.error fault) >>= onward = listener.tell report events (.error fault) := by
  have stops : (throw (report fault) : Telling σ ε α) >>= onward = throw (report fault) := rfl
  simp [tell, stops]

theorem forM_tell (events more : List Event) (result : Except Fault α) :
    (events.forM listener >>= fun _ => listener.tell report more result) =
      listener.tell report (events ++ more) result := by
  cases result <;> simp [tell]

theorem tell_cons (event : Event) (events : List Event) (result : Except Fault α) :
    listener.tell report (event :: events) result =
      (listener event >>= fun _ => listener.tell report events result) := by
  cases result <;> simp [tell]

end Listener

/-- Whether a reading comes to an end, or to a fault. -/
def Reading.result (reading : Reading) : Except Fault Unit :=
  match reading.fault with
  | none => .ok ()
  | some fault => .error fault

namespace LineState

variable (listener : Listener σ ε) (report : Fault → ε) {v : Vocabulary}

theorem tellOpen_eq (state : LineState) : state.tellOpen listener = state.flush.forM listener := by
  cases state <;> simp [tellOpen, flush]

/-- A header that is told when a line ends its description is what reading reports in front of the line. -/
theorem tellOutside_eq (state : LineState) (line : Nat) (raw : Text) (kind : LineKind) :
    state.tellOutside listener report line raw kind =
      listener.tell report (state.outside line raw kind).1 (state.outside line raw kind).2 := by
  cases kind with
  | blank => simp [tellOutside, outside, Listener.tell]
  | comment | step | header => simp [tellOutside, outside, Listener.tell, tellOpen_eq]
  | tags text =>
    simp only [tellOutside, outside, tellOpen_eq]
    cases TagLine.split? text <;> simp [Listener.tell]
  | row text =>
    simp only [tellOutside, outside, tellOpen_eq]
    cases TableRow.split? text <;> simp [Listener.tell]
  | fence bare => cases bare <;> simp [tellOutside, outside, Listener.tell, tellOpen_eq]
  | other => cases state <;> simp [tellOutside, outside, Listener.tell]

/-- A line is told as it is read: its events, and then the state behind it or its fault. -/
theorem tellLine_eq (state : LineState) (line : Nat) (raw : Text) :
    state.tellLine listener report v line raw =
      listener.tell report (state.step v line raw).1 (state.step v line raw).2 := by
  cases state with
  | idle | header => exact tellOutside_eq ..
  | docString block =>
    simp only [tellLine, step, tellInside, inside]
    cases fence? raw with
    | none => simp [Listener.tell]
    | some bare => cases bare <;> simp [Listener.tell]

theorem tellEnd_eq (state : LineState) (line : Nat) :
    state.tellEnd listener report line =
      listener.tell report (state.finish line).events (state.finish line).result := by
  cases state <;> simp [tellEnd, finish, Reading.result, Listener.tell, tellOpen_eq, flush]

/-- So are the lines of a document, and its end. -/
theorem tellFrom_eq (state : LineState) (line : Nat) (raws : List Text) :
    state.tellFrom listener report v line raws =
      listener.tell report (state.readFrom v line raws).events (state.readFrom v line raws).result := by
  induction raws generalizing state line with
  | nil => exact tellEnd_eq listener report state line
  | cons raw raws ih =>
    rw [tellFrom, tellLine_eq]
    rcases moves : state.step v line raw with ⟨events, fault | next⟩
    · -- The lines behind a fault are neither read nor told.
      rw [readFrom_error moves]
      exact listener.tell_error_bind report events fault _
    · rw [readFrom_ok moves, listener.tell_ok_bind, ih, listener.forM_tell]
      rfl

end LineState

namespace Listener

variable (listener : Listener σ ε)

/-- It takes the events in order. -/
def Takes (s : σ) (events : List Event) (last : σ) : Prop :=
  (events.forM listener).run s = (.ok (), last)

/-- It refuses the event. -/
def Refuses (s : σ) (event : Event) (refusal : ε) (last : σ) : Prop :=
  (listener event).run s = (.error refusal, last)

end Listener

namespace Telling

variable {first : Telling σ ε α} {s mid last : σ} {a : α} {error : ε}

theorem run_bind_ok (ok : first.run s = (.ok a, mid)) (onward : α → Telling σ ε β) :
    Telling.run (first >>= onward) s = (onward a).run mid := by
  change (ExceptT.bindCont onward (first.run s).1).run (first.run s).2 = _
  rw [ok]
  rfl

theorem run_bind_error (refused : first.run s = (.error error, last)) (onward : α → Telling σ ε β) :
    Telling.run (first >>= onward) s = (.error error, last) := by
  change (ExceptT.bindCont onward (first.run s).1).run (first.run s).2 = _
  rw [refused]
  rfl

end Telling

namespace Listener

variable {listener : Listener σ ε} {report : Fault → ε} {v : Vocabulary} {source : Text}
  {s mid last : σ} {events before after told : List Event} {event : Event} {refusal : ε}

theorem takes_nil : listener.Takes s [] last ↔ s = last := by
  constructor
  · intro taken
    exact congrArg Prod.snd taken
  · rintro rfl
    rfl

theorem takes_cons : listener.Takes s (event :: events) last ↔
    ∃ mid, (listener event).run s = (.ok (), mid) ∧ listener.Takes mid events last := by
  -- The others are told only if the first is taken.
  change Telling.run (listener event >>= fun _ => events.forM listener) s = _ ↔ _
  rcases answer : (listener event).run s with ⟨refusal | _, mid⟩
  · simp [Telling.run_bind_error answer]
  · simp [Telling.run_bind_ok answer, Takes]

/-- It takes all events, or the first ones up to one that it refuses. -/
theorem takes_or_refuses (listener : Listener σ ε) (s : σ) (events : List Event) :
    (∃ last, listener.Takes s events last) ∨ ∃ before event after mid refusal last,
      events = before ++ event :: after ∧ listener.Takes s before mid ∧
        listener.Refuses mid event refusal last := by
  induction events generalizing s with
  | nil => exact .inl ⟨s, takes_nil.mpr rfl⟩
  | cons event events ih =>
    rcases answer : (listener event).run s with ⟨refusal | _, mid⟩
    · exact .inr ⟨[], event, events, s, refusal, mid, rfl, takes_nil.mpr rfl, answer⟩
    · -- What it does with the others depends on the state that the first has left it in.
      rcases ih mid with
        ⟨last, taken⟩ | ⟨before, other, after, next, refusal, last, rfl, taken, refused⟩
      · exact .inl ⟨last, takes_cons.mpr ⟨mid, answer, taken⟩⟩
      · exact .inr ⟨event :: before, other, after, next, refusal, last, rfl,
          takes_cons.mpr ⟨mid, answer, taken⟩, refused⟩

theorem accepting_takes (events : List Event) : (accepting : Listener Unit ε).Takes () events () := by
  induction events with
  | nil => exact takes_nil.mpr rfl
  | cons event events ih => exact takes_cons.mpr ⟨(), rfl, ih⟩

/-! ### Records -/

theorem run_recorded (listener : Listener σ ε) (event : Event) (told : List Event) (s : σ) :
    Telling.run (listener.recorded event) (told, s) =
      (((listener event).run s).1, told ++ [event], ((listener event).run s).2) :=
  rfl

theorem Takes.recorded (told : List Event) (taken : listener.Takes s events last) :
    listener.recorded.Takes (told, s) events (told ++ events, last) := by
  induction events generalizing told s with
  | nil =>
    obtain rfl := takes_nil.mp taken
    rw [List.append_nil, takes_nil]
  | cons event events ih =>
    obtain ⟨mid, first, others⟩ := takes_cons.mp taken
    have recorded : Telling.run (listener.recorded event) (told, s) = (.ok (), told ++ [event], mid) := by
      rw [run_recorded, first]
    rw [List.append_cons, takes_cons]
    exact ⟨_, recorded, ih _ others⟩

theorem Refuses.recorded (told : List Event) (refused : listener.Refuses s event refusal last) :
    listener.recorded.Refuses (told, s) event refusal (told ++ [event], last) := by
  rw [Refuses, run_recorded, show (listener event).run s = _ from refused]

/-! ### Whole documents -/

theorem run_tell_of_takes (taken : listener.Takes s events last) (result : Except Fault α) :
    (listener.tell report events result).run s = (result.mapError report, last) := by
  cases result with
  | ok a => exact Telling.run_bind_ok taken _
  | error fault => exact Telling.run_bind_ok taken _

theorem run_tell_of_refuses (taken : listener.Takes s before mid)
    (refused : listener.Refuses mid event refusal last) (result : Except Fault α) :
    (listener.tell report (before ++ event :: after) result).run s = (.error refusal, last) := by
  rw [← forM_tell, Telling.run_bind_ok taken, tell_cons]
  exact Telling.run_bind_error refused _

theorem hear_eq (listener : Listener σ ε) (report : Fault → ε) (v : Vocabulary) (source : Text)
    (s : σ) :
    listener.hear v report source s =
      match (listener.recorded.tell report (v.read source).events (v.read source).result).run ([], s) with
      | (.ok (), told, last) => ⟨told, last, none⟩
      | (.error error, told, last) => ⟨told, last, some error⟩ := by
  rw [hear, LineState.tellFrom_eq]
  rfl

/-- A listener that takes all of it is told all of the document. -/
theorem hear_of_takes (taken : listener.Takes s (v.read source).events last) :
    listener.hear v report source s =
      ⟨(v.read source).events, last, (v.read source).fault.map report⟩ := by
  rw [hear_eq, run_tell_of_takes (taken.recorded []), Reading.result]
  cases (v.read source).fault <;> rfl

/-- A listener that refuses an event is told nothing behind it. -/
theorem hear_of_refuses (split : (v.read source).events = before ++ event :: after)
    (taken : listener.Takes s before mid) (refused : listener.Refuses mid event refusal last) :
    listener.hear v report source s = ⟨before ++ [event], last, some refusal⟩ := by
  rw [hear_eq, split, run_tell_of_refuses (taken.recorded []) (refused.recorded _)]
  rfl

theorem hear_accepting : accepting.hear v report source () =
    ⟨(v.read source).events, (), (v.read source).fault.map report⟩ :=
  hear_of_takes (accepting_takes _)

/-- What a listener is told is what the document begins with. -/
theorem told_starts (listener : Listener σ ε) (report : Fault → ε) (v : Vocabulary) (source : Text)
    (s : σ) : (listener.hear v report source s).told <+: (v.read source).events := by
  rcases listener.takes_or_refuses s (v.read source).events with
    ⟨last, taken⟩ | ⟨before, event, after, mid, refusal, last, split, taken, refused⟩
  · rw [hear_of_takes taken]
  · exact ⟨after, by simp [hear_of_refuses split taken refused, split]⟩

/-! ### Deliveries -/

theorem run_ofListen (listen : σ → Event → Except ε σ) (event : Event) (s : σ) :
    Telling.run (ofListen listen event) s =
      match listen s event with
      | .ok next => (.ok (), next)
      | .error refusal => (.error refusal, s) := by
  have first : Telling.run (ofListen listen event) s = Telling.run
      (match listen s event with
        | .ok next => set next
        | .error refusal => throw refusal) s := rfl
  rw [first]
  cases listen s event <;> rfl

theorem takes_ofListen {listen : σ → Event → Except ε σ} :
    (ofListen listen).Takes s events last ↔ deliver listen s events = (last, none) := by
  induction events generalizing s with
  | nil => simp [takes_nil, deliver]
  | cons event events ih =>
    rw [takes_cons, run_ofListen, deliver]
    cases listen s event <;> simp [ih]

theorem refuses_ofListen {listen : σ → Event → Except ε σ} :
    (ofListen listen).Refuses s event refusal last ↔ listen s event = .error refusal ∧ s = last := by
  rw [Refuses, run_ofListen]
  cases listen s event <;> simp

/-- To deliver the reading of a document is to tell the document. -/
theorem hear_ofListen (listen : σ → Event → Except ε σ) (report : Fault → ε) (v : Vocabulary)
    (source : Text) (s : σ) :
    (v.read source).deliver listen report s =
      (((ofListen listen).hear v report source s).state,
        ((ofListen listen).hear v report source s).error) := by
  rcases (ofListen listen).takes_or_refuses s (v.read source).events with
    ⟨last, taken⟩ | ⟨before, event, after, mid, refusal, last, split, taken, refused⟩
  · rw [hear_of_takes taken, Reading.deliver, takes_ofListen.mp taken]
  · -- The refusal comes first on both sides: a fault of the document stands behind all its events.
    rw [hear_of_refuses split taken refused, Reading.deliver, split]
    obtain ⟨answer, rfl⟩ := refuses_ofListen.mp refused
    rw [deliver_append _ (takes_ofListen.mp taken), deliver, answer]

/-- A listener that takes the first `k` events of a document and refuses number `k` is told these and
nothing behind them, and its refusal is what comes of the document, even where that is at fault on the
same line. If there is no event of that number, the listener is told what every other is told, and the same
comes of the document. -/
theorem hear_refused (language : Language) (source : Text) (report : Fault → ε) (k : Nat)
    (listener : Listener σ ε) (s mid last : σ) (refusal : ε) :
    let whole := accepting.hear (ofLanguage language) report source ()
    listener.Takes s (whole.told.take k) mid →
    (∀ event ∈ whole.told[k]?, listener.Refuses mid event refusal last) →
    listener.hear (ofLanguage language) report source s =
      if k < whole.told.length then ⟨whole.told.take (k + 1), last, some refusal⟩
      else ⟨whole.told, mid, whole.error⟩ := by
  rw [hear_accepting]
  intro whole taken refused
  split
  next inside =>
    -- Number `k` stands between the events that are taken and those that are not told.
    have split : whole.told = whole.told.take k ++ whole.told[k] :: whole.told.drop (k + 1) := by
      rw [← List.drop_eq_getElem_cons, List.take_append_drop]
    have declined := refused _ (List.getElem?_eq_getElem inside)
    rw [hear_of_refuses split taken declined, List.take_append_getElem]
  next outside =>
    rw [List.take_of_length_le (Nat.le_of_not_lt outside)] at taken
    exact hear_of_takes taken

/-- Takes `k` events, counting them, and refuses all others. -/
def refusing (k : Nat) (refusal : ε) : Listener Nat ε :=
  ofListen fun taken _ => if taken < k then .ok (taken + 1) else .error refusal

/-- A header that is told in front of a faulty row: if it is refused, the row is not at fault. -/
theorem hear_refused_row :
    let source := "Feature: f\n@a\nScenario: s\n| x\n".toList
    let events : List Event := [.header .feature ⟨"Feature".toList, " f".toList, [], 1⟩,
      .tag ['@', 'a'] 2, .header .scenario ⟨"Scenario".toList, " s".toList, [], 3⟩]
    let report (fault : Fault) : String := fault.cause.message
    (refusing 2 "enough").hear (ofLanguage Language.brief) report source 0 =
        ⟨events, 2, some "enough"⟩ ∧
      (refusing 3 "enough").hear (ofLanguage Language.brief) report source 0 =
        ⟨events, 3, some Cause.openRow.message⟩ := by
  intro source events report
  have whole : accepting.hear (ofLanguage Language.brief) report source () =
      ⟨events, (), some Cause.openRow.message⟩ := by
    decide +kernel
  constructor
  · have heard := hear_refused Language.brief source report 2 (refusing 2 "enough") 0 2 2 "enough"
    rw [whole] at heard
    refine heard rfl ?_
    rintro _ ⟨⟩
    rfl
  · have heard := hear_refused Language.brief source report 3 (refusing 3 "enough") 0 3 3 "enough"
    rw [whole] at heard
    exact heard rfl nofun

/-- Whatever a listener is told of a document comes in the order of its lines: the events before the end are
for lines of the document, each for a line behind that of the event before, or for the same line where both
are tags; and the end, if it is told, is told last and once, for the line behind the last one. -/
theorem hear_inOrder (language : Language) (source : Text) (report : Fault → ε) (listener : Listener σ ε)
    (s : σ) :
    Event.InOrder source.lines.length
      (listener.hear (ofLanguage language) report source s).told :=
  ((ofLanguage language).inOrder_read source).of_start (listener.told_starts report _ source s)

end Listener

end FeatureFile
