import FeatureFile.Line.Reader
/-!
A line, and reading on from it. Outside of doc strings a line is gathered, reported, opened or refused; what
it reports stands in front of what the lines behind it report. An open header takes lines up to the first
one that is not text, an open doc string up to a fence.
-/

namespace FeatureFile

/-- Blank lines and free text, the lines of a description. -/
def LineKind.isText : LineKind → Bool
  | blank | other _ => true
  | _ => false

/-- The events that a line outside of doc strings stands for. -/
inductive LineKind.Reports (line : Nat) : LineKind → List Event → Prop where
  | comment (text : Text) : Reports line (.comment text) [.comment text line]
  | tags {text : Text} {tags : List Text} (found : TagLine.split? text = some tags) :
      Reports line (.tags text) (tags.map (.tag · line))
  | row {text : Text} {cells : List Text} (found : TableRow.split? text = some cells) :
      Reports line (.row text) [.row cells line]
  | step (keyword name : Text) : Reports line (.step keyword name) [.step keyword name line]

theorem LineKind.Reports.line_eq {line : Nat} {kind : LineKind} {events : List Event}
    (own : kind.Reports line events) : ∀ event ∈ events, event.line = line := by
  cases own with
  | comment | row | step => exact List.forall_mem_singleton.mpr rfl
  | tags => exact List.forall_mem_map.mpr fun _ _ => rfl

/-- What a line outside of doc strings opens. -/
inductive LineKind.Opens (line : Nat) (raw : Text) : LineKind → LineState → Prop where
  | docString : Opens line raw (.fence true) (.docString ⟨raw.indentation, line, []⟩)
  | header (kind : SectionKind) (keyword name : Text) :
      Opens line raw (.header kind keyword name) (.header ⟨kind, keyword, name, line, []⟩)

namespace Reading

/-- The reading with more events in front. -/
def behind (events : List Event) (reading : Reading) : Reading :=
  ⟨events ++ reading.events, reading.fault⟩

theorem behind_nil (reading : Reading) : reading.behind [] = reading :=
  rfl

end Reading

namespace LineState

variable {v : Vocabulary} {s next : LineState} {n : Nat} {raw : Text} {lines raws : List Text}
  {events : List Event}

theorem readFrom_ok (h : s.step v n raw = (events, .ok next)) :
    s.readFrom v n (raw :: raws) = (next.readFrom v (n + 1) raws).behind events := by
  rw [readFrom, h]
  rfl

theorem readFrom_error {fault : Fault} (h : s.step v n raw = (events, .error fault)) :
    s.readFrom v n (raw :: raws) = ⟨events, some fault⟩ := by
  rw [readFrom, h]

/-! ### Single lines -/

/-- What a line outside of doc strings may do: it goes with a description that is open, and anything else
ends the description, be it reported, opened or at fault. -/
inductive Outside (s : LineState) (n : Nat) (raw : Text) :
    LineKind → List Event × Except Fault LineState → Prop where
  | gathered {kind : LineKind} (text : kind.isText = true) : Outside s n raw kind ([], .ok (s.blank raw))
  | reported {kind : LineKind} {events : List Event} (own : kind.Reports n events) :
      Outside s n raw kind (s.flush ++ events, .ok idle)
  | opened {kind : LineKind} {next : LineState} (own : kind.Opens n raw next) :
      Outside s n raw kind (s.flush, .ok next)
  | refused {kind : LineKind} (cause : Cause) : Outside s n raw kind (s.flush, .error ⟨cause, n⟩)

theorem outside_cases (s : LineState) (n : Nat) (raw : Text) (kind : LineKind) :
    Outside s n raw kind (s.outside n raw kind) := by
  cases kind with
  | blank => exact .gathered rfl
  | comment text => exact .reported (.comment text)
  | tags text =>
    simp only [outside]
    split
    next found => exact .reported (.tags found)
    · exact .refused _
  | row text =>
    simp only [outside]
    split
    next found => exact .reported (.row found)
    · exact .refused _
  | fence bare =>
    cases bare with
    | true => exact .opened .docString
    | false => exact .refused _
  | step keyword name => exact .reported (.step keyword name)
  | header kind keyword name => exact .opened (.header kind keyword name)
  | other text =>
    -- Without a header the line has nothing to end, and is at fault itself.
    cases s with
    | header pending => exact .gathered rfl
    | idle | docString => exact .refused _

/-! ### Descriptions -/

/-- A line that is no text does the same as if no header were open, once the header has been reported. -/
theorem step_header_closed (pending : PendingHeader) (closed : (v.kind raw).isText = false) :
    (header pending).step v n raw =
      (pending.event :: (idle.step v n raw).1, (idle.step v n raw).2) := by
  simp only [step]
  generalize v.kind raw = kind at closed
  cases kind with
  | blank | other => cases closed
  | comment | step | header => rfl
  | tags text => cases found : TagLine.split? text <;> simp [outside, found, flush]
  | row text => cases found : TableRow.split? text <;> simp [outside, found, flush]
  | fence bare => cases bare <;> rfl

/-- An open header takes lines of text. -/
theorem readFrom_header_text (pending : PendingHeader) (text : ∀ l ∈ lines, (v.kind l).isText = true)
    (n : Nat) (raws : List Text) :
    (header pending).readFrom v n (lines ++ raws) =
      (header { pending with description := pending.description ++ lines }).readFrom v
        (n + lines.length) raws := by
  induction lines generalizing pending n with
  | nil => simp
  | cons l lines ih =>
    obtain ⟨first, others⟩ := List.forall_mem_cons.mp text
    have taken : (header pending).step v n l = ([], .ok (header (pending.extend l))) := by
      cases kind : v.kind l <;> simp [LineKind.isText, kind] at first <;>
        simp [step, kind, outside, blank]
    rw [List.cons_append, readFrom_ok taken, Reading.behind_nil, ih _ others]
    simp [PendingHeader.extend, Nat.add_assoc, Nat.add_comm 1]

/-- Where no text follows, an open header is reported, and reading goes on as if none were open. -/
theorem readFrom_header_closed (pending : PendingHeader)
    (closed : ∀ l, raws.head? = some l → (v.kind l).isText = false) (n : Nat) :
    (header pending).readFrom v n raws = (idle.readFrom v n raws).behind [pending.event] := by
  cases raws with
  | nil => rfl
  | cons l raws =>
    have same := step_header_closed (v := v) (n := n) pending (closed l rfl)
    rcases reported : idle.step v n l with ⟨events, fault | next⟩
    · rw [reported] at same
      rw [readFrom_error same, readFrom_error reported]
      rfl
    · rw [reported] at same
      rw [readFrom_ok same, readFrom_ok reported]
      rfl

/-! ### Doc strings -/

/-- An open doc string takes lines that are no fences. -/
theorem readFrom_docString_body (block : OpenDocString) (inside : ∀ l ∈ lines, fence? l = none) (n : Nat)
    (raws : List Text) :
    (docString block).readFrom v n (lines ++ raws) =
      (docString { block with lines := block.lines ++ lines }).readFrom v (n + lines.length) raws := by
  induction lines generalizing block n with
  | nil => simp
  | cons l lines ih =>
    obtain ⟨first, others⟩ := List.forall_mem_cons.mp inside
    have taken : (docString block).step v n l = ([], .ok (docString (block.extend l))) := by
      simp [step, LineState.inside, first]
    rw [List.cons_append, readFrom_ok taken, Reading.behind_nil, ih _ others]
    simp [OpenDocString.extend, Nat.add_assoc, Nat.add_comm 1]

/-- A bare fence ends it. -/
theorem readFrom_docString_closed (block : OpenDocString) (closes : fence? raw = some true) (n : Nat)
    (raws : List Text) :
    (docString block).readFrom v n (raw :: raws) =
      (idle.readFrom v (n + 1) raws).behind [block.event] :=
  readFrom_ok (by simp [step, inside, closes])

/-- Where there is no fault it is ended by one. -/
theorem exists_closing (block : OpenDocString) (n : Nat)
    (complete : ((docString block).readFrom v n raws).fault = none) :
    ∃ lines close others, raws = lines ++ close :: others ∧ (∀ l ∈ lines, fence? l = none) ∧
      fence? close = some true := by
  induction raws generalizing block n with
  | nil => cases complete
  | cons l raws ih =>
    cases fenced : fence? l with
    | none =>
      have taken : (docString block).step v n l = ([], .ok (docString (block.extend l))) := by
        simp [step, inside, fenced]
      rw [readFrom_ok taken] at complete
      obtain ⟨lines, close, others, rfl, unfenced, closes⟩ := ih _ _ complete
      exact ⟨l :: lines, close, others, rfl, List.forall_mem_cons.mpr ⟨fenced, unfenced⟩, closes⟩
    | some bare =>
      cases bare with
      | true => exact ⟨[], l, raws, rfl, by simp, fenced⟩
      | false =>
        have refused : (docString block).step v n l = ([], .error ⟨.textAfterFence, n⟩) := by
          simp [step, inside, fenced]
        rw [readFrom_error refused] at complete
        cases complete

/-! ### Lines in front of others -/

/-- Lines that are read without a fault are read alike in front of others, unless these go on with a
description that is open at their end. -/
theorem exists_readFrom_append (complete : (s.readFrom v n raws).fault = none) :
    ∃ events, s.readFrom v n raws = ⟨events ++ [.endOfInput (n + raws.length)], none⟩ ∧
      ∀ more, (∀ l, more.head? = some l → (v.kind l).isText = false) →
        s.readFrom v n (raws ++ more) = (idle.readFrom v (n + raws.length) more).behind events := by
  induction raws generalizing s n with
  | nil =>
    cases s with
    | idle => exact ⟨[], rfl, fun more _ => rfl⟩
    | header pending =>
      exact ⟨[pending.event], rfl, fun more closed => readFrom_header_closed pending closed n⟩
    | docString block => cases complete
  | cons raw raws ih =>
    rcases moves : s.step v n raw with ⟨events, fault | next⟩
    · rw [readFrom_error moves] at complete
      cases complete
    · rw [readFrom_ok moves] at complete
      obtain ⟨others, read, onward⟩ := ih complete
      have length : n + (raw :: raws).length = n + 1 + raws.length := by
        rw [List.length_cons]
        omega
      refine ⟨events ++ others, ?_, fun more closed => ?_⟩
      · rw [readFrom_ok moves, read, length]
        simp [Reading.behind]
      · rw [List.cons_append, readFrom_ok moves, onward more closed, length]
        simp [Reading.behind]

end LineState

end FeatureFile
