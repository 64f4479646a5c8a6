import FeatureFile.Proofs.Document.Delivery
import FeatureFile.Proofs.Document.Margins
import FeatureFile.Proofs.Line.Classes
import FeatureFile.Proofs.Line.Reading
import FeatureFile.Proofs.Line.WellFormed
/-!
Every line of a document is accounted for once: it gives events of its own, or it belongs to the
description of the header or to the doc string that was opened in front of it, or it is blank. Reading
takes a document exactly where its lines can be accounted for, and reports the events of that account.
-/

namespace FeatureFile

open Vocabulary (ofLanguage)

theorem Text.filter_unindent (t : Text) :
    t.unindent.filter (!isBlankChar ·) = t.filter (!isBlankChar ·) := by
  induction t with
  | nil => rfl
  | cons c t ih =>
    cases blank : isBlankChar c with
    | true => simpa [unindent, trimStartBy, blank] using ih
    | false => simp [unindent, trimStartBy, blank]

/-! ### Fences -/

/-- A fence behind `w`, with nothing but spaces and tabs around it. -/
structure IsBareFence (w raw : Text) : Prop where
  indent : ∀ c ∈ w, c = ' ' ∨ c = '\t'
  bare : ∃ rest, raw = w ++ fence ++ rest ∧ ∀ c ∈ rest, c = ' ' ∨ c = '\t'

private theorem blank_iff {w : Text} :
    (∀ c ∈ w, Text.isBlankChar c = true) ↔ ∀ c ∈ w, c = ' ' ∨ c = '\t' := by
  simp [Text.isBlankChar]

namespace IsBareFence

variable {w raw : Text}

theorem unindent (is : IsBareFence w raw) :
    ∃ rest, raw.unindent = fence ++ rest ∧ rest.all Text.isBlankChar = true := by
  obtain ⟨rest, rfl, blank⟩ := is.bare
  refine ⟨rest, ?_, List.all_eq_true.mpr (blank_iff.mpr blank)⟩
  rw [List.append_assoc, Text.unindent_append (blank_iff.mpr is.indent)]
  rfl

theorem indentation (is : IsBareFence w raw) : raw.indentation = w.length := by
  obtain ⟨rest, rfl, -⟩ := is.bare
  rw [Text.indentation, List.append_assoc,
    List.takeWhile_append_of_pos (blank_iff.mpr is.indent)]
  simp [fence, Text.isBlankChar]

theorem fence? (is : IsBareFence w raw) : fence? raw = some true := by
  obtain ⟨rest, split, blank⟩ := is.unindent
  rw [FeatureFile.fence?, Text.after?_eq_some_iff.mpr split, Option.map_some, blank]

end IsBareFence

theorem exists_isBareFence {raw : Text} (fenced : fence? raw = some true) :
    ∃ w, IsBareFence w raw := by
  obtain ⟨rest, split, bare⟩ := Option.map_eq_some_iff.mp fenced
  refine ⟨raw.takeWhile Text.isBlankChar,
    blank_iff.mp fun _ member => List.mem_takeWhile_imp member, rest, ?_,
    blank_iff.mp (List.all_eq_true.mp bare)⟩
  rw [List.append_assoc, ← Text.after?_eq_some_iff.mp split, Text.indentation_append_unindent]

/-! ### Accounts -/

/-- The events of the lines from number `n` on. -/
inductive Accounts (language : Language) : Nat → List Text → List Event → Prop where
  | nil {n : Nat} : Accounts language n [] []
  | blank {n : Nat} {raw : Text} {raws : List Text} {events : List Event} (nothing : raw.unindent = [])
      (others : Accounts language (n + 1) raws events) : Accounts language n (raw :: raws) events
  | comment {n : Nat} {raw rest : Text} {raws : List Text} {events : List Event}
      (mark : raw.unindent = '#' :: rest) (others : Accounts language (n + 1) raws events) :
      Accounts language n (raw :: raws) (.comment ('#' :: rest) n :: events)
  /-- Put together the tags are the line without its blanks. -/
  | tags {n : Nat} {raw rest : Text} {tags raws : List Text} {events : List Event}
      (mark : raw.unindent = '@' :: rest) (found : TagLine.split? ('@' :: rest) = some tags)
      (each : ∀ tag ∈ tags, tag.IsTag) (whole : tags.flatten = raw.filter (!Text.isBlankChar ·))
      (others : Accounts language (n + 1) raws events) :
      Accounts language n (raw :: raws) (tags.map (.tag · n) ++ events)
  | row {n : Nat} {raw rest : Text} {cells raws : List Text} {events : List Event}
      (mark : raw.unindent = '|' :: rest) (found : TableRow.split? ('|' :: rest) = some cells)
      (others : Accounts language (n + 1) raws events) :
      Accounts language n (raw :: raws) (.row cells n :: events)
  /-- A bare fence, lines that start with none, and the next fence, which is bare as well. The content are
  the lines between them without as much whitespace in front as the first fence has. -/
  | docString {n : Nat} {w w' raw close content : Text} {body raws : List Text} {events : List Event}
      (opens : IsBareFence w raw) (inside : ∀ l ∈ body, ¬ fence <+: l.unindent)
      (closes : IsBareFence w' close) (dedented : Text.IsContent w.length body content)
      (others : Accounts language (n + 1 + body.length + 1) raws events) :
      Accounts language n (raw :: (body ++ close :: raws)) (.docString content n :: events)
  | step {n : Nat} {raw k name : Text} {raws : List Text} {events : List Event}
      (is : IsStep language raw k name) (others : Accounts language (n + 1) raws events) :
      Accounts language n (raw :: raws) (.step k name n :: events)
  /-- A header and the lines of text behind it, up to the first line that is none. -/
  | header {n : Nat} {raw k name : Text} {kind : SectionKind} {text raws : List Text}
      {events : List Event} (is : IsHeader language raw kind k name)
      (description : ∀ l ∈ text, IsText language l)
      (ends : ∀ l, raws.head? = some l → ¬ IsText language l)
      (others : Accounts language (n + 1 + text.length) raws events) :
      Accounts language n (raw :: (text ++ raws))
        (.header kind ⟨k, name, Text.joinLines text, n⟩ :: events)

namespace Accounts

open LineState

variable {language : Language} {n : Nat} {raws : List Text} {events : List Event}

/-- The reading of lines that give these events and nothing else. -/
private def whole (n : Nat) (raws : List Text) (events : List Event) : Reading :=
  ⟨events ++ [.endOfInput (n + raws.length)], none⟩

/-- A line that leaves nothing open. -/
private theorem readFrom_line {v : Vocabulary} {raw : Text} {own : List Event}
    (step : idle.step v n raw = (own, .ok idle))
    (others : idle.readFrom v (n + 1) raws = whole (n + 1) raws events) :
    idle.readFrom v n (raw :: raws) = whole n (raw :: raws) (own ++ events) := by
  rw [readFrom_ok step, others]
  simp [whole, Reading.behind, Nat.add_assoc, Nat.add_comm 1]

/-- What is accounted for is read. -/
private theorem readFrom (accounts : Accounts language n raws events) :
    idle.readFrom (ofLanguage language) n raws = whole n raws events := by
  have moves {n : Nat} {raw : Text} {kind : LineKind} (found : (ofLanguage language).kind raw = kind) :
      idle.step (ofLanguage language) n raw = idle.outside n raw kind :=
    found ▸ rfl
  induction accounts with
  | nil => rfl
  | @blank n raw raws events nothing _ ih =>
    have kind : (ofLanguage language).kind raw = .blank := by simp [Vocabulary.kind, nothing]
    exact readFrom_line (moves kind) ih
  | @comment n raw rest raws events mark _ ih =>
    have kind : (ofLanguage language).kind raw = .comment ('#' :: rest) := by simp [Vocabulary.kind, mark]
    exact readFrom_line (moves kind) ih
  | @tags n raw rest tags raws events mark found _ _ _ ih =>
    have kind : (ofLanguage language).kind raw = .tags ('@' :: rest) := by simp [Vocabulary.kind, mark]
    exact readFrom_line ((moves kind).trans (by rw [outside, found]; rfl)) ih
  | @row n raw rest cells raws events mark found _ ih =>
    have kind : (ofLanguage language).kind raw = .row ('|' :: rest) := by simp [Vocabulary.kind, mark]
    exact readFrom_line ((moves kind).trans (by rw [outside, found])) ih
  | step is _ ih => exact readFrom_line (moves (Vocabulary.kind_eq_step_iff.mpr is)) ih
  | @docString n w w' raw close content body raws events opens inside closes dedented _ ih =>
    have kind : (ofLanguage language).kind raw = .fence true := Vocabulary.kind_of_fence? opens.fence? _
    have step : idle.step (ofLanguage language) n raw =
        ([], .ok (.docString ⟨w.length, n, []⟩)) := opens.indentation ▸ moves kind
    have unfenced : ∀ l ∈ body, fence? l = none := fun l member =>
      fence?_eq_none_iff.mpr (inside l member)
    rw [readFrom_ok step, readFrom_docString_body _ unfenced,
      readFrom_docString_closed _ closes.fence?, ih]
    simp [whole, Reading.behind, OpenDocString.event, dedent_eq_iff.mpr dedented]
    omega
  | @header n raw k name kind text raws events is description ends _ ih =>
    have step : idle.step (ofLanguage language) n raw =
        ([], .ok (.header ⟨kind, k, name, n, []⟩)) := moves (Vocabulary.kind_eq_header_iff.mpr is)
    have isText (l : Text) (member : l ∈ text) : ((ofLanguage language).kind l).isText = true :=
      Vocabulary.isText_kind_iff.mpr (description l member)
    have closed (l : Text) (first : raws.head? = some l) :
        ((ofLanguage language).kind l).isText = false :=
      Bool.eq_false_iff.mpr (mt Vocabulary.isText_kind_iff.mp (ends l first))
    rw [readFrom_ok step, readFrom_header_text _ isText, readFrom_header_closed _ closed, ih]
    simp [whole, Reading.behind, PendingHeader.event]
    omega

/-- The lines of text that a document goes on with. -/
private theorem exists_text_prefix (v : Vocabulary) (raws : List Text) :
    ∃ text others, raws = text ++ others ∧ (∀ l ∈ text, (v.kind l).isText = true) ∧
      ∀ l, others.head? = some l → (v.kind l).isText = false := by
  let isText (l : Text) : Bool := (v.kind l).isText
  refine ⟨raws.takeWhile isText, raws.dropWhile isText, List.takeWhile_append_dropWhile.symm,
    fun l member => List.mem_takeWhile_imp (p := isText) member, fun l first => ?_⟩
  have ends := List.head?_dropWhile_not isText raws
  rw [first] at ends
  simpa using ends

/-- What is read without a fault can be accounted for. -/
theorem exists_of_readFrom (complete : (idle.readFrom (ofLanguage language) n raws).fault = none) :
    ∃ events, Accounts language n raws events := by
  induction size : raws.length using Nat.strong_induction_on generalizing raws n with
  | _ _ ih =>
  subst size
  cases raws with
  | nil => exact ⟨[], .nil⟩
  | cons raw raws =>
    have decided := Vocabulary.decided (ofLanguage language) raw
    have moves : idle.step (ofLanguage language) n raw =
        idle.outside n raw ((ofLanguage language).kind raw) := rfl
    -- Behind a line that leaves nothing open the others are accounted for.
    have behind {own : List Event} (step : idle.step (ofLanguage language) n raw = (own, .ok idle)) :
        ∃ events, Accounts language (n + 1) raws events := by
      rw [readFrom_ok step] at complete
      exact ih raws.length (by simp) complete rfl
    -- A line that is refused is a fault.
    have refused {own : List Event} {fault : Fault}
        (step : idle.step (ofLanguage language) n raw = (own, .error fault)) : False := by
      rw [readFrom_error step] at complete
      cases complete
    generalize found : (ofLanguage language).kind raw = kind at decided moves
    cases decided with
    | blank nothing =>
      obtain ⟨events, others⟩ := behind moves
      exact ⟨_, .blank nothing others⟩
    | comment mark =>
      obtain ⟨events, others⟩ := behind moves
      exact ⟨_, .comment mark others⟩
    | @tags rest mark =>
      cases split : TagLine.split? ('@' :: rest) with
      | none => exact (refused (by rw [moves, outside, split])).elim
      | some tags =>
        obtain ⟨events, others⟩ := behind (by rw [moves, outside, split])
        refine ⟨_, .tags mark split (TagLine.isTag_of_split? split) ?_ others⟩
        rw [TagLine.flatten_of_split? split, ← mark, Text.filter_unindent]
    | @row rest mark =>
      cases split : TableRow.split? ('|' :: rest) with
      | none => exact (refused (by rw [moves, outside, split])).elim
      | some cells =>
        obtain ⟨events, others⟩ := behind (by rw [moves, outside, split])
        exact ⟨_, .row mark split others⟩
    | @fence bare opens =>
      cases bare with
      | false => exact (refused moves).elim
      | true =>
        rw [readFrom_ok moves] at complete
        obtain ⟨body, close, raws, rfl, inside, closes⟩ := exists_closing _ _ complete
        rw [readFrom_docString_body _ inside, readFrom_docString_closed _ closes] at complete
        obtain ⟨events, others⟩ :=
          ih raws.length (by simp only [List.length_cons, List.length_append]; omega) complete rfl
        obtain ⟨w, opens⟩ := exists_isBareFence opens
        obtain ⟨w', closes⟩ := exists_isBareFence closes
        exact ⟨_, .docString opens (fun l member => fence?_eq_none_iff.mp (inside l member)) closes
          (dedent_eq_iff.mp rfl) others⟩
    | step =>
      obtain ⟨events, others⟩ := behind moves
      exact ⟨_, .step (Vocabulary.kind_eq_step_iff.mp found) others⟩
    | @header kind k name =>
      rw [readFrom_ok moves] at complete
      -- Its description is made of the lines of text that follow.
      obtain ⟨text, raws, rfl, isText, closed⟩ : ∃ text others, raws = text ++ others ∧
          (∀ l ∈ text, ((ofLanguage language).kind l).isText = true) ∧
            ∀ l, others.head? = some l → ((ofLanguage language).kind l).isText = false :=
        exists_text_prefix _ _
      rw [readFrom_header_text _ isText, readFrom_header_closed _ closed] at complete
      obtain ⟨events, others⟩ :=
        ih raws.length (by simp only [List.length_cons, List.length_append]; omega) complete rfl
      have ended : ∀ l, raws.head? = some l → ¬ IsText language l := by
        intro l first text
        have other := closed l first
        rw [Vocabulary.isText_kind_iff.mpr text] at other
        cases other
      exact ⟨_, .header (Vocabulary.kind_eq_header_iff.mp found)
        (fun l member => Vocabulary.isText_kind_iff.mp (isText l member)) ended others⟩
    | other => exact (refused moves).elim

/-- Lines are read without a fault where they can be accounted for, and their account is reported. -/
theorem readFrom_iff {reported : List Event} :
    idle.readFrom (ofLanguage language) n raws = ⟨reported, none⟩ ↔
      ∃ events, reported = events ++ [.endOfInput (n + raws.length)] ∧
        Accounts language n raws events := by
  constructor
  · intro read
    obtain ⟨events, accounts⟩ := exists_of_readFrom (congrArg Reading.fault read)
    rw [accounts.readFrom] at read
    exact ⟨events, (congrArg Reading.events read).symm, accounts⟩
  · rintro ⟨events, rfl, accounts⟩
    exact accounts.readFrom

/-- A document that has a tree, or that has none without being at fault, can be accounted for. -/
theorem exists_of_tree {source : Text} {tree : Option Feature}
    (made : ((ofLanguage language).read source).tree = .ok tree) :
    ∃ body, (ofLanguage language).read source =
        ⟨body ++ [.endOfInput (1 + source.lines.length)], none⟩ ∧
      Accounts language 1 source.lines body := by
  have complete := (Reading.tree_eq_ok_iff.mp made).1
  have read : (ofLanguage language).read source = ⟨((ofLanguage language).read source).events, none⟩ := by
    rw [← complete]
  obtain ⟨body, whole, accounts⟩ := readFrom_iff.mp read
  exact ⟨body, by rw [read, whole], accounts⟩

end Accounts

/-- Listening to a document and taking every event. -/
def takeAll {ε : Type} (taken : List Event) (event : Event) : Except ε (List Event) :=
  .ok (taken ++ [event])

/-- It takes them all, and the fault is what ends it. -/
theorem Reading.deliver_takeAll_eq_iff {ε : Type} {reading : Reading} {report : Fault → ε}
    {taken : List Event} :
    reading.deliver takeAll report [] = (taken, none) ↔ reading = ⟨taken, none⟩ := by
  have delivered (before events : List Event) :
      FeatureFile.deliver (takeAll (ε := ε)) before events = (before ++ events, none) := by
    induction events generalizing before with
    | nil => simp [FeatureFile.deliver]
    | cons event events ih => simp [FeatureFile.deliver, takeAll, ih]
  cases reading
  simp [Reading.deliver, delivered]

/-- Every line of a document is accounted for exactly once. -/
theorem Vocabulary.read_accounts_iff (language : Language) (source : Text) (path : String)
    (taken : List Event) :
    ((ofLanguage language).read source).deliver takeAll (Fault.toError path) [] = (taken, none) ↔
      ∃ events, taken = events ++ [.endOfInput source.endLine] ∧
        Accounts language 1 source.lines events := by
  have ends : source.endLine = 1 + source.lines.length := Nat.add_comm _ _
  rw [Reading.deliver_takeAll_eq_iff, ends]
  exact Accounts.readFrom_iff

/-- A doc string whose lines have more whitespace in front than its fence, less, none, and other whitespace
than spaces and tabs. -/
theorem Vocabulary.read_accounts_iff_margins :
    let language : Language := ⟨"en", .ofList [(.name, "English".toList)], by decide⟩
    let source := "#c\n  \"\"\"\n    a\n b \n\n\u00a0\t\tc\n\"\"\" \n".toList
    ((ofLanguage language).read source).deliver takeAll (Fault.toError "f") [] =
      ([.comment ['#', 'c'] 1, .docString "  a\nb \n\n\tc".toList 2, .endOfInput 8], none) := by
  intro language source
  refine (read_accounts_iff language source "f" _).mpr
    ⟨[.comment ['#', 'c'] 1, .docString "  a\nb \n\n\tc".toList 2], rfl, .comment rfl ?_⟩
  let body := ["    a".toList, " b ".toList, [], "\u00a0\t\tc".toList]
  have content : Text.IsContent 2 body "  a\nb \n\n\tc".toList := by
    refine ⟨["  a".toList, "b ".toList, [], "\tc".toList], ?_, by decide⟩
    refine .cons ⟨"  ".toList, ?_⟩ (.cons ⟨" ".toList, ?_⟩ (.cons ⟨[], ?_⟩
      (.cons ⟨"\u00a0\t".toList, ?_⟩ .nil))) <;> simp [Text.isWhitespace]
  have opens : IsBareFence "  ".toList "  \"\"\"".toList := ⟨by simp, [], rfl, by simp⟩
  have closes : IsBareFence [] "\"\"\" ".toList := ⟨by simp, [' '], rfl, by simp⟩
  have inside : ∀ l ∈ body, ¬ fence <+: Text.unindent l := by decide
  exact .docString opens inside closes content .nil

end FeatureFile
