import FeatureFile.Language.Keywords
import FeatureFile.Proofs.Document.Contents
import FeatureFile.Proofs.Document.Delivery
import FeatureFile.Proofs.Document.Filtering
import FeatureFile.Proofs.Document.Reachable
import FeatureFile.Proofs.Text.Trim
/-!
Well-formed trees. What the events of a document satisfy one by one, the tree that is assembled from
them satisfies throughout, whatever else happened on the way; filtering keeps it.
-/

namespace FeatureFile

/-! ### Texts -/

namespace Text

/-- A tag: `@` and something behind it, which no further `@` and no blank or line feed interrupts. -/
def IsTag (t : Text) : Prop :=
  ∃ name, t = '@' :: name ∧ name ≠ [] ∧ ∀ c ∈ name, c ≠ '@' ∧ c ≠ ' ' ∧ c ≠ '\t' ∧ c ≠ '\n'

def IsComment (t : Text) : Prop :=
  t.head? = some '#'

/-- A name: one line without whitespace around it. -/
structure IsName (t : Text) : Prop where
  trimmed : t.trim = t
  unbroken : '\n' ∉ t

/-- A cell: one line without whitespace around it and without a pipe. -/
structure IsCell (t : Text) : Prop where
  trimmed : t.trim = t
  unbroken : '\n' ∉ t
  unpiped : '|' ∉ t

variable {t : Text}

theorem IsComment.trim (h : t.IsComment) : t.trim.IsComment :=
  head?_trim (by decide) h

theorem isName_trim (unbroken : '\n' ∉ t) : t.trim.IsName :=
  ⟨t.trim_trim, fun member => unbroken (mem_of_mem_trimBy member)⟩

theorem isCell_trim (unbroken : '\n' ∉ t) (unpiped : '|' ∉ t) : t.trim.IsCell :=
  ⟨t.trim_trim, fun member => unbroken (mem_of_mem_trimBy member),
    fun member => unpiped (mem_of_mem_trimBy member)⟩

end Text

/-! ### Events and trees -/

/-- Cells of a row, of which it has at least one. -/
def IsCells (cells : List Text) : Prop :=
  cells ≠ [] ∧ ∀ cell ∈ cells, cell.IsCell

/-- An event as a document in the language can report it. Names are trimmed by the assembly. -/
def Event.WellFormed (language : Language) : Event → Prop
  | comment text _ => text.IsComment
  | tag name _ => name.IsTag
  | header kind h =>
    h.keyword ∈ language.presentKeywords kind.concept ∧ h.keyword ≠ [] ∧ '\n' ∉ h.name
  | step keyword name _ =>
    keyword ∈ language.presentStepKeywords ∧ keyword ≠ [] ∧ '\n' ∉ name
  | row cells _ => IsCells cells
  | docString _ _ | endOfInput _ => True

structure Heading.WellFormed (language : Language) (heading : Heading) : Prop where
  keyword : heading.header.keyword ∈ language.presentKeywords heading.kind.concept
  present : heading.header.keyword ≠ []
  name : heading.header.name.IsName
  tags : ∀ tag ∈ heading.tags, tag.name.IsTag
  comments : ∀ comment ∈ heading.comments, comment.text.IsComment

/-- A table: at least one row, each with at least one cell. -/
def IsRows (rows : List Row) : Prop :=
  rows ≠ [] ∧ ∀ row ∈ rows, IsCells row.cells

structure Step.WellFormed (language : Language) (step : Step) : Prop where
  keyword : step.keyword ∈ language.presentStepKeywords
  present : step.keyword ≠ []
  name : step.name.IsName
  table : ∀ rows, step.argument = some (.table rows) → IsRows rows

/-- A tree as a document in the language can have it. -/
structure Feature.WellFormed (language : Language) (f : Feature) : Prop where
  headings : ∀ heading ∈ f.headings, heading.WellFormed language
  steps : ∀ step ∈ f.steps, step.WellFormed language
  examples : ∀ element ∈ f.elements, ∀ e ∈ element.examples, IsRows e.rows
  outlines : ∀ o, .outline o ∈ f.elements → o.examples ≠ []

/-! ### Assembling -/

namespace Feature

variable {f : Feature}

/-- A step of the tree stands in it with what it carries. -/
theorem contents_of_mem_steps {step : Step} (member : step ∈ f.steps) :
    ∀ event ∈ step.contents, event ∈ f.contents := by
  intro event inside
  simp only [contents, List.mem_cons, List.mem_append, List.mem_flatMap]
  rcases List.mem_append.mp member with below | below
  · obtain ⟨b, present, own⟩ := List.mem_flatMap.mp below
    exact .inr (.inl ⟨b, present, .tail _ (List.mem_flatMap.mpr ⟨step, own, inside⟩)⟩)
  · obtain ⟨element, present, own⟩ := List.mem_flatMap.mp below
    refine .inr (.inr ⟨element, present, .tail _ (List.mem_append_left _ ?_)⟩)
    exact List.mem_flatMap.mpr ⟨step, own, inside⟩

theorem contents_of_mem_rows {element : Element} {e : Examples} {row : Row}
    (present : element ∈ f.elements) (own : e ∈ element.examples) (member : row ∈ e.rows) :
    row.event ∈ f.contents := by
  simp only [contents, List.mem_cons, List.mem_append, List.mem_flatMap]
  refine .inr (.inr ⟨element, present, .tail _ (List.mem_append_right _ ?_)⟩)
  exact List.mem_flatMap.mpr ⟨e, own, .tail _ (List.mem_map_of_mem member)⟩

end Feature

namespace Assembly

/-- What an assembly holds of well-formed events: what is in the tree, and what waits for it. -/
structure Holding (language : Language) (a : Assembly) : Prop where
  contents : ∀ event ∈ a.contents, ∃ e : Event, e.WellFormed language ∧ event = e.normal
  headings : ∀ heading ∈ a.headings, heading.WellFormed language
  tags : ∀ tag ∈ a.tags, tag.name.IsTag
  comments : ∀ comment ∈ a.comments, comment.text.IsComment

variable {language : Language} {a b : Assembly}

theorem holding_start : start.Holding language := by
  constructor <;> simp [contents, headings, start]

/-- The end of the document moves the comments that wait to the feature. -/
private theorem accepted_end {line : Nat} (done : a.accept (.endOfInput line) = .accepted b) :
    (a.feature = none ∧ b = a) ∨ ∃ f, a.feature = some f ∧
      b = { a with comments := [], feature := some { f with comments := f.comments ++ a.comments } } := by
  simp only [accept, acceptEnd] at done
  split at done
  · cases done
  · split at done
    next absent =>
      cases done
      exact .inl ⟨absent, rfl⟩
    next f present =>
      split at done <;> cases done
      exact .inr ⟨f, present, rfl⟩

theorem Holding.accepted (holding : a.Holding language) (sound : a.Sound) {event : Event}
    (formed : event.WellFormed language) (done : a.accept event = .accepted b) :
    b.Holding language := by
  -- The end moves what waits; any other event adds what it brings itself, or lets nothing wait any more.
  cases inside : event.isEnd with
  | true =>
    cases event <;> try cases inside
    rcases accepted_end done with ⟨_, rfl⟩ | ⟨f, present, rfl⟩
    · exact holding
    · have held : ∀ heading ∈ f.headings, heading.WellFormed language := by
        simpa [Assembly.headings, present] using holding.headings
      have held' : ∀ event ∈ f.contents, ∃ e : Event, e.WellFormed language ∧ event = e.normal := by
        simpa [Assembly.contents, present] using holding.contents
      obtain ⟨first, others⟩ := List.forall_mem_cons.mp held
      refine ⟨held', ?_, holding.tags, by simp⟩
      · refine List.forall_mem_cons.mpr ⟨{ first with comments := ?_ }, others⟩
        exact List.forall_mem_append.mpr ⟨first.comments, holding.comments⟩
  | false =>
    obtain ⟨contents, headings⟩ := sound.adds inside done
    obtain ⟨tags, comments⟩ := sound.waiting_behind inside done
    constructor
    · rw [contents]
      refine List.forall_mem_append.mpr ⟨holding.contents, ?_⟩
      split
      · simpa using ⟨event, formed, rfl⟩
      · simp
    · rw [headings]
      refine List.forall_mem_append.mpr ⟨holding.headings, ?_⟩
      cases event with
      | header kind h =>
        obtain ⟨keyword, present, unbroken⟩ := formed
        refine List.forall_mem_singleton.mpr
          ⟨keyword, present, Text.isName_trim unbroken, ?_, holding.comments⟩
        show ∀ tag ∈ if kind = .background then [] else a.tags, _
        split
        · simp
        · exact holding.tags
      | _ => simp
    · rw [tags]
      split
      · simp
      · refine List.forall_mem_append.mpr ⟨holding.tags, ?_⟩
        cases event with
        | tag name line => exact List.forall_mem_singleton.mpr formed
        | _ => simp [Event.tag?]
    · rw [comments]
      split
      · simp
      · refine List.forall_mem_append.mpr ⟨holding.comments, ?_⟩
        cases event with
        | comment text line => simpa [Event.comment?] using Text.IsComment.trim formed
        | _ => simp [Event.comment?]

/-- The tree of such an assembly, where it is filled. -/
theorem Holding.wellFormed (holding : a.Holding language) {f : Feature} (present : a.feature = some f)
    (tables : ∀ step ∈ f.steps, step.IsFilled) (filled : ∀ element ∈ f.elements, element.IsFilled) :
    f.WellFormed language := by
  have contents : ∀ event ∈ f.contents, ∃ e : Event, e.WellFormed language ∧ event = e.normal := by
    simpa [Assembly.contents, present] using holding.contents
  -- A row, and below a step, goes back to the event it was made of.
  have cells (row : Row) (member : row.event ∈ f.contents) : IsCells row.cells := by
    obtain ⟨e, formed, same⟩ := contents _ member
    cases e <;> cases same
    exact formed
  refine ⟨?_, ?_, ?_, ?_⟩
  · simpa [Assembly.headings, present] using holding.headings
  · intro step member
    obtain ⟨e, formed, same⟩ := contents _
      (Feature.contents_of_mem_steps member _ (List.mem_cons_self ..))
    cases e <;> simp only [Event.normal, reduceCtorEq, Event.step.injEq] at same
    obtain ⟨keyword, present, unbroken⟩ := formed
    obtain ⟨sameKeyword, sameName, _⟩ := same
    refine ⟨sameKeyword ▸ keyword, sameKeyword ▸ present, sameName ▸ Text.isName_trim unbroken, ?_⟩
    intro rows carries
    refine ⟨tables step member rows carries, fun row own => cells row ?_⟩
    apply Feature.contents_of_mem_steps member
    simp only [Step.contents, carries, List.mem_cons]
    exact .inr (List.mem_map_of_mem own)
  · intro element member e own
    cases element with
    | scenario s => cases own
    | outline o =>
      obtain ⟨_, sections⟩ := filled _ member
      exact ⟨sections e own, fun row inside =>
        cells row (Feature.contents_of_mem_rows member own inside)⟩
  · intro o member
    exact (filled _ member).1

end Assembly

/-- The tree of well-formed events that close with the end of the document. -/
theorem Reading.wellFormed_of_tree {language : Language} {reading : Reading} {f : Feature}
    (formed : ∀ event ∈ reading.events, event.WellFormed language)
    (closed : reading.fault = none → ∃ body line, reading.events = body ++ [.endOfInput line])
    (made : reading.tree = .ok (some f)) : f.WellFormed language := by
  obtain ⟨complete, last, delivered, present⟩ := tree_eq_ok_iff.mp made
  obtain ⟨body, line, split⟩ := closed complete
  rw [split] at delivered formed
  obtain ⟨before, front, ends⟩ := deliver_append_iff.mp delivered
  -- All three invariants hold in front of the end; the end itself tells that everything is filled.
  have invariants : before.Sound ∧ before.Tidy ∧ before.Holding language := by
    refine Assembly.deliver_invariant (P := fun a => a.Sound ∧ a.Tidy ∧ a.Holding language)
      (Q := Event.WellFormed language) ?_
      ⟨Assembly.sound_start _, Assembly.tidy_start _, Assembly.holding_start⟩ ?_ front
    · rintro a event b ⟨sound, tidy, holding⟩ formed done
      exact ⟨(sound.accepted done).1, sound.tidy tidy done, holding.accepted sound formed done⟩
    · exact fun event member => formed event (List.mem_append_left _ member)
  obtain ⟨sound, tidy, holding⟩ := invariants
  have done := Assembly.accepted_of_deliver ends
  have filled := sound.filled_at_end tidy done present
  have tables := (sound.tidy tidy done f present).tables
  have ended : (Event.endOfInput line).WellFormed language := trivial
  exact (holding.accepted sound ended done).wellFormed present tables filled

/-! ### Filtering -/

namespace Filter

/-- An outline that stays keeps an examples section, if it had one. -/
theorem examples_ne_nil_of_keep? {filter : Filter} {inherited : List Tag} {element : Element}
    {o : Outline} (left : filter.keep? inherited element = some (.outline o))
    (sectioned : element.examples ≠ []) : o.examples ≠ [] := by
  obtain ⟨_, _, pruned, tagged⟩ := (keep?_eq_some_iff ..).mp left
  cases unset : filter.expressions.isEmpty with
  | true =>
    have whole : element.prune (filter.holdsForSection inherited element.tags) = element :=
      Element.prune_of_forall _ _ fun e _ => filter.holdsFor_of_isEmpty unset _
    rw [whole] at pruned
    rwa [← pruned] at sectioned
  | false =>
    simp only [acceptsTags, unset, Bool.false_or, Bool.and_eq_true, Bool.not_eq_true'] at tagged
    exact List.isEmpty_eq_false_iff.mp tagged.1

/-- The headers of a pruned element are some of its headers. -/
theorem headings_prune_subset (passes : Examples → Bool) (element : Element) :
    (element.prune passes).headings ⊆ element.headings := by
  cases element with
  | scenario s => exact List.Subset.refl _
  | outline o =>
    exact List.cons_subset_cons _ (List.map_subset _ (List.filter_subset_self _))

theorem wellFormed_apply {language : Language} {f : Feature} (formed : f.WellFormed language)
    (filter : Filter) : (filter.apply f).WellFormed language := by
  -- What is left of an element has no header, step or section that the element did not have.
  have part : ∀ kept ∈ (filter.apply f).elements, ∃ element ∈ f.elements,
      kept.headings ⊆ element.headings ∧ kept.steps = element.steps ∧
        kept.examples ⊆ element.examples := by
    intro kept member
    obtain ⟨element, present, left⟩ := (filter.mem_elements_apply f).mp member
    obtain ⟨_, _, rfl, _⟩ := (keep?_eq_some_iff ..).mp left
    refine ⟨element, present, headings_prune_subset _ element, by simp, by simp⟩
  refine ⟨?_, ?_, ?_, ?_⟩
  · obtain ⟨own, others⟩ := List.forall_mem_cons.mp formed.headings
    obtain ⟨background, elements⟩ := List.forall_mem_append.mp others
    refine List.forall_mem_cons.mpr ⟨own, List.forall_mem_append.mpr ⟨background, ?_⟩⟩
    intro heading member
    obtain ⟨kept, present, inside⟩ := List.mem_flatMap.mp member
    obtain ⟨element, origin, headings, _⟩ := part kept present
    exact elements heading (List.mem_flatMap.mpr ⟨element, origin, headings inside⟩)
  · obtain ⟨background, elements⟩ := List.forall_mem_append.mp formed.steps
    refine List.forall_mem_append.mpr ⟨background, ?_⟩
    intro step member
    obtain ⟨kept, present, inside⟩ := List.mem_flatMap.mp member
    obtain ⟨element, origin, _, steps, _⟩ := part kept present
    exact elements step (List.mem_flatMap.mpr ⟨element, origin, steps ▸ inside⟩)
  · intro kept present e inside
    obtain ⟨element, origin, _, _, examples⟩ := part kept present
    exact formed.examples element origin e (examples inside)
  · intro o member
    obtain ⟨element, origin, left⟩ := (filter.mem_elements_apply f).mp member
    apply examples_ne_nil_of_keep? left
    obtain ⟨_, _, pruned, _⟩ := (keep?_eq_some_iff ..).mp left
    cases element with
    | scenario s => cases pruned
    | outline p => exact formed.outlines p origin

end Filter

end FeatureFile
