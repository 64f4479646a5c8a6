import FeatureFile.Proofs.Agreement.Readers
import FeatureFile.Proofs.Document.Acceptance
import FeatureFile.Proofs.Document.Normal
/-!
Tags that lead to a header. The line reader lets rows and doc strings stand between a tag and the
header that takes it; the rules of the shipped template do not, so whatever they take has none there.
-/

namespace FeatureFile

/-- Whether the event is a tag. -/
def Event.isTag : Event → Bool
  | tag _ _ => true
  | _ => false

/-- The first event other than comments and tags takes the tags in front of it, if there is one. -/
def HeaderLeads (events : List Event) : Prop :=
  ∀ event, events.find? Event.isContent = some event → event.takesTags = true

/-- Behind every tag, the first event other than comments and tags takes it. -/
def TagsLead (events : List Event) : Prop :=
  ∀ before name line after, events = before ++ .tag name line :: after → HeaderLeads after

theorem headerLeads_cons (event : Event) (events : List Event) :
    HeaderLeads (event :: events) ↔
      if event.isContent then event.takesTags = true else HeaderLeads events := by
  cases content : event.isContent <;> simp [HeaderLeads, List.find?, content]

theorem tagsLead_nil : TagsLead [] := by
  intro before name line after split
  simp at split

theorem tagsLead_cons (event : Event) (events : List Event) :
    TagsLead (event :: events) ↔
      (∀ name line, event = .tag name line → HeaderLeads events) ∧ TagsLead events := by
  constructor
  · intro all
    refine ⟨fun name line same => all [] name line events (by rw [same]; rfl), ?_⟩
    intro before name line after split
    exact all (event :: before) name line after (by rw [split]; rfl)
  · rintro ⟨first, others⟩ before name line after split
    cases before with
    | nil =>
      obtain ⟨rfl, rfl⟩ := List.cons.inj split
      exact first name line rfl
    | cons other before => exact others before name line after (List.cons.inj split).2

instance (events : List Event) : Decidable (HeaderLeads events) :=
  match found : events.find? Event.isContent with
  | none => isTrue fun event same => by simp [found] at same
  | some event =>
    decidable_of_iff (event.takesTags = true) ⟨fun takes other same => by simp_all, fun leads => leads _ found⟩

instance decidableTagsLead : (events : List Event) → Decidable (TagsLead events)
  | [] => isTrue tagsLead_nil
  | event :: events =>
    have := decidableTagsLead events
    decidable_of_iff ((event.isTag = true → HeaderLeads events) ∧ TagsLead events) (by
      rw [tagsLead_cons]
      cases event <;> simp [Event.isTag])

/-- The layout of texts does not matter. -/
theorem tagsLead_congr {first second : List Event}
    (same : first.map Event.normal = second.map Event.normal) : TagsLead first ↔ TagsLead second := by
  suffices both : (HeaderLeads first ↔ HeaderLeads second) ∧
      (TagsLead first ↔ TagsLead second) from both.2
  induction first generalizing second with
  | nil =>
    obtain rfl : second = [] := by simpa using same.symm
    exact ⟨.rfl, .rfl⟩
  | cons d first ih =>
    cases second with
    | nil => simp at same
    | cons e second =>
      obtain ⟨sameEvent, sameRest⟩ := List.cons.inj same
      obtain ⟨headers, tags⟩ := ih sameRest
      have alike : d.isContent = e.isContent ∧ d.takesTags = e.takesTags ∧
          ((∃ name line, d = .tag name line) ↔ ∃ name line, e = .tag name line) := by
        cases d <;> cases e <;> simp_all [Event.normal, Event.isContent, Event.takesTags]
      obtain ⟨content, takes, isTag⟩ := alike
      rw [headerLeads_cons, headerLeads_cons, content, takes, headers, tagsLead_cons, tagsLead_cons,
        tags, headers]
      refine ⟨.rfl, and_congr_left fun _ => ?_⟩
      simpa only [← exists_imp] using imp_congr_left isTag

/-- Blocks whose tags all lead to headers among them. -/
def Block.Settled (bs : List Block) : Prop :=
  ∀ events, TagsLead events → TagsLead (bs.flatMap Block.events ++ events)

namespace Block

theorem settled_nil : Settled [] := fun _ lead => lead

theorem Settled.append {bs more : List Block} (first : Settled bs) (second : Settled more) :
    Settled (bs ++ more) := by
  intro events lead
  rw [List.flatMap_append, List.append_assoc]
  exact first _ (second _ lead)

theorem settled_singleton {b : Block} (untagged : b.shape ≠ .tags) : Settled [b] := by
  intro events lead
  cases b with
  | tags => exact absurd rfl untagged
  | blank => exact lead
  | comment | header | step | row | docString => simpa [Block.events, tagsLead_cons] using lead

/-- Tags in front of a header that takes them, with blank lines and comments between them. -/
theorem settled_tagged {bs more : List Block} (leads : ∀ b ∈ bs, b.mayLead = true) {kind : SectionKind}
    (takes : kind ≠ .background) (h : Header) (settled : Settled more) :
    Settled (bs ++ .header kind h :: more) := by
  intro events lead
  suffices both : HeaderLeads ((bs ++ .header kind h :: more).flatMap Block.events ++ events) ∧
      TagsLead ((bs ++ .header kind h :: more).flatMap Block.events ++ events) from both.2
  induction bs with
  | nil =>
    have behind := settled _ lead
    simp [Block.events, headerLeads_cons, tagsLead_cons, Event.isContent, Event.takesTags, takes, behind]
  | cons b bs ih =>
    simp only [List.mem_cons, forall_eq_or_imp] at leads
    obtain ⟨first, others⟩ := leads
    have ih := ih others
    rw [List.cons_append, List.flatMap_cons, List.append_assoc]
    generalize (bs ++ .header kind h :: more).flatMap Block.events ++ events = rest at ih
    cases b with
    | blank => exact ih
    | comment text line =>
      simpa [Block.events, headerLeads_cons, tagsLead_cons, Event.isContent] using ih
    | tags name names line =>
      -- Each tag of the line leads over the others to what is behind the line.
      simp only [Block.events]
      induction name :: names with
      | nil => exact ih
      | cons name names inner =>
        simp only [List.map_cons, List.cons_append, headerLeads_cons, tagsLead_cons, Event.isContent]
        exact ⟨by simpa using inner.1, fun _ _ _ => inner.1, inner.2⟩
    | header | step | row | docString => cases first

end Block

namespace BlockReader

/-- A reader that takes no tag without the header the tag leads to. -/
def Settles (p : BlockReader) : Prop :=
  ∀ bs used left, p.read bs = some (used, left) → Block.Settled used

variable {p q : BlockReader}

theorem settles_one (shape : Block.Shape) (untagged : shape ≠ .tags) : (one shape).Settles := by
  intro bs used left h
  obtain ⟨b, rfl, -, rfl⟩ := one_read_iff.mp h
  exact Block.settled_singleton untagged

theorem Settles.andThen (first : p.Settles) (second : q.Settles) : (p.andThen q).Settles := by
  intro bs used left h
  obtain ⟨front, middle, more, found, found', rfl⟩ := andThen_read_iff.mp h
  exact (first _ _ _ found).append (second _ _ _ found')

theorem Settles.orElse (first : p.Settles) (second : q.Settles) : (p.orElse q).Settles := by
  intro bs used left h
  rcases Option.or_eq_some_iff.mp h with found | ⟨-, found⟩
  · exact first _ _ _ found
  · exact second _ _ _ found

theorem Settles.maybe (settles : p.Settles) : p.maybe.Settles := by
  intro bs used left h
  cases found : p.read bs with
  | none =>
    obtain ⟨rfl, rfl⟩ : [] = used ∧ bs = left := by simpa [BlockReader.maybe, found] using h
    exact Block.settled_nil
  | some pair =>
    obtain rfl : pair = (used, left) := by simpa [BlockReader.maybe, found] using h
    exact settles _ _ _ found

theorem Settles.many (settles : p.Settles) (progresses : p.Progresses) : p.many.Settles := by
  intro bs used left h
  obtain ⟨rfl, rfl⟩ : (p.rounds bs).1 = used ∧ (p.rounds bs).2 = left := by
    simpa [BlockReader.many, Prod.ext_iff] using h
  induction size : bs.length using Nat.strong_induction_on generalizing bs with
  | _ n ih =>
  subst size
  cases found : p.read bs with
  | none =>
    rw [rounds_none found]
    exact Block.settled_nil
  | some pair =>
    obtain ⟨front, middle⟩ := pair
    rw [rounds_some found (progresses _ _ _ found)]
    exact (settles _ _ _ found).append (ih _ (progresses.length_lt found) middle rfl rfl)

theorem Settles.tagged (kind : SectionKind) (takes : kind ≠ .background) (settles : p.Settles) :
    (tagged kind p).Settles := by
  intro bs used left read
  obtain ⟨front, middle, _, found, behind, rfl⟩ := andThen_read_iff.mp read
  obtain ⟨_, inner, more, header, inside, rfl⟩ := andThen_read_iff.mp behind
  obtain ⟨b, shape, -, rfl⟩ := one_read_iff.mp header
  rw [tags_read, Option.some.injEq, Prod.mk.injEq] at found
  obtain ⟨rfl, rfl⟩ := found
  obtain ⟨h, rfl⟩ := Block.exists_header shape
  exact Block.settled_tagged (fun b mem => List.mem_takeWhile_imp mem) takes h (settles _ _ _ inside)

theorem settles_ignorables : ignorable.many.Settles :=
  .many (.orElse (settles_one _ (by decide)) (settles_one _ (by decide))) progresses_ignorable

theorem settles_table : table.Settles :=
  .andThen (settles_one _ (by decide))
    (.many (.andThen settles_ignorables (settles_one _ (by decide)))
      (.andThen_right _ (progresses_one _)))

theorem settles_steps : steps.Settles := by
  have argument := Settles.orElse settles_table (settles_one .docString (by decide))
  have step := Settles.andThen (settles_one .step (by decide))
    (Settles.maybe (.andThen settles_ignorables argument))
  exact .many (.andThen settles_ignorables step) (.andThen_right _ progresses_step)

theorem settles_document : document.Settles := by
  have background := Settles.andThen settles_ignorables
    (.andThen (settles_one (.header .background) (by decide)) settles_steps)
  have scenario := Settles.tagged .scenario (by decide) settles_steps
  have examples := Settles.tagged .examples (by decide)
    (.andThen settles_ignorables settles_table)
  have outline := Settles.tagged .outline (by decide)
    (.andThen settles_steps (.andThen examples (.many examples (progresses_tagged _ _))))
  have elements := Settles.many (.orElse outline scenario)
    ((progresses_tagged _ _).orElse (progresses_tagged _ _))
  have feature := Settles.tagged .feature (by decide) (.andThen (.maybe background) elements)
  exact .andThen settles_ignorables (.andThen (.maybe feature) settles_ignorables)

end BlockReader

end FeatureFile
