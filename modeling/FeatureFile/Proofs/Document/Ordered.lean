import FeatureFile.Proofs.Document.Contents
import FeatureFile.Proofs.Document.Delivery
/-!
Trees of documents whose events come line by line. What an element owns lies on lines of its own: two
headers, steps or rows are never on one line, tags share their line with tags only, and between the tags
of two headers stands the first of the two.
-/

namespace FeatureFile

namespace Event

/-- The event is reported for a later line; only a tag may be followed by a tag on the same line. -/
def Precedes (x y : Event) : Prop :=
  x.line < y.line ∨ x.line = y.line ∧ x.tag?.isSome = true ∧ y.tag?.isSome = true

theorem line_normal (event : Event) : event.normal.line = event.line := by
  cases event <;> rfl

theorem tag?_eq_none_of_isListed {event : Event} (listed : event.isListed = true) :
    event.tag? = none := by
  cases event <;> first | rfl | cases listed

theorem line_of_tag? {event : Event} {tag : Tag} (found : event.tag? = some tag) :
    event.line = tag.line := by
  cases event <;> cases found
  rfl

variable {x y : Event} {events : List Event}

theorem Precedes.lt (h : Precedes x y) (listed : x.isListed = true ∨ y.isListed = true) :
    x.line < y.line := by
  rcases h with later | ⟨_, first, second⟩
  · exact later
  · rcases listed with listed | listed <;> simp [tag?_eq_none_of_isListed listed] at first second

/-- Headers, steps, rows and doc strings are on different lines, in their order. -/
theorem pairwise_listed (ordered : events.Pairwise Precedes) :
    ((events.filter isListed).map normal).Pairwise fun x y => x.line < y.line := by
  rw [List.pairwise_map, List.pairwise_filter]
  refine ordered.imp fun precedes listed _ => ?_
  rw [line_normal, line_normal]
  exact precedes.lt (.inl listed)

/-- A tag is on a line without any of these. -/
theorem tag_line_ne (ordered : events.Pairwise Precedes) {tag : Tag} {event : Event}
    (isTag : tag ∈ events.filterMap tag?) (member : event ∈ (events.filter isListed).map normal) :
    tag.line ≠ event.line := by
  obtain ⟨x, first, found⟩ := List.mem_filterMap.mp isTag
  obtain ⟨y, second, rfl⟩ := List.mem_map.mp member
  obtain ⟨second, listed⟩ := List.mem_filter.mp second
  -- On one line there are tags only, or none.
  have apart : events.Pairwise fun x y => x.line = y.line → (x.tag?.isSome ↔ y.tag?.isSome) := by
    refine ordered.imp ?_
    rintro x y (later | ⟨_, tags⟩) line
    · omega
    · simp [tags]
  have flipped := apart.imp fun same (line : _ = _) => (same line.symm).symm
  rw [line_normal, ← line_of_tag? found]
  intro line
  have tags := apart.forall_of_forall_of_flip (fun _ _ _ => Iff.rfl) flipped first second line
  simp [found, tag?_eq_none_of_isListed listed] at tags

/-- What is known of the tags on headers and of those that still wait. -/
private structure TagsInOrder (events : List Event) : Prop where
  /-- Behind a tag on a header stands the header. -/
  headed : ∀ heading ∈ headingsFrom [] events, ∀ tag ∈ heading.tags,
    ∃ event ∈ events, event.isListed = true ∧ tag.line < event.line
  apart : (headingsFrom [] events).Pairwise fun g h =>
    ∀ tag ∈ g.tags, ∀ other ∈ h.tags, tag.line < other.line
  waiting : ∀ heading ∈ headingsFrom [] events, ∀ tag ∈ heading.tags,
    ∀ other ∈ waitingTags events, tag.line < other.line

/-- The header that an event is takes tags that waited. -/
private theorem mem_waitingTags_of_headingsFrom {event : Event} {heading : Heading} {tag : Tag}
    (member : heading ∈ headingsFrom events [event]) (own : tag ∈ heading.tags) :
    tag ∈ waitingTags events ∧ event.takesTags = true ∧ event.isListed = true := by
  cases event with
  | header kind h =>
    obtain rfl : heading = _ := List.mem_singleton.mp member
    by_cases background : kind = .background
    · simp [background] at own
    · exact ⟨by simpa [background] using own, by simpa [takesTags] using background, rfl⟩
  | _ => cases member

private theorem tagsInOrder (ordered : events.Pairwise Precedes) : TagsInOrder events := by
  induction events using List.reverseRecOn with
  | nil => exact ⟨by simp [headingsFrom], .nil, by simp [headingsFrom]⟩
  | append_singleton events event ih =>
    obtain ⟨before, _, last⟩ := List.pairwise_append.mp ordered
    obtain ⟨headed, apart, waiting⟩ := ih before
    have precedes (x : Event) (member : x ∈ events) : Precedes x event :=
      last x member event (List.mem_singleton_self event)
    refine ⟨?_, ?_, ?_⟩ <;> rw [headingsFrom_append, List.nil_append]
    · refine List.forall_mem_append.mpr ⟨fun heading member tag own => ?_, fun heading member tag own => ?_⟩
      · obtain ⟨x, inside, behind⟩ := headed heading member tag own
        exact ⟨x, List.mem_append_left _ inside, behind⟩
      · obtain ⟨waits, -, listed⟩ := mem_waitingTags_of_headingsFrom member own
        have among : tag ∈ events.filterMap tag? := by
          rw [← headingsFrom_tags]
          exact List.mem_append_right _ waits
        obtain ⟨x, inside, found⟩ := List.mem_filterMap.mp among
        refine ⟨event, by simp, listed, ?_⟩
        rw [← line_of_tag? found]
        exact (precedes x inside).lt (.inr listed)
    · refine List.pairwise_append.mpr ⟨apart, ?_, fun g first h second tag own other own' => ?_⟩
      · cases event <;> simp [headingsFrom]
      · exact waiting g first tag own other (mem_waitingTags_of_headingsFrom second own').1
    · rw [waitingTags_concat]
      refine List.forall_mem_append.mpr ⟨fun heading member tag own other waits => ?_,
        fun heading member tag own other waits => ?_⟩
      · split at waits
        · cases waits
        · rcases List.mem_append.mp waits with waits | new
          · exact waiting heading member tag own other waits
          · obtain ⟨x, inside, listed, less⟩ := headed heading member tag own
            rw [← line_of_tag? (Option.mem_toList.mp new)]
            exact less.trans ((precedes x inside).lt (.inl listed))
      · rw [(mem_waitingTags_of_headingsFrom member own).2.1] at waits
        cases waits

end Event

/-! ### Elements -/

/-- The lines an element owns are those of its headers, steps and rows and of its tags. -/
theorem Element.mem_lines {element : Element} {n : Nat} (owned : n ∈ element.lines) :
    (∃ event ∈ element.contents, event.line = n) ∨
      ∃ heading ∈ element.headings, ∃ tag ∈ heading.tags, tag.line = n := by
  simp only [lines, List.mem_cons, List.mem_append, List.mem_map, List.mem_flatMap] at owned
  rcases owned with rfl | (⟨tag, own, rfl⟩ | ⟨step, member, rfl⟩) | ⟨e, member, inside⟩
  · refine .inl ⟨element.heading.event, List.mem_cons_self, ?_⟩
    cases element <;> rfl
  · refine .inr ⟨element.heading, List.mem_cons_self, tag, ?_, rfl⟩
    cases element <;> exact own
  · have inside : Event.step step.keyword step.name step.line ∈ step.contents := List.mem_cons_self
    refine .inl ⟨.step step.keyword step.name step.line, .tail _ (List.mem_append_left _ ?_), rfl⟩
    exact List.mem_flatMap.mpr ⟨step, member, inside⟩
  · have below {event : Event} (inside : event ∈ e.contents) : event ∈ element.contents :=
      .tail _ (List.mem_append_right _ (List.mem_flatMap.mpr ⟨e, member, inside⟩))
    simp only [Examples.lines, List.mem_cons, List.mem_append, List.mem_map] at inside
    rcases inside with rfl | ⟨tag, own, rfl⟩ | ⟨row, own, rfl⟩
    · exact .inl ⟨e.heading.event, below List.mem_cons_self, rfl⟩
    · exact .inr ⟨e.heading, .tail _ (List.mem_map_of_mem member), tag, own, rfl⟩
    · exact .inl ⟨row.event, below (.tail _ (List.mem_map_of_mem own)), rfl⟩

namespace Feature

variable {f : Feature} {events : List Event}

theorem contents_of_mem_elements {element : Element} (member : element ∈ f.elements) :
    ∀ event ∈ element.contents, event ∈ f.contents := fun _ inside =>
  .tail _ (List.mem_append_right _ (List.mem_flatMap.mpr ⟨element, member, inside⟩))

theorem headings_of_mem_elements {element : Element} (member : element ∈ f.elements) :
    ∀ heading ∈ element.headings, heading ∈ f.headings := fun _ inside =>
  .tail _ (List.mem_append_right _ (List.mem_flatMap.mpr ⟨element, member, inside⟩))

/-- No line belongs to two elements. -/
theorem pairwise_disjoint_lines (ordered : events.Pairwise Event.Precedes)
    (contents : f.contents = (events.filter Event.isListed).map Event.normal)
    (tags : f.headings.map Heading.tags = (Event.headingsFrom [] events).map Heading.tags) :
    f.elements.Pairwise fun a b => a.lines.Disjoint b.lines := by
  have listed : f.contents.Pairwise fun x y => x.line < y.line :=
    contents ▸ Event.pairwise_listed ordered
  have headed : (f.headings.map Heading.tags).Pairwise fun own others =>
      ∀ tag ∈ own, ∀ other ∈ others, tag.line < other.line := by
    rw [tags, List.pairwise_map]
    exact (Event.tagsInOrder ordered).apart
  rw [List.pairwise_map] at headed
  have mixed (heading : Heading) (member : heading ∈ f.headings) (tag : Tag) (own : tag ∈ heading.tags)
      (event : Event) (inside : event ∈ f.contents) : tag.line ≠ event.line := by
    refine Event.tag_line_ne ordered ?_ (contents ▸ inside)
    rw [← Event.headingsFrom_tags, List.flatMap, ← tags]
    exact List.mem_append_left _ (List.mem_flatten.mpr ⟨_, List.mem_map_of_mem member, own⟩)
  -- Of two elements the events of the first and the tags of the first come before those of the second.
  have later : f.elements.Pairwise fun a b => ∀ x ∈ a.contents, ∀ y ∈ b.contents, x.line < y.line :=
    (List.pairwise_flatMap.mp (List.pairwise_append.mp (List.pairwise_cons.mp listed).2).2.1).2
  have tagged : f.elements.Pairwise fun a b => ∀ g ∈ a.headings, ∀ h ∈ b.headings,
      ∀ tag ∈ g.tags, ∀ other ∈ h.tags, tag.line < other.line :=
    (List.pairwise_flatMap.mp (List.pairwise_append.mp (List.pairwise_cons.mp headed).2).2.1).2
  refine (later.and tagged).imp_of_mem fun {a b} inA inB ⟨first, second⟩ n ownA ownB => ?_
  rcases a.mem_lines ownA with ⟨x, inX, rfl⟩ | ⟨g, inG, tag, own, rfl⟩
  · rcases b.mem_lines ownB with ⟨y, inY, line⟩ | ⟨h, inH, other, own', line⟩
    · have := first x inX y inY
      omega
    · exact mixed h (headings_of_mem_elements inB h inH) other own' x
        (contents_of_mem_elements inA x inX) line
  · rcases b.mem_lines ownB with ⟨y, inY, line⟩ | ⟨h, inH, other, own', line⟩
    · exact mixed g (headings_of_mem_elements inA g inG) tag own y
        (contents_of_mem_elements inB y inY) line.symm
    · have := second g inG h inH tag own other own'
      omega

end Feature

/-- The tree of a reading holds its events; a header has the tags that waited for it. -/
theorem Reading.contents_of_tree {reading : Reading} {body : List Event} {line : Nat} {f : Feature}
    (whole : reading.events = body ++ [.endOfInput line]) (inside : ∀ event ∈ body, event.isEnd = false)
    (made : reading.tree = .ok (some f)) :
    f.contents = (body.filter Event.isListed).map Event.normal ∧
      f.headings.map Heading.tags = (Event.headingsFrom [] body).map Heading.tags := by
  obtain ⟨-, last, delivered, tree⟩ := Reading.tree_eq_ok_iff.mp made
  rw [whole] at delivered
  obtain ⟨a, taken, ends⟩ := deliver_append_iff.mp delivered
  obtain ⟨accepted, rfl⟩ := Assembly.accepted_each_of_deliver taken
  have holds := Assembly.holds_start.run (Assembly.sound_start _) inside accepted
  rw [List.nil_append] at holds
  generalize Assembly.start.afterEach body = a at holds ends
  have closed := Assembly.accepted_of_deliver ends
  cases present : a.feature with
  | none =>
    simp only [Assembly.accept, Assembly.acceptEnd, present] at closed
    split at closed <;> cases closed
    rw [present] at tree
    cases tree
  | some g =>
    have done : (a.accept (.endOfInput line)).fault? = none := by
      rw [closed]
      rfl
    obtain ⟨-, final⟩ := Assembly.accept_end present done
    rw [closed, Outcome.after, tree] at final
    cases final
    rw [← holds.contents, ← holds.headings]
    simp [Assembly.contents, Assembly.headings, present, Feature.contents, Feature.headings,
      Feature.heading, Heading.event]

end FeatureFile
