import FeatureFile.Proofs.Line.KeywordOrder
import FeatureFile.Proofs.Line.Reading
/-!
What a line outside of doc strings is, told by the line and the keywords alone: what it starts with
behind its indentation, of several keywords the longest one, of several kinds of header with that keyword
the first one.
-/

namespace FeatureFile

open Vocabulary (ofLanguage Opens)

/-- Behind its indentation the line starts with no mark and no fence. -/
structure Unmarked (raw : Text) : Prop where
  mark : ∀ mark ∈ ['#', '@', '|'], raw.unindent.head? ≠ some mark
  fence : ¬ fence <+: raw.unindent

/-- A line that starts with no step keyword. -/
def WithoutStep (language : Language) (raw : Text) : Prop :=
  ∀ s ∈ language.presentStepKeywords, s ≠ [] → ¬ s <+: raw.unindent

/-- A step: its keyword is the longest one that the line starts with. -/
structure IsStep (language : Language) (raw k name : Text) : Prop where
  unmarked : Unmarked raw
  split : raw.unindent = k ++ name
  keyword : k ∈ language.presentStepKeywords
  present : k ≠ []
  longest : ∀ other ∈ language.presentStepKeywords, other <+: raw.unindent → other.length ≤ k.length

/-- A header: its keyword is the longest one that the line starts with and a colon follows, and its kind
is the first one that has the keyword. -/
structure IsHeader (language : Language) (raw : Text) (kind : SectionKind) (k name : Text) : Prop where
  unmarked : Unmarked raw
  noStep : WithoutStep language raw
  opens : Opens language kind raw.unindent k name
  first : ∀ kind' k' name', Opens language kind' raw.unindent k' name' → k'.length < k.length ∨
    k'.length = k.length ∧ SectionKind.all.idxOf kind ≤ SectionKind.all.idxOf kind'

/-- Text: the line is blank, or free text. -/
structure IsText (language : Language) (raw : Text) : Prop where
  unmarked : Unmarked raw
  noStep : WithoutStep language raw
  noHeader : ∀ kind k name, ¬ Opens language kind raw.unindent k name

/-- The kinds that a mark or a fence decides. -/
def LineKind.isMarked : LineKind → Bool
  | comment _ | tags _ | row _ | fence _ => true
  | _ => false

theorem fence?_eq_none_iff {raw : Text} : fence? raw = none ↔ ¬ fence <+: raw.unindent := by
  rw [fence?, Option.map_eq_none_iff]
  constructor
  · rintro none ⟨rest, split⟩
    rw [Text.after?_eq_some_iff.mpr split.symm] at none
    cases none
  · intro other
    by_contra found
    obtain ⟨rest, found⟩ := Option.ne_none_iff_exists'.mp found
    exact other ⟨rest, (Text.after?_eq_some_iff.mp found).symm⟩

namespace Vocabulary

variable {language : Language} {raw t k name : Text} {kind : SectionKind}

theorem step?_iff :
    (ofLanguage language).step? t = some (k, name) ↔
      t = k ++ name ∧ k ∈ language.presentStepKeywords ∧ k ≠ [] ∧
        ∀ other ∈ language.presentStepKeywords, other <+: t → other.length ≤ k.length := by
  rw [step?_eq_some_iff, Template.alternatives, find?_longestFirst]
  simp only [List.mem_eraseDups, List.mem_filter]
  constructor
  · rintro ⟨⟨⟨member, some⟩, -, longest⟩, split⟩
    refine ⟨split, member, by simpa using some, fun other mem leads => ?_⟩
    cases other with
    | nil => simp
    | cons x other => exact longest _ ⟨mem, rfl⟩ leads
  · rintro ⟨split, member, some, longest⟩
    exact ⟨⟨⟨member, by simpa using some⟩, ⟨name, split.symm⟩,
      fun other mem leads => longest other mem.1 leads⟩, split⟩

theorem step?_eq_none_iff :
    (ofLanguage language).step? t = none ↔
      ∀ s ∈ language.presentStepKeywords, s ≠ [] → ¬ s <+: t := by
  rw [← Option.map_eq_none_iff, map_step?, List.find?_eq_none]
  simp only [mem_alternatives, List.isPrefixOf_iff_prefix, and_imp]

theorem header?_eq_none_iff :
    (ofLanguage language).header? t = none ↔ ∀ kind k name, ¬ Opens language kind t k name := by
  simp only [header?, List.findSome?_eq_none_iff, Option.map_eq_none_iff]
  constructor
  · rintro none kind k name ⟨keyword, some, split⟩
    have other := none (k, kind) (mem_headers.mpr ⟨keyword, some⟩)
    rw [Text.after?_eq_some_iff.mpr (show t = k ++ [':'] ++ name by simp [split])] at other
    cases other
  · rintro closed ⟨k, kind⟩ member
    obtain ⟨keyword, some⟩ := mem_headers.mp member
    by_contra found
    obtain ⟨name, found⟩ := Option.ne_none_iff_exists'.mp found
    refine closed kind k name ⟨keyword, some, ?_⟩
    simp [Text.after?_eq_some_iff.mp found]

/-! ### Kinds -/

/-- On an unmarked line the keywords decide. -/
theorem kind_of_unmarked (unmarked : Unmarked raw) (visible : raw.unindent ≠ []) (v : Vocabulary) :
    v.kind raw =
      match v.step? raw.unindent with
      | some (keyword, name) => .step keyword name
      | none =>
        match v.header? raw.unindent with
        | some (kind, keyword, name) => .header kind keyword name
        | none => .other raw.unindent := by
  have noFence := fence?_eq_none_iff.mpr unmarked.fence
  have noMark := unmarked.mark
  simp only [List.mem_cons, List.not_mem_nil, or_false, forall_eq_or_imp, forall_eq] at noMark
  unfold kind
  split
  next nothing => exact absurd nothing visible
  next rest mark => simp [mark] at noMark
  next rest mark => simp [mark] at noMark
  next rest mark => simp [mark] at noMark
  next =>
    split
    next fenced => simp [noFence] at fenced
    next => rfl

/-- On a marked line they do not matter. -/
theorem isMarked_kind (marked : ¬ Unmarked raw) (v : Vocabulary) : (v.kind raw).isMarked = true := by
  unfold kind
  split
  next nothing => exact absurd ⟨by simp [nothing], by simp [nothing, fence]⟩ marked
  next => rfl
  next => rfl
  next => rfl
  next visible noComment noTags noRow =>
    have fenced : fence? raw ≠ none := by
      intro none
      refine marked ⟨fun mark member head => ?_, fence?_eq_none_iff.mp none⟩
      obtain ⟨rest, shape⟩ := List.head?_eq_some_iff.mp head
      simp only [List.mem_cons, List.not_mem_nil, or_false] at member
      rcases member with rfl | rfl | rfl
      · exact noComment rest shape
      · exact noTags rest shape
      · exact noRow rest shape
    obtain ⟨bare, found⟩ := Option.ne_none_iff_exists'.mp fenced
    rw [found]
    rfl

theorem kind_of_fence? {bare : Bool} (fenced : fence? raw = some bare) (v : Vocabulary) :
    v.kind raw = .fence bare := by
  obtain ⟨rest, split, _⟩ := fence?_eq_some_iff.mp fenced
  simp [kind, split, fence, fenced]

theorem unmarked_of_kind {v : Vocabulary} {kind : LineKind} (found : v.kind raw = kind)
    (other : kind.isMarked = false) : Unmarked raw := by
  by_contra marked
  rw [← found, isMarked_kind marked] at other
  cases other

theorem kind_eq_step_iff :
    (ofLanguage language).kind raw = .step k name ↔ IsStep language raw k name := by
  constructor
  · intro found
    have unmarked := unmarked_of_kind found rfl
    have decided := decided (ofLanguage language) raw
    rw [found] at decided
    cases decided with
    | step _ starts =>
      obtain ⟨split, member, some, longest⟩ := step?_iff.mp starts
      exact ⟨unmarked, split, member, some, longest⟩
  · rintro ⟨unmarked, split, member, some, longest⟩
    have visible : raw.unindent ≠ [] := by simp [split, some]
    rw [kind_of_unmarked unmarked visible, step?_iff.mpr ⟨split, member, some, longest⟩]

theorem kind_eq_header_iff :
    (ofLanguage language).kind raw = .header kind k name ↔ IsHeader language raw kind k name := by
  constructor
  · intro found
    have unmarked := unmarked_of_kind found rfl
    have decided := decided (ofLanguage language) raw
    rw [found] at decided
    cases decided with
    | header _ noStep starts =>
      obtain ⟨opens, first⟩ := header?_iff.mp starts
      exact ⟨unmarked, step?_eq_none_iff.mp noStep, opens, first⟩
  · rintro ⟨unmarked, noStep, opens, first⟩
    have visible : raw.unindent ≠ [] := by simp [opens.2.2]
    rw [kind_of_unmarked unmarked visible, step?_eq_none_iff.mpr noStep, header?_iff.mpr ⟨opens, first⟩]

theorem isText_kind_iff :
    ((ofLanguage language).kind raw).isText = true ↔ IsText language raw := by
  by_cases unmarked : Unmarked raw
  · by_cases visible : raw.unindent = []
    · have blank : IsText language raw :=
        ⟨unmarked, fun s _ some => by simpa [visible] using some, fun kind k name opens => by
          simpa [visible] using opens.2.2⟩
      simp [kind, visible, LineKind.isText, blank]
    · rw [kind_of_unmarked unmarked visible]
      constructor
      · intro text
        split at text
        · cases text
        next noStep =>
          split at text
          · cases text
          next noHeader =>
            exact ⟨unmarked, step?_eq_none_iff.mp noStep, header?_eq_none_iff.mp noHeader⟩
      · rintro ⟨-, noStep, noHeader⟩
        rw [step?_eq_none_iff.mpr noStep, header?_eq_none_iff.mpr noHeader]
        rfl
  · refine iff_of_false (fun text => ?_) fun text => unmarked text.unmarked
    have marked := isMarked_kind unmarked (ofLanguage language)
    cases kind : (ofLanguage language).kind raw <;>
      simp [kind, LineKind.isText, LineKind.isMarked] at text marked

end Vocabulary

end FeatureFile
