import FeatureFile.Proofs.Line.KeywordOrder
/-!
Languages that lack a concept, on lines that do not start with a keyword of it. What such a line is, the
other keywords decide as before.
-/

namespace FeatureFile

open Vocabulary (ofLanguage Opens)

namespace Language

/-- The language without the entry of a concept. It keeps its name. -/
def without (language : Language) (c : Concept) (other : c ≠ .name) : Language where
  identifier := language.identifier
  table := language.table.erase c
  named := by
    have named := language.named
    rwa [KeywordTable.contains, KeywordTable.get?_erase, if_neg other.symm]

/-- Behind its indentation the line starts with no step keyword that the language has for this concept
alone, and with no header that the concept opens. -/
def Avoids (language : Language) (c : Concept) (raw : Text) : Prop :=
  (c ∈ Concept.steps → ∀ s ∈ (language.presentKeywords c).map spaced, s ≠ [] →
    (∀ d ∈ Concept.steps, d ≠ c → s ∉ (language.presentKeywords d).map spaced) →
      ¬ s <+: raw.unindent) ∧
  ∀ kind ∈ SectionKind.all, kind.concept = c → ∀ k ∈ language.presentKeywords c, k ≠ [] →
    ¬ k ++ [':'] <+: raw.unindent

instance (language : Language) (c : Concept) (raw : Text) : Decidable (language.Avoids c raw) :=
  inferInstanceAs (Decidable (_ ∧ _))

section

variable (language : Language) {c : Concept} (other : c ≠ .name)

theorem name_without : (language.without c other).name = language.name := by
  rw [name, name, without, KeywordTable.get?_erase, if_neg other.symm]

theorem presentKeywords_without (d : Concept) :
    (language.without c other).presentKeywords d = if d = c then [] else language.presentKeywords d := by
  rw [presentKeywords, presentKeywords, keywords?, keywords?, without, KeywordTable.get?_erase]
  split <;> rfl

theorem mem_presentStepKeywords_iff {s : Text} : s ∈ language.presentStepKeywords ↔
    ∃ d ∈ Concept.steps, s ∈ (language.presentKeywords d).map spaced := by
  simp only [presentStepKeywords, List.mem_eraseDups, List.mem_map, List.mem_flatMap]
  constructor
  · rintro ⟨k, ⟨d, step, member⟩, rfl⟩
    exact ⟨d, step, k, member, rfl⟩
  · rintro ⟨d, step, k, member, rfl⟩
    exact ⟨k, ⟨d, step, member⟩, rfl⟩

theorem mem_presentStepKeywords_without {s : Text}
    (member : s ∈ (language.without c other).presentStepKeywords) :
    s ∈ language.presentStepKeywords := by
  obtain ⟨d, step, listed⟩ := (mem_presentStepKeywords_iff _).mp member
  rw [presentKeywords_without] at listed
  split at listed
  · cases listed
  · exact (mem_presentStepKeywords_iff _).mpr ⟨d, step, listed⟩

end

namespace Avoids

variable {language : Language} {c : Concept} {raw : Text} (avoids : language.Avoids c raw)
include avoids

/-- A step keyword that the line starts with is left. -/
theorem mem_presentStepKeywords (other : c ≠ .name) {s : Text} (member : s ∈ language.presentStepKeywords)
    (present : s ≠ []) (leads : s <+: raw.unindent) :
    s ∈ (language.without c other).presentStepKeywords := by
  obtain ⟨d, step, listed⟩ := (mem_presentStepKeywords_iff _).mp member
  have left {d : Concept} (step : d ∈ Concept.steps) (apart : d ≠ c)
      (listed : s ∈ (language.presentKeywords d).map spaced) :
      s ∈ (language.without c other).presentStepKeywords :=
    (mem_presentStepKeywords_iff _).mpr
      ⟨d, step, by rwa [presentKeywords_without, if_neg apart]⟩
  by_cases same : d = c
  · subst same
    -- The concept is not the only one with this keyword.
    by_contra lost
    exact avoids.1 step s listed present (fun e step' apart listed' => lost (left step' apart listed'))
      leads
  · exact left step same listed

/-- A header that the line starts with is of another kind. -/
theorem concept_ne {kind : SectionKind} {k : Text} (member : k ∈ language.presentKeywords kind.concept)
    (present : k ≠ []) (leads : k ++ [':'] <+: raw.unindent) : kind.concept ≠ c := by
  rintro rfl
  exact avoids.2 kind kind.mem_all rfl k member present leads

end Avoids

end Language

/-- The other keywords decide what the line is. -/
theorem Vocabulary.kind_without {language : Language} {c : Concept} {raw : Text} (other : c ≠ .name)
    (avoids : language.Avoids c raw) :
    (ofLanguage (language.without c other)).kind raw = (ofLanguage language).kind raw := by
  refine kind_of_leading (fun s present leads => ?_) fun kind k name => ?_
  · exact ⟨language.mem_presentStepKeywords_without other, fun member =>
      avoids.mem_presentStepKeywords other member present leads⟩
  · rw [Opens, Opens, Language.presentKeywords_without]
    refine ⟨?_, ?_⟩
    · rintro ⟨member, present, split⟩
      split at member
      · cases member
      · exact ⟨member, present, split⟩
    · rintro ⟨member, present, split⟩
      have apart := avoids.concept_ne member present ⟨name, by simp [split]⟩
      exact ⟨by rwa [if_neg apart], present, split⟩

end FeatureFile
