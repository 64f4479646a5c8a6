import FeatureFile.Proofs.Language.Lookup
import FeatureFile.Proofs.Text.FirstOccurrences
import FeatureFile.Proofs.Text.Trim
/-!
The lists of step keywords. A keyword is the same bare word whether it is spaced before or not, so the bare
words can be made of the spaced keywords as well; where a step concept is missing, what is left is the list
of the others.
-/

namespace FeatureFile

open Text (isWhitespace)

/-- What a keyword gains or loses in front of step text is in no bare word. -/
theorem bareWord_spaced (keyword : Text) : bareWord (spaced keyword) = bareWord keyword := by
  have trimmed : bareWord keyword.trimEnd = bareWord keyword :=
    Text.filter_trimEndBy (fun c white => by simp [white]) keyword
  rw [← trimmed, spaced]
  split
  next glued =>
    obtain ⟨kept, marked⟩ := List.getLast?_eq_some_iff.mp glued
    simp [marked, bareWord]
  next => simp [bareWord, show isWhitespace ' ' = true by decide]

namespace Language

variable {language : Language} {concepts : List Concept} {concept : Concept}

/-- The step keywords of these concepts alone, as they stand in front of step text, without repetition. -/
def stepKeywordsOf (language : Language) (concepts : List Concept) : Except Error (List Text) :=
  (concepts.mapM language.keywordsFor).map fun lists => (lists.flatten.map spaced).eraseDups

theorem allStepKeywords_eq (language : Language) :
    language.allStepKeywords = (Concept.steps.mapM language.keywordsFor).map List.flatten := by
  unfold allStepKeywords
  cases Concept.steps.mapM language.keywordsFor <;> rfl

theorem stepKeywordsOf_steps (language : Language) :
    language.stepKeywordsOf Concept.steps = language.stepKeywords := by
  rw [stepKeywords, allStepKeywords_eq, stepKeywordsOf]
  cases Concept.steps.mapM language.keywordsFor <;> rfl

/-! ### Concepts in turn -/

theorem keywordsFor_of_contains (present : language.table.contains concept = true) :
    language.keywordsFor concept = .ok (language.presentKeywords concept) := by
  obtain ⟨entry, found⟩ := Option.isSome_iff_exists.mp present
  simp [keywordsFor, presentKeywords, keywords?, found]

theorem keywordsFor_of_missing (missing : language.table.contains concept = false) :
    language.keywordsFor concept = .error (.missingConcept language.identifier concept) := by
  have absent : language.table.get? concept = none := by
    simpa [KeywordTable.contains] using missing
  simp [keywordsFor, keywords?, absent]

theorem presentKeywords_of_missing (missing : language.table.contains concept = false) :
    language.presentKeywords concept = [] := by
  have absent : language.table.get? concept = none := by
    simpa [KeywordTable.contains] using missing
  simp [presentKeywords, keywords?, absent]

theorem mapM_keywordsFor (present : ∀ concept ∈ concepts, language.table.contains concept = true) :
    concepts.mapM language.keywordsFor = .ok (concepts.map language.presentKeywords) := by
  induction concepts with
  | nil => rfl
  | cons concept concepts ih =>
    obtain ⟨first, others⟩ := List.forall_mem_cons.mp present
    exact mapM_cons_eq_ok_iff.mpr ⟨_, _, rfl, keywordsFor_of_contains first, ih others⟩

/-- The first concept that is missing is the one that is reported. -/
theorem mapM_keywordsFor_missing
    (first : concepts.find? (!language.table.contains ·) = some concept) :
    concepts.mapM language.keywordsFor = .error (.missingConcept language.identifier concept) := by
  obtain ⟨missing, before, behind, split, present⟩ := List.find?_eq_some_iff_append.mp first
  refine mapM_eq_error_iff.mpr ⟨before, concept, behind, split, fun other member => ?_, ?_⟩
  · rw [keywordsFor_of_contains (by simpa using present other member)]
    rfl
  · exact keywordsFor_of_missing (by simpa using missing)

/-- A missing concept has no keywords to offer. -/
theorem flatMap_presentKeywords (language : Language) (concepts : List Concept) :
    (concepts.filter language.table.contains).flatMap language.presentKeywords =
      concepts.flatMap language.presentKeywords := by
  induction concepts with
  | nil => rfl
  | cons concept concepts ih =>
    cases present : language.table.contains concept with
    | true => simp [present, ih]
    | false => simp [present, ih, presentKeywords_of_missing present]

/-! ### Lists that agree -/

theorem stepKeywordsOf_eq_ok (present : ∀ concept ∈ concepts, language.table.contains concept = true) :
    language.stepKeywordsOf concepts =
      .ok ((concepts.flatMap language.presentKeywords).map spaced).eraseDups := by
  rw [stepKeywordsOf, mapM_keywordsFor present, List.flatMap_def]
  rfl

theorem adverbs_eq_ok (present : ∀ concept ∈ Concept.steps, language.table.contains concept = true) :
    language.adverbs = .ok (language.presentStepKeywords.map bareWord).eraseDups := by
  -- Spaced keywords that are dropped as repetitions would be dropped as bare words as well.
  have same : bareWord ∘ spaced = bareWord := funext bareWord_spaced
  rw [adverbs, allStepKeywords_eq, mapM_keywordsFor present, presentStepKeywords,
    eraseDups_map_eraseDups, List.map_map, same, List.flatMap_def]
  rfl

/-- The step keywords are those of all step concepts. If a language has all of these, then its step keywords
are without repetition, they are the ones that every language has, and the bare words are made of them.
Otherwise both lists fail with the first step concept that is missing, and what every language has are the
step keywords of the others. -/
theorem stepKeywords_agree (language : Language) :
    language.stepKeywordsOf Concept.steps = language.stepKeywords ∧
    ((∀ concept ∈ Concept.steps, language.table.contains concept = true) →
      ∃ keywords, language.stepKeywords = .ok keywords ∧ keywords.Nodup ∧
        language.presentStepKeywords = keywords ∧
        language.adverbs = .ok (keywords.map bareWord).eraseDups) ∧
    ∀ missing ∈ Concept.steps, language.table.contains missing = false →
      ∃ first, Concept.steps.find? (!language.table.contains ·) = some first ∧
        language.stepKeywords = .error (.missingConcept language.identifier first) ∧
        language.adverbs = .error (.missingConcept language.identifier first) ∧
        language.stepKeywordsOf (Concept.steps.filter language.table.contains) =
          .ok language.presentStepKeywords := by
  refine ⟨language.stepKeywordsOf_steps, fun present => ?_, fun missing member absent => ?_⟩
  · refine ⟨language.presentStepKeywords, ?_, nodup_eraseDups _, rfl, adverbs_eq_ok present⟩
    rw [← stepKeywordsOf_steps, stepKeywordsOf_eq_ok present, presentStepKeywords]
  · have some : (Concept.steps.find? (!language.table.contains ·)).isSome = true :=
      List.find?_isSome.mpr ⟨missing, member, by simp [absent]⟩
    obtain ⟨first, found⟩ := Option.isSome_iff_exists.mp some
    have fails := mapM_keywordsFor_missing found
    refine ⟨first, found, ?_, ?_, ?_⟩
    · rw [← stepKeywordsOf_steps, stepKeywordsOf, fails]
      rfl
    · rw [adverbs, allStepKeywords_eq, fails]
      rfl
    · rw [stepKeywordsOf_eq_ok fun concept => List.of_mem_filter, flatMap_presentKeywords,
        presentStepKeywords]

/-- Keywords that are glued or padded, some of them more than once, and a language that lacks the second
step concept and the third. -/
theorem stepKeywords_agree_glued :
    let whole : Language :=
      ⟨"fr", .ofList [(.name, "French".toList), (.given, "* |Soit|Soit\t".toList),
        (.when, "*|Lorsqu'<".toList), (.then, "Alors".toList), (.and, "Lorsqu".toList),
        (.but, "Soit<".toList)], by decide⟩
    let part : Language :=
      ⟨"fr", .ofList [(.name, "French".toList), (.given, "* |Soit".toList), (.and, "Et<|*".toList),
        (.but, "Mais".toList)], by decide⟩
    (∀ concept ∈ Concept.steps, whole.table.contains concept = true) ∧
      whole.stepKeywords = .ok whole.presentStepKeywords ∧ whole.presentStepKeywords.Nodup ∧
      whole.presentStepKeywords = ["* ".toList, "Soit ".toList, "Lorsqu'".toList, "Alors ".toList,
        "Lorsqu ".toList, "Soit".toList] ∧
      whole.adverbs = .ok ["*".toList, "Soit".toList, "Lorsqu".toList, "Alors".toList] ∧
      Concept.then ∈ Concept.steps ∧ part.table.contains .then = false ∧
      part.stepKeywords = .error (.missingConcept "fr" .when) ∧
      part.adverbs = .error (.missingConcept "fr" .when) ∧
      part.stepKeywordsOf [.given, .and, .but] =
        .ok ["* ".toList, "Soit ".toList, "Et".toList, "Mais ".toList] := by
  intro whole part
  have present : ∀ concept ∈ Concept.steps, whole.table.contains concept = true := by
    decide +kernel
  have absent : part.table.contains .then = false := by
    decide +kernel
  have listed : whole.presentStepKeywords = ["* ".toList, "Soit ".toList, "Lorsqu'".toList,
      "Alors ".toList, "Lorsqu ".toList, "Soit".toList] := by
    decide +kernel
  have left : part.presentStepKeywords =
      ["* ".toList, "Soit ".toList, "Et".toList, "Mais ".toList] := by
    decide +kernel
  obtain ⟨-, agree, -⟩ := stepKeywords_agree whole
  obtain ⟨_, steps, distinct, rfl, bare⟩ := agree present
  obtain ⟨-, -, lacks⟩ := stepKeywords_agree part
  obtain ⟨first, found, fails, fails', others⟩ := lacks .then (by decide) absent
  have second : Concept.steps.find? (!part.table.contains ·) = some .when := by
    decide +kernel
  cases found.symm.trans second
  have kept : Concept.steps.filter part.table.contains = [.given, .and, .but] := by
    decide +kernel
  refine ⟨present, steps, distinct, listed, ?_, by decide, absent, fails, fails', ?_⟩
  · rw [bare, listed]
    decide +kernel
  · rw [← kept, others, left]

end Language

end FeatureFile
