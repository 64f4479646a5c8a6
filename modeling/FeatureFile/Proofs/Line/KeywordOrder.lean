import FeatureFile.Line.Reader
import FeatureFile.Proofs.Line.Separation
/-!
Neither the order in which a table lists keywords nor a repetition among them makes a difference to
reading line by line: of the keywords a line starts with, the longest one is found, wherever it stands.
-/

namespace FeatureFile

open Vocabulary (ofLanguage)

/-- The second language has the names of the first one and, in whatever order and however often, the
same keywords for each kind of section and the same keywords for steps. -/
structure Language.Rearranged (a b : Language) : Prop where
  identifier : b.identifier = a.identifier
  name : b.name = a.name
  sections : ∀ (kind : SectionKind) k,
    k ∈ b.presentKeywords kind.concept ↔ k ∈ a.presentKeywords kind.concept
  /-- The step concepts share their keywords. -/
  steps : ∀ k, k ∈ Concept.steps.flatMap b.presentKeywords ↔ k ∈ Concept.steps.flatMap a.presentKeywords

instance (a b : Language) : Decidable (a.Rearranged b) :=
  decidable_of_iff
    (b.identifier = a.identifier ∧ b.name = a.name ∧
      (∀ kind ∈ SectionKind.all,
        b.presentKeywords kind.concept ⊆ a.presentKeywords kind.concept ∧
          a.presentKeywords kind.concept ⊆ b.presentKeywords kind.concept) ∧
      Concept.steps.flatMap b.presentKeywords ⊆ Concept.steps.flatMap a.presentKeywords ∧
      Concept.steps.flatMap a.presentKeywords ⊆ Concept.steps.flatMap b.presentKeywords)
    ⟨fun ⟨identifier, name, sections, fewer, more⟩ =>
      ⟨identifier, name, fun kind _ => ⟨fun k => (sections kind kind.mem_all).1 k,
        fun k => (sections kind kind.mem_all).2 k⟩, fun _ => ⟨fun k => fewer k, fun k => more k⟩⟩,
    fun ⟨identifier, name, sections, steps⟩ =>
      ⟨identifier, name, fun kind _ => ⟨fun k => (sections kind k).mp, fun k => (sections kind k).mpr⟩,
        fun k => (steps k).mp, fun k => (steps k).mpr⟩⟩

namespace Language.Rearranged

variable {a b : Language} (same : a.Rearranged b)
include same

theorem mem_presentStepKeywords (k : Text) :
    k ∈ b.presentStepKeywords ↔ k ∈ a.presentStepKeywords := by
  simp only [presentStepKeywords, List.mem_eraseDups, List.mem_map, same.steps]

end Language.Rearranged

/-- The alternative that a text starts with depends on the keywords that the text starts with. -/
theorem Template.find?_alternatives_of_leading {keywords others : List Text} {t : Text}
    (same : ∀ k, k ≠ [] → k <+: t → (k ∈ others ↔ k ∈ keywords)) :
    (alternatives others).find? (·.isPrefixOf t) =
      (alternatives keywords).find? (·.isPrefixOf t) := by
  have listed (k : Text) (leads : k <+: t) :
      k ∈ others ∧ (!k.isEmpty) = true ↔ k ∈ keywords ∧ (!k.isEmpty) = true :=
    and_congr_left fun present => same k (by simpa using present) leads
  refine Option.ext fun k => ?_
  simp only [alternatives, find?_longestFirst, List.mem_eraseDups, List.mem_filter]
  constructor
  · rintro ⟨member, leads, longest⟩
    exact ⟨(listed k leads).mp member, leads,
      fun other inside starts => longest other ((listed other starts).mpr inside) starts⟩
  · rintro ⟨member, leads, longest⟩
    exact ⟨(listed k leads).mpr member, leads,
      fun other inside starts => longest other ((listed other starts).mp inside) starts⟩

theorem Template.find?_alternatives_congr {keywords others : List Text}
    (same : ∀ k, k ∈ others ↔ k ∈ keywords) (t : Text) :
    (alternatives others).find? (·.isPrefixOf t) =
      (alternatives keywords).find? (·.isPrefixOf t) :=
  find?_alternatives_of_leading fun k _ _ => same k

namespace Vocabulary

variable {language : Language}

private theorem findSome?_eq_bind {α β : Type} (f : α → Option β) (xs : List α) :
    xs.findSome? f = (xs.find? fun x => (f x).isSome).bind f := by
  induction xs with
  | nil => rfl
  | cons x xs ih =>
    cases found : f x with
    | none => rw [List.findSome?_cons_of_isNone (by simp [found]),
        List.find?_cons_of_neg (by simp [found]), ih]
    | some => rw [List.findSome?_cons_of_isSome (by simp [found]),
        List.find?_cons_of_pos (by simp [found]), Option.bind_some]

/-- Header keywords of one length come by their kinds. -/
theorem pairwise_headers (language : Language) :
    (ofLanguage language).headers.Pairwise (FallsBy (fun header => header.1.length) fun x y =>
      SectionKind.all.idxOf x.2 ≤ SectionKind.all.idxOf y.2) := by
  -- They are collected kind by kind, which is the order that sorting keeps among equal lengths.
  have kindOf {kind : SectionKind} {header : Text × SectionKind}
      (member : header ∈ headersOf language kind) : header.2 = kind := by
    obtain ⟨k, _, rfl⟩ := List.mem_map.mp member
    rfl
  have rising : SectionKind.all.Pairwise fun x y =>
      SectionKind.all.idxOf x ≤ SectionKind.all.idxOf y := by
    decide
  refine pairwise_longestFirst_stable (List.pairwise_flatMap.mpr ⟨fun kind _ => ?_, ?_⟩)
  · refine List.Pairwise.imp_of_mem ?_ (List.pairwise_of_forall fun _ _ => trivial)
    intro x y first second _
    rw [kindOf first, kindOf second]
  · refine rising.imp fun before x first y second => ?_
    rwa [kindOf first, kindOf second]

/-- The first of the headers that a text starts with. -/
theorem header?_eq_find? (vocabulary : Vocabulary) (t : Text) :
    vocabulary.header? t =
      (vocabulary.headers.find? fun header => (header.1 ++ [':']).isPrefixOf t).bind fun header =>
        (Text.after? (header.1 ++ [':']) t).map (header.2, header.1, ·) := by
  rw [header?, findSome?_eq_bind]
  congr 2
  funext header
  rw [Bool.eq_iff_iff, List.isPrefixOf_iff_prefix, Option.isSome_map, Option.isSome_iff_exists]
  simp only [Text.after?_eq_some_iff]
  exact exists_congr fun _ => eq_comm

/-- Two headers that a text starts with are one if neither stands before the other. -/
private theorem header_apart {t : Text} (x y : Text × SectionKind)
    (first : (x.1 ++ [':']).isPrefixOf t = true) (second : (y.1 ++ [':']).isPrefixOf t = true)
    (before : FallsBy (fun header => header.1.length) (fun x y =>
      SectionKind.all.idxOf x.2 ≤ SectionKind.all.idxOf y.2) x y)
    (behind : FallsBy (fun header => header.1.length) (fun x y =>
      SectionKind.all.idxOf x.2 ≤ SectionKind.all.idxOf y.2) y x) : x = y := by
  obtain ⟨k, kind⟩ := x
  obtain ⟨k', kind'⟩ := y
  simp only [FallsBy] at before behind
  have lengths : k.length = k'.length ∧
      SectionKind.all.idxOf kind = SectionKind.all.idxOf kind' := by
    omega
  have leads {k : Text} (found : (k ++ [':']).isPrefixOf t = true) : k <+: t :=
    (List.prefix_append k [':']).trans (List.isPrefixOf_iff_prefix.mp found)
  obtain rfl := eq_of_prefix (leads first) (leads second) lengths.1
  rw [(List.idxOf_inj kind.mem_all).mp lengths.2]

/-- The keyword of a header is the longest one that the text starts with and a colon follows, its kind the
first one that has the keyword. -/
theorem header?_iff {t k name : Text} {kind : SectionKind} :
    (ofLanguage language).header? t = some (kind, k, name) ↔
      Opens language kind t k name ∧ ∀ kind' k' name', Opens language kind' t k' name' →
        k'.length < k.length ∨
          k'.length = k.length ∧ SectionKind.all.idxOf kind ≤ SectionKind.all.idxOf kind' := by
  rw [header?_eq_find?, Option.bind_eq_some_iff]
  simp only [find?_of_pairwise header_apart (pairwise_headers language)]
  constructor
  · rintro ⟨⟨k, kind⟩, ⟨member, _, first⟩, found⟩
    obtain ⟨rest, after, ⟨⟩⟩ := Option.map_eq_some_iff.mp found
    obtain ⟨keyword, some⟩ := mem_headers.mp member
    refine ⟨⟨keyword, some, by simpa using Text.after?_eq_some_iff.mp after⟩, ?_⟩
    rintro kind' k' name' ⟨keyword', some', split'⟩
    rcases first (k', kind') (mem_headers.mpr ⟨keyword', some'⟩) (by simp [split']) with same | before
    · cases same
      exact .inr ⟨rfl, Nat.le_refl _⟩
    · exact before
  · rintro ⟨⟨keyword, some, split⟩, first⟩
    refine ⟨(k, kind), ⟨mem_headers.mpr ⟨keyword, some⟩, by simp [split], ?_⟩, ?_⟩
    · rintro ⟨k', kind'⟩ member leads
      obtain ⟨name', split'⟩ := List.isPrefixOf_iff_prefix.mp leads
      obtain ⟨keyword', some'⟩ := mem_headers.mp member
      exact .inr (first kind' k' name' ⟨keyword', some', by simp [← split']⟩)
    · rw [Text.after?_eq_some_iff.mpr (show t = k ++ [':'] ++ name by simp [split])]
      rfl

section

variable {a b : Language} {t : Text}

theorem step?_of_leading (same : ∀ s, s ≠ [] → s <+: t →
      (s ∈ b.presentStepKeywords ↔ s ∈ a.presentStepKeywords)) :
    (ofLanguage b).step? t = (ofLanguage a).step? t := by
  refine Option.ext fun (k, name) => ?_
  rw [step?_eq_some_iff, step?_eq_some_iff, Template.find?_alternatives_of_leading same]

theorem header?_of_opens (same : ∀ kind k name, Opens b kind t k name ↔ Opens a kind t k name) :
    (ofLanguage b).header? t = (ofLanguage a).header? t := by
  refine Option.ext fun (kind, k, name) => ?_
  simp only [header?_iff, same]

/-- The keywords that a line starts with decide what it is. -/
theorem kind_of_leading {raw : Text}
    (steps : ∀ s, s ≠ [] → s <+: raw.unindent →
      (s ∈ b.presentStepKeywords ↔ s ∈ a.presentStepKeywords))
    (headers : ∀ kind k name, Opens b kind raw.unindent k name ↔ Opens a kind raw.unindent k name) :
    (ofLanguage b).kind raw = (ofLanguage a).kind raw := by
  unfold kind
  split
  case h_5 => rw [step?_of_leading steps, header?_of_opens headers]
  all_goals rfl

theorem kind_congr (same : a.Rearranged b) (raw : Text) :
    (ofLanguage b).kind raw = (ofLanguage a).kind raw :=
  kind_of_leading (fun s _ _ => same.mem_presentStepKeywords s) fun kind k name => by
    simp only [Opens, same.sections]

end

end Vocabulary

namespace LineState

variable {v w : Vocabulary}

/-- Reading depends on the kinds of the lines that are read. -/
theorem readFrom_congr_of_mem {raws : List Text} (same : ∀ raw ∈ raws, v.kind raw = w.kind raw)
    (state : LineState) (line : Nat) : state.readFrom v line raws = state.readFrom w line raws := by
  induction raws generalizing state line with
  | nil => rfl
  | cons raw raws ih =>
    obtain ⟨first, others⟩ := List.forall_mem_cons.mp same
    have moves : state.step v line raw = state.step w line raw := by
      cases state <;> simp only [step, first]
    simp only [readFrom, moves, ih others]

theorem readFrom_congr (same : ∀ raw, v.kind raw = w.kind raw) (state : LineState) (line : Nat)
    (raws : List Text) : state.readFrom v line raws = state.readFrom w line raws :=
  readFrom_congr_of_mem (fun raw _ => same raw) state line

end LineState

end FeatureFile
