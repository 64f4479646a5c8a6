import FeatureFile.Line.Kind
import FeatureFile.Grammar.Template
import FeatureFile.Proofs.Text.Lines
import FeatureFile.Proofs.Text.LongestFirst
import FeatureFile.Proofs.Text.Pieces
import Mathlib.Data.List.Find
/-!
Languages whose keywords cannot be mistaken for anything else on a line. For these the kind of a line
does not depend on the order in which keywords are tried.
-/

namespace FeatureFile

theorem fence?_eq_some_iff {raw : Text} {bare : Bool} :
    fence? raw = some bare ↔
      ∃ rest, raw.unindent = fence ++ rest ∧ rest.all Text.isBlankChar = bare := by
  simp only [fence?, Option.map_eq_some_iff, Text.after?_eq_some_iff]

/-! ### Well-separated languages -/

namespace Language

/-- The keywords of the section concepts and the step concepts. -/
def allKeywords (language : Language) : List Text :=
  (SectionKind.all.map SectionKind.concept ++ Concept.steps).flatMap language.presentKeywords

/-- The keywords of a language cannot be mistaken for marks, for line breaks or for each other. -/
structure WellSeparated (language : Language) : Prop where
  unbroken : ∀ k ∈ language.allKeywords, Text.Unbroken k
  unmarked : ∀ k ∈ language.allKeywords, ∀ mark ∈ ['#', '@', '"'], k.head? ≠ some mark
  withoutColon : ∀ kind : SectionKind, ∀ k ∈ language.presentKeywords kind.concept, ':' ∉ k
  distinct : ∀ kind kind' : SectionKind, ∀ k ∈ language.presentKeywords kind.concept,
    k ∈ language.presentKeywords kind'.concept → k ≠ [] → kind = kind'
  /-- A step keyword and a header do not begin each other. -/
  apart : ∀ s ∈ language.presentStepKeywords, s ≠ [] →
    ∀ kind : SectionKind, ∀ k ∈ language.presentKeywords kind.concept, k ≠ [] →
      ¬ s <+: k ++ [':'] ∧ ¬ k ++ [':'] <+: s

/-- Header keywords end at the colon, and each of them belongs to one kind of section. -/
structure SectionsApart (language : Language) : Prop where
  withoutColon : ∀ kind : SectionKind, ∀ k ∈ language.presentKeywords kind.concept, ':' ∉ k
  distinct : ∀ kind kind' : SectionKind, ∀ k ∈ language.presentKeywords kind.concept,
    k ∈ language.presentKeywords kind'.concept → k ≠ [] → kind = kind'

theorem WellSeparated.sectionsApart {language : Language} (separated : language.WellSeparated) :
    language.SectionsApart :=
  ⟨separated.withoutColon, separated.distinct⟩

/-- The conditions of `WellSeparated`, run over the keywords. -/
def separates (language : Language) : Bool :=
  language.allKeywords.all (fun k => decide (Text.Unbroken k)) &&
  language.allKeywords.all (fun k => ['#', '@', '"'].all fun mark => k.head? != some mark) &&
  SectionKind.all.all (fun kind =>
    (language.presentKeywords kind.concept).all fun k => !k.contains ':') &&
  SectionKind.all.all (fun kind => SectionKind.all.all fun kind' =>
    (language.presentKeywords kind.concept).all fun k =>
      !(language.presentKeywords kind'.concept).contains k || k == [] || kind == kind') &&
  language.presentStepKeywords.all (fun s => s == [] || SectionKind.all.all fun kind =>
    (language.presentKeywords kind.concept).all fun k => k == [] ||
      !s.isPrefixOf (k ++ [':']) && !(k ++ [':']).isPrefixOf s)

theorem separates_iff (language : Language) :
    language.separates = true ↔ language.WellSeparated := by
  have every : ∀ {p : SectionKind → Prop}, (∀ kind ∈ SectionKind.all, p kind) ↔ ∀ kind, p kind :=
    ⟨fun h kind => h kind kind.mem_all, fun h kind _ => h kind⟩
  have starts : ∀ {s k : Text}, s.isPrefixOf k = false ↔ ¬ s <+: k :=
    Bool.eq_false_iff.trans (not_congr List.isPrefixOf_iff_prefix)
  simp only [separates, Bool.and_eq_true, List.all_eq_true, decide_eq_true_eq, bne_iff_ne,
    Bool.not_eq_true', List.contains_eq_mem, Bool.or_eq_true, beq_iff_eq, decide_eq_false_iff_not,
    every, starts, or_iff_not_imp_left, Classical.not_imp, not_not, and_imp]
  exact ⟨fun ⟨⟨⟨⟨unbroken, unmarked⟩, withoutColon⟩, distinct⟩, apart⟩ =>
      ⟨unbroken, unmarked, withoutColon, distinct,
        fun s mem some kind k mem' => apart s mem some kind k mem'⟩,
    fun separated =>
      ⟨⟨⟨⟨separated.unbroken, separated.unmarked⟩, separated.withoutColon⟩, separated.distinct⟩,
        separated.apart⟩⟩

instance (language : Language) : Decidable language.WellSeparated :=
  decidable_of_iff (language.separates = true) language.separates_iff

variable {language : Language}

theorem mem_presentStepKeywords {s : Text} (mem : s ∈ language.presentStepKeywords) :
    ∃ k ∈ language.allKeywords, s = spaced k := by
  simp only [presentStepKeywords, List.mem_eraseDups, List.mem_map, List.mem_flatMap] at mem
  obtain ⟨k, ⟨concept, step, mem⟩, rfl⟩ := mem
  exact ⟨k, List.mem_flatMap.mpr ⟨concept, List.mem_append_right _ step, mem⟩, rfl⟩

theorem mem_allKeywords_of_section {kind : SectionKind} {k : Text}
    (mem : k ∈ language.presentKeywords kind.concept) : k ∈ language.allKeywords :=
  List.mem_flatMap.mpr
    ⟨kind.concept, List.mem_append_left _ (List.mem_map_of_mem (SectionKind.mem_all kind)), mem⟩

/-- Keywords are listed between bars, so there is none in a keyword. -/
theorem bar_not_mem {k : Text} (mem : k ∈ language.allKeywords) : '|' ∉ k := by
  obtain ⟨concept, _, mem⟩ := List.mem_flatMap.mp mem
  rw [presentKeywords, keywords?] at mem
  cases found : language.table.get? concept with
  | none => simp [found] at mem
  | some entry =>
    rw [found] at mem
    exact (Text.of_mem_splitOn mem).1

end Language

private theorem trimEndBy_prefix (p : Char → Bool) (t : Text) : Text.trimEndBy p t <+: t := by
  induction t with
  | nil => exact List.prefix_rfl
  | cons x t ih =>
    rw [Text.trimEndBy]
    split
    · split
      · exact List.nil_prefix
      · exact ⟨t, rfl⟩
    next kept _ => exact List.cons_prefix_cons.mpr ⟨rfl, ih⟩

/-- A spaced keyword is the beginning of the keyword, with at most a space behind it. -/
theorem spaced_cases (k : Text) : ∃ kept, kept <+: k ∧ (spaced k = kept ∨ spaced k = kept ++ [' ']) := by
  have trimmed : k.trimEnd <+: k := trimEndBy_prefix _ k
  by_cases glued : k.trimEnd.getLast? = some '<'
  · exact ⟨_, (List.dropLast_prefix _).trans trimmed, .inl (by simp [spaced, glued])⟩
  · exact ⟨_, trimmed, .inr (by simp [spaced, glued])⟩

theorem Language.unbroken_of_step {language : Language}
    (unbroken : ∀ k ∈ language.allKeywords, Text.Unbroken k) {s : Text}
    (mem : s ∈ language.presentStepKeywords) : Text.Unbroken s := by
  obtain ⟨k, member, rfl⟩ := mem_presentStepKeywords mem
  obtain ⟨kept, inside, same⟩ := spaced_cases k
  intro c found
  have either : c ∈ kept ∨ c = ' ' := by
    rcases same with same | same <;> simp_all
  rcases either with found | rfl
  · exact unbroken k member c (inside.subset found)
  · decide

/-- The characters that tell what a line is without a keyword. -/
def marks : List Char :=
  ['#', '@', '|', '"']

namespace Language.WellSeparated

variable {language : Language} (separated : language.WellSeparated)
include separated

theorem head_not_mark {k : Text} {x : Char} (mem : k ∈ language.allKeywords)
    (head : k.head? = some x) : x ∉ marks := by
  have bar : x ≠ '|' := by
    rintro rfl
    exact bar_not_mem mem (List.mem_of_mem_head? head)
  have others := separated.unmarked k mem
  simp only [List.mem_cons, List.not_mem_nil, or_false, forall_eq_or_imp, forall_eq, head, ne_eq,
    Option.some.injEq] at others
  simp [marks, others, bar]

theorem step_head_not_mark {s : Text} {x : Char} (mem : s ∈ language.presentStepKeywords)
    (head : s.head? = some x) : x ∉ marks := by
  obtain ⟨k, member, rfl⟩ := mem_presentStepKeywords mem
  obtain ⟨kept, ⟨more, split⟩, same⟩ := spaced_cases k
  cases kept with
  | nil =>
    rcases same with same | same <;> rw [same] at head <;> cases head
    decide
  | cons y kept =>
    have first : y = x := by
      rcases same with same | same <;> rw [same] at head <;> exact Option.some.inj head
    exact separated.head_not_mark member (by rw [← split, ← first]; rfl)

end Language.WellSeparated

/-! ### Keywords at the beginning of a line -/

namespace Vocabulary

variable {language : Language} {t k name : Text} {kind : SectionKind}

private theorem findSome?_after? {keywords : List Text} :
    keywords.findSome? (fun k => (Text.after? k t).map (k, ·)) = some (k, name) ↔
      keywords.find? (·.isPrefixOf t) = some k ∧ t = k ++ name := by
  induction keywords with
  | nil => simp
  | cons first others ih =>
    cases found : Text.after? first t with
    | some rest =>
      obtain rfl := Text.after?_eq_some_iff.mp found
      rw [List.findSome?_cons_of_isSome (by simp [found]), List.find?_cons_of_pos (by simp), found]
      constructor
      · rintro ⟨⟩
        exact ⟨rfl, rfl⟩
      · rintro ⟨⟨⟩, same⟩
        simpa using same
    | none =>
      have other : ¬ first <+: t := by
        rintro ⟨rest, same⟩
        rw [Text.after?_eq_some_iff.mpr same.symm] at found
        cases found
      rw [List.findSome?_cons_of_isNone (by simp [found]), List.find?_cons_of_neg (by simpa using other),
        ih]

theorem mem_alternatives {keywords : List Text} :
    k ∈ Template.alternatives keywords ↔ k ∈ keywords ∧ k ≠ [] := by
  rw [Template.alternatives, (longestFirst_perm _).mem_iff, List.mem_eraseDups]
  simp

/-- Texts that start with the same keywords start with the same alternative. -/
theorem find?_alternatives_of_prefix {keywords : List Text} {u : Text}
    (same : ∀ k ∈ keywords, k <+: t ↔ k <+: u) :
    (Template.alternatives keywords).find? (·.isPrefixOf t) =
      (Template.alternatives keywords).find? (·.isPrefixOf u) := by
  refine List.find?_congr fun k member => ?_
  rw [Bool.eq_iff_iff, List.isPrefixOf_iff_prefix, List.isPrefixOf_iff_prefix,
    same k (mem_alternatives.mp member).1]

/-- A step is found by the longest of its keywords, which is the first alternative of the grammar. -/
theorem step?_eq_some_iff :
    (ofLanguage language).step? t = some (k, name) ↔
      (Template.alternatives language.presentStepKeywords).find? (·.isPrefixOf t) = some k ∧
        t = k ++ name := by
  rw [step?, findSome?_after?]
  simp only [ofLanguage, Template.alternatives, find?_longestFirst, List.mem_eraseDups]

theorem map_step? :
    ((ofLanguage language).step? t).map Prod.fst =
      (Template.alternatives language.presentStepKeywords).find? (·.isPrefixOf t) := by
  cases first : (Template.alternatives language.presentStepKeywords).find? (·.isPrefixOf t) with
  | some k =>
    obtain ⟨name, rfl⟩ : k <+: t := by simpa using List.find?_some first
    rw [step?_eq_some_iff.mpr ⟨first, rfl⟩]
    rfl
  | none =>
    rw [Option.map_eq_none_iff]
    by_contra found
    obtain ⟨⟨k, name⟩, found⟩ := Option.ne_none_iff_exists'.mp found
    rw [(step?_eq_some_iff.mp found).1] at first
    cases first

/-- The text is a header of the kind: a keyword, a colon and the name. -/
def Opens (language : Language) (kind : SectionKind) (t k name : Text) : Prop :=
  k ∈ language.presentKeywords kind.concept ∧ k ≠ [] ∧ t = k ++ ':' :: name

theorem Opens.unique (apart : language.SectionsApart) {kind' : SectionKind} {k' name' : Text}
    (opens : Opens language kind t k name) (opens' : Opens language kind' t k' name') :
    kind = kind' ∧ k = k' ∧ name = name' := by
  obtain ⟨mem, present, rfl⟩ := opens
  obtain ⟨mem', _, same⟩ := opens'
  have front {k name : Text} (plain : ':' ∉ k) : (k ++ ':' :: name).takeWhile (· ≠ ':') = k := by
    rw [List.takeWhile_append_of_pos fun x mem => by simpa using ne_of_mem_of_not_mem mem plain]
    simp
  have keywords := congrArg (List.takeWhile (· ≠ ':')) same
  rw [front (apart.withoutColon kind k mem), front (apart.withoutColon kind' k' mem')]
    at keywords
  subst keywords
  exact ⟨apart.distinct kind kind' k mem mem' present, rfl, by simpa using same⟩

theorem mem_headers :
    (k, kind) ∈ (ofLanguage language).headers ↔
      k ∈ language.presentKeywords kind.concept ∧ k ≠ [] := by
  rw [ofLanguage, (longestFirst_perm _).mem_iff]
  simp only [List.mem_flatMap, headersOf, List.mem_map, List.mem_filter, Prod.mk.injEq]
  constructor
  · rintro ⟨_, _, _, ⟨member, present⟩, rfl, rfl⟩
    exact ⟨member, by simpa using present⟩
  · rintro ⟨member, present⟩
    exact ⟨kind, kind.mem_all, k, ⟨member, by simpa using present⟩, rfl, rfl⟩

/-- The keyword in front of the colon is the first alternative that the text starts with. -/
theorem Opens.find?_alternatives (apart : language.SectionsApart) (opens : Opens language kind t k name) :
    (Template.alternatives (language.presentKeywords kind.concept)).find? (·.isPrefixOf t) = some k := by
  obtain ⟨mem, present, rfl⟩ := opens
  rw [Template.alternatives, find?_longestFirst]
  refine ⟨by simpa using ⟨mem, present⟩, ⟨_, rfl⟩, fun other mem' leads => ?_⟩
  -- A longer one would have the colon in it.
  by_contra longer
  have colon : k ++ [':'] <+: other :=
    List.prefix_of_prefix_length_le ⟨name, by simp⟩ leads (by simp; omega)
  have keyword : other ∈ language.presentKeywords kind.concept := by simp_all
  exact apart.withoutColon kind other keyword (colon.subset (by simp))

/-- What is found as a header is one. -/
theorem opens_of_header? (h : (ofLanguage language).header? t = some (kind, k, name)) :
    Opens language kind t k name := by
  obtain ⟨⟨k', kind'⟩, mem, found⟩ := List.exists_of_findSome?_eq_some h
  obtain ⟨rest, after, same⟩ := Option.map_eq_some_iff.mp found
  cases same
  have split := Text.after?_eq_some_iff.mp after
  obtain ⟨keyword, present⟩ := mem_headers.mp mem
  exact ⟨keyword, present, by simpa using split⟩

theorem header?_eq_some_iff (apart : language.SectionsApart) :
    (ofLanguage language).header? t = some (kind, k, name) ↔ Opens language kind t k name := by
  refine ⟨opens_of_header?, fun opens => ?_⟩
  cases found : (ofLanguage language).header? t with
  | some header =>
    obtain ⟨kind', k', name'⟩ := header
    obtain ⟨rfl, rfl, rfl⟩ := opens.unique apart (opens_of_header? found)
    rfl
  | none =>
    obtain ⟨mem, present, rfl⟩ := opens
    have misses := List.findSome?_eq_none_iff.mp found _ (mem_headers.mpr ⟨mem, present⟩)
    have after : Text.after? (k ++ [':']) (k ++ ':' :: name) = some name :=
      Text.after?_eq_some_iff.mpr (by simp)
    simp [after] at misses

/-- A header is no step. -/
theorem Opens.step?_eq_none (separated : language.WellSeparated) (opens : Opens language kind t k name) :
    (ofLanguage language).step? t = none := by
  by_contra found
  obtain ⟨⟨s, rest⟩, found⟩ := Option.ne_none_iff_exists'.mp found
  obtain ⟨mem, present, split⟩ := opens
  obtain ⟨first, same⟩ := step?_eq_some_iff.mp found
  obtain ⟨step, full⟩ := mem_alternatives.mp (List.mem_of_find?_eq_some first)
  obtain ⟨noStep, noHeader⟩ := separated.apart s step full kind k mem present
  have header : k ++ [':'] <+: t := ⟨name, by simp [split]⟩
  rcases List.prefix_or_prefix_of_prefix (show s <+: t from ⟨rest, same.symm⟩) header with lead | lead
  · exact noStep lead
  · exact noHeader lead

/-! ### Kinds -/

/-- What decides the kind of a line. -/
inductive Decided (vocabulary : Vocabulary) (raw : Text) : LineKind → Prop where
  | blank (nothing : raw.unindent = []) : Decided vocabulary raw .blank
  | comment {v : Text} (mark : raw.unindent = '#' :: v) : Decided vocabulary raw (.comment ('#' :: v))
  | tags {v : Text} (mark : raw.unindent = '@' :: v) : Decided vocabulary raw (.tags ('@' :: v))
  | row {v : Text} (mark : raw.unindent = '|' :: v) : Decided vocabulary raw (.row ('|' :: v))
  | fence {bare : Bool} (mark : fence? raw = some bare) : Decided vocabulary raw (.fence bare)
  | step {k name : Text} (unfenced : fence? raw = none)
      (found : vocabulary.step? raw.unindent = some (k, name)) : Decided vocabulary raw (.step k name)
  | header {kind : SectionKind} {k name : Text} (unfenced : fence? raw = none)
      (noStep : vocabulary.step? raw.unindent = none)
      (found : vocabulary.header? raw.unindent = some (kind, k, name)) :
      Decided vocabulary raw (.header kind k name)
  | other (visible : raw.unindent ≠ [])
      (unmarked : ∀ mark ∈ ['#', '@', '|'], raw.unindent.head? ≠ some mark)
      (unfenced : fence? raw = none)
      (noStep : vocabulary.step? raw.unindent = none)
      (noHeader : vocabulary.header? raw.unindent = none) : Decided vocabulary raw (.other raw.unindent)

theorem decided (vocabulary : Vocabulary) (raw : Text) :
    Decided vocabulary raw (vocabulary.kind raw) := by
  unfold kind
  split
  next nothing => exact .blank nothing
  next v mark => exact .comment mark
  next v mark => exact .tags mark
  next v mark => exact .row mark
  next visible noComment noTags noRow =>
    cases fenced : fence? raw with
    | some bare => exact .fence fenced
    | none =>
      cases steps : vocabulary.step? raw.unindent with
      | some step => exact .step fenced steps
      | none =>
        cases headers : vocabulary.header? raw.unindent with
        | some header => exact .header fenced steps headers
        | none =>
          refine .other visible (fun mark mem head => ?_) fenced steps headers
          obtain ⟨v, same⟩ : ∃ v, raw.unindent = mark :: v := by
            cases front : raw.unindent with
            | nil => exact absurd front visible
            | cons x v => exact ⟨v, by rw [front] at head; simpa using head⟩
          simp only [List.mem_cons, List.not_mem_nil, or_false] at mem
          rcases mem with rfl | rfl | rfl
          · exact noComment v same
          · exact noTags v same
          · exact noRow v same

/-- Every way of looking at a line agrees with its kind. -/
structure Exact (vocabulary : Vocabulary) (raw : Text) (found : LineKind) : Prop where
  blank : raw.unindent = [] ↔ found = .blank
  comment : ∀ v, raw.unindent = '#' :: v ↔ found = .comment ('#' :: v)
  tags : ∀ v, raw.unindent = '@' :: v ↔ found = .tags ('@' :: v)
  row : ∀ v, raw.unindent = '|' :: v ↔ found = .row ('|' :: v)
  fence : ∀ bare, fence? raw = some bare ↔ found = .fence bare
  step : ∀ k name, vocabulary.step? raw.unindent = some (k, name) ↔ found = .step k name
  header : ∀ kind k name,
    vocabulary.header? raw.unindent = some (kind, k, name) ↔ found = .header kind k name

private theorem head_of_fence? {raw : Text} {bare : Bool} (h : fence? raw = some bare) :
    raw.unindent.head? = some '"' := by
  obtain ⟨rest, split, _⟩ := fence?_eq_some_iff.mp h
  rw [split]
  rfl

private theorem head_of_step? (separated : language.WellSeparated)
    (h : (ofLanguage language).step? t = some (k, name)) : ∃ x, t.head? = some x ∧ x ∉ marks := by
  obtain ⟨first, rfl⟩ := step?_eq_some_iff.mp h
  obtain ⟨mem, present⟩ := mem_alternatives.mp (List.mem_of_find?_eq_some first)
  cases k with
  | nil => exact absurd rfl present
  | cons x k => exact ⟨x, rfl, separated.step_head_not_mark mem rfl⟩

private theorem Opens.head (separated : language.WellSeparated) (opens : Opens language kind t k name) :
    ∃ x, t.head? = some x ∧ x ∉ marks := by
  obtain ⟨mem, present, rfl⟩ := opens
  cases k with
  | nil => exact absurd rfl present
  | cons x k =>
    exact ⟨x, rfl, separated.head_not_mark (Language.mem_allKeywords_of_section mem) rfl⟩

/-- In front of a mark, and on a blank line, there is no keyword. -/
private theorem no_keyword (separated : language.WellSeparated) (h : ∀ x, t.head? = some x → x ∈ marks) :
    (ofLanguage language).step? t = none ∧ (ofLanguage language).header? t = none := by
  constructor
  · by_contra found
    obtain ⟨⟨k, name⟩, found⟩ := Option.ne_none_iff_exists'.mp found
    obtain ⟨x, head, unmarked⟩ := head_of_step? separated found
    exact unmarked (h x head)
  · by_contra found
    obtain ⟨⟨kind, k, name⟩, found⟩ := Option.ne_none_iff_exists'.mp found
    obtain ⟨x, head, unmarked⟩ := ((header?_eq_some_iff separated.sectionsApart).mp found).head separated
    exact unmarked (h x head)

theorem exact (separated : language.WellSeparated) (raw : Text) :
    Exact (ofLanguage language) raw ((ofLanguage language).kind raw) := by
  have unfenced (other : raw.unindent.head? ≠ some '"') : fence? raw = none := by
    by_contra found
    obtain ⟨bare, found⟩ := Option.ne_none_iff_exists'.mp found
    exact other (head_of_fence? found)
  have front {x : Char} (head : raw.unindent.head? = some x) : ∃ v, raw.unindent = x :: v := by
    cases shape : raw.unindent with
    | nil => simp [shape] at head
    | cons y v =>
      obtain rfl : y = x := by simpa [shape] using head
      exact ⟨v, rfl⟩
  have decided := decided (ofLanguage language) raw
  generalize (ofLanguage language).kind raw = found at decided
  -- In every case the tests that come later in the order fail as well, since the first character
  -- of the line or of the keyword excludes them.
  cases decided with
  | blank nothing =>
    have noFence := unfenced (by simp [nothing])
    obtain ⟨noStep, noHeader⟩ := no_keyword separated (t := raw.unindent) (by simp [nothing])
    rw [nothing] at noStep noHeader
    constructor <;> simp [nothing, noFence, noStep, noHeader]
  | comment mark | tags mark | row mark =>
    have noFence := unfenced (by simp [mark])
    obtain ⟨noStep, noHeader⟩ := no_keyword separated (t := raw.unindent) (by simp [mark, marks])
    rw [mark] at noStep noHeader
    constructor <;> simp [mark, noFence, noStep, noHeader]
  | fence mark =>
    have head := head_of_fence? mark
    obtain ⟨noStep, noHeader⟩ := no_keyword separated (t := raw.unindent) (by simp [head, marks])
    obtain ⟨v, shape⟩ := front head
    rw [shape] at noStep noHeader
    constructor <;> simp [shape, mark, noStep, noHeader]
  | step noFence found =>
    obtain ⟨x, head, unmarked⟩ := head_of_step? separated found
    have noHeader : (ofLanguage language).header? raw.unindent = none := by
      by_contra other
      obtain ⟨⟨kind, k, name⟩, other⟩ := Option.ne_none_iff_exists'.mp other
      rw [((header?_eq_some_iff separated.sectionsApart).mp other).step?_eq_none separated] at found
      cases found
    obtain ⟨v, shape⟩ := front head
    rw [shape] at found noHeader
    simp only [marks, List.mem_cons, List.not_mem_nil, or_false, not_or] at unmarked
    constructor <;> simp [shape, unmarked, noFence, found, noHeader]
  | header noFence noStep found =>
    obtain ⟨x, head, unmarked⟩ := ((header?_eq_some_iff separated.sectionsApart).mp found).head separated
    obtain ⟨v, shape⟩ := front head
    rw [shape] at noStep found
    simp only [marks, List.mem_cons, List.not_mem_nil, or_false, not_or] at unmarked
    constructor <;> simp [shape, unmarked, noFence, noStep, found]
  | other visible unmarked noFence noStep noHeader =>
    obtain ⟨x, head⟩ : ∃ x, raw.unindent.head? = some x :=
      Option.ne_none_iff_exists'.mp (by simpa using visible)
    obtain ⟨v, shape⟩ := front head
    rw [shape] at noStep noHeader
    simp only [List.mem_cons, List.not_mem_nil, or_false, forall_eq_or_imp, forall_eq, head, ne_eq,
      Option.some.injEq] at unmarked
    constructor <;> simp [shape, unmarked, noFence, noStep, noHeader]

end Vocabulary

end FeatureFile
