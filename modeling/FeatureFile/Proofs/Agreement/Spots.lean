import FeatureFile.Proofs.Agreement.KeywordRules
import FeatureFile.Proofs.Grammar.Yields
/-!
Where in a line the rules of the shipped template match. Keywords are looked for behind the indentation of
a line only, and the keyword of a header counts only in front of a colon. So two grammars match a text
alike if their keywords do there.
-/

namespace FeatureFile

open Text (FirstLine Unbroken isBlankChar)

/-! ### Spots -/

/-- What is known about where a place is. -/
inductive Spot where
  /-- At the beginning of a line or at the end of the text. -/
  | start
  /-- Behind the indentation of a line. -/
  | margin
  | anywhere
  deriving DecidableEq, Repr

namespace Spot

/-- What is known of a place that is at one of the two. -/
def join (σ τ : Spot) : Spot :=
  if σ = τ then σ else anywhere

/-- Where the rules for indentation, line breaks and steps end, which their bodies do not tell. A step is
looked for behind an indentation. -/
def behind? : Spot → String → Option Spot
  | start, "sp" => some margin
  | _, "nl" => some start
  | margin, "step_keyword" => some anywhere
  | _, _ => none

end Spot

namespace Expr

/-- Whether the expression is the rule for the keywords of a kind of header. -/
def isHeaderKeyword : Expr → Bool
  | call name => SectionKind.all.any (·.keywordRule = name)
  | _ => false

theorem exists_keywordRule {e : Expr} (header : e.isHeaderKeyword = true) :
    ∃ kind : SectionKind, e = call kind.keywordRule := by
  cases e with
  | call name =>
    obtain ⟨kind, -, same⟩ := List.any_eq_true.mp header
    exact ⟨kind, congrArg call (of_decide_eq_true same).symm⟩
  | _ => cases header

/-- Whether the expression matches in front of a colon only. -/
def needsColon : Expr → Bool
  | literal text => text.head? = some ':'
  | seq a _ => a.needsColon
  | _ => false

/-- Where matches of the expression end that begin at the spot, given where those of rules do. Nothing is
known if the keyword of a header is looked for elsewhere than behind an indentation, or not in front of a
colon. -/
def spot? (rule? : String → Spot → Option Spot) : Expr → Spot → Option Spot
  | literal _, _ | any, _ => some .anywhere
  | startOfInput, σ => some σ
  | endOfInput, _ => some .start
  | call name, σ => rule? name σ
  | seq a b, σ =>
    if a.isHeaderKeyword then
      if σ = .margin ∧ b.needsColon then b.spot? rule? .anywhere else none
    else (a.spot? rule? σ).bind (b.spot? rule?)
  | choice a b, σ => (a.spot? rule? σ).bind fun τ => (b.spot? rule? σ).map τ.join
  | star a, σ =>
    if a.spot? rule? σ = some σ then some σ
    else if a.spot? rule? .anywhere = some .anywhere then some .anywhere
    else none
  | opt a, σ => (a.spot? rule? σ).map σ.join
  | not a, σ => (a.spot? rule? σ).map fun _ => σ
  -- The rules of the template are arranged without the one and do not have the other.
  | plus _, _ | and _, _ => none

end Expr

/-- The rounds of a repetition end where they begin, as far as is known. -/
theorem Expr.spot?_star {rule? : String → Spot → Option Spot} {a : Expr} {σ τ : Spot}
    (spot : (star a).spot? rule? σ = some τ) :
    a.spot? rule? τ = some τ ∧ (star a).spot? rule? τ = some τ ∧ (σ = τ ∨ τ = .anywhere) := by
  rw [spot?] at spot
  split_ifs at spot with same further
  all_goals cases spot
  · exact ⟨same, if_pos same, .inl rfl⟩
  · exact ⟨further, if_pos further, .inr rfl⟩

/-- Where matches of a rule end, followed through as many calls. -/
def Rules.spot? (rules : List Rule) : Nat → String → Spot → Option Spot
  | 0, _, _ => none
  | depth + 1, name, σ =>
    (σ.behind? name).or ((find? rules name).bind fun rule => rule.body.spot? (spot? rules depth) σ)

/-- All keywords are looked for where they count. -/
theorem Template.spot?_entryRule (name : String) :
    (entryRule name).body.spot? (Rules.spot? (fixedRules.map Rule.arranged) 9) .start = some .start := by
  change (entryRule "").body.spot? _ _ = _
  decide +kernel

/-! ### Places -/

namespace Spot

/-- The place is where the spot says, in the source. -/
def At (source : Text) : Spot → Cursor → Prop
  | start, c => c.rest <:+ source ∧ c.rest.lines ⊆ source.lines
  | margin, c => c.rest <:+ source ∧ ∀ w, Unbroken w → w ≠ [] → w <+: c.rest →
      ∃ raw ∈ source.lines, w <+: raw.unindent
  | anywhere, c => c.rest <:+ source

namespace At

variable {source : Text} {σ τ : Spot} {c d : Cursor}

theorem suffix (here : σ.At source c) : c.rest <:+ source := by
  cases σ with
  | start | margin => exact here.1
  | anywhere => exact here

theorem anywhere (here : σ.At source c) (onward : c.Reaches d) : Spot.anywhere.At source d :=
  onward.suffix.trans here.suffix

theorem weaken (here : σ.At source c) (less : σ = τ ∨ τ = .anywhere) : τ.At source c := by
  rcases less with rfl | rfl
  · exact here
  · exact here.suffix

theorem join_left (here : σ.At source c) (τ : Spot) : (σ.join τ).At source c :=
  here.weaken (by unfold join; split <;> simp)

theorem join_right (σ : Spot) (here : τ.At source c) : (σ.join τ).At source c :=
  here.weaken (by unfold join; split <;> simp_all)

theorem ended (here : σ.At source c) (last : c.rest.isEmpty = true) : Spot.start.At source c := by
  refine ⟨here.suffix, ?_⟩
  rw [List.isEmpty_iff.mp last]
  exact List.nil_subset _

/-- Behind a line break a line begins. -/
theorem behind_break (here : σ.At source c) {q brk rest : Text} (line : FirstLine c.rest q brk rest)
    (ends : brk ≠ []) : Spot.start.At source (c.after (q ++ brk)) := by
  obtain ⟨front, whole⟩ := here.suffix
  have split := line.eq_append
  obtain ⟨lead, feed⟩ : ∃ lead, source = lead ++ '\n' :: rest := by
    rcases line.brk_cases with ⟨none, -⟩ | rfl | rfl
    · exact absurd none ends
    · exact ⟨front ++ q, by simp [← whole, split]⟩
    · exact ⟨front ++ q ++ ['\r'], by simp [← whole, split]⟩
  rw [At, line.rest_after, feed]
  exact ⟨⟨lead ++ ['\n'], by simp⟩, fun raw member => Text.mem_lines_of_feed member⟩

/-- Behind its indentation the line goes on. -/
theorem behind_indentation (here : Spot.start.At source c) {q brk rest : Text}
    (line : FirstLine c.rest q brk rest) :
    Spot.margin.At source (c.after (q.takeWhile isBlankChar)) := by
  have behind := line.behind_indentation
  refine ⟨(List.drop_suffix _ _).trans here.suffix, fun w unbroken some leads => ?_⟩
  have leads := (behind.prefix_iff unbroken).mp leads
  have filled : c.rest ≠ [] := by
    intro last
    obtain ⟨rfl, -⟩ := line.eq_nil_iff.mp last
    exact some (List.prefix_nil.mp leads)
  refine ⟨q, here.2 ?_, leads⟩
  rw [line.lines_eq filled]
  exact List.mem_cons_self

end At

/-- A match, if the result is one, ends at the spot. -/
def IsEnd (source : Text) (τ : Spot) (result : Option (List Node × Cursor)) : Prop :=
  ∀ nodes d, result = some (nodes, d) → τ.At source d

namespace IsEnd

variable {source : Text} {τ : Spot} {result : Option (List Node × Cursor)}

theorem none (source : Text) (τ : Spot) : τ.IsEnd source none :=
  nofun

/-- The place of a match counts, not its nodes. -/
theorem map {f : List Node × Cursor → List Node × Cursor} (ends : τ.IsEnd source result)
    (keeps : ∀ pair, (f pair).2 = pair.2) : τ.IsEnd source (result.map f) := by
  intro nodes d same
  obtain ⟨pair, given, moved⟩ := Option.map_eq_some_iff.mp same
  have place : pair.2 = d := by rw [← keeps pair, moved]
  exact place ▸ ends pair.1 pair.2 given

end IsEnd

end Spot

/-! ### Results -/

namespace Rules

/-- Two grammars with the known rules that look for keywords with the same result, where the rules look for
them. The second one may miss the keyword of a header that no colon follows. -/
structure Alike (known : List Rule) (source : Text) (rules rules' : List Rule) : Prop where
  known : ∀ name rule, find? known name = some rule →
    find? rules name = some rule ∧ find? rules' name = some rule
  own : ∀ (σ τ : Spot) name c, σ.behind? name = some τ → σ.At source c →
    ∃ result, Gives rules (.call name) c result ∧ Gives rules' (.call name) c result ∧
      τ.IsEnd source result
  header : ∀ (kind : SectionKind) c, Spot.margin.At source c →
    ∃ result, Gives rules (.call kind.keywordRule) c result ∧
      (Gives rules' (.call kind.keywordRule) c result ∨
        Gives rules' (.call kind.keywordRule) c none ∧
          ∀ nodes d, result = some (nodes, d) → d.rest.head? ≠ some ':')

theorem Yields.none_of_needsColon {rules : List Rule} {e : Expr} {c : Cursor}
    {result : Option (List Node × Cursor)} (h : Yields rules e c result) (needs : e.needsColon = true)
    (other : c.rest.head? ≠ some ':') : result = none := by
  induction h with
  | literal w c =>
    rw [Cursor.skip?_eq_none, Option.map_none]
    rintro ⟨t, split⟩
    obtain ⟨v, rfl⟩ : ∃ v, w = ':' :: v := by
      cases w with
      | nil => cases needs
      | cons x v => exact ⟨v, by simpa [Expr.needsColon] using needs⟩
    exact other (by rw [← split]; rfl)
  | seq _ _ ih _ => cases ih needs other
  | seqFail => rfl
  | _ => cases needs

namespace Alike

variable {known rules rules' : List Rule} {source : Text} (alike : Alike known source rules rules')
  {σ τ : Spot} {c : Cursor} {result : Option (List Node × Cursor)}
include alike

/-- A rule whose matches end at a known spot gives the same in both, or its body does. -/
private theorem call_cases {depth : Nat} {name : String} (spot : spot? known depth name σ = some τ)
    (here : σ.At source c) :
    (∃ result, Gives rules (.call name) c result ∧ Gives rules' (.call name) c result ∧
      τ.IsEnd source result) ∨
    ∃ rule below, find? rules name = some rule ∧ find? rules' name = some rule ∧
      rule.body.spot? (spot? known below) σ = some τ := by
  cases depth with
  | zero => cases spot
  | succ below =>
    rcases Option.or_eq_some_iff.mp spot with own | ⟨-, followed⟩
    · exact .inl (alike.own σ τ name c own here)
    · obtain ⟨rule, found, body⟩ := Option.bind_eq_some_iff.mp followed
      obtain ⟨first, second⟩ := alike.known name rule found
      exact .inr ⟨rule, below, first, second, body⟩

/-- What begins at the spot gives the same, and ends where the rules tell. -/
theorem yields {e : Expr} (h : Yields rules e c result) :
    ∀ depth σ τ, e.spot? (spot? known depth) σ = some τ → σ.At source c →
      Yields rules' e c result ∧ τ.IsEnd source result := by
  have onward {e : Expr} {c d : Cursor} {σ : Spot} {nodes : List Node} (here : σ.At source c)
      (h : Yields rules e c (some (nodes, d))) : Spot.anywhere.At source d :=
    here.anywhere h.gives.matches.reaches
  -- The induction is on how the first result comes about. Spots are handed on as `spot?` computes them,
  -- so at a keyword it is known that the place is where keywords are looked for with the same result.
  induction h with
  | literal w c =>
    rintro depth σ _ ⟨⟩ here
    have given : Yields rules (.literal w) c _ := .literal w c
    exact ⟨.literal w c, fun nodes d same => onward here (same ▸ given)⟩
  | any c =>
    rintro depth σ _ ⟨⟩ here
    have given : Yields rules .any c _ := .any c
    exact ⟨.any c, fun nodes d same => onward here (same ▸ given)⟩
  | startOfInput c =>
    rintro depth σ _ ⟨⟩ here
    refine ⟨.startOfInput c, fun nodes d same => ?_⟩
    split at same <;> cases same
    exact here
  | endOfInput c =>
    rintro depth σ _ ⟨⟩ here
    refine ⟨.endOfInput c, fun nodes d same => ?_⟩
    split at same <;> cases same
    exact here.ended ‹_›
  | @undefined name absent c =>
    intro depth σ τ spot here
    rcases alike.call_cases spot here with ⟨result, first, second, _⟩ | ⟨rule, _, found, _⟩
    · cases first.unique (.undefined absent c)
      exact ⟨yields_iff_gives.mpr second, .none source τ⟩
    · simp [absent] at found
  | @call name rule c result found body ih =>
    intro depth σ τ spot here
    rcases alike.call_cases spot here with ⟨_, first, second, ends⟩ | ⟨_, below, same, found', within⟩
    · have given : Yields rules (.call name) c _ := .call found body
      cases first.unique given.gives
      exact ⟨yields_iff_gives.mpr second, ends⟩
    · cases found.symm.trans same
      obtain ⟨inside, ends⟩ := ih below σ τ within here
      exact ⟨.call found' inside, ends.map fun _ => rfl⟩
  | @seq a b c d nodes result first second ih ih' =>
    intro depth σ τ spot here
    rw [Expr.spot?] at spot
    split_ifs at spot with header place
    · obtain ⟨rfl, needs⟩ := place
      obtain ⟨kind, rfl⟩ := Expr.exists_keywordRule header
      obtain ⟨found, gives, same | ⟨lost, other⟩⟩ := alike.header kind c here
      · cases gives.unique first.gives
        obtain ⟨given, ends⟩ := ih' depth _ τ spot (onward here first)
        exact ⟨.seq (yields_iff_gives.mpr same) given, ends.map fun _ => rfl⟩
      · -- No colon follows the keyword that only the first grammar finds.
        cases gives.unique first.gives
        cases second.none_of_needsColon needs (other _ _ rfl)
        exact ⟨.seqFail b (yields_iff_gives.mpr lost), .none source τ⟩
    · obtain ⟨middle, before, after⟩ := Option.bind_eq_some_iff.mp spot
      obtain ⟨given, ends⟩ := ih depth σ middle before here
      obtain ⟨given', ends'⟩ := ih' depth middle τ after (ends _ _ rfl)
      exact ⟨.seq given given', ends'.map fun _ => rfl⟩
  | @seqFail a b c first ih =>
    intro depth σ τ spot here
    rw [Expr.spot?] at spot
    split_ifs at spot with header place
    · obtain ⟨rfl, -⟩ := place
      obtain ⟨kind, rfl⟩ := Expr.exists_keywordRule header
      obtain ⟨found, gives, same | ⟨lost, -⟩⟩ := alike.header kind c here
      · cases gives.unique first.gives
        exact ⟨.seqFail b (yields_iff_gives.mpr same), .none source τ⟩
      · exact ⟨.seqFail b (yields_iff_gives.mpr lost), .none source τ⟩
    · obtain ⟨middle, before, -⟩ := Option.bind_eq_some_iff.mp spot
      exact ⟨.seqFail b (ih depth σ middle before here).1, .none source τ⟩
  | choiceFirst b _ ih =>
    intro depth σ τ spot here
    obtain ⟨left, before, after⟩ := Option.bind_eq_some_iff.mp spot
    obtain ⟨right, _, rfl⟩ := Option.map_eq_some_iff.mp after
    obtain ⟨given, ends⟩ := ih depth σ left before here
    exact ⟨.choiceFirst b given, fun nodes d same => (ends nodes d same).join_left right⟩
  | choiceSecond _ _ ih ih' =>
    intro depth σ τ spot here
    obtain ⟨left, before, after⟩ := Option.bind_eq_some_iff.mp spot
    obtain ⟨right, behind, rfl⟩ := Option.map_eq_some_iff.mp after
    obtain ⟨given, ends⟩ := ih' depth σ right behind here
    exact ⟨.choiceSecond (ih depth σ left before here).1 given,
      fun nodes d same => (ends nodes d same).join_right left⟩
  | starStop _ ih =>
    intro depth σ τ spot here
    obtain ⟨round, -, less⟩ := Expr.spot?_star spot
    have here := here.weaken less
    refine ⟨.starStop (ih depth τ τ round here).1, fun nodes d same => ?_⟩
    cases same
    exact here
  | @starStep a c d nodes _ _ _ ih ih' =>
    intro depth σ τ spot here
    obtain ⟨round, others, less⟩ := Expr.spot?_star spot
    obtain ⟨given, ends⟩ := ih depth τ τ round (here.weaken less)
    obtain ⟨given', ends'⟩ := ih' depth τ τ others (ends _ _ rfl)
    exact ⟨.starStep given given', ends'.map fun _ => rfl⟩
  | @opt a c result _ ih =>
    intro depth σ τ spot here
    obtain ⟨behind, body, rfl⟩ := Option.map_eq_some_iff.mp spot
    obtain ⟨given, ends⟩ := ih depth σ behind body here
    refine ⟨.opt given, fun nodes d same => ?_⟩
    cases result with
    | none =>
      cases same
      exact here.join_left behind
    | some pair => exact (ends nodes d same).join_right σ
  | @not a c result _ ih =>
    intro depth σ τ spot here
    obtain ⟨behind, body, rfl⟩ := Option.map_eq_some_iff.mp spot
    refine ⟨.not (ih depth σ behind body here).1, fun nodes d same => ?_⟩
    split at same <;> cases same
    exact here
  | plusFail | plusStep | and =>
    intro depth σ τ spot
    cases spot

end Alike

end Rules

end FeatureFile
