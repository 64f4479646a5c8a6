import FeatureFile.Proofs.Agreement.Reports
import FeatureFile.Proofs.Document.WellFormed
import FeatureFile.Proofs.Grammar.Ranking
/-!
What the nodes of a match hold, in any language whose grammar compiles. The texts of tags, comments,
names, cells and keywords are known from their rules, and whatever the rules keep of the nodes below
them holds of all nodes of a match.
-/

namespace FeatureFile

open Text (FirstLine exists_firstLine)

namespace Cursor

theorem upTo_self (c : Cursor) : c.upTo c = [] := by
  simp [upTo]

/-- The text between two places, of which the second is behind the first. -/
def Passes (c : Cursor) (w : Text) (d : Cursor) : Prop :=
  c.rest = w ++ d.rest ∧ d = c.after w

theorem passes_after {c : Cursor} {w t : Text} (split : c.rest = w ++ t) : c.Passes w (c.after w) :=
  ⟨by rw [rest_after split, split], rfl⟩

theorem Passes.trans {c d last : Cursor} {v w : Text} (first : c.Passes v d)
    (second : d.Passes w last) : c.Passes (v ++ w) last := by
  obtain ⟨split, rfl⟩ := first
  obtain ⟨split', rfl⟩ := second
  exact ⟨by rw [split, split', List.append_assoc], by rw [after_after]⟩

theorem Passes.upTo {c d : Cursor} {w : Text} (passes : c.Passes w d) : c.upTo d = w := by
  obtain ⟨split, rfl⟩ := passes
  exact upTo_after split

end Cursor

namespace Rules

variable {rules : List Rule} {c d : Cursor} {nodes : List Node} {e : Expr}

/-! ### Searches -/

section

variable {stop : Expr} {p : Char → Bool} (stops : Stops rules stop p)
include stops

/-- One round of a search takes a character of the class, and no line feed. -/
theorem Stops.taken (matched : Matches rules (.seq (.not stop) .any) c nodes d) :
    ∃ x, c.Passes [x] d ∧ p x = true ∧ x ≠ '\n' := by
  cases matched with
  | seq first second =>
    cases first with
    | not fails =>
      cases second with
      | any next =>
        obtain ⟨q, brk, rest, line⟩ := exists_firstLine c.rest
        obtain ⟨result, gives, stopped⟩ := stops c q brk rest line
        obtain rfl := gives.unique fails
        -- The character taken is of the line, since at the end of the line the stop would match.
        unfold Cursor.next? at next
        split at next <;> cases next
        next x more split =>
          have place := Cursor.behind_eq_after split
          cases q with
          | nil =>
            have ends : brk ≠ [] := fun none => by
              simpa [split] using line.eq_nil_iff.mpr ⟨rfl, none⟩
            cases stopped ends
          | cons y q =>
            obtain rfl : y = x := by
              simpa [split] using (congrArg List.head? line.eq_append).symm
            refine ⟨y, ⟨split, place⟩, by simpa using stopped, ?_⟩
            rintro rfl
            exact line.not_mem_line (List.mem_cons_self ..)

theorem Stops.taken_star (matched : Matches rules (.star (.seq (.not stop) .any)) c nodes d) :
    ∃ w, c.Passes w d ∧ ∀ x ∈ w, p x = true ∧ x ≠ '\n' := by
  generalize same : Expr.star (.seq (.not stop) .any) = e at matched
  induction matched with
  | starStop a c => exact ⟨[], ⟨rfl, c.after_nil.symm⟩, by simp⟩
  | starStep first _ _ others =>
    cases same
    obtain ⟨x, one, inside, unbroken⟩ := stops.taken first
    obtain ⟨w, more, all⟩ := others rfl
    exact ⟨x :: w, one.trans more, List.forall_mem_cons.mpr ⟨⟨inside, unbroken⟩, all⟩⟩
  | _ => cases same

end

/-- Alternative keywords take one of them. -/
theorem keyword_of_matches {keywords : List Text}
    (matched : Matches rules (GrammarText.keywordChoice keywords) c nodes d) :
    ∃ k ∈ keywords, k ≠ [] ∧ c.Passes k d := by
  refine GrammarText.keywordChoice_induction
    (P := fun e => Matches rules e c nodes d →
      ∃ k ∈ keywords, k ≠ [] ∧ c.Passes k d) ?_ ?_ ?_ matched
  · intro matched
    cases matched with
    | seq first second =>
      cases first with
      | not fails =>
        cases second with
        | any next =>
          -- What one `any` takes the other one cannot have missed.
          have gives : Gives rules .any c (c.next?.map ([], ·)) := .any c
          rw [next] at gives
          cases gives.unique fails
  · intro k member some matched
    cases matched with
    | literal skips =>
      exact ⟨k, member, some, Cursor.skip?_eq_some_iff.mp skips⟩
  · intro k member some e others matched
    cases matched with
    | choiceFirst _ first =>
      cases first with
      | literal skips =>
        exact ⟨k, member, some, Cursor.skip?_eq_some_iff.mp skips⟩
    | choiceSecond _ second => exact others second

end Rules

/-! ### Texts of nodes -/

/-- What is known of the text of a node by its rule. -/
def Node.Written (language : Language) (rule : String) (text : Text) : Prop :=
  match rule with
  | "text" => '\n' ∉ text
  | "comment" => text.IsComment ∧ '\n' ∉ text
  | "tag" => text.IsTag
  | "cell" => '\n' ∉ text ∧ '|' ∉ text
  | "feature_keyword" => text ∈ language.presentKeywords .feature ∧ text ≠ []
  | "background_keyword" => text ∈ language.presentKeywords .background ∧ text ≠ []
  | "scenario_keyword" => text ∈ language.presentKeywords .scenario ∧ text ≠ []
  | "scenario_outline_keyword" => text ∈ language.presentKeywords .scenarioOutline ∧ text ≠ []
  | "examples_keyword" => text ∈ language.presentKeywords .examples ∧ text ≠ []
  | "step_keyword" => text ∈ language.presentStepKeywords ∧ text ≠ []
  | _ => True

theorem Node.Written.keyword {language : Language} {kind : SectionKind} {text : Text}
    (h : Written language kind.keywordRule text) :
    text ∈ language.presentKeywords kind.concept ∧ text ≠ [] := by
  cases kind <;> exact h

namespace Template

/-- The rules with a fixed body that leave a node without nodes below it. -/
def atomicRules : List String :=
  ["text", "comment", "tag", "cell", "doc_string_body"]

/-- The rules with a fixed body that leave a node with the nodes below it. -/
def normalRules : List String :=
  ["feature", "background", "scenario", "scenario_outline", "examples", "step", "table",
    "table_row", "doc_string", "description"]

/-- The rules of the shipped template as they are matched, by what they leave. -/
theorem arranged_cases {language : Language} {rule : Rule}
    (member : rule ∈ (shippedRules language).map Rule.arranged) :
    rule.kind = .silent ∨ rule = entryRule language.entryRule ∨
      (rule.kind = .normal ∧ rule.name ∈ normalRules) ∨
      (rule.kind = .atomic ∧ rule.name ∈ atomicRules) ∨
      ∃ list ∈ keywordLists language,
        rule = ⟨list.1, .atomic, GrammarText.keywordChoice list.2⟩ := by
  rw [map_arranged_shippedRules] at member
  rcases List.mem_cons.mp member with rfl | other
  · exact .inr (.inl rfl)
  · rcases List.mem_append.mp other with fixed | keyword
    · have known : ∀ rule ∈ fixedRules.map Rule.arranged, rule.kind = .silent ∨
          (rule.kind = .normal ∧ rule.name ∈ normalRules) ∨
          (rule.kind = .atomic ∧ rule.name ∈ atomicRules) := by
        decide +kernel
      rcases known rule fixed with silent | normal | atomic
      · exact .inl silent
      · exact .inr (.inr (.inl normal))
      · exact .inr (.inr (.inr (.inl atomic)))
    · obtain ⟨list, listed, rfl⟩ := List.mem_map.mp keyword
      exact .inr (.inr (.inr (.inr ⟨list, listed, rfl⟩)))

end Template

namespace Rules.Shipped

variable {rules : List Rule} {language : Language} (shipped : Shipped rules language)
  {c d : Cursor} {nodes : List Node} {name : String}
include shipped

/-- The name of a rule with a fixed body determines it. -/
theorem eq_of_named {rule known : Rule} (found : find? rules rule.name = some rule)
    (member : known ∈ Template.fixedRules.map Rule.arranged) (named : rule.name = known.name) :
    rule = known := by
  rw [named, shipped.fixed known member] at found
  exact (Option.some.inj found).symm

private theorem written_of_atomic {rule : Rule} (found : find? rules rule.name = some rule)
    (named : rule.name ∈ Template.atomicRules) (matched : Matches rules rule.body c nodes d) :
    Node.Written language rule.name (c.upTo d) := by
  simp only [Template.atomicRules, List.mem_cons, List.not_mem_nil, or_false] at named
  rcases named with text | comment | tag | cell | body
  · obtain rfl : rule = ⟨"text", .atomic, .star (.seq (.not (.call "nl")) .any)⟩ :=
      shipped.eq_of_named found (by decide) text
    obtain ⟨w, passes, all⟩ := shipped.stops_nl.taken_star matched
    rw [passes.upTo]
    exact fun member => (all _ member).2 rfl
  · obtain rfl : rule =
        ⟨"comment", .atomic, .seq (.literal ['#']) (.star (.seq (.not (.call "nl")) .any))⟩ :=
      shipped.eq_of_named found (by decide) comment
    cases matched with
    | seq first second =>
      cases first with
      | literal skips =>
        have front : c.Passes ['#'] _ := Cursor.skip?_eq_some_iff.mp skips
        obtain ⟨w, passes, all⟩ := shipped.stops_nl.taken_star second
        rw [(front.trans passes).upTo]
        exact ⟨rfl, fun member => (all '\n' (by simpa using member)).2 rfl⟩
  · obtain rfl : rule = ⟨"tag", .atomic, .seq (.literal ['@'])
        (.seq (.seq (.not tagStop) .any) (.star (.seq (.not tagStop) .any)))⟩ :=
      shipped.eq_of_named found (by decide) tag
    cases matched with
    | seq first second =>
      cases first with
      | literal skips =>
        have front : c.Passes ['@'] _ := Cursor.skip?_eq_some_iff.mp skips
        cases second with
        | seq one others =>
          obtain ⟨x, first, inside, unbroken⟩ := shipped.stops_tag.taken one
          obtain ⟨w, passes, all⟩ := shipped.stops_tag.taken_star others
          rw [(front.trans (first.trans passes)).upTo]
          have named : ∀ y ∈ x :: w, TagLine.isNameChar y = true ∧ y ≠ '\n' :=
            List.forall_mem_cons.mpr ⟨⟨inside, unbroken⟩, all⟩
          refine ⟨x :: w, rfl, by simp, fun y member => ?_⟩
          have plain := named y member
          simp only [TagLine.isNameChar, Text.isBlankChar, Bool.and_eq_true, Bool.not_eq_true',
            Bool.or_eq_false_iff, decide_eq_false_iff_not, decide_eq_true_eq] at plain
          exact ⟨plain.1.2, plain.1.1.1, plain.1.1.2, plain.2⟩
  · obtain rfl : rule = ⟨"cell", .atomic, .star (.seq (.not cellStop) .any)⟩ :=
      shipped.eq_of_named found (by decide) cell
    obtain ⟨w, passes, all⟩ := shipped.stops_cell.taken_star matched
    rw [passes.upTo]
    exact ⟨fun member => (all _ member).2 rfl, fun member => by simpa using (all _ member).1⟩
  · rw [body]
    trivial

omit shipped in
private theorem written_of_keyword {list : String × List Text}
    (listed : list ∈ Template.keywordLists language)
    (matched : Matches rules (GrammarText.keywordChoice list.2) c nodes d) :
    Node.Written language list.1 (c.upTo d) := by
  obtain ⟨rule, keywords⟩ := list
  obtain ⟨k, member, some, passes⟩ := keyword_of_matches matched
  rw [passes.upTo]
  rcases Template.mem_keywordLists.mp listed with ⟨kind, rfl, rfl⟩ | ⟨rfl, rfl⟩
  · cases kind <;> exact ⟨member, some⟩
  · exact ⟨member, some⟩

end Rules.Shipped

/-! ### Parts of a match -/

namespace Template

/-- Rules of which only plain nodes are left. -/
def plainCalls : List String :=
  ["feature", "background", "scenario", "scenario_outline", "examples", "steps", "step", "table",
    "table_row", "doc_string", "tags", "tag_line", "tag", "ignorable", "comment_line", "comment",
    "sp", "line_end", "blank_line", "nl"]

/-- Those of them that leave no node of their own call no others. -/
theorem plainCalls_closed : ∀ name ∈ plainCalls, ∃ rule ∈ fixedRules.map Rule.arranged,
    rule.name = name ∧ if rule.kind = .silent then ∀ called ∈ rule.body.calls, called ∈ plainCalls
      else name ∈ Node.plainRules := by
  decide +kernel

end Template

namespace Rules

variable {rules : List Rule} {c d : Cursor} {nodes : List Node}

theorem Matches.seq_cases {a b : Expr} (matched : Matches rules (.seq a b) c nodes d) :
    ∃ first middle more, Matches rules a c first middle ∧ Matches rules b middle more d ∧
      nodes = first ++ more := by
  cases matched with
  | seq first second => exact ⟨_, _, _, first, second, rfl⟩

theorem Matches.call_cases {name : String} {kind : RuleKind} {body : Expr}
    (found : find? rules name = some ⟨name, kind, body⟩) (shown : kind ≠ .silent)
    (matched : Matches rules (.call name) c nodes d) :
    ∃ text children, nodes = [.mk name text c.line children] := by
  cases matched with
  | call found' _ =>
    cases found.symm.trans found'
    cases kind with
    | silent => exact absurd rfl shown
    | normal | atomic => exact ⟨_, _, rfl⟩

theorem Shipped.plain_of_calls {language : Language} (shipped : Shipped rules language) {e : Expr}
    (within : ∀ name ∈ e.calls, name ∈ Template.plainCalls) (matched : Matches rules e c nodes d) :
    ∀ node ∈ nodes, node.IsPlain := by
  induction matched with
  | literal | any | startOfInput | starStop | optNone | not | and => simp
  | endOfInput => simpa using Node.isPlain_mk (by decide) ..
  | @call name rule c d nodes found _ ih =>
    obtain ⟨known, member, named, closed⟩ :=
      Template.plainCalls_closed name (within name (List.mem_singleton_self name))
    obtain rfl := name_of_find? found
    obtain rfl := shipped.eq_of_named found member named.symm
    -- A silent rule hands on the nodes of what it calls, another leaves one of its own.
    cases kind : rule.kind with
    | silent =>
      rw [if_pos kind] at closed
      simpa [Rule.leaves, kind] using ih closed
    | normal | atomic =>
      rw [if_neg (by simp [kind])] at closed
      simpa [Rule.leaves, kind] using Node.isPlain_mk closed ..
  | choiceFirst _ _ ih => exact ih fun name member => within name (List.mem_append_left _ member)
  | choiceSecond _ _ ih => exact ih fun name member => within name (List.mem_append_right _ member)
  | optSome _ ih => exact ih within
  | seq _ _ front back =>
    exact List.forall_mem_append.mpr
      ⟨front fun name member => within name (List.mem_append_left _ member),
        back fun name member => within name (List.mem_append_right _ member)⟩
  | starStep _ _ front back | plus _ _ front back =>
    exact List.forall_mem_append.mpr ⟨front within, back within⟩

end Rules

/-! ### All nodes of a match -/

namespace Rules

variable {language : Language}

/-- What holds of the nodes of all rules, if it holds of the nodes below them, and what is known of the
place where they begin. -/
theorem forall_nodes {rules : List Rule} {P : Node → Prop} {Q : Cursor → Prop}
    (shipped : rules = (Template.shippedRules language).map Rule.arranged)
    (onward : ∀ c d, c.Reaches d → Q c → Q d) (ends : ∀ line, P (.mk "EOI" [] line []))
    (atom : ∀ name c d, name ∈ Template.atomicRules ++ (Template.keywordLists language).map Prod.fst →
      Q c → c.Reaches d → Node.Written language name (c.upTo d) →
        P (.mk name (c.upTo d) c.line []))
    (inner : ∀ rule c d nodes,
      rule = Template.entryRule language.entryRule ∨ rule.name ∈ Template.normalRules →
      find? rules rule.name = some rule → Q c → Matches rules rule.body c nodes d →
        (∀ node ∈ nodes, P node) → P (.mk rule.name (c.upTo d) c.line nodes))
    {e : Expr} {c d : Cursor} {nodes : List Node} (matched : Matches rules e c nodes d) (here : Q c) :
    ∀ node ∈ nodes, P node := by
  have known : Shipped rules language := shipped ▸ Template.shipped_arranged language
  induction matched with
  | literal | any | startOfInput | starStop | optNone | not | and => simp
  | endOfInput c => simpa [Cursor.upTo_self] using ends c.line
  | @call name rule c d nodes found body ih =>
    have below := ih here
    obtain rfl := name_of_find? found
    have member := List.mem_of_find?_eq_some found
    rw [shipped] at member
    rcases Template.arranged_cases member with silent | rfl | ⟨normal, named⟩ | ⟨atomic, named⟩ |
      ⟨list, listed, rfl⟩
    · simpa [Rule.leaves, silent] using below
    · exact List.forall_mem_singleton.mpr (inner _ c d nodes (.inl rfl) found here body below)
    · rw [Rule.leaves, normal]
      exact List.forall_mem_singleton.mpr (inner rule c d nodes (.inr named) found here body below)
    · rw [Rule.leaves, atomic]
      exact List.forall_mem_singleton.mpr (atom _ c d (List.mem_append_left _ named) here
        body.reaches (known.written_of_atomic found named body))
    · exact List.forall_mem_singleton.mpr (atom _ c d
        (List.mem_append_right _ (List.mem_map_of_mem listed)) here body.reaches
        (Shipped.written_of_keyword listed body))
  | choiceFirst _ _ ih | choiceSecond _ _ ih | optSome _ ih => exact ih here
  | seq first _ front back | starStep first _ front back | plus first _ front back =>
    exact List.forall_mem_append.mpr ⟨front here, back (onward _ _ first.reaches here)⟩

end Rules

end FeatureFile
