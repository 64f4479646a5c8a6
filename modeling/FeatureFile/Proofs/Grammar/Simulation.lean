import FeatureFile.Grammar.Events
import FeatureFile.Proofs.Grammar.Cursor
import FeatureFile.Proofs.Text.Lines
/-!
Matching at two places alike: of two texts, or by two grammars. Where line feeds are only taken as line
breaks, and the rules in which the two differ give corresponding results, everything gives
corresponding results.
-/

namespace FeatureFile

/-- The node with its text changed, and so the texts of the nodes below it. -/
def Node.mapText (f : Text → Text) : Node → Node
  | .mk rule text line children => .mk rule (f text) line (children.map (mapText f))

theorem Node.mapText_id (node : Node) : node.mapText id = node := by
  induction node using Node.mapText.induct with
  | case1 rule text line children ih =>
    rw [mapText, List.map_congr_left ih, List.map_id']
    rfl

@[simp]
theorem Node.rule_mapText (f : Text → Text) (node : Node) : (node.mapText f).rule = node.rule := by
  cases node
  simp [mapText, rule]

@[simp]
theorem Node.text_mapText (f : Text → Text) (node : Node) : (node.mapText f).text = f node.text := by
  cases node
  simp [mapText, text]

@[simp]
theorem Node.line_mapText (f : Text → Text) (node : Node) : (node.mapText f).line = node.line := by
  cases node
  simp [mapText, line]

@[simp]
theorem Node.isKeyword_mapText (f : Text → Text) (node : Node) :
    (node.mapText f).isKeyword = node.isKeyword := by
  simp [isKeyword]

namespace Expr

/-- Whether the expression matches in front of every line feed. -/
def stopsAtFeeds : Expr → Bool
  | call name => name = "nl"
  | choice _ b => b.stopsAtFeeds
  | _ => false

/-- Whether no line feed is next behind a match of the expression. -/
def guardsFeeds : Expr → Bool
  | not e => e.stopsAtFeeds
  | _ => false

/-- Whether a match of the expression takes line feeds only by the rules it calls. Guarded is a place
where no line feed is next. -/
def sparesFeeds (guarded : Bool) : Expr → Bool
  | literal text => decide (Text.Unbroken text)
  | any => guarded
  | startOfInput | endOfInput | call _ => true
  | seq a b => a.sparesFeeds guarded && b.sparesFeeds a.guardsFeeds
  | choice a b => a.sparesFeeds guarded && b.sparesFeeds guarded
  | star a | plus a => a.sparesFeeds false
  | opt a | not a | and a => a.sparesFeeds guarded

end Expr

namespace Rules

/-- A result with its place and the texts of its nodes changed. -/
def moved (place : Cursor → Cursor) (text : Text → Text) (result : Option (List Node × Cursor)) :
    Option (List Node × Cursor) :=
  result.map fun (nodes, d) => (nodes.map (Node.mapText text), place d)

@[simp]
theorem moved_id (result : Option (List Node × Cursor)) : moved id id result = result := by
  have sameNodes : Node.mapText id = id := funext Node.mapText_id
  cases result <;> simp [moved, sameNodes]

/-- The second rules match at the images of places as the first ones do at the places themselves. The
rules that are named may have bodies of their own. -/
structure Simulation (rules rules' : List Rule) (own : List String) (At : Cursor → Prop)
    (place : Cursor → Cursor) (text : Text → Text) : Prop where
  onward : ∀ c d, At c → c.Reaches d → At d
  line : ∀ c, At c → (place c).line = c.line
  upTo : ∀ c d, At c → c.Reaches d → (place c).upTo (place d) = text (c.upTo d)
  startOfInput : ∀ c, At c → ((place c).offset = 0 ↔ c.offset = 0)
  endOfInput : ∀ c, At c → (place c).rest.isEmpty = c.rest.isEmpty
  literal : ∀ c w, At c → Text.Unbroken w → (place c).skip? w = (c.skip? w).map place
  any : ∀ c, At c → c.rest.head? ≠ some '\n' → (place c).next? = c.next?.map place
  feeds : ∀ c, At c → c.rest.head? = some '\n' → ¬ Gives rules (.call "nl") c none
  same : ∀ name, name ∉ own → find? rules' name = find? rules name
  spares : ∀ name rule, name ∉ own → find? rules name = some rule →
    rule.body.sparesFeeds false = true
  called : ∀ name ∈ own, ∀ c result, At c → Gives rules (.call name) c result →
    Gives rules' (.call name) (place c) (moved place text result)

namespace Simulation

variable {rules rules' : List Rule} {own : List String} {At : Cursor → Prop}
  {place : Cursor → Cursor} {text : Text → Text}
  (sim : Simulation rules rules' own At place text) {c d : Cursor} {e : Expr} {nodes : List Node}
  {result : Option (List Node × Cursor)}
include sim

theorem leaves (here : At c) (reaches : c.Reaches d) (rule : Rule) (nodes : List Node) :
    (rule.leaves c d nodes).map (Node.mapText text) =
      rule.leaves (place c) (place d) (nodes.map (Node.mapText text)) := by
  unfold Rule.leaves
  cases rule.kind with
  | silent => rfl
  | normal | atomic => simp [Node.mapText, sim.line c here, sim.upTo c d here reaches]

/-- Where a stop fails, no line feed is next. -/
theorem unfed_of_stop (here : At c) (h : Yields rules e c none) (stops : e.stopsAtFeeds = true) :
    c.rest.head? ≠ some '\n' := by
  induction e with
  | call name =>
    obtain rfl : name = "nl" := by simpa [Expr.stopsAtFeeds] using stops
    exact fun fed => sim.feeds c here fed h.gives
  | choice a b _ ih =>
    generalize same : (none : Option (List Node × Cursor)) = result at h
    cases h with
    -- A choice has failed only when its last alternative has.
    | choiceFirst => cases same
    | choiceSecond _ second => exact ih (same ▸ second) stops
  | _ => cases stops

theorem unfed_of_guard (here : At c) (h : Yields rules e c (some (nodes, d)))
    (guards : e.guardsFeeds = true) : d.rest.head? ≠ some '\n' := by
  cases e with
  | not stop =>
    generalize same : some (nodes, d) = given at h
    cases h with
    | @not _ _ result body =>
      cases result with
      | some => cases same
      | none =>
        cases same
        exact sim.unfed_of_stop here body guards
  | _ => cases guards

/-- Corresponding results come from corresponding places. -/
theorem yields (h : Yields rules e c result) :
    ∀ guarded, e.sparesFeeds guarded = true → At c → (guarded = true → c.rest.head? ≠ some '\n') →
      Yields rules' e (place c) (moved place text result) := by
  -- Further places are related too, and nodes in front of corresponding nodes correspond.
  have onward {a : Expr} {c d : Cursor} {nodes : List Node} (here : At c)
      (first : Yields rules a c (some (nodes, d))) : At d :=
    sim.onward c d here first.gives.matches.reaches
  have joined {c : Cursor} {a : Expr} {nodes : List Node} {result : Option (List Node × Cursor)}
      (h : Yields rules' a c ((moved place text result).map fun (more, last) =>
        (nodes.map (Node.mapText text) ++ more, last))) :
      Yields rules' a c (moved place text (result.map fun (more, last) => (nodes ++ more, last))) := by
    cases result with
    | none => exact h
    | some pair => simpa [moved] using h
  -- The induction is on how the result comes about. That no line feed is next has to be known only in
  -- front of `any`, so it is handed from a guard to what stands behind it and forgotten elsewhere.
  induction h with
  | literal w c =>
    intro guarded spares here _
    have given : Yields rules' (.literal w) (place c) _ := .literal w (place c)
    rw [sim.literal c w here (by simpa [Expr.sparesFeeds] using spares)] at given
    simpa [moved, Function.comp_def] using given
  | any c =>
    intro guarded spares here unfed
    have given : Yields rules' .any (place c) _ := .any (place c)
    rw [sim.any c here (unfed spares)] at given
    simpa [moved, Function.comp_def] using given
  | startOfInput c =>
    intro _ _ here _
    have given : Yields rules' .startOfInput (place c) _ := .startOfInput (place c)
    by_cases first : c.offset = 0 <;> simpa [moved, first, sim.startOfInput c here] using given
  | endOfInput c =>
    intro _ _ here _
    have given : Yields rules' .endOfInput (place c) _ := .endOfInput (place c)
    rw [sim.endOfInput c here, sim.line c here, sim.upTo c c here (.refl c)] at given
    by_cases last : c.rest.isEmpty <;> simpa [moved, last, Node.mapText] using given
  | @undefined name absent c =>
    intro _ _ here _
    by_cases differs : name ∈ own
    · exact yields_iff_gives.mpr (sim.called name differs c none here (.undefined absent c))
    · exact .undefined (by rw [sim.same name differs, absent]) (place c)
  | @call name rule c result found body ih =>
    intro _ _ here _
    by_cases differs : name ∈ own
    · have given : Yields rules (.call name) c _ := .call found body
      exact yields_iff_gives.mpr (sim.called name differs c _ here given.gives)
    -- A rule that both have is followed into its body, where no guard is known yet.
    · have inside := ih false (sim.spares name rule differs found) here nofun
      have given := Yields.call ((sim.same name differs).trans found) inside
      cases result with
      | none => exact given
      | some pair =>
        have reaches := body.gives.matches.reaches
        simpa [moved, sim.leaves here reaches] using given
  | seq first _ ih ih' =>
    intro guarded spares here unfed
    simp only [Expr.sparesFeeds, Bool.and_eq_true] at spares
    exact joined (.seq (ih guarded spares.1 here unfed)
      (ih' _ spares.2 (onward here first) (sim.unfed_of_guard here first)))
  | seqFail b _ ih =>
    intro guarded spares here unfed
    simp only [Expr.sparesFeeds, Bool.and_eq_true] at spares
    exact .seqFail b (ih guarded spares.1 here unfed)
  | choiceFirst b _ ih =>
    intro guarded spares here unfed
    simp only [Expr.sparesFeeds, Bool.and_eq_true] at spares
    exact .choiceFirst b (ih guarded spares.1 here unfed)
  | choiceSecond _ _ ih ih' =>
    intro guarded spares here unfed
    simp only [Expr.sparesFeeds, Bool.and_eq_true] at spares
    exact .choiceSecond (ih guarded spares.1 here unfed) (ih' guarded spares.2 here unfed)
  | starStop _ ih =>
    intro guarded spares here _
    exact .starStop (ih false spares here nofun)
  | starStep first _ ih ih' =>
    intro guarded spares here _
    exact joined (.starStep (ih false spares here nofun)
      (ih' false spares (onward here first) nofun))
  | plusFail _ ih =>
    intro guarded spares here _
    exact .plusFail (ih false spares here nofun)
  | plusStep first _ ih ih' =>
    intro guarded spares here _
    exact joined (.plusStep (ih false spares here nofun)
      (ih' false spares (onward here first) nofun))
  | @opt a c result _ ih =>
    intro guarded spares here unfed
    have given := Yields.opt (ih guarded spares here unfed)
    cases result <;> exact given
  | @not a c result _ ih =>
    intro guarded spares here unfed
    have given := Yields.not (ih guarded spares here unfed)
    cases result <;> exact given
  | @and a c result _ ih =>
    intro guarded spares here unfed
    have given := Yields.and (ih guarded spares here unfed)
    cases result <;> exact given

/-- What the rules give at a place, the others give at its image. -/
theorem gives (here : At c) {name : String} (h : Gives rules (.call name) c result) :
    Gives rules' (.call name) (place c) (moved place text result) :=
  (sim.yields (yields_iff_gives.mpr h) false rfl here nofun).gives

end Simulation

end Rules

end FeatureFile
