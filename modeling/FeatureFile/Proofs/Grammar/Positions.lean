import FeatureFile.Grammar.Parser
import FeatureFile.Proofs.Document.Positions
import FeatureFile.Proofs.Grammar.Cursor
import FeatureFile.Proofs.Text.Lines
/-!
A document that is matched by an engine, whatever its rules are, is reported within its lines, if the engine
reports what it finds by places of the text: a match starts on a line of the text, so all that is
reported for it does, and a mismatch is at a place of the text. The engine of this library is of this kind.
-/

namespace FeatureFile

/-- The line, counted from one, of a place in the text. -/
def Text.HasLine (text : Text) (line : Nat) : Prop :=
  ∃ offset, line = (LineCol.countOffset text offset).1

theorem Text.HasLine.le_endLine {text : Text} {line : Nat} (h : text.HasLine line) : line ≤ text.endLine := by
  obtain ⟨offset, rfl⟩ := h
  have before : (text.take offset).count '\n' ≤ text.lines.length :=
    Nat.le_trans ((List.take_sublist offset text).count_le _) text.count_le_length_lines
  simpa [LineCol.countOffset, Text.endLine] using before

/-- A match of the text that starts on one of its lines, as all matches below it do. -/
inductive Node.Located (text : Text) : Node → Prop where
  | mk (rule : String) (taken : Text) {line : Nat} {children : List Node} (shown : text.HasLine line)
      (below : ∀ child ∈ children, Located text child) : Located text (.mk rule taken line children)

/-- An engine that reports matches and mismatches by the lines of the text. -/
structure Engine.Located (R : Type) [Engine R] : Prop where
  nodes {rules : R} {rule : String} {text : Text} {nodes : List Node}
    (matched : Engine.run rules rule text = .ok nodes) : ∀ node ∈ nodes, node.Located text
  mismatch {rules : R} {rule : String} {text : Text} {mismatch : Mismatch}
    (failed : Engine.run rules rule text = .error mismatch) : text.HasLine mismatch.line

/-! ### Matches -/

/-- The node starts, and all that it reports is, within the lines. -/
structure Node.Within (last : Nat) (node : Node) : Prop where
  line : node.line ≤ last
  events : ∀ event ∈ node.events, event.line ≤ last

namespace Node

variable {last : Nat} {nodes : List Node} (within : ∀ node ∈ nodes, node.Within last)
include within

theorem within_allEvents : ∀ event ∈ allEvents nodes, event.line ≤ last := by
  induction nodes with
  | nil => simp [allEvents]
  | cons node nodes ih =>
    obtain ⟨first, others⟩ := List.forall_mem_cons.mp within
    exact List.forall_mem_append.mpr ⟨first.events, ih others⟩

theorem within_sectionEvents (kind : SectionKind) {h : Header} (opened : h.line ≤ last) :
    ∀ event ∈ sectionEvents kind h nodes, event.line ≤ last := by
  induction nodes generalizing h with
  | nil => simp [sectionEvents]
  | cons node nodes ih =>
    obtain ⟨first, others⟩ := List.forall_mem_cons.mp within
    rw [sectionEvents]
    split
    · exact ih others first.line
    · split
      · exact ih others opened
      · split
        · exact List.forall_mem_cons.mpr ⟨opened, ih others opened⟩
        · exact List.forall_mem_append.mpr ⟨first.events, ih others opened⟩

theorem within_stepEvents {line : Nat} (shown : line ≤ last) (keyword : Text) :
    ∀ event ∈ stepEvents line keyword nodes, event.line ≤ last := by
  induction nodes generalizing keyword with
  | nil => simp [stepEvents]
  | cons node nodes ih =>
    obtain ⟨first, others⟩ := List.forall_mem_cons.mp within
    rw [stepEvents]
    split
    · exact ih others _
    · split
      · exact List.forall_mem_cons.mpr ⟨shown, ih others _⟩
      · exact List.forall_mem_append.mpr ⟨first.events, ih others _⟩

theorem within_mk (rule : String) (text : Text) {line : Nat} (shown : line ≤ last) :
    (mk rule text line nodes).Within last := by
  refine ⟨shown, ?_⟩
  unfold events
  split
  · exact within_sectionEvents within _ (Nat.zero_le _)
  · split
    · exact List.forall_mem_singleton.mpr shown
    · exact List.forall_mem_singleton.mpr shown
    · exact within_stepEvents within shown []
    · exact List.forall_mem_singleton.mpr shown
    · exact List.forall_mem_singleton.mpr shown
    · simp
    · exact within_allEvents within

end Node

/-- What a located match reports is within the lines. -/
theorem Node.Located.within {text : Text} {node : Node} (located : node.Located text) :
    node.Within text.endLine := by
  induction located with
  | mk rule taken shown _ ih => exact within_mk ih rule taken shown.le_endLine

/-! ### The engine of this library -/

/-- The line of a place that is reached from the beginning of the text. -/
theorem Cursor.Reaches.hasLine {text : Text} {c : Cursor} (h : (start text).Reaches c) :
    text.HasLine c.line := by
  obtain ⟨w, split, place⟩ := h
  have split : text = w ++ c.rest := split
  have line : c.line = 1 + w.count '\n' := by
    rw [place]
    rfl
  refine ⟨w.length, ?_⟩
  rw [LineCol.countOffset, split, List.take_left, line, Nat.add_comm]

theorem Rules.Matches.located {rules : List Rule} {text : Text} {e : Expr} {c d : Cursor} {nodes : List Node}
    (matched : Matches rules e c nodes d) (inside : (Cursor.start text).Reaches c) :
    ∀ node ∈ nodes, node.Located text := by
  -- Every part of a match begins at a place that is reached from the beginning of the text.
  induction matched with
  | literal | any | startOfInput | starStop | optNone | not | and => simp
  | endOfInput c => exact List.forall_mem_singleton.mpr (.mk _ _ inside.hasLine (by simp))
  | @call name rule c d nodes _ _ ih =>
    have below := ih inside
    unfold Rule.leaves
    split
    · exact below
    · exact List.forall_mem_singleton.mpr (.mk _ _ inside.hasLine below)
    · exact List.forall_mem_singleton.mpr (.mk _ _ inside.hasLine (by simp))
  | seq first _ ih ih' | starStep first _ ih ih' | plus first _ ih ih' =>
    exact List.forall_mem_append.mpr ⟨ih inside, ih' (inside.trans first.reaches)⟩
  | choiceFirst _ _ ih | choiceSecond _ _ ih | optSome _ ih => exact ih inside

theorem Grammar.located : Engine.Located Grammar where
  nodes {grammar rule text nodes} matched := by
    change grammar.run rule text = .ok nodes at matched
    unfold run at matched
    split at matched
    next result last probes found =>
      cases matched
      have gives : Rules.Gives grammar.arranged _ _ _ := ⟨_, _, found, rfl⟩
      exact gives.matches.located (.refl _)
    · cases matched
    · cases matched
  mismatch {grammar rule text mismatch} failed := by
    change grammar.run rule text = .error mismatch at failed
    unfold run at failed
    split at failed <;> cases failed
    · exact ⟨_, rfl⟩
    · exact ⟨_, rfl⟩

/-! ### Documents -/

namespace Parser

variable {R : Type} [Engine R] (located : Engine.Located R) {parser : Parser R} {source : Text} {path : String}
  {error : DocumentError}
include located

theorem within_of_nodes {nodes : List Node} (matched : parser.nodes source path = .ok nodes) :
    ∀ node ∈ nodes, node.Within source.endLine := by
  unfold Parser.nodes at matched
  split at matched <;> cases matched
  next found => exact fun node member => (located.nodes found node member).within

theorem within_of_nodes_error (short : source.endLine < UInt32.size)
    (failed : parser.nodes source path = .error error) : error.Within path source := by
  unfold Parser.nodes at failed
  split at failed <;> cases failed
  next mismatch found =>
    have shown := (located.mismatch found).le_endLine
    refine ⟨rfl, _, rfl, Nat.succ_pos _, ?_⟩
    rw [Text.endLine] at short shown
    rw [LineCol.lineOneIndexed_ofNat (by omega)]
    omega

theorem within_of_parse_error {filter : Filter} (short : source.endLine < UInt32.size)
    (failed : parser.parse source path filter = .error error) : error.Within path source := by
  unfold Parser.parse at failed
  cases matched : parser.nodes source path with
  | error mismatch =>
    rw [matched] at failed
    cases failed
    exact within_of_nodes_error located short matched
  | ok nodes =>
    simp only [matched, bind, Except.bind] at failed
    have reading : (Node.reading nodes source).Within source.endLine := by
      refine ⟨List.forall_mem_append.mpr ⟨Node.within_allEvents (within_of_nodes located matched), ?_⟩, nofun⟩
      exact List.forall_mem_singleton.mpr (Nat.le_refl _)
    split at failed <;> cases failed
    next fault refused => exact Fault.within_toError short (reading.line_le refused)

end Parser

end FeatureFile
