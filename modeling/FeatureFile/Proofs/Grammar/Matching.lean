import FeatureFile.Grammar.Match
/-!
What an expression gives at a place, whatever the fuel. More fuel changes no match, so there is at
most one result, and each operator has its rules as if matching were total.
-/

namespace FeatureFile

namespace Rules

variable {rules : List Rule}

/-- One layer of matching, given how the operands and the bodies of rules are matched. -/
def layer (rules : List Rule) (inner : Expr → Cursor → Option Match) (e : Expr) (c : Cursor) :
    Option Match :=
  match e with
  | .literal text => some (.plain (c.skip? text))
  | .any => some (.plain c.next?)
  | .startOfInput => some (.plain (if c.offset = 0 then some c else none))
  | .endOfInput => some ((Match.plain (if c.rest.isEmpty then some c else none)).node "EOI" c false)
  | .call name =>
    match find? rules name with
    | none => some .failure
    | some rule => (inner rule.body c).map (·.ofRule rule c)
  | .seq a b =>
    (inner a c).bind fun first =>
      match first.result with
      | none => some first
      | some (nodes, last) => (inner b last).map (·.behind nodes first.probes)
  | .choice a b =>
    (inner a c).bind fun first =>
      match first.result with
      | none => (inner b c).map (·.behind [] first.probes)
      | some _ => some first
  | .star body =>
    (inner body c).bind fun first =>
      match first.result with
      | none => some ⟨some ([], c), first.probes⟩
      | some (nodes, last) => (inner (.star body) last).map (·.behind nodes first.probes)
  | .plus body =>
    (inner body c).bind fun first =>
      match first.result with
      | none => some first
      | some (nodes, last) => (inner (.star body) last).map (·.behind nodes first.probes)
  | .opt body => (inner body c).map fun first => ⟨some (first.result.getD ([], c)), first.probes⟩
  | .not body =>
    (inner body c).map fun first =>
      ⟨if first.result.isSome then none else some ([], c), [.denied first.probes]⟩
  | .and body => (inner body c).map fun first => ⟨first.result.map fun _ => ([], c), first.probes⟩

theorem run_succ (fuel : Nat) (e : Expr) (c : Cursor) :
    run rules (fuel + 1) e c = layer rules (run rules fuel) e c := by
  cases e <;> rfl

private theorem bind_mono {α β : Type} {a b : Option α} {f g : α → Option β}
    (head : ∀ x, a = some x → b = some x) (tail : ∀ x y, f x = some y → g x = some y) {y : β}
    (h : a.bind f = some y) : b.bind g = some y := by
  obtain ⟨x, found, rest⟩ := Option.bind_eq_some_iff.mp h
  exact Option.bind_eq_some_iff.mpr ⟨x, head x found, tail x y rest⟩

private theorem map_mono {α β : Type} {a b : Option α} {f : α → β}
    (head : ∀ x, a = some x → b = some x) {y : β} (h : a.map f = some y) : b.map f = some y := by
  obtain ⟨x, found, rest⟩ := Option.map_eq_some_iff.mp h
  exact Option.map_eq_some_iff.mpr ⟨x, head x found, rest⟩

/-- A layer keeps the matches that the layer below it keeps. -/
private theorem layer_mono {inner outer : Expr → Cursor → Option Match}
    (keeps : ∀ e c m, inner e c = some m → outer e c = some m) (e : Expr) (c : Cursor) (m : Match)
    (h : layer rules inner e c = some m) : layer rules outer e c = some m := by
  cases e with
  | literal | any | startOfInput | endOfInput => exact h
  | call name =>
    simp only [layer] at h ⊢
    split at h
    · exact h
    · exact map_mono (keeps _ _) h
  | opt | not | and => exact map_mono (keeps _ _) h
  | seq | star | plus =>
    refine bind_mono (keeps _ _) (fun first m h => ?_) h
    split at h
    next none => simpa only [none] using h
    next some => simpa only [some] using map_mono (keeps _ _) h
  | choice =>
    refine bind_mono (keeps _ _) (fun first m h => ?_) h
    split at h
    next none => simpa only [none] using map_mono (keeps _ _) h
    next some => simpa only [some] using h

/-- More fuel changes no match. -/
theorem run_mono {fuel more : Nat} (le : fuel ≤ more) {e : Expr} {c : Cursor} {m : Match}
    (h : run rules fuel e c = some m) : run rules more e c = some m := by
  induction fuel generalizing more e c m with
  | zero => cases h
  | succ fuel ih =>
    obtain ⟨more, rfl⟩ : ∃ n, more = n + 1 := ⟨more - 1, by omega⟩
    rw [run_succ] at h ⊢
    exact layer_mono (fun _ _ _ h => ih (by omega) h) e c m h

/-- What an expression gives at a place: its nodes and the place behind it, or nothing. -/
def Gives (rules : List Rule) (e : Expr) (c : Cursor) (result : Option (List Node × Cursor)) : Prop :=
  ∃ fuel m, run rules fuel e c = some m ∧ m.result = result

namespace Gives

variable {a b e : Expr} {c d : Cursor} {result : Option (List Node × Cursor)} {nodes : List Node}

/-- An expression gives one thing only. -/
theorem unique {other : Option (List Node × Cursor)} (h : Gives rules e c result)
    (h' : Gives rules e c other) : result = other := by
  obtain ⟨fuel, m, runs, rfl⟩ := h
  obtain ⟨fuel', m', runs', rfl⟩ := h'
  have both := run_mono (Nat.le_max_left fuel fuel') runs
  rw [run_mono (Nat.le_max_right fuel fuel') runs'] at both
  cases both
  rfl

/-- One layer over matches that are known. -/
private theorem of_layer (fuel : Nat) {m : Match} (h : layer rules (run rules fuel) e c = some m)
    (same : m.result = result) : Gives rules e c result :=
  ⟨fuel + 1, m, by rw [run_succ]; exact h, same⟩

/-- Two matches with one fuel. -/
private theorem both {other : Option (List Node × Cursor)} (h : Gives rules a c result)
    (h' : Gives rules b d other) :
    ∃ fuel m m', run rules fuel a c = some m ∧ m.result = result ∧
      run rules fuel b d = some m' ∧ m'.result = other := by
  obtain ⟨fuel, m, runs, same⟩ := h
  obtain ⟨fuel', m', runs', same'⟩ := h'
  exact ⟨max fuel fuel', m, m', run_mono (Nat.le_max_left _ _) runs, same,
    run_mono (Nat.le_max_right _ _) runs', same'⟩

theorem literal (text : Text) (c : Cursor) :
    Gives rules (.literal text) c ((c.skip? text).map ([], ·)) :=
  ⟨1, .plain (c.skip? text), rfl, rfl⟩

theorem any (c : Cursor) : Gives rules .any c (c.next?.map ([], ·)) :=
  ⟨1, .plain c.next?, rfl, rfl⟩

theorem startOfInput (start : c.offset = 0) : Gives rules .startOfInput c (some ([], c)) :=
  ⟨1, .plain (some c), by simp [run, start], rfl⟩

theorem endOfInput (c : Cursor) :
    Gives rules .endOfInput c
      (if c.rest.isEmpty then some ([.mk "EOI" (c.upTo c) c.line []], c) else none) := by
  refine ⟨1, _, rfl, ?_⟩
  by_cases last : c.rest.isEmpty <;> simp [last, Match.node, Match.plain]

/-- A rule gives what its body gives; whether it leaves a node depends on its kind. -/
private theorem call_of {rule : Rule} {m : Match} {name : String}
    (found : find? rules name = some rule) {fuel : Nat}
    (runs : run rules fuel rule.body c = some m) :
    Gives rules (.call name) c (m.ofRule rule c).result :=
  of_layer fuel (by simp only [layer, found, runs, Option.map_some]) rfl

theorem silent {name : String} {body : Expr} (found : find? rules name = some ⟨name, .silent, body⟩)
    (h : Gives rules body c result) : Gives rules (.call name) c result := by
  obtain ⟨fuel, m, runs, rfl⟩ := h
  exact call_of found runs

theorem normal {name : String} {body : Expr} (found : find? rules name = some ⟨name, .normal, body⟩)
    (h : Gives rules body c result) :
    Gives rules (.call name) c
      (result.map fun (nodes, d) => ([.mk name (c.upTo d) c.line nodes], d)) := by
  obtain ⟨fuel, m, runs, rfl⟩ := h
  exact call_of found runs

theorem atomic {name : String} {body : Expr} (found : find? rules name = some ⟨name, .atomic, body⟩)
    (h : Gives rules body c result) :
    Gives rules (.call name) c (result.map fun (_, d) => ([.mk name (c.upTo d) c.line []], d)) := by
  obtain ⟨fuel, m, runs, rfl⟩ := h
  exact call_of found runs

/-- A rule gives something where its body does. -/
theorem exists_call {rule : Rule} {name : String} (found : find? rules name = some rule)
    (h : Gives rules rule.body c result) : ∃ other, Gives rules (.call name) c other := by
  obtain ⟨fuel, m, runs, -⟩ := h
  exact ⟨_, call_of found runs⟩

/-- A name without a rule matches nowhere. -/
theorem undefined {name : String} (absent : find? rules name = none) (c : Cursor) :
    Gives rules (.call name) c none :=
  ⟨1, .failure, by simp [run, absent], rfl⟩

theorem seq (first : Gives rules a c (some (nodes, d))) (second : Gives rules b d result) :
    Gives rules (.seq a b) c (result.map fun (more, last) => (nodes ++ more, last)) := by
  obtain ⟨fuel, m, m', runs, same, runs', rfl⟩ := first.both second
  exact of_layer fuel (m := m'.behind nodes m.probes)
    (by simp only [layer, runs, Option.bind_some, same, runs', Option.map_some]) rfl

theorem seq_fail (first : Gives rules a c none) : Gives rules (.seq a b) c none := by
  obtain ⟨fuel, m, runs, same⟩ := first
  exact of_layer fuel (by simp only [layer, runs, Option.bind_some, same]) same

theorem choice_first (first : Gives rules a c (some (nodes, d))) :
    Gives rules (.choice a b) c (some (nodes, d)) := by
  obtain ⟨fuel, m, runs, same⟩ := first
  exact of_layer fuel (by simp only [layer, runs, Option.bind_some, same]) same

theorem choice_second (first : Gives rules a c none) (second : Gives rules b c result) :
    Gives rules (.choice a b) c result := by
  obtain ⟨fuel, m, m', runs, same, runs', rfl⟩ := first.both second
  exact of_layer fuel (m := m'.behind [] m.probes)
    (by simp only [layer, runs, Option.bind_some, same, runs', Option.map_some]) (by simp [Match.behind])

theorem star_stop (first : Gives rules a c none) : Gives rules (.star a) c (some ([], c)) := by
  obtain ⟨fuel, m, runs, same⟩ := first
  exact of_layer fuel (m := ⟨some ([], c), m.probes⟩)
    (by simp only [layer, runs, Option.bind_some, same]) rfl

theorem star_step (first : Gives rules a c (some (nodes, d))) (others : Gives rules (.star a) d result) :
    Gives rules (.star a) c (result.map fun (more, last) => (nodes ++ more, last)) := by
  obtain ⟨fuel, m, m', runs, same, runs', rfl⟩ := first.both others
  exact of_layer fuel (m := m'.behind nodes m.probes)
    (by simp only [layer, runs, Option.bind_some, same, runs', Option.map_some]) rfl

theorem opt (h : Gives rules a c result) : Gives rules (.opt a) c (some (result.getD ([], c))) := by
  obtain ⟨fuel, m, runs, rfl⟩ := h
  exact of_layer fuel (m := ⟨some (m.result.getD ([], c)), m.probes⟩)
    (by simp only [layer, runs, Option.map_some]) rfl

theorem not (h : Gives rules a c result) :
    Gives rules (.not a) c (if result.isSome then none else some ([], c)) := by
  obtain ⟨fuel, m, runs, rfl⟩ := h
  exact of_layer fuel (m := ⟨if m.result.isSome then none else some ([], c), [.denied m.probes]⟩)
    (by simp only [layer, runs, Option.map_some]) rfl

theorem and (h : Gives rules a c result) : Gives rules (.and a) c (result.map fun _ => ([], c)) := by
  obtain ⟨fuel, m, runs, rfl⟩ := h
  exact of_layer fuel (m := ⟨m.result.map fun _ => ([], c), m.probes⟩)
    (by simp only [layer, runs, Option.map_some]) rfl

/-- A repetition that needs one match is matched as the one and the others. -/
theorem plus (h : Gives rules (.seq a (.star a)) c result) : Gives rules (.plus a) c result := by
  obtain ⟨fuel, m, runs, same⟩ := h
  cases fuel with
  | zero => cases runs
  | succ fuel =>
    rw [run_succ] at runs
    exact of_layer fuel runs same

/-- A first operand that leaves no nodes. -/
theorem seq_nil (first : Gives rules a c (some ([], d))) (second : Gives rules b d result) :
    Gives rules (.seq a b) c result := by
  have joined := seq first second
  cases result <;> exact joined

/-- A test that no character is left, and then one character, match nowhere. -/
theorem never (c : Cursor) : Gives rules (.seq (.not .any) .any) c none := by
  have next : Gives rules .any c _ := .any c
  cases ends : c.next? with
  | none =>
    rw [ends] at next
    exact .seq_nil next.not next
  | some d =>
    rw [ends] at next
    exact .seq_fail next.not

/-- What a sequence gives comes from its operands. -/
theorem seq_cases (h : Gives rules (.seq a b) c result) :
    (Gives rules a c none ∧ result = none) ∨
      ∃ nodes d behind, Gives rules a c (some (nodes, d)) ∧ Gives rules b d behind ∧
        result = behind.map fun (more, last) => (nodes ++ more, last) := by
  obtain ⟨fuel, m, runs, rfl⟩ := h
  cases fuel with
  | zero => cases runs
  | succ fuel =>
    rw [run_succ] at runs
    obtain ⟨first, found, next⟩ := Option.bind_eq_some_iff.mp runs
    split at next
    next none =>
      cases next
      exact .inl ⟨⟨fuel, m, found, none⟩, none⟩
    next nodes d some =>
      obtain ⟨second, behind, rfl⟩ := Option.map_eq_some_iff.mp next
      exact .inr ⟨nodes, d, second.result, ⟨fuel, first, found, some⟩, ⟨fuel, second, behind, rfl⟩, rfl⟩

/-- A repetition stops in front of what follows it. -/
theorem star_seq_stop (first : Gives rules a c none) (second : Gives rules b c result) :
    Gives rules (.seq (.star a) b) c result :=
  seq_nil (star_stop first) second

/-- One more round of a repetition in front of what follows it. -/
theorem star_seq_step (first : Gives rules a c (some (nodes, d)))
    (others : Gives rules (.seq (.star a) b) d result) :
    Gives rules (.seq (.star a) b) c (result.map fun (more, last) => (nodes ++ more, last)) := by
  rcases seq_cases others with ⟨fails, rfl⟩ | ⟨inside, last, behind, rounds, second, rfl⟩
  · exact seq_fail (star_step first fails)
  · have joined := seq (star_step first rounds) second
    cases behind with
    | none => exact joined
    | some pair => simpa using joined

/-- A sequence may be read as grouped to the right. -/
theorem seq_assoc {f : Expr} (h : Gives rules (.seq a (.seq b f)) c result) :
    Gives rules (.seq (.seq a b) f) c result := by
  rcases seq_cases h with ⟨fails, rfl⟩ | ⟨nodes, d, behind, first, others, rfl⟩
  · exact seq_fail (seq_fail fails)
  · rcases seq_cases others with ⟨fails, rfl⟩ | ⟨more, last, ending, second, third, rfl⟩
    · exact seq_fail (seq first fails)
    · have joined := seq (seq first second) third
      cases ending with
      | none => exact joined
      | some pair => simpa using joined

end Gives

end Rules

end FeatureFile
