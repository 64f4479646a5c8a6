/-!
Transducers: machines that read a list one element at a time, writing some output at each step.
Templates, the tokens of a grammar and its rules are all read by one; what a run does on `a ++ b`
is what it does on `a` and then on `b`.
-/

namespace FeatureFile

/-- The output of a run and the state it ends in, unless a step refuses its input. -/
def transduce {σ α β : Type} (step : σ → α → Option (List β × σ)) (state : σ) :
    List α → Option (List β × σ)
  | [] => some ([], state)
  | a :: rest =>
    (step state a).bind fun (output, next) =>
      (transduce step next rest).map fun (more, last) => (output ++ more, last)

theorem transduce_append {σ α β : Type} (step : σ → α → Option (List β × σ)) (state : σ)
    (first second : List α) :
    transduce step state (first ++ second) =
      (transduce step state first).bind fun (output, next) =>
        (transduce step next second).map fun (more, last) => (output ++ more, last) := by
  induction first generalizing state with
  | nil => cases h : transduce step state second <;> simp [transduce, h]
  | cons a rest ih =>
    cases h : step state a with
    | none => simp [transduce, h]
    | some reached =>
      simp only [List.cons_append, transduce, h, Option.bind_some, ih]
      cases transduce step reached.2 rest with
      | none => simp
      | some middle =>
        cases h' : transduce step middle.2 second <;> simp [h']

end FeatureFile
