import FeatureFile.Proofs.Agreement.Blocks
/-!
Readers of blocks: what a rule of the shipped template takes of the blocks in front of it. A reader takes
some of the first blocks or fails, and it is put together like the expression of the rule.
-/

namespace FeatureFile

/-- A reader takes blocks from the front and leaves the others. -/
structure BlockReader where
  read : List Block → Option (List Block × List Block)
  splits : ∀ {bs used left : List Block}, read bs = some (used, left) → bs = used ++ left

namespace BlockReader

/-- One block of a shape. -/
def one (shape : Block.Shape) : BlockReader where
  read
    | [] => none
    | b :: bs => if b.shape = shape then some ([b], bs) else none
  splits {bs _ _} h := by
    cases bs with
    | nil => cases h
    | cons b bs =>
      simp only [Option.ite_none_right_eq_some, Option.some.injEq, Prod.mk.injEq] at h
      obtain ⟨-, rfl, rfl⟩ := h
      rfl

def andThen (p q : BlockReader) : BlockReader where
  read bs := (p.read bs).bind fun (used, left) => (q.read left).map fun (more, rest) => (used ++ more, rest)
  splits h := by
    obtain ⟨⟨used, left⟩, first, second⟩ := Option.bind_eq_some_iff.mp h
    obtain ⟨⟨more, rest⟩, second, same⟩ := Option.map_eq_some_iff.mp second
    cases same
    rw [p.splits first, q.splits second, List.append_assoc]

def orElse (p q : BlockReader) : BlockReader where
  read bs := (p.read bs).or (q.read bs)
  splits h := by
    rcases Option.or_eq_some_iff.mp h with first | ⟨-, second⟩
    · exact p.splits first
    · exact q.splits second

def maybe (p : BlockReader) : BlockReader where
  read bs := some ((p.read bs).getD ([], bs))
  splits {bs _ _} h := by
    cases found : p.read bs with
    | none =>
      rw [found] at h
      cases h
      rfl
    | some pair =>
      rw [found] at h
      cases h
      exact p.splits found

/-- As many rounds of a reader as there are; a round that takes nothing is none. -/
def rounds (p : BlockReader) (bs : List Block) : List Block × List Block :=
  match found : p.read bs with
  | none => ([], bs)
  | some (used, left) =>
    if nothing : used = [] then ([], bs)
    else
      let others := rounds p left
      (used ++ others.1, others.2)
termination_by bs.length
decreasing_by
  rw [p.splits found, List.length_append]
  have := List.length_pos_iff.mpr nothing
  omega

theorem rounds_none {p : BlockReader} {bs : List Block} (h : p.read bs = none) :
    p.rounds bs = ([], bs) := by
  rw [rounds]
  split
  · rfl
  next found =>
    rw [h] at found
    cases found

theorem rounds_some {p : BlockReader} {bs used left : List Block} (h : p.read bs = some (used, left))
    (present : used ≠ []) : p.rounds bs = (used ++ (p.rounds left).1, (p.rounds left).2) := by
  rw [rounds]
  split
  next found =>
    rw [h] at found
    cases found
  next found =>
    rw [h] at found
    cases found
    rw [dif_neg present]

theorem append_rounds (p : BlockReader) (bs : List Block) : bs = (p.rounds bs).1 ++ (p.rounds bs).2 := by
  induction size : bs.length using Nat.strong_induction_on generalizing bs with
  | _ n ih =>
  subst size
  cases found : p.read bs with
  | none =>
    rw [rounds_none found]
    rfl
  | some pair =>
    obtain ⟨used, left⟩ := pair
    by_cases present : used = []
    · rw [rounds]
      split
      · rfl
      next other =>
        rw [found] at other
        cases other
        rw [dif_pos present]
        rfl
    · have shorter : left.length < bs.length := by
        rw [p.splits found, List.length_append]
        have := List.length_pos_iff.mpr present
        omega
      rw [rounds_some found present, List.append_assoc, ← ih _ shorter left rfl, ← p.splits found]

def many (p : BlockReader) : BlockReader where
  read bs := some (p.rounds bs)
  splits {bs _ _} h := by
    rw [p.append_rounds bs, Option.some.inj h]

theorem one_read_iff {shape : Block.Shape} {bs used left : List Block} :
    (one shape).read bs = some (used, left) ↔ ∃ b, b.shape = shape ∧ bs = b :: left ∧ used = [b] := by
  cases bs with
  | nil => simp [one]
  | cons b bs =>
    simp only [one, Option.ite_none_right_eq_some, Option.some.injEq, Prod.mk.injEq, List.cons.injEq]
    constructor
    · rintro ⟨same, rfl, rfl⟩
      exact ⟨b, same, ⟨rfl, rfl⟩, rfl⟩
    · rintro ⟨b, same, ⟨rfl, rfl⟩, rfl⟩
      exact ⟨same, rfl, rfl⟩

theorem andThen_read_iff {p q : BlockReader} {bs used left : List Block} :
    (p.andThen q).read bs = some (used, left) ↔ ∃ front middle more,
      p.read bs = some (front, middle) ∧ q.read middle = some (more, left) ∧ used = front ++ more := by
  constructor
  · intro h
    obtain ⟨⟨front, middle⟩, first, behind⟩ := Option.bind_eq_some_iff.mp h
    obtain ⟨⟨more, rest⟩, second, same⟩ := Option.map_eq_some_iff.mp behind
    cases same
    exact ⟨front, middle, more, first, second, rfl⟩
  · rintro ⟨front, middle, more, first, second, rfl⟩
    simp [andThen, first, second]

/-- A reader that never takes nothing. -/
def Progresses (p : BlockReader) : Prop :=
  ∀ bs used left, p.read bs = some (used, left) → used ≠ []

variable {p q : BlockReader} {bs used left : List Block}

theorem progresses_one (shape : Block.Shape) : (one shape).Progresses := by
  intro bs used left h
  obtain ⟨b, -, -, rfl⟩ := one_read_iff.mp h
  simp

theorem Progresses.andThen_left (first : p.Progresses) (q : BlockReader) : (p.andThen q).Progresses := by
  intro bs used left h
  obtain ⟨front, middle, more, found, -, rfl⟩ := andThen_read_iff.mp h
  have present := first _ _ _ found
  simp [present]

theorem Progresses.andThen_right (p : BlockReader) (second : q.Progresses) :
    (p.andThen q).Progresses := by
  intro bs used left h
  obtain ⟨front, middle, more, -, found, rfl⟩ := andThen_read_iff.mp h
  have present := second _ _ _ found
  simp [present]

theorem Progresses.orElse (first : p.Progresses) (second : q.Progresses) : (p.orElse q).Progresses := by
  intro bs used left h
  rcases Option.or_eq_some_iff.mp h with found | ⟨-, found⟩
  · exact first _ _ _ found
  · exact second _ _ _ found

theorem Progresses.length_lt (progresses : p.Progresses) (h : p.read bs = some (used, left)) :
    left.length < bs.length := by
  have present := List.length_pos_iff.mpr (progresses _ _ _ h)
  rw [p.splits h, List.length_append]
  omega

/-- Rounds of a reader that takes one block at a time. -/
theorem rounds_eq_span {keep : Block → Bool}
    (takes : ∀ b bs, p.read (b :: bs) = if keep b then some ([b], bs) else none)
    (ends : p.read [] = none) (bs : List Block) :
    p.rounds bs = (bs.takeWhile keep, bs.dropWhile keep) := by
  induction bs with
  | nil => exact rounds_none ends
  | cons b bs ih =>
    cases kept : keep b with
    | true => simp [rounds_some (by simpa [kept] using takes b bs) (by simp), ih, kept]
    | false => simp [rounds_none (by simpa [kept] using takes b bs), kept]

/-! ### The readers of the shipped template -/

/-- A blank line or a comment. -/
def ignorable : BlockReader := (one .blank).orElse (one .comment)

theorem progresses_ignorable : ignorable.Progresses :=
  (progresses_one _).orElse (progresses_one _)

private theorem ignorable_read (b : Block) (bs : List Block) :
    ignorable.read (b :: bs) = if b.isIgnorable then some ([b], bs) else none := by
  cases b <;> rfl

theorem ignorables_read (bs : List Block) :
    ignorable.many.read bs =
      some (bs.takeWhile Block.isIgnorable, bs.dropWhile Block.isIgnorable) :=
  congrArg some (rounds_eq_span ignorable_read rfl bs)

/-- Tag lines, with blank lines and comments between them. -/
def tags : BlockReader := ((one .tags).orElse ignorable).many

theorem tags_read (bs : List Block) :
    tags.read bs = some (bs.takeWhile Block.mayLead, bs.dropWhile Block.mayLead) := by
  refine congrArg some (rounds_eq_span (fun b bs => ?_) rfl bs)
  cases b <;> rfl

def table : BlockReader := (one .row).andThen (ignorable.many.andThen (one .row)).many

/-- A step with the table or the doc string it carries. -/
def step : BlockReader :=
  (one .step).andThen (ignorable.many.andThen (table.orElse (one .docString))).maybe

theorem progresses_step : step.Progresses :=
  (progresses_one _).andThen_left _

def steps : BlockReader := (ignorable.many.andThen step).many

/-- A section that may be tagged: its header, and what belongs to it. -/
def tagged (kind : SectionKind) (contents : BlockReader) : BlockReader :=
  tags.andThen ((one (.header kind)).andThen contents)

theorem progresses_tagged (kind : SectionKind) (contents : BlockReader) :
    (tagged kind contents).Progresses :=
  .andThen_right _ ((progresses_one _).andThen_left _)

def background : BlockReader :=
  ignorable.many.andThen ((one (.header .background)).andThen steps)

def scenario : BlockReader := tagged .scenario steps

def examples : BlockReader := tagged .examples (ignorable.many.andThen table)

def outline : BlockReader := tagged .outline (steps.andThen (examples.andThen examples.many))

def feature : BlockReader :=
  tagged .feature (background.maybe.andThen (outline.orElse scenario).many)

/-- A whole document, apart from what stands on its last line. -/
def document : BlockReader :=
  ignorable.many.andThen (feature.maybe.andThen ignorable.many)

end BlockReader

end FeatureFile
