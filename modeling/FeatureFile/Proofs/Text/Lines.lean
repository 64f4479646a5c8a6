import FeatureFile.Text.Lines
import Mathlib.Data.List.Basic
/-!
The first line of a text, the line break behind it and what follows the break. Behind a part of the
line stands a text whose first line is the other part.
-/

namespace FeatureFile.Text

/-- The text starts with the line and the break, and the rest follows. Only the last line of a text
has no break. -/
inductive FirstLine : Text → Text → Text → Text → Prop where
  | last : FirstLine [] [] [] []
  | feed (rest : Text) : FirstLine ('\n' :: rest) [] ['\n'] rest
  | carriage (rest : Text) : FirstLine ('\r' :: '\n' :: rest) [] ['\r', '\n'] rest
  | cons {c : Char} {t line brk rest : Text} (feed : c ≠ '\n')
      (carriage : ∀ more, c = '\r' → t ≠ '\n' :: more) (others : FirstLine t line brk rest) :
      FirstLine (c :: t) (c :: line) brk rest

theorem exists_firstLine (t : Text) : ∃ line brk rest, FirstLine t line brk rest := by
  induction t with
  | nil => exact ⟨_, _, _, .last⟩
  | cons c t ih =>
    by_cases feed : c = '\n'
    · subst feed
      exact ⟨_, _, _, .feed t⟩
    · by_cases carriage : ∃ rest, c = '\r' ∧ t = '\n' :: rest
      · obtain ⟨rest, rfl, rfl⟩ := carriage
        exact ⟨_, _, _, .carriage rest⟩
      · obtain ⟨line, brk, rest, others⟩ := ih
        exact ⟨_, _, _, .cons feed (fun more same next => carriage ⟨more, same, next⟩) others⟩

namespace FirstLine

variable {t line brk rest p q : Text}

theorem eq_append (h : FirstLine t line brk rest) : t = line ++ (brk ++ rest) := by
  induction h with
  | last | feed | carriage => rfl
  | cons _ _ _ ih => rw [ih, List.cons_append]

theorem unique {line' brk' rest' : Text} (h : FirstLine t line brk rest)
    (h' : FirstLine t line' brk' rest') : line = line' ∧ brk = brk' ∧ rest = rest' := by
  induction h generalizing line' with
  | last =>
    cases h'
    exact ⟨rfl, rfl, rfl⟩
  | feed rest =>
    cases h' with
    | feed => exact ⟨rfl, rfl, rfl⟩
    | cons feed => exact absurd rfl feed
  | carriage rest =>
    cases h' with
    | carriage => exact ⟨rfl, rfl, rfl⟩
    | cons _ carriage => exact absurd rfl (carriage _ rfl)
  | cons feed carriage _ ih =>
    cases h' with
    | feed => exact absurd rfl feed
    | carriage rest => exact absurd rfl (carriage _ rfl)
    | cons _ _ others =>
      obtain ⟨rfl, rest⟩ := ih others
      exact ⟨rfl, rest⟩

theorem brk_cases (h : FirstLine t line brk rest) :
    (brk = [] ∧ rest = []) ∨ brk = ['\n'] ∨ brk = ['\r', '\n'] := by
  induction h with
  | last => exact .inl ⟨rfl, rfl⟩
  | feed => exact .inr (.inl rfl)
  | carriage => exact .inr (.inr rfl)
  | cons _ _ _ ih => exact ih

theorem not_mem_line (h : FirstLine t line brk rest) : '\n' ∉ line := by
  induction h with
  | last | feed | carriage => simp
  | cons feed _ _ ih => simp [Ne.symm feed, ih]

/-- A text without line feeds is one line, which may end with a carriage return. -/
theorem of_not_mem (unbroken : '\n' ∉ t) : FirstLine t t [] [] := by
  induction t with
  | nil => exact .last
  | cons c t ih =>
    simp only [List.mem_cons, not_or] at unbroken
    obtain ⟨feed, others⟩ := unbroken
    refine .cons (Ne.symm feed) (fun more same next => others ?_) (ih others)
    simp [next]

/-- What stands behind a part of the line. -/
theorem drop (h : FirstLine t (p ++ q) brk rest) :
    ∃ behind, t = p ++ behind ∧ FirstLine behind q brk rest := by
  induction p generalizing t with
  | nil => exact ⟨t, rfl, h⟩
  | cons c p ih =>
    cases h with
    | cons _ _ others =>
      obtain ⟨behind, split, faces⟩ := ih others
      exact ⟨behind, by rw [split, List.cons_append], faces⟩

/-- A line break does not begin inside a line. -/
theorem not_break {c : Char} (h : FirstLine t (c :: q) brk rest) :
    ¬ ['\r', '\n'] <+: t ∧ ¬ ['\n'] <+: t := by
  cases h with
  | cons feed carriage _ =>
    constructor
    · rintro ⟨more, split⟩
      obtain ⟨rfl, rfl⟩ := List.cons.inj split
      exact carriage more rfl rfl
    · rintro ⟨more, split⟩
      exact feed (List.cons.inj split).1.symm

theorem eq_nil_iff (h : FirstLine t line brk rest) : t = [] ↔ line = [] ∧ brk = [] := by
  cases h <;> simp

theorem length_rest_lt (h : FirstLine t line brk rest) (some : t ≠ []) : rest.length < t.length := by
  have taken : 0 < (line ++ brk).length := by
    refine List.length_pos_iff.mpr fun nothing => some (h.eq_nil_iff.mpr ?_)
    exact List.append_eq_nil_iff.mp nothing
  have whole := congrArg List.length h.eq_append
  simp only [List.length_append] at taken whole
  omega

/-- A line with a break is read off whatever follows the break. -/
theorem change (h : FirstLine t line brk rest) (ends : brk ≠ []) (other : Text) :
    FirstLine (line ++ (brk ++ other)) line brk other := by
  induction h with
  | last => exact absurd rfl ends
  | feed => exact .feed other
  | carriage => exact .carriage other
  | @cons c t line brk rest feed carriage others ih =>
    refine .cons feed (fun more same next => ?_) (ih ends)
    -- The next character is the one that stood there before.
    have head : (line ++ (brk ++ other)).head? = t.head? := by
      rw [others.eq_append]
      cases line with
      | cons => rfl
      | nil => cases brk <;> first | exact absurd rfl ends | rfl
    rw [show line ++ (brk ++ other) = '\n' :: more from next] at head
    cases t with
    | nil => cases head
    | cons d t => exact carriage t same (by rw [Option.some.inj head])

/-- The lines of a text are its first one and those behind the line break. -/
theorem lines_eq (h : FirstLine t line brk rest) (some : t ≠ []) :
    t.lines = line :: rest.lines := by
  induction h with
  | last => exact absurd rfl some
  | feed | carriage => rfl
  | @cons c t line brk rest feed carriage others ih =>
    rw [lines.eq_4 c t feed carriage]
    cases t with
    | nil =>
      cases others
      rfl
    | cons d t => rw [ih (by simp)]

end FirstLine

/-- The first character of a line, whatever follows. -/
theorem lines_cons {c : Char} {t : Text} (plain : c ≠ '\n')
    (unfed : c = '\r' → t.head? ≠ some '\n') :
    lines (c :: t) = (c :: t.lines.headD []) :: t.lines.tail := by
  rw [lines.eq_4 c t plain fun rest same next => unfed same (by rw [next]; rfl)]
  cases lines t <;> rfl

/-- The line feeds of a text end lines of it. -/
theorem count_le_length_lines (t : Text) : t.count '\n' ≤ t.lines.length := by
  induction t using lines.induct with
  | case1 => simp
  | case2 rest ih => simpa [lines] using ih
  | case3 rest ih => simpa [lines] using ih
  | case4 c rest feed carriage none ih =>
    have feeds : rest.count '\n' = 0 := by simpa [none] using ih
    rw [List.count_cons_of_ne feed, feeds]
    exact Nat.zero_le _
  | case5 c rest feed carriage line more split ih =>
    rw [lines.eq_4 c rest feed carriage, List.count_cons_of_ne feed, split]
    simpa [split] using ih

/-- The lines behind a line break are lines of the text. -/
theorem mem_lines_of_feed {p rest raw : Text} (member : raw ∈ rest.lines) :
    raw ∈ (p ++ '\n' :: rest).lines := by
  suffices split : ∃ first front, (p ++ '\n' :: rest).lines = first :: front ++ rest.lines by
    obtain ⟨first, front, split⟩ := split
    rw [split]
    exact List.mem_append_right _ member
  induction p with
  | nil => exact ⟨[], [], rfl⟩
  | cons c p ih =>
    obtain ⟨first, front, split⟩ := ih
    rw [List.cons_append]
    by_cases feed : c = '\n'
    · subst feed
      exact ⟨[], first :: front, by rw [lines, split]; rfl⟩
    · by_cases carriage : ∃ more, c = '\r' ∧ p ++ '\n' :: rest = '\n' :: more
      · -- The line break that follows begins one character earlier.
        obtain ⟨more, rfl, next⟩ := carriage
        rw [next] at split ⊢
        exact ⟨first, front, split⟩
      · rw [lines.eq_4 c _ feed fun more same next => carriage ⟨more, same, next⟩, split]
        exact ⟨c :: first, front, rfl⟩

theorem not_mem_of_mem_lines {line t : Text} (member : line ∈ t.lines) : '\n' ∉ line := by
  induction size : t.length using Nat.strongRecOn generalizing t with
  | _ _ ih =>
  subst size
  obtain ⟨first, brk, rest, split⟩ := exists_firstLine t
  by_cases none : t = []
  · subst none
    cases member
  · rw [split.lines_eq none] at member
    rcases List.mem_cons.mp member with rfl | behind
    · exact split.not_mem_line
    · exact ih _ (split.length_rest_lt none) behind rfl

/-- Behind a text of whole lines other lines begin. -/
theorem lines_append_of_feed {s : Text} (whole : s = [] ∨ s.getLast? = some '\n') (t : Text) :
    (s ++ t).lines = s.lines ++ t.lines := by
  induction size : s.length using Nat.strongRecOn generalizing s with
  | _ _ ih =>
  subst size
  by_cases empty : s = []
  · rw [empty]
    rfl
  obtain ⟨line, brk, rest, first⟩ := exists_firstLine s
  have split := first.eq_append
  have last : (line ++ (brk ++ rest)).getLast? = some '\n' := split ▸ whole.resolve_left empty
  have ends : brk ≠ [] := by
    rintro rfl
    -- Without a break the line is all of the text, and there is no line feed in it.
    obtain rfl : rest = [] := by simpa using first.brk_cases
    simp only [List.append_nil] at last
    exact first.not_mem_line (List.mem_of_getLast? last)
  have behind : rest = [] ∨ rest.getLast? = some '\n' := by
    by_cases none : rest = []
    · exact .inl none
    · rw [← List.append_assoc, List.getLast?_append_of_ne_nil _ none] at last
      exact .inr last
  have shorter : rest.length < s.length := first.length_rest_lt empty
  have front := first.change ends (rest ++ t)
  rw [show line ++ (brk ++ (rest ++ t)) = s ++ t by simp [split]] at front
  rw [front.lines_eq (by simp [empty]), first.lines_eq empty, ih _ shorter behind rfl, List.cons_append]

/-- A text without line feeds and carriage returns. -/
def Unbroken (t : Text) : Prop :=
  ∀ c ∈ t, c ≠ '\r' ∧ c ≠ '\n'

instance (t : Text) : Decidable (Unbroken t) :=
  decidable_of_iff (t.all fun c => decide (c ≠ '\r' ∧ c ≠ '\n')) (by simp [Unbroken])

/-- Whether a text starts with an unbroken one shows on its first line. -/
theorem FirstLine.prefix_iff {t line brk rest w : Text} (h : FirstLine t line brk rest)
    (unbroken : Unbroken w) : w <+: t ↔ w <+: line := by
  induction h generalizing w with
  | last => exact Iff.rfl
  | feed rest | carriage rest =>
    cases w with
    | nil => simp
    | cons d w =>
      have plain := unbroken d (by simp)
      simp [List.cons_prefix_cons, plain]
  | cons _ _ _ ih =>
    cases w with
    | nil => simp
    | cons d w =>
      rw [List.cons_prefix_cons, List.cons_prefix_cons, ih fun c mem => unbroken c (by simp [mem])]

end FeatureFile.Text
