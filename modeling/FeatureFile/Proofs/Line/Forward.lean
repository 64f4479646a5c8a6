import FeatureFile.Line.Tags
import FeatureFile.Line.Row
import Mathlib.Data.List.TakeWhile
/-!
Tag lines and rows read from left to right. Their definitions go through a line from its end; a
grammar goes through it from its beginning, one tag or one cell at a time.
-/

namespace FeatureFile

open Text (isBlankChar)

/-! ### Tag lines -/

namespace TagLine

/-- A character of a tag behind its `@`. -/
def isNameChar (c : Char) : Bool :=
  !isBlankChar c && c ≠ '@'

variable {q v : Text}

theorem split?_blank {x : Char} (blank : isBlankChar x = true) : split? (x :: q) = split? q := by
  have noFeed : x ≠ '\n' := by
    rintro rfl
    cases blank
  simp only [split?, read?, noFeed, blank, if_true, if_false, Option.bind_assoc]
  congr 1
  funext ⟨name, tags⟩
  cases name <;> rfl

theorem split?_unindent (q : Text) : split? q.unindent = split? q := by
  induction q with
  | nil => rfl
  | cons x q ih =>
    cases blank : isBlankChar x with
    | true =>
      rw [split?_blank blank, ← ih]
      simp [Text.unindent, Text.trimStartBy, blank]
    | false => simp [Text.unindent, Text.trimStartBy, blank]

/-- Nothing but a tag may follow the blanks. -/
theorem split?_other {x : Char} (name : isNameChar x = true) : split? (x :: q) = none := by
  simp only [isNameChar, Bool.and_eq_true, Bool.not_eq_true', decide_eq_true_eq] at name
  simp only [split?, read?, name, Option.bind_assoc, Option.bind_eq_none_iff]
  rintro ⟨unclosed, tags⟩ -
  by_cases feed : x = '\n' <;> simp [feed]

/-- The characters of a name stay in front of what is read behind them. -/
theorem read?_name {name : Text} (unbroken : '\n' ∉ name)
    (inside : ∀ c ∈ name, isNameChar c = true) (behind : Text) :
    read? (name ++ behind) = (read? behind).map fun (more, tags) => (name ++ more, tags) := by
  induction name with
  | nil => simp
  | cons x name ih =>
    simp only [List.mem_cons, forall_eq_or_imp, not_or] at inside unbroken
    obtain ⟨noFeed, unbroken⟩ := unbroken
    have plain := inside.1
    simp only [isNameChar, Bool.and_eq_true, Bool.not_eq_true', decide_eq_true_eq] at plain
    rw [List.cons_append, read?, ih unbroken inside.2]
    cases read? behind with
    | none => rfl
    | some pair => simp [Ne.symm noFeed, plain]

/-- No tag is open in front of a character that is in no name. -/
private theorem read?_closed (ends : ∀ c, q.head? = some c → isNameChar c = false) :
    read? q = (split? q).map fun tags => ([], tags) := by
  cases q with
  | nil => rfl
  | cons x q =>
    have stop := ends x rfl
    have shape : isBlankChar x = true ∨ (isBlankChar x = false ∧ x = '@') := by
      cases blank : isBlankChar x <;> simp_all [isNameChar]
    simp only [split?, read?]
    cases read? q with
    | none => rfl
    | some pair =>
      obtain ⟨name, tags⟩ := pair
      by_cases feed : x = '\n'
      · simp [feed]
      · rcases shape with blank | ⟨blank, rfl⟩
        · cases name <;> simp [feed, blank]
        · cases name <;> simp [blank]

/-- A tag, and then what is behind it. -/
theorem split?_tag (unbroken : '\n' ∉ v) :
    split? ('@' :: v) =
      if v.takeWhile isNameChar = [] then none
      else (split? (v.dropWhile isNameChar)).map (('@' :: v.takeWhile isNameChar) :: ·) := by
  have front : '\n' ∉ v.takeWhile isNameChar :=
    fun mem => unbroken ((List.takeWhile_sublist isNameChar).mem mem)
  have stops : ∀ c, (v.dropWhile isNameChar).head? = some c → isNameChar c = false := by
    intro c found
    have last := List.head?_dropWhile_not isNameChar v
    rw [found] at last
    simpa using last
  have parts : read? v =
      (split? (v.dropWhile isNameChar)).map fun tags => (v.takeWhile isNameChar, tags) := by
    have joined := read?_name front (fun c mem => List.mem_takeWhile_imp mem) (v.dropWhile isNameChar)
    rw [List.takeWhile_append_dropWhile, read?_closed stops] at joined
    rw [joined, Option.map_map]
    congr 1
    funext tags
    simp
  rw [split?, read?, parts]
  cases split? (v.dropWhile isNameChar) with
  | none => simp
  | some tags =>
    cases v.takeWhile isNameChar <;>
      simp [show isBlankChar '@' = false by decide]

/-- A tag line has a tag. -/
theorem split?_ne_nil (unbroken : '\n' ∉ v) : split? ('@' :: v) ≠ some [] := by
  rw [split?_tag unbroken]
  split <;> simp

end TagLine

/-! ### Rows -/

namespace TableRow

variable {v w : Text}

/-- The cells behind a pipe. -/
def cellsBehind? (v : Text) : Option (List Text) :=
  (tokens? (Text.trimEndBy isBlankChar v)).bind cells?

theorem trimEndBy_cons {p : Char → Bool} {x : Char} (kept : p x = false) (t : Text) :
    Text.trimEndBy p (x :: t) = x :: Text.trimEndBy p t := by
  rw [Text.trimEndBy]
  split
  next nothing => simp [kept, nothing]
  next => rfl

theorem trimEndBy_append {p : Char → Bool} {x : Char} (kept : p x = false) (s t : Text) :
    Text.trimEndBy p (s ++ x :: t) = s ++ x :: Text.trimEndBy p t := by
  induction s with
  | nil => exact trimEndBy_cons kept t
  | cons y s ih =>
    rw [List.cons_append, Text.trimEndBy, ih]
    cases s <;> rfl

theorem mem_of_mem_trimEndBy {p : Char → Bool} {x : Char} {t : Text} (h : x ∈ Text.trimEndBy p t) :
    x ∈ t := by
  induction t with
  | nil => exact h
  | cons y t ih =>
    rw [Text.trimEndBy] at h
    split at h
    · split at h
      · cases h
      · simp [List.mem_singleton.mp h]
    · rcases List.mem_cons.mp h with rfl | inside
      · simp
      · exact List.mem_cons_of_mem _ (ih (by simp [*]))

theorem trimEndBy_eq_nil_iff {p : Char → Bool} {t : Text} :
    Text.trimEndBy p t = [] ↔ t.dropWhile p = [] := by
  rw [List.dropWhile_eq_nil_iff]
  induction t with
  | nil => simp [Text.trimEndBy]
  | cons y t ih =>
    rw [Text.trimEndBy]
    split
    next nothing =>
      have others := ih.mp nothing
      cases inside : p y with
      | true => simpa [inside] using others
      | false => simp [inside]
    next kept _ =>
      simp only [List.mem_cons, forall_eq_or_imp, reduceCtorEq, false_iff, not_and]
      intro _ others
      exact absurd (ih.mpr others) (by simp_all)

theorem split?_pipe (v : Text) :
    split? ('|' :: v) =
      (cellsBehind? v).bind fun cells =>
        if cells.isEmpty then none else some (cells.map Text.trim) := by
  have trimmed : Text.trimBy isBlankChar ('|' :: v) = '|' :: Text.trimEndBy isBlankChar v := by
    rw [Text.trimBy, trimEndBy_cons (by decide)]
    simp [Text.trimStartBy, show isBlankChar '|' = false by decide]
  rw [split?, trimmed, tokens?, cellsBehind?]
  cases tokens? (Text.trimEndBy isBlankChar v) <;> rfl

private theorem tokens?_cell (unbroken : '\n' ∉ w) (unclosed : '|' ∉ w) (behind : Text) :
    tokens? (w ++ '|' :: behind) =
      (tokens? behind).map fun tokens =>
        if w = [] then .pipe :: tokens else .cell w :: .pipe :: tokens := by
  induction w with
  | nil => cases found : tokens? behind <;> simp [tokens?, found]
  | cons x w ih =>
    simp only [List.mem_cons, not_or] at unbroken unclosed
    rw [List.cons_append, tokens?, ih unbroken.2 unclosed.2]
    cases tokens? behind with
    | none => rfl
    | some tokens =>
      cases w <;> simp [Ne.symm unbroken.1, Ne.symm unclosed.1, Token.cons]

private theorem tokens?_last (unbroken : '\n' ∉ w) (unclosed : '|' ∉ w) :
    tokens? w = some (if w = [] then [] else [.cell w]) := by
  induction w with
  | nil => rfl
  | cons x w ih =>
    simp only [List.mem_cons, not_or] at unbroken unclosed
    rw [tokens?, ih unbroken.2 unclosed.2]
    cases w <;> simp [Ne.symm unbroken.1, Ne.symm unclosed.1, Token.cons]

/-- A cell with its pipe, and then what is behind it. -/
theorem cellsBehind?_cell (unbroken : '\n' ∉ w) (unclosed : '|' ∉ w) (behind : Text) :
    cellsBehind? (w ++ '|' :: behind) = (cellsBehind? behind).map (w :: ·) := by
  rw [cellsBehind?, trimEndBy_append (by decide), tokens?_cell unbroken unclosed, cellsBehind?]
  cases tokens? (Text.trimEndBy isBlankChar behind) with
  | none => rfl
  | some tokens => cases w <;> simp [cells?]

/-- Behind the last pipe there is nothing but blanks. -/
theorem cellsBehind?_last (unbroken : '\n' ∉ w) (unclosed : '|' ∉ w) :
    cellsBehind? w = if w.unindent = [] then some [] else none := by
  have blank : Text.trimEndBy isBlankChar w = [] ↔ w.unindent = [] := trimEndBy_eq_nil_iff
  rw [cellsBehind?, tokens?_last (unbroken ∘ mem_of_mem_trimEndBy) (unclosed ∘ mem_of_mem_trimEndBy)]
  by_cases atEnd : w.unindent = []
  · simp [atEnd, blank.mpr atEnd, cells?]
  · simp [atEnd, mt blank.mp atEnd, cells?]

end TableRow

end FeatureFile
