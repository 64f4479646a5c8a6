import FeatureFile.Proofs.Document.WellFormed
import FeatureFile.Proofs.Line.Forward
import FeatureFile.Proofs.Text.Pieces
/-!
Which lines are rows. A row is read token by token; what it gives is said without tokens, by the pipes
alone: a pipe stands at either end, and the cells are what stands between one pipe and the next.
-/

namespace FeatureFile.TableRow

open Text (isBlankChar)

variable {s t : Text} {cells : List Text}

/-- A text of one line that starts with a pipe and ends with another one. -/
structure IsDelimited (s : Text) : Prop where
  unbroken : '\n' ∉ s
  opened : s.head? = some '|'
  closed : s.getLast? = some '|'
  pipes : 2 ≤ s.count '|'

/-- What stands between each pipe and the next, in order. -/
def segments (s : Text) : List Text :=
  (s.splitOn '|').tail.dropLast

/-- The cells with a pipe between neighbours and one at either end. -/
def rowText (cells : List Text) : Text :=
  '|' :: (['|'].intercalate cells ++ ['|'])

/-- Of the pieces of a text the first and the last are not between two pipes. -/
theorem length_segments (s : Text) : (segments s).length = s.count '|' - 1 := by
  simp [segments, Text.length_splitOn]

theorem segments_pipe (t : Text) : segments ('|' :: t) = (t.splitOn '|').dropLast := by
  simp [segments, List.splitOn_cons_eq_if_modifyHead]

/-! ### Tokens -/

theorem tokens?_eq_none_iff : tokens? t = none ↔ '\n' ∈ t := by
  induction t with
  | nil => simp [tokens?]
  | cons c t ih =>
    rw [tokens?, List.mem_cons, ← ih]
    cases tokens? t with
    | none => simp
    | some tokens =>
      by_cases feed : c = '\n'
      · simp [feed]
      · by_cases pipe : c = '|' <;> simp [feed, Ne.symm feed, pipe]

private theorem eq_nil_of_tokens? (h : tokens? t = some []) : t = [] := by
  cases t with
  | nil => rfl
  | cons c t =>
    obtain ⟨tokens, -, next⟩ := Option.bind_eq_some_iff.mp h
    split_ifs at next
    · cases next
    · cases tokens with
      | nil => cases next
      | cons token tokens => cases token <;> cases next

/-- A character in front of a row that is open belongs to its first cell. -/
private theorem cells?_cons (c : Char) {tokens : List Token} (more : tokens ≠ []) :
    cells? (Token.cons c tokens) = (cells? tokens).map (List.modifyHead (c :: ·)) := by
  cases tokens with
  | nil => exact absurd rfl more
  | cons token tokens =>
    cases token with
    | pipe => cases found : cells? tokens <;> simp [Token.cons, cells?, found]
    | cell content =>
      cases tokens with
      | nil => rfl
      | cons token tokens =>
        cases token with
        | pipe => cases found : cells? tokens <;> simp [Token.cons, cells?, found]
        | cell => rfl

/-- Behind a pipe stand the pieces up to the last pipe, if the line ends with a pipe. -/
private theorem cells?_behind (unbroken : '\n' ∉ t) :
    (tokens? t).bind cells? =
      if ('|' :: t).getLast? = some '|' then some (t.splitOn '|').dropLast else none := by
  induction t with
  | nil => simp [tokens?, cells?, List.splitOn_nil]
  | cons c t ih =>
    simp only [List.mem_cons, not_or] at unbroken
    obtain ⟨feed, unbroken⟩ := unbroken
    have others := ih unbroken
    obtain ⟨tokens, found⟩ := Option.ne_none_iff_exists'.mp (mt tokens?_eq_none_iff.mp unbroken)
    rw [found, Option.bind_some] at others
    -- A pipe closes a piece with nothing in it; any other character goes into the piece behind it.
    by_cases pipe : c = '|'
    · subst pipe
      have read : tokens? ('|' :: t) = some (.pipe :: tokens) := by
        simp [tokens?, found]
      have pieces : ('|' :: t).splitOn '|' = [] :: t.splitOn '|' := by
        simp [List.splitOn_cons_eq_if_modifyHead]
      rw [read, Option.bind_some, cells?, others, pieces,
        List.dropLast_cons_of_ne_nil (List.splitOn_ne_nil '|' t), List.getLast?_cons_cons]
      split <;> rfl
    · have read : tokens? (c :: t) = some (Token.cons c tokens) := by
        simp [tokens?, found, Ne.symm feed, pipe]
      rw [read, Option.bind_some]
      cases t with
      | nil =>
        cases found
        simp [Token.cons, cells?, pipe]
      | cons d t =>
        have more : tokens ≠ [] := by
          rintro rfl
          cases eq_nil_of_tokens? found
        have pieces : (c :: d :: t).splitOn '|' = ((d :: t).splitOn '|').modifyHead (c :: ·) := by
          rw [List.splitOn_cons_eq_if_modifyHead, if_neg (by simpa using pipe)]
        rw [cells?_cons c more, others, pieces, ← List.modifyHead_dropLast]
        simp only [List.getLast?_cons_cons]
        split <;> rfl

/-! ### Rows -/

private theorem split?_of_trimmed {line : Text} (trimmed : Text.trimBy isBlankChar line = '|' :: t) :
    split? line = ((tokens? t).bind cells?).bind fun cells =>
      if cells.isEmpty then none else some (cells.map Text.trim) := by
  rw [split?, trimmed, tokens?]
  cases tokens? t <;> rfl

private theorem exists_pipe {line : Text} (h : split? line = some cells) :
    ∃ t, Text.trimBy isBlankChar line = '|' :: t := by
  rw [split?] at h
  cases trimmed : Text.trimBy isBlankChar line with
  | nil => simp [trimmed, tokens?] at h
  | cons c t =>
    by_cases pipe : c = '|'
    · exact ⟨t, by rw [pipe]⟩
    · -- Any other character opens a cell, if it opens anything.
      rw [trimmed, tokens?] at h
      obtain ⟨tokens, read, row⟩ := Option.bind_eq_some_iff.mp h
      obtain ⟨others, -, first⟩ := Option.bind_eq_some_iff.mp read
      split_ifs at first
      cases first
      cases others with
      | nil => cases row
      | cons token others => cases token <;> cases row

/-- A line gives the cells between its pipes, if pipes delimit it; blanks around it do not matter. -/
theorem split?_iff {line : Text} :
    split? line = some cells ↔
      IsDelimited (Text.trimBy isBlankChar line) ∧
        cells = (segments (Text.trimBy isBlankChar line)).map Text.trim := by
  constructor
  · intro h
    obtain ⟨t, trimmed⟩ := exists_pipe h
    rw [split?_of_trimmed trimmed] at h
    obtain ⟨contents, read, listed⟩ := Option.bind_eq_some_iff.mp h
    have unbroken : '\n' ∉ t := by
      intro feed
      simp [tokens?_eq_none_iff.mpr feed] at read
    rw [cells?_behind unbroken] at read
    split_ifs at read with closed
    cases read
    split_ifs at listed with full
    cases listed
    have pipes := List.length_pos_iff.mpr (mt List.isEmpty_iff.mpr full)
    rw [List.length_dropLast, Text.length_splitOn] at pipes
    rw [trimmed, segments_pipe]
    exact ⟨⟨by simp [unbroken], rfl, closed, by rw [List.count_cons_self]; omega⟩, rfl⟩
  · rintro ⟨delimited, rfl⟩
    obtain ⟨t, trimmed⟩ := List.head?_eq_some_iff.mp delimited.opened
    rw [trimmed] at delimited ⊢
    have full : ¬ (t.splitOn '|').dropLast.isEmpty = true := by
      have pipes := delimited.pipes
      rw [List.count_cons_self] at pipes
      rw [List.isEmpty_iff, ← List.length_eq_zero_iff, List.length_dropLast, Text.length_splitOn]
      omega
    rw [split?_of_trimmed trimmed, cells?_behind (mt (List.mem_cons_of_mem '|') delimited.unbroken),
      if_pos delimited.closed, Option.bind_some, if_neg full, segments_pipe]

/-- Between two pipes there is no third. -/
theorem of_mem_segments {segment : Text} (member : segment ∈ segments s) :
    '|' ∉ segment ∧ segment ⊆ s :=
  Text.of_mem_splitOn (List.mem_of_mem_tail (List.dropLast_subset _ member))

theorem isCells_of_split? {line : Text} (h : split? line = some cells) : IsCells cells := by
  obtain ⟨delimited, rfl⟩ := split?_iff.mp h
  constructor
  · have pipes := delimited.pipes
    rw [← List.length_pos_iff, List.length_map, length_segments]
    omega
  · refine List.forall_mem_map.mpr fun segment member => ?_
    obtain ⟨unpiped, inside⟩ := of_mem_segments member
    exact Text.isCell_trim (fun feed => delimited.unbroken (inside feed)) unpiped

/-! ### Cells in a row -/

theorem segments_rowText (some : cells ≠ []) (plain : ∀ cell ∈ cells, '|' ∉ cell) :
    segments (rowText cells) = cells := by
  have pieces : (['|'].intercalate cells ++ ['|']).splitOn '|' = cells ++ [[]] := by
    rw [List.splitOn_eq_splitOnP, List.splitOnP_append_cons _ _ (by simp),
      ← List.splitOn_eq_splitOnP, List.splitOn_intercalate '|' plain some]
    simp
  rw [rowText, segments_pipe, pieces, List.dropLast_concat]

/-- A row with cells in it is delimited by pipes, and there is nothing to trim. -/
theorem trimBy_rowText (cells : List Text) : Text.trimBy isBlankChar (rowText cells) = rowText cells := by
  have kept : Text.trimEndBy isBlankChar (rowText cells) = rowText cells :=
    trimEndBy_append (show isBlankChar '|' = false by decide) ('|' :: ['|'].intercalate cells) []
  rw [Text.trimBy, kept]
  simp [rowText, Text.trimStartBy, show isBlankChar '|' = false by decide]

private theorem not_mem_intercalate {c x : Char} (other : c ≠ x) (apart : ∀ cell ∈ cells, c ∉ cell) :
    c ∉ [x].intercalate cells := by
  induction cells with
  | nil => simp [List.intercalate]
  | cons cell cells ih =>
    obtain ⟨first, others⟩ := List.forall_mem_cons.mp apart
    cases cells with
    | nil => simpa [List.intercalate] using first
    | cons next cells =>
      rw [List.intercalate_cons_cons]
      simp [first, other, ih others]

theorem isDelimited_rowText (unbroken : ∀ cell ∈ cells, '\n' ∉ cell) : IsDelimited (rowText cells) where
  unbroken := by
    have inside : '\n' ∉ ['|'].intercalate cells := not_mem_intercalate (by decide) unbroken
    simp [rowText, inside]
  opened := rfl
  closed := by
    rw [rowText, ← List.cons_append]
    exact List.getLast?_concat
  pipes := by simp [rowText, List.count_append]

/-- A line gives cells exactly if it has no line feed and pipes at both ends, two at least, blanks around it
aside; the cells are the trimmed parts between one pipe and the next, one less than there are pipes. So
cells that are put in a row are read off it, trimmed. -/
theorem split?_delimited (line : Text) :
    (∀ cells, split? line = some cells ↔
      IsDelimited (Text.trimBy isBlankChar line) ∧
        cells = (segments (Text.trimBy isBlankChar line)).map Text.trim) ∧
    (∀ cells, split? line = some cells →
      cells.length = (Text.trimBy isBlankChar line).count '|' - 1) ∧
    ∀ cells : List Text, cells ≠ [] → (∀ cell ∈ cells, '|' ∉ cell ∧ '\n' ∉ cell) →
      split? (rowText cells) = some (cells.map Text.trim) := by
  refine ⟨fun cells => split?_iff, fun cells found => ?_, fun cells some plain => ?_⟩
  · obtain ⟨-, rfl⟩ := split?_iff.mp found
    rw [List.length_map, length_segments]
  · rw [split?_iff, trimBy_rowText, segments_rowText some fun cell member => (plain cell member).1]
    exact ⟨isDelimited_rowText fun cell member => (plain cell member).2, rfl⟩

theorem split?_delimited_carriage :
    split? "\t| a || b\rc | ".toList = some ["a".toList, [], "b\rc".toList] ∧
      ["a".toList, [], "b\rc".toList].length =
        (Text.trimBy isBlankChar "\t| a || b\rc | ".toList).count '|' - 1 ∧
      [" x ".toList, []] ≠ [] ∧ (∀ cell ∈ [" x ".toList, []], '|' ∉ cell ∧ '\n' ∉ cell) ∧
      split? (rowText [" x ".toList, []]) = some ["x".toList, []] := by
  obtain ⟨iff, length, cells⟩ := split?_delimited "\t| a || b\rc | ".toList
  have found : split? "\t| a || b\rc | ".toList = some ["a".toList, [], "b\rc".toList] :=
    (iff _).mpr ⟨⟨by decide +kernel, by decide +kernel, by decide +kernel, by decide +kernel⟩,
      by decide +kernel⟩
  have full : [" x ".toList, []] ≠ [] := List.cons_ne_nil _ _
  have plain : ∀ cell ∈ [" x ".toList, []], '|' ∉ cell ∧ '\n' ∉ cell := by decide +kernel
  refine ⟨found, length _ found, full, plain, ?_⟩
  rw [cells _ full plain]
  decide +kernel

end FeatureFile.TableRow
