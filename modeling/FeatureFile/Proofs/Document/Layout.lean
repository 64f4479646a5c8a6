import FeatureFile.Document.Description
import FeatureFile.Proofs.Text.Lines
import FeatureFile.Proofs.Text.Trim
/-!
The layout of descriptions. The normal form of a description depends on its lines only: it is made of the
trimmed lines from the first that is not blank to the last, however the lines are delimited. What is in
normal form already stays as it is.
-/

namespace FeatureFile

namespace Text

/-- Blanks at the front of a text go when it is trimmed. -/
theorem trim_unindent (t : Text) : t.unindent.trim = t.trim := by
  induction t with
  | nil => rfl
  | cons x t ih =>
    cases blank : isBlankChar x with
    | false => simp [unindent, trimStartBy, blank]
    | true =>
      have white := isWhitespace_of_isBlankChar blank
      have front : unindent (x :: t) = unindent t := by
        simp [unindent, trimStartBy, blank]
      rw [front, ih, trim, trim, trimBy, trimBy, trimEndBy]
      cases kept : trimEndBy isWhitespace t <;> simp [trimStartBy, white]

theorem trim_eq_nil_of_unindent {t : Text} (blank : t.unindent = []) : t.trim = [] := by
  rw [← trim_unindent, blank]
  rfl

/-- A line that a line feed is put behind; a carriage return at its end goes into the break. -/
private theorem firstLine_append_feed {l : Text} (unbroken : '\n' ∉ l) (t : Text) :
    ∃ line brk, FirstLine (l ++ '\n' :: t) line brk t ∧ (l = line ∨ l = line ++ ['\r']) := by
  induction l with
  | nil => exact ⟨[], ['\n'], .feed t, .inl rfl⟩
  | cons c l ih =>
    simp only [List.mem_cons, not_or] at unbroken
    -- Only at the last character can a break begin early, and only if that is a carriage return.
    by_cases last : c = '\r' ∧ l = []
    · obtain ⟨rfl, rfl⟩ := last
      exact ⟨[], ['\r', '\n'], .carriage t, .inr rfl⟩
    · obtain ⟨line, brk, faces, ends⟩ := ih unbroken.2
      refine ⟨c :: line, brk, .cons (Ne.symm unbroken.1) (fun more same next => ?_) faces, ?_⟩
      · cases l with
        | nil => exact last ⟨same, rfl⟩
        | cons d l =>
          simp only [List.mem_cons, not_or] at unbroken
          exact unbroken.2.1 (List.cons.inj next).1.symm
      · rcases ends with rfl | rfl
        · exact .inl rfl
        · exact .inr rfl

theorem joinLines_cons_cons (l m : Text) (ls : List Text) :
    joinLines (l :: m :: ls) = l ++ '\n' :: joinLines (m :: ls) := by
  simp [joinLines, List.intercalate]

theorem trim_concat_carriage (l : Text) : (l ++ ['\r']).trim = l.trim := by
  rw [trim, trim, trimBy, trimBy, trimEndBy_concat (by decide)]

/-! ### Lines and their breaks -/

/-- What ends a line: LF, or CR LF. -/
inductive LineBreak where
  | feed
  | carriageFeed

def LineBreak.text : LineBreak → Text
  | feed => ['\n']
  | carriageFeed => ['\r', '\n']

/-- The lines in order, each with its own line break behind it. -/
def closeLines (ended : List (Text × LineBreak)) : Text :=
  ended.flatMap fun line => line.1 ++ line.2.text

theorem closeLines_feed (raws : List Text) :
    closeLines (raws.map (·, .feed)) = raws.flatMap (· ++ ['\n']) :=
  List.flatMap_map ..

theorem joinLines_concat (raws : List Text) (last : Text) :
    joinLines (raws ++ [last]) = closeLines (raws.map (·, .feed)) ++ last := by
  induction raws with
  | nil => simp [joinLines, List.intercalate, closeLines]
  | cons l raws ih =>
    -- Behind the line there is at least the last one, so a line feed follows it.
    obtain ⟨m, others, more⟩ : ∃ m others, raws ++ [last] = m :: others :=
      List.exists_cons_of_ne_nil (by simp)
    rw [List.cons_append, more, joinLines_cons_cons, ← more, ih]
    simp [closeLines, LineBreak.text]

/-- A line that a line break is put behind, up to white space. -/
private theorem firstLine_append_break {l : Text} (unbroken : '\n' ∉ l) (brk : LineBreak) (t : Text) :
    ∃ line ends, FirstLine (l ++ (brk.text ++ t)) line ends t ∧ line.trim = l.trim := by
  have fed {m : Text} (unbroken : '\n' ∉ m) :
      ∃ line ends, FirstLine (m ++ '\n' :: t) line ends t ∧ line.trim = m.trim := by
    obtain ⟨line, ends, faces, rfl | rfl⟩ := firstLine_append_feed unbroken t
    · exact ⟨m, ends, faces, rfl⟩
    · exact ⟨line, ends, faces, (trim_concat_carriage line).symm⟩
  cases brk with
  | feed => exact fed unbroken
  | carriageFeed =>
    -- A carriage return in front of the line feed may as well be the end of the line.
    obtain ⟨line, ends, faces, same⟩ := fed (m := l ++ ['\r']) (by simp [unbroken])
    rw [List.append_assoc] at faces
    exact ⟨line, ends, faces, same.trans (trim_concat_carriage l)⟩

/-- Closed lines in front of a text are its first lines, up to white space. -/
theorem lines_closeLines_append {ended : List (Text × LineBreak)}
    (unbroken : ∀ line ∈ ended, '\n' ∉ line.1) (t : Text) :
    (closeLines ended ++ t).lines.map trim =
      ended.map (fun line => line.1.trim) ++ t.lines.map trim := by
  induction ended with
  | nil => rfl
  | cons line ended ih =>
    obtain ⟨first, others⟩ := List.forall_mem_cons.mp unbroken
    obtain ⟨read, ends, faces, same⟩ :=
      firstLine_append_break first line.2 (closeLines ended ++ t)
    have split : closeLines (line :: ended) ++ t =
        line.1 ++ (line.2.text ++ (closeLines ended ++ t)) := by
      simp [closeLines]
    have some : line.1 ++ (line.2.text ++ (closeLines ended ++ t)) ≠ [] := by
      cases line.2 <;> simp [LineBreak.text]
    rw [split, faces.lines_eq some, List.map_cons, same, ih others]
    rfl

end Text

/-! ### Blank lines at the ends -/

theorem dropBlankEnds_concat_nil (ls : List Text) : dropBlankEnds (ls ++ [[]]) = dropBlankEnds ls := by
  rw [dropBlankEnds, dropBlankEnds, List.dropWhile_append]
  split
  next nothing =>
    have none : ls.dropWhile (·.isEmpty) = [] := List.isEmpty_iff.mp nothing
    simp [none]
  next => simp

/-- The lines from the first that is not blank to the last, the blank ones between them among them. -/
structure IsInner (kept lines : List Text) : Prop where
  around : ∃ front back, lines = front ++ (kept ++ back) ∧ ∀ l ∈ front ++ back, l = []
  opened : kept.head? ≠ some []
  closed : kept.getLast? ≠ some []

theorem IsInner.self {kept lines : List Text} (inner : IsInner kept lines) : IsInner kept kept where
  around := ⟨[], [], by simp, by simp⟩
  opened := inner.opened
  closed := inner.closed

private theorem dropWhile_of_opened {ls : List Text} (opened : ls.head? ≠ some []) :
    ls.dropWhile List.isEmpty = ls := by
  cases ls with
  | nil => rfl
  | cons l ls =>
    have visible : l ≠ [] := fun blank => opened (by rw [blank]; rfl)
    exact List.dropWhile_cons_of_neg (by simpa using visible)

private theorem dropBlankEnds_eq (lines : List Text) :
    dropBlankEnds lines = (lines.dropWhile List.isEmpty).rdropWhile List.isEmpty :=
  rfl

theorem isInner_dropBlankEnds (lines : List Text) : IsInner (dropBlankEnds lines) lines where
  around := by
    refine ⟨lines.takeWhile List.isEmpty, (lines.dropWhile List.isEmpty).rtakeWhile List.isEmpty, ?_,
      fun l member => ?_⟩
    · rw [dropBlankEnds_eq, List.rdropWhile_append_rtakeWhile, List.takeWhile_append_dropWhile]
    · rcases List.mem_append.mp member with front | back
      · exact List.isEmpty_iff.mp (List.mem_takeWhile_imp front)
      · exact List.isEmpty_iff.mp (List.mem_rtakeWhile_imp back)
  opened := by
    intro head
    obtain ⟨more, first⟩ := List.head?_eq_some_iff.mp head
    -- The first line that is kept is the one at which dropping from the front stops.
    obtain ⟨behind, split⟩ := List.rdropWhile_prefix List.isEmpty (lines.dropWhile List.isEmpty)
    have stops := List.head?_dropWhile_not List.isEmpty lines
    rw [← split, ← dropBlankEnds_eq, first] at stops
    cases stops
  closed := by
    intro last
    rw [dropBlankEnds_eq] at last
    have some : (lines.dropWhile List.isEmpty).rdropWhile List.isEmpty ≠ [] := by
      intro none
      rw [none] at last
      cases last
    have blank := Option.some.inj ((List.getLast?_eq_some_getLast some).symm.trans last)
    exact List.rdropWhile_last_not List.isEmpty _ some (List.isEmpty_iff.mpr blank)

theorem dropBlankEnds_eq_iff {lines kept : List Text} :
    dropBlankEnds lines = kept ↔ IsInner kept lines := by
  constructor
  · rintro rfl
    exact isInner_dropBlankEnds lines
  · rintro ⟨⟨front, back, rfl, blank⟩, opened, closed⟩
    obtain ⟨before, behind⟩ := List.forall_mem_append.mp blank
    rw [dropBlankEnds, List.dropWhile_append_of_pos (by simpa using before)]
    cases kept with
    | nil =>
      have nothing : back.dropWhile List.isEmpty = [] :=
        List.dropWhile_eq_nil_iff.mpr (by simpa using behind)
      rw [List.nil_append, nothing]
      rfl
    | cons l kept =>
      have first : (l :: kept ++ back).dropWhile List.isEmpty = l :: kept ++ back :=
        dropWhile_of_opened opened
      have last : (l :: kept).reverse.dropWhile List.isEmpty = (l :: kept).reverse :=
        dropWhile_of_opened (by rwa [List.head?_reverse])
      rw [first, List.reverse_append, List.dropWhile_append_of_pos (by simpa using behind), last,
        List.reverse_reverse]

/-! ### Normal forms -/

/-- A description given by its lines, whatever line breaks they have; the last one may have none. -/
theorem normalizeDescription_closeLines_append {ended : List (Text × Text.LineBreak)} {last : Text}
    (unbroken : ∀ line ∈ ended, '\n' ∉ line.1) (open_ : '\n' ∉ last) :
    normalizeDescription (Text.closeLines ended ++ last) =
      Text.joinLines (dropBlankEnds ((ended.map Prod.fst ++ [last]).map Text.trim)) := by
  have others : (ended.map Prod.fst).map Text.trim = ended.map fun line => line.1.trim :=
    List.map_map
  rw [normalizeDescription, Text.lines_closeLines_append unbroken, List.map_append, others]
  cases last with
  | nil =>
    -- There is no line behind the last break, and a blank one would go.
    rw [List.map_singleton, Text.trim_nil, dropBlankEnds_concat_nil, Text.lines, List.map_nil,
      List.append_nil]
  | cons c last =>
    have whole : Text.FirstLine (c :: last) (c :: last) [] [] := .of_not_mem open_
    rw [whole.lines_eq (by simp)]
    rfl

theorem normalizeDescription_closeLines {ended : List (Text × Text.LineBreak)}
    (unbroken : ∀ line ∈ ended, '\n' ∉ line.1) :
    normalizeDescription (Text.closeLines ended) =
      Text.joinLines (dropBlankEnds ((ended.map Prod.fst).map Text.trim)) := by
  rw [← List.append_nil (Text.closeLines ended),
    normalizeDescription_closeLines_append unbroken (by simp), List.map_append, List.map_singleton,
    Text.trim_nil, dropBlankEnds_concat_nil]

/-- A description given by its lines. -/
theorem normalizeDescription_joinLines {raws : List Text} (unbroken : ∀ l ∈ raws, '\n' ∉ l) :
    normalizeDescription (Text.joinLines raws) =
      Text.joinLines (dropBlankEnds (raws.map Text.trim)) := by
  rcases List.eq_nil_or_concat' raws with rfl | ⟨front, last, rfl⟩
  · rfl
  · have before : ∀ line ∈ front.map fun l => (l, Text.LineBreak.feed), '\n' ∉ line.1 :=
      List.forall_mem_map.mpr fun l member => unbroken l (by simp [member])
    have texts : (front.map fun l => (l, Text.LineBreak.feed)).map Prod.fst = front := by
      simp [Function.comp_def]
    rw [Text.joinLines_concat, normalizeDescription_closeLines_append before (unbroken last (by simp)),
      texts]

/-- A blank line at the end of a description does not matter. -/
theorem normalizeDescription_concat {raws : List Text} {q : Text}
    (unbroken : ∀ l ∈ raws ++ [q], '\n' ∉ l) (blank : q.unindent = []) :
    normalizeDescription (Text.joinLines (raws ++ [q])) =
      normalizeDescription (Text.joinLines raws) := by
  rw [normalizeDescription_joinLines unbroken,
    normalizeDescription_joinLines fun l mem => unbroken l (by simp [mem]), List.map_append,
    List.map_singleton, Text.trim_eq_nil_of_unindent blank, dropBlankEnds_concat_nil]

theorem normalizeDescription_idempotent (t : Text) :
    normalizeDescription (normalizeDescription t) = normalizeDescription t := by
  have inner := isInner_dropBlankEnds (t.lines.map Text.trim)
  have once : normalizeDescription t = Text.joinLines (dropBlankEnds (t.lines.map Text.trim)) := rfl
  generalize dropBlankEnds (t.lines.map Text.trim) = kept at inner once
  -- What is kept are trimmed lines of the text, so they are lines again, with nothing left to trim.
  have trimmed : ∀ l ∈ kept, ∃ raw ∈ t.lines, raw.trim = l := by
    obtain ⟨front, back, split, -⟩ := inner.around
    exact fun l member => List.mem_map.mp (split ▸ by simp [member])
  have unbroken : ∀ l ∈ kept, '\n' ∉ l := by
    intro l member feed
    obtain ⟨raw, line, rfl⟩ := trimmed l member
    exact Text.not_mem_of_mem_lines line (Text.mem_of_mem_trimBy feed)
  have same : kept.map Text.trim = kept := by
    refine (List.map_congr_left fun l member => ?_).trans (List.map_id kept)
    obtain ⟨raw, -, rfl⟩ := trimmed l member
    exact Text.trim_trim raw
  rw [once, normalizeDescription_joinLines unbroken, same, dropBlankEnds_eq_iff.mpr inner.self]

/-- Lines make the same description with line feeds between them, with a line feed behind each of them and
with either line break behind each of them: the trimmed lines without the blank ones at both ends, line feeds
between them. A description that is in this form stays as it is. -/
theorem normalizeDescription_canonical :
    (∀ raws : List Text, (∀ l ∈ raws, '\n' ∉ l) →
      ∃ kept, IsInner kept (raws.map Text.trim) ∧
        normalizeDescription (Text.joinLines raws) = Text.joinLines kept ∧
        normalizeDescription (raws.flatMap (· ++ ['\n'])) = Text.joinLines kept ∧
        ∀ ended : List (Text × Text.LineBreak), ended.map Prod.fst = raws →
          normalizeDescription (Text.closeLines ended) = Text.joinLines kept) ∧
    ∀ t, normalizeDescription (normalizeDescription t) = normalizeDescription t := by
  refine ⟨fun raws unbroken => ?_, normalizeDescription_idempotent⟩
  have closed (ended : List (Text × Text.LineBreak)) (texts : ended.map Prod.fst = raws) :
      normalizeDescription (Text.closeLines ended) =
        Text.joinLines (dropBlankEnds (raws.map Text.trim)) := by
    subst texts
    exact normalizeDescription_closeLines fun line member => unbroken _ (List.mem_map_of_mem member)
  refine ⟨dropBlankEnds (raws.map Text.trim), isInner_dropBlankEnds _,
    normalizeDescription_joinLines unbroken, ?_, closed⟩
  rw [← Text.closeLines_feed]
  exact closed _ (by simp [Function.comp_def])

/-- Lines with carriage returns in them, blank ones inside and at both ends. -/
theorem normalizeDescription_canonical_carriage :
    let raws := ["\r".toList, " a\r".toList, [], "\u00a0b\rc ".toList, "\t".toList]
    let ended : List (Text × Text.LineBreak) :=
      raws.zip [.carriageFeed, .feed, .carriageFeed, .feed, .carriageFeed]
    let normal := "a\n\nb\rc".toList
    (∀ l ∈ raws, '\n' ∉ l) ∧ ended.map Prod.fst = raws ∧
      Text.closeLines ended = "\r\r\n a\r\n\r\n\u00a0b\rc \n\t\r\n".toList ∧
      IsInner ["a".toList, [], "b\rc".toList] (raws.map Text.trim) ∧
      normalizeDescription (Text.joinLines raws) = normal ∧
      normalizeDescription (raws.flatMap (· ++ ['\n'])) = normal ∧
      normalizeDescription (Text.closeLines ended) = normal ∧
      normalizeDescription normal = normal := by
  intro raws ended normal
  have unbroken : ∀ l ∈ raws, '\n' ∉ l := by decide +kernel
  have texts : ended.map Prod.fst = raws := by decide +kernel
  obtain ⟨layout, again⟩ := normalizeDescription_canonical
  obtain ⟨kept, inner, joined, fed, closed⟩ := layout raws unbroken
  obtain rfl : kept = ["a".toList, [], "b\rc".toList] :=
    (dropBlankEnds_eq_iff.mpr inner).symm.trans (by decide +kernel)
  have last : Text.joinLines ["a".toList, [], "b\rc".toList] = normal := by decide +kernel
  rw [last] at joined fed closed
  exact ⟨unbroken, texts, by decide +kernel, inner, joined, fed, closed ended texts,
    joined ▸ again (Text.joinLines raws)⟩

end FeatureFile
