import FeatureFile.Proofs.Document.Delivery
import FeatureFile.Proofs.Line.Owners
/-!
Documents without a feature. Where every event is taken and there is no tree, there are only comments:
without a feature nothing but a tag could be taken besides, and no tag may be left at the end. So the
line reader finds no tree exactly where each line is blank or a comment.
-/

namespace FeatureFile

open Vocabulary (ofLanguage)

/-! ### Lines that belong to no node -/

namespace Text

/-- Spaces and tabs only, or a `#` behind them. -/
def IsIgnorable (raw : Text) : Prop :=
  (∀ c ∈ raw, c = ' ' ∨ c = '\t') ∨
    ∃ w rest, raw = w ++ '#' :: rest ∧ ∀ c ∈ w, c = ' ' ∨ c = '\t'

theorem isIgnorable_iff {raw : Text} :
    raw.IsIgnorable ↔ raw.unindent = [] ∨ raw.unindent.head? = some '#' := by
  have blank (t : Text) : (∀ c ∈ t, c = ' ' ∨ c = '\t') ↔ ∀ c ∈ t, isBlankChar c = true := by
    simp [isBlankChar]
  rw [IsIgnorable, blank, unindent_eq_nil_iff, List.all_eq_true]
  refine or_congr_right ⟨?_, fun mark => ?_⟩
  · rintro ⟨w, rest, rfl, indentation⟩
    rw [unindent_append ((blank w).mp indentation)]
    rfl
  · obtain ⟨rest, split⟩ := List.head?_eq_some_iff.mp mark
    refine ⟨raw.takeWhile isBlankChar, rest, ?_, (blank _).mpr fun c => List.mem_takeWhile_imp⟩
    rw [← split, indentation_append_unindent]

instance (raw : Text) : Decidable raw.IsIgnorable :=
  decidable_of_iff _ isIgnorable_iff.symm

/-- Any other first character is that of a line which belongs to something. -/
theorem not_isIgnorable {raw rest : Text} {x : Char} (first : raw.unindent = x :: rest)
    (other : x ≠ '#') : ¬ raw.IsIgnorable := by
  simp [isIgnorable_iff, first, other]

end Text

theorem Unmarked.not_isIgnorable {raw : Text} (unmarked : Unmarked raw) (visible : raw.unindent ≠ []) :
    ¬ raw.IsIgnorable := by
  simp [Text.isIgnorable_iff, visible, unmarked.mark]

/-! ### Events without a feature among them -/

/-- Whether the event is a comment. -/
def Event.isComment : Event → Bool
  | comment _ _ => true
  | _ => false

namespace Assembly

/-- There is no feature as long as the document stands at its start. -/
theorem Sound.feature_eq_none_iff {a : Assembly} (sound : a.Sound) :
    a.feature = none ↔ a.control = .start := by
  cases sound <;> simp [control]

/-- Comments are taken anywhere. -/
theorem Takes.comments {events : List Event} (comments : ∀ event ∈ events, event.isComment = true)
    (p : Stage) : Takes p events p := by
  induction events with
  | nil => exact .nil p
  | cons event events ih =>
    obtain ⟨first, others⟩ := List.forall_mem_cons.mp comments
    cases event with
    | comment text line => exact (Takes.comment p text line).append (ih others)
    | _ => cases first

/-- Where all events are taken and there is no feature at the end, there were only comments. -/
theorem comments_of_deliver {body : List Event} {line : Nat} {last : Assembly}
    (inside : ∀ event ∈ body, event.isEnd = false)
    (delivered : deliver listen start (body ++ [.endOfInput line]) = (last, none))
    (nothing : last.feature = none) : ∀ event ∈ body, event.isComment = true := by
  obtain ⟨a, taken, ends⟩ := deliver_append_iff.mp delivered
  obtain ⟨accepted, rfl⟩ := accepted_each_of_deliver taken
  have holds := holds_start.run (sound_start _) inside accepted
  rw [List.nil_append] at holds
  generalize start.afterEach body = a at holds ends
  have closed := accepted_of_deliver ends
  have absent : a.feature = none := by
    by_contra present
    obtain ⟨f, present⟩ := Option.ne_none_iff_exists'.mp present
    obtain ⟨-, final⟩ := accept_end present (by rw [closed]; rfl)
    rw [closed, Outcome.after, nothing] at final
    cases final
  have untagged : a.tags = [] := by
    by_contra waiting
    simp [accept, acceptEnd, waiting] at closed
  have unlisted : body.filter Event.isListed = [] := by
    simpa [contents, absent] using holds.contents.symm
  have noTag : body.filterMap Event.tag? = [] := by
    rw [← Event.headingsFrom_tags, ← holds.headings, ← holds.tags, untagged]
    simp [headings, absent]
  intro event member
  have notListed := List.filter_eq_nil_iff.mp unlisted event member
  have notTag := List.filterMap_eq_nil_iff.mp noTag event member
  have notEnd := inside event member
  cases event <;> simp_all [Event.isListed, Event.tag?, Event.isEnd, Event.isComment]

end Assembly

namespace Reading

/-- What is taken from the start of a document up to a state in which the document may end gives the tree
of an assembly in that state. -/
theorem exists_tree_of_takes {events : List Event} {s : Control → Prop}
    (final : ∀ control, s control → control.final)
    (taken : Assembly.Takes (Stage.untagged (· = .start)) events (Stage.untagged s)) (line : Nat) :
    ∃ last : Assembly, last.Sound ∧ s last.control ∧
      tree ⟨events ++ [.endOfInput line], none⟩ = .ok last.feature := by
  obtain ⟨last, delivered, sound, reached, -⟩ :=
    (taken.append (.endOfInput final line)) .start (Assembly.sound_start _) ⟨rfl, rfl⟩
  exact ⟨last, sound, reached, tree_eq_ok_iff.mpr ⟨rfl, last, delivered, rfl⟩⟩

/-- A reading without a fault has no tree exactly where it has only comments. -/
theorem tree_eq_none_iff {body : List Event} {line : Nat}
    (inside : ∀ event ∈ body, event.isEnd = false) :
    tree ⟨body ++ [.endOfInput line], none⟩ = .ok none ↔ ∀ event ∈ body, event.isComment = true := by
  constructor
  · intro made
    obtain ⟨-, last, delivered, nothing⟩ := tree_eq_ok_iff.mp made
    exact Assembly.comments_of_deliver inside delivered nothing
  · intro comments
    obtain ⟨last, sound, start, made⟩ :=
      exists_tree_of_takes (fun _ start => .inl start) (Assembly.Takes.comments comments _) line
    rw [made, sound.feature_eq_none_iff.mpr start]

end Reading

/-! ### Lines -/

namespace Accounts

variable {language : Language} {n : Nat} {raws : List Text} {events : List Event}

/-- Every line that is neither blank nor a comment is on the account of another event. -/
theorem comments_iff (accounts : Accounts language n raws events) :
    (∀ event ∈ events, event.isComment = true) ↔ ∀ raw ∈ raws, raw.IsIgnorable := by
  induction accounts with
  | nil => simp
  | blank nothing _ ih => simp [ih, Text.isIgnorable_iff.mpr (.inl nothing)]
  | comment mark _ ih =>
    have ignorable := Text.isIgnorable_iff.mpr (.inr (congrArg List.head? mark))
    rw [List.forall_mem_cons, List.forall_mem_cons, ih]
    exact and_congr_left fun _ => iff_of_true rfl ignorable
  | row mark => simp [Event.isComment, Text.not_isIgnorable mark (by decide)]
  | docString opens =>
    obtain ⟨rest, split, -⟩ := opens.unindent
    have first : _ = '"' :: ('"' :: '"' :: rest) := split
    simp [Event.isComment, Text.not_isIgnorable first (by decide)]
  | @tags n raw rest tags raws events mark _ _ whole =>
    have some : tags ≠ [] := by
      rintro rfl
      rw [← Text.filter_unindent, mark] at whole
      simp [Text.isBlankChar] at whole
    obtain ⟨first, others, rfl⟩ := List.exists_cons_of_ne_nil some
    simp [Event.isComment, Text.not_isIgnorable mark (by decide)]
  | step is =>
    have visible := is.unmarked.not_isIgnorable (by simp [is.split, is.present])
    simp [Event.isComment, visible]
  | header is =>
    have visible := is.unmarked.not_isIgnorable (by simp [is.opens.2.2])
    simp [Event.isComment, visible]

/-- Blank lines and comments are accounted for. -/
theorem exists_of_isIgnorable (language : Language) (ignorable : ∀ raw ∈ raws, raw.IsIgnorable)
    (n : Nat) :
    ∃ events, Accounts language n raws events := by
  induction raws generalizing n with
  | nil => exact ⟨[], .nil⟩
  | cons raw raws ih =>
    obtain ⟨first, others⟩ := List.forall_mem_cons.mp ignorable
    obtain ⟨events, accounts⟩ := ih others (n + 1)
    rcases Text.isIgnorable_iff.mp first with blank | mark
    · exact ⟨_, .blank blank accounts⟩
    · obtain ⟨rest, split⟩ := List.head?_eq_some_iff.mp mark
      exact ⟨_, .comment split accounts⟩

end Accounts

/-- The line reader finds no tree where every line is blank or a comment, and nowhere else. -/
theorem Vocabulary.tree_read_eq_none_iff (language : Language) (source : Text) :
    ((ofLanguage language).read source).tree = .ok none ↔ ∀ raw ∈ source.lines, raw.IsIgnorable := by
  constructor
  · intro made
    obtain ⟨body, read, accounts⟩ := Accounts.exists_of_tree made
    rw [read, Reading.tree_eq_none_iff (ordered_of_read read).1] at made
    exact accounts.comments_iff.mp made
  · intro ignorable
    obtain ⟨events, accounts⟩ := Accounts.exists_of_isIgnorable language ignorable 1
    have read : (ofLanguage language).read source = ⟨events ++ [.endOfInput _], none⟩ :=
      Accounts.readFrom_iff.mpr ⟨events, rfl, accounts⟩
    rw [read, Reading.tree_eq_none_iff (ordered_of_read read).1]
    exact accounts.comments_iff.mpr ignorable

end FeatureFile
