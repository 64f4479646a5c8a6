import Mathlib.Tactic.SplitIfs
/-!
Strings are ordered by their characters, which is the order of their bytes in UTF-8: a smaller character
has the smaller bytes, and no character's bytes begin with those of another.
-/

namespace FeatureFile

/-- The bytes of a string in UTF-8. -/
def bytes (s : String) : List UInt8 :=
  s.toUTF8.data.toList

theorem bytes_eq (s : String) : bytes s = s.toList.flatMap String.utf8EncodeChar := by
  have encoded : s.toByteArray = s.toList.utf8Encode := by
    rw [← String.toByteArray_ofList, String.ofList_toList]
  rw [bytes, String.toUTF8, encoded, List.utf8Encode, List.data_toByteArray]

/-- Two different characters have bytes that differ before either ends, so what follows them does not
matter. -/
theorem encoded_append_lt {c d : Char} (lt : c < d) (cs ds : List UInt8) :
    String.utf8EncodeChar c ++ cs < String.utf8EncodeChar d ++ ds := by
  have smaller : c.val.toNat < d.val.toNat := lt
  have bound : d.val.toNat < 0x110000 := by
    rcases d.valid with low | ⟨_, high⟩
    · exact Nat.lt_trans low (by decide)
    · exact high
  -- Each byte but the first holds six bits.
  have sixBits (v : Nat) : v / 4096 = v / 64 / 64 ∧ v / 262144 = v / 64 / 64 / 64 := by omega
  -- One case for each pair of lengths; the first bytes tell different lengths apart.
  unfold String.utf8EncodeChar
  dsimp only
  split_ifs <;>
    simp only [List.cons_append, List.nil_append, List.cons_lt_cons_iff, UInt8.lt_iff_toNat_lt,
      ← UInt8.toNat_inj, UInt8.toNat_ofNat', sixBits] <;> omega

theorem encoded_lt {cs ds : List Char} (lt : cs < ds) :
    cs.flatMap String.utf8EncodeChar < ds.flatMap String.utf8EncodeChar := by
  induction lt with
  | @nil d ds =>
    rw [List.flatMap_nil, List.flatMap_cons]
    cases first : String.utf8EncodeChar d with
    | nil => exact absurd first String.utf8EncodeChar_ne_nil
    | cons byte others => exact List.nil_lt_cons _ _
  | rel first =>
    rw [List.flatMap_cons, List.flatMap_cons]
    exact encoded_append_lt first _ _
  | cons _ ih =>
    rw [List.flatMap_cons, List.flatMap_cons]
    exact List.append_left_lt ih

theorem lt_iff_bytes_lt {a b : String} : a < b ↔ bytes a < bytes b := by
  rw [String.lt_iff, bytes_eq, bytes_eq]
  refine ⟨encoded_lt, fun lt => Decidable.byContradiction fun not_lt => ?_⟩
  rcases List.le_iff_lt_or_eq.mp (List.not_lt.mp not_lt) with greater | same
  · exact List.lt_asymm lt (encoded_lt greater)
  · exact List.lt_irrefl _ (same ▸ lt)

end FeatureFile
