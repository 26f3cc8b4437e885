import Mathlib.Data.List.Basic
import ReadonlyLint.Edit

/-!
Texts as bytes. The encoding of a character says where the next one starts and keeps the order of
the characters, so texts compare as their bytes do, and the offsets that `isBoundary` accepts are
those at which the bytes before make a text of their own.
-/
namespace ReadonlyLint

/-- The bytes of a text. -/
def utf8Bytes (s : String) : List UInt8 := s.toUTF8.data.toList

theorem utf8Bytes_eq (s : String) : utf8Bytes s = s.toList.flatMap String.utf8EncodeChar := by
  unfold utf8Bytes
  rw [String.toUTF8, ← String.utf8Encode_toList, List.utf8Encode]
  simp

@[simp] theorem length_utf8Bytes (s : String) : (utf8Bytes s).length = s.utf8ByteSize := rfl

/-! ## The order of texts -/

/-- Numbers compare as their quotients and, where these are equal, as their remainders. -/
theorem quotient_or_remainder_lt {v w : Nat} (k : Nat) (h : v < w) :
    v / k < w / k ∨ v / k = w / k ∧ v % k < w % k := by
  rcases Nat.lt_or_eq_of_le (Nat.div_le_div_right (c := k) (Nat.le_of_lt h)) with hlt | heq
  · exact Or.inl hlt
  · refine Or.inr ⟨heq, ?_⟩
    have hv := Nat.div_add_mod v k
    have hw := Nat.div_add_mod w k
    rw [heq] at hv
    omega

theorem toNat_val_lt (c : Char) : c.val.toNat < 0x110000 := by
  have hvalid : c.val.toNat < 0xd800 ∨ 0xdfff < c.val.toNat ∧ c.val.toNat < 0x110000 := c.valid
  omega

/-- The encodings of two characters differ at some byte as the characters do, whatever follows. -/
theorem utf8EncodeChar_append_lt {c d : Char} (h : c < d) (l m : List UInt8) :
    String.utf8EncodeChar c ++ l < String.utf8EncodeChar d ++ m := by
  have hlt : c.val.toNat < d.val.toNat := h
  have hmax := toNat_val_lt d
  unfold String.utf8EncodeChar
  dsimp only
  generalize c.val.toNat = v at *
  generalize d.val.toNat = w at *
  -- the bytes after the first hold six bits each, so the places count by powers of 64
  have hlast := quotient_or_remainder_lt 64 hlt
  have hthird : v / 64 < w / 64 →
      v / 4096 < w / 4096 ∨ v / 4096 = w / 4096 ∧ v / 64 % 64 < w / 64 % 64 := by
    intro hq
    simpa [Nat.div_div_eq_div_mul] using quotient_or_remainder_lt 64 hq
  have hsecond : v / 4096 < w / 4096 →
      v / 262144 < w / 262144 ∨ v / 262144 = w / 262144 ∧ v / 4096 % 64 < w / 4096 % 64 := by
    intro hq
    simpa [Nat.div_div_eq_div_mul] using quotient_or_remainder_lt 64 hq
  split_ifs
  all_goals
    simp only [List.cons_append, List.nil_append, List.cons_lt_cons_iff, UInt8.lt_iff_toNat_lt,
      ← UInt8.toNat_inj, UInt8.toNat_ofNat']
    simp (disch := omega) only [Nat.mod_eq_of_lt]
    omega

theorem flatMap_utf8EncodeChar_lt {l m : List Char} (h : l < m) :
    l.flatMap String.utf8EncodeChar < m.flatMap String.utf8EncodeChar := by
  induction h with
  | @nil d m =>
    rw [List.flatMap_cons]
    rcases hd : String.utf8EncodeChar d with _ | ⟨x, xs⟩
    · exact absurd hd String.utf8EncodeChar_ne_nil
    · exact List.nil_lt_cons _ _
  | rel hlt =>
    rw [List.flatMap_cons, List.flatMap_cons]
    exact utf8EncodeChar_append_lt hlt _ _
  | cons _ ih =>
    rw [List.flatMap_cons, List.flatMap_cons]
    exact List.append_left_lt ih

/-- Texts compare as their bytes do. -/
theorem utf8Bytes_le_iff {a b : String} : utf8Bytes a ≤ utf8Bytes b ↔ a ≤ b := by
  have hlt : ∀ {a b : String}, a < b → utf8Bytes a < utf8Bytes b := by
    intro a b h
    rw [utf8Bytes_eq, utf8Bytes_eq]
    exact flatMap_utf8EncodeChar_lt h
  constructor
  · intro h hba
    exact h (hlt hba)
  · intro h hba
    by_cases hab : a < b
    · exact List.lt_asymm hba (hlt hab)
    · cases String.le_antisymm h hab
      exact List.lt_irrefl _ hba

/-! ## The boundaries of characters -/

/-- The offsets of boundaries are the positions of the text. -/
theorem isBoundary_iff {n : Nat} {cs : List Char} :
    isBoundary n cs = true ↔ String.Pos.Raw.IsValid (String.ofList cs) ⟨n⟩ := by
  induction cs generalizing n with
  | nil =>
    cases n with
    | zero => simp [isBoundary]
    | succ n => simp [isBoundary, String.Pos.Raw.ext_iff]
  | cons c cs ih =>
    cases n with
    | zero => simp [isBoundary]
    | succ n =>
      have hsplit : String.ofList (c :: cs) = String.singleton c ++ String.ofList cs := by
        rw [String.singleton_eq_ofList, ← String.ofList_append]
        rfl
      have hsub : (⟨n + 1⟩ : String.Pos.Raw) - String.singleton c = ⟨n + 1 - c.utf8Size⟩ := by
        simp [String.Pos.Raw.ext_iff]
      rw [hsplit, String.Pos.Raw.isValid_append, isBoundary, Bool.and_eq_true, ih, hsub]
      simp only [decide_eq_true_eq, String.Pos.Raw.isValid_singleton, String.Pos.Raw.ext_iff,
        String.Pos.Raw.le_iff, String.byteIdx_rawEndPos, String.utf8ByteSize_singleton,
        String.Pos.Raw.byteIdx_zero, Nat.add_eq_zero_iff, Nat.one_ne_zero, and_false, false_or]
      constructor
      · exact Or.inr
      · rintro (hsize | h)
        · -- the offset is the end of the first character, where the rest of the text starts
          refine ⟨Nat.le_of_eq hsize.symm, ?_⟩
          rw [hsize, Nat.sub_self]
          exact String.Pos.Raw.isValid_zero
        · exact h

theorem isBoundary_toList_iff {n : Nat} {s : String} :
    isBoundary n s.toList = true ↔ String.Pos.Raw.IsValid s ⟨n⟩ := by
  rw [isBoundary_iff, String.ofList_toList]

end ReadonlyLint
