import Mathlib.Data.List.Basic
import Mathlib.Tactic.SplitIfs
/-!
# ByteOrder — texts are ordered as their bytes

Texts are compared by the code points of their characters.  A character of a larger code point is encoded by larger
bytes, and the first of these that differ decide, whatever follows (`utf8EncodeChar_append_lt`); so the order of texts
is that of their bytes (`lt_iff_bytes_lt`).
-/
namespace FileGraph.Text

/-! ## Digits -/

/-- Of a larger number the quotient is larger, or the same with a larger remainder. -/
theorem digit_lt {v w : Nat} (h : v < w) (k : Nat) : v / k < w / k ∨ v / k = w / k ∧ v % k < w % k := by
  rcases Nat.lt_or_eq_of_le (Nat.div_le_div_right (c := k) (Nat.le_of_lt h)) with hlt | heq
  · exact .inl hlt
  · have hv := Nat.div_add_mod v k
    have hw := Nat.div_add_mod w k
    rw [heq] at hv
    exact .inr ⟨heq, by omega⟩

/-- The digits of code points, in the widths of an encoding in four bytes. -/
theorem digits_lt {v w : Nat} (h : v < w) (hw : w < 0x110000) :
    v / 262144 % 8 < w / 262144 % 8 ∨ v / 262144 % 8 = w / 262144 % 8 ∧ (v / 4096 % 64 < w / 4096 % 64 ∨
      v / 4096 % 64 = w / 4096 % 64 ∧ (v / 64 % 64 < w / 64 % 64 ∨ v / 64 % 64 = w / 64 % 64 ∧ v % 64 < w % 64)) := by
  rcases digit_lt h 64 with h1 | ⟨h1, h1'⟩
  · rcases digit_lt h1 64 with h2 | ⟨h2, h2'⟩
    · rcases digit_lt h2 64 with h3 | ⟨h3, h3'⟩
      · omega
      · omega
    · omega
  · omega

/-! ## Characters -/

theorem ofNat_lt_iff {a b : Nat} (ha : a < 256) (hb : b < 256) : UInt8.ofNat a < UInt8.ofNat b ↔ a < b := by
  rw [UInt8.lt_iff_toNat_lt, UInt8.toNat_ofNat', UInt8.toNat_ofNat', Nat.mod_eq_of_lt ha, Nat.mod_eq_of_lt hb]

theorem ofNat_inj_iff {a b : Nat} (ha : a < 256) (hb : b < 256) : UInt8.ofNat a = UInt8.ofNat b ↔ a = b := by
  rw [← UInt8.toNat_inj, UInt8.toNat_ofNat', UInt8.toNat_ofNat', Nat.mod_eq_of_lt ha, Nat.mod_eq_of_lt hb]

/-- **A larger character has larger bytes**, and these decide whatever follows. -/
theorem utf8EncodeChar_append_lt {c d : Char} (h : c < d) (xs ys : List UInt8) :
    String.utf8EncodeChar c ++ xs < String.utf8EncodeChar d ++ ys := by
  have hlt : c.val.toNat < d.val.toNat := h
  have hd : d.val.toNat < 0x110000 := by
    rcases d.valid with hlow | ⟨-, hhigh⟩
    · omega
    · exact hhigh
  have hdigits := digits_lt hlt hd
  unfold String.utf8EncodeChar
  generalize c.val.toNat = v at *
  generalize d.val.toNat = w at *
  dsimp only
  rcases Nat.lt_or_ge 65535 v with hfour | hfew
  · -- both take four bytes, the digits of the code points with a mark in each
    rw [if_neg (by omega), if_neg (by omega), if_neg (by omega), if_neg (by omega), if_neg (by omega),
      if_neg (by omega)]
    simp (disch := omega) only [List.cons_append, List.cons_lt_cons_iff, ofNat_lt_iff, ofNat_inj_iff]
    rcases hdigits with h | ⟨h1, h | ⟨h2, h | ⟨h3, h⟩⟩⟩ <;> omega
  · split_ifs <;>
      simp (disch := omega) only [List.cons_append, List.nil_append, List.cons_lt_cons_iff, ofNat_lt_iff,
        ofNat_inj_iff] <;>
      omega

/-! ## Texts -/

theorem append_lt_append_left {xs ys : List UInt8} (h : xs < ys) : ∀ (zs : List UInt8), zs ++ xs < zs ++ ys
  | [] => h
  | _ :: zs => List.cons_lt_cons_iff.2 (.inr ⟨rfl, append_lt_append_left h zs⟩)

theorem utf8EncodeChar_ne_nil (c : Char) : String.utf8EncodeChar c ≠ [] := by
  unfold String.utf8EncodeChar
  dsimp only
  split_ifs <;> exact List.cons_ne_nil _ _

theorem flatMap_utf8EncodeChar_lt : ∀ {cs ds : List Char}, cs < ds →
    cs.flatMap String.utf8EncodeChar < ds.flatMap String.utf8EncodeChar
  | _, [], h => absurd h (List.not_lt_nil _)
  | [], d :: ds, _ => by
    obtain ⟨b, bs, hb⟩ := List.exists_cons_of_ne_nil (utf8EncodeChar_ne_nil d)
    rw [List.flatMap_cons, hb]
    exact List.nil_lt_cons _ _
  | c :: cs, d :: ds, h => by
    rw [List.flatMap_cons, List.flatMap_cons]
    rcases List.cons_lt_cons_iff.1 h with hlt | ⟨rfl, hrest⟩
    · exact utf8EncodeChar_append_lt hlt _ _
    · exact append_lt_append_left (flatMap_utf8EncodeChar_lt hrest) _

/-- The bytes of a text. -/
def bytes (s : String) : List UInt8 := s.toUTF8.data.toList

theorem bytes_eq (s : String) : bytes s = s.toList.flatMap String.utf8EncodeChar := by
  have hbytes : s.toByteArray = s.toList.utf8Encode := by
    rw [← String.toByteArray_ofList, String.ofList_toList]
  rw [bytes, String.toUTF8_eq_toByteArray, hbytes, List.utf8Encode]
  simp

/-- **Texts are ordered as their bytes.** -/
theorem lt_iff_bytes_lt {s t : String} : s < t ↔ bytes s < bytes t := by
  have hlt : ∀ {s t : String}, s < t → bytes s < bytes t := by
    intro s t h
    rw [bytes_eq, bytes_eq]
    exact flatMap_utf8EncodeChar_lt h
  refine ⟨hlt, fun h => ?_⟩
  -- the order of texts is total, and no other order of the two fits that of the bytes
  refine Decidable.byContradiction fun hno => ?_
  by_cases heq : s = t
  · exact List.lt_irrefl _ (heq ▸ h)
  · have hts : t < s := Decidable.byContradiction fun hno' => heq (String.le_antisymm hno' hno)
    exact List.lt_asymm h (hlt hts)

end FileGraph.Text
