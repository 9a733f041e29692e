import Mathlib.Data.List.Lex
import Mathlib.Data.String.Basic

/-!
# The order of texts is that of their bytes

Texts are ordered character by character, by code point. Their encodings in UTF-8 stand in the same
order byte by byte (`lt_iff_utf8_lt`), because of two characters the one with the greater code point
has the greater byte at the first place where their encodings differ.
-/

namespace ScopeGrant.Text

/-- The bytes of a text in UTF-8. -/
def utf8 (s : String) : List UInt8 :=
  s.toUTF8.data.toList

theorem utf8_eq_flatMap (s : String) : utf8 s = s.toList.flatMap String.utf8EncodeChar := by
  rw [utf8, String.toUTF8_eq_toByteArray, ← String.utf8Encode_toList, List.utf8Encode,
    List.toList_data_toByteArray]

theorem toNat_val_lt (c : Char) : c.val.toNat < 1114112 := by
  rcases c.valid with h | h
  · exact Nat.lt_trans h (by decide)
  · exact h.2

theorem cons_ofNat_lt_cons_iff {x y : Nat} (hx : x < 256) (hy : y < 256) {xs ys : List UInt8} :
    UInt8.ofNat x :: xs < UInt8.ofNat y :: ys ↔ x < y ∨ (x = y ∧ xs < ys) := by
  rw [List.cons_lt_cons_iff, UInt8.lt_iff_toNat_lt, ← UInt8.toNat_inj, UInt8.toNat_ofNat',
    UInt8.toNat_ofNat', Nat.mod_eq_of_lt hx, Nat.mod_eq_of_lt hy]

/-- Of two characters the one with the greater code point has the greater encoding, whatever
follows. -/
theorem utf8EncodeChar_append_lt {c d : Char} (h : c < d) (xs ys : List UInt8) :
    String.utf8EncodeChar c ++ xs < String.utf8EncodeChar d ++ ys := by
  have hval : c.val.toNat < d.val.toNat := h
  have hbound := toNat_val_lt d
  unfold String.utf8EncodeChar
  dsimp only
  generalize c.val.toNat = n at hval
  generalize d.val.toNat = m at hval hbound
  -- the first of the digits, to the base of continuation bytes, in which the code points differ
  have hdigit : n / 262144 < m / 262144 ∨ (n / 262144 = m / 262144 ∧ n / 4096 < m / 4096) ∨
      (n / 4096 = m / 4096 ∧ n / 64 < m / 64) ∨ (n / 64 = m / 64 ∧ n % 64 < m % 64) := by
    omega
  split_ifs <;>
    simp (disch := omega) only [List.cons_append, List.nil_append, cons_ofNat_lt_cons_iff] <;>
    rcases hdigit with h | h | h | h <;> omega

theorem flatMap_utf8EncodeChar_lt {cs ds : List Char} (h : cs < ds) :
    cs.flatMap String.utf8EncodeChar < ds.flatMap String.utf8EncodeChar := by
  induction cs generalizing ds with
  | nil =>
    cases ds with
    | nil => exact absurd h (List.lt_irrefl [])
    | cons d ds =>
      obtain ⟨x, xs, hx⟩ := List.exists_cons_of_ne_nil (String.utf8EncodeChar_ne_nil (c := d))
      rw [List.flatMap_cons, hx, List.cons_append]
      exact List.nil_lt_cons x _
  | cons c cs ih =>
    cases ds with
    | nil => exact absurd h (List.not_lt_nil _)
    | cons d ds =>
      rw [List.flatMap_cons, List.flatMap_cons]
      rcases List.cons_lt_cons_iff.1 h with hchar | ⟨rfl, hrest⟩
      · exact utf8EncodeChar_append_lt hchar _ _
      · exact List.append_left_lt (ih hrest)

/-- Texts stand in the order of their bytes. -/
theorem lt_iff_utf8_lt {a b : String} : a < b ↔ utf8 a < utf8 b := by
  have hlt : ∀ {a b : String}, a < b → utf8 a < utf8 b := by
    intro a b h
    rw [utf8_eq_flatMap, utf8_eq_flatMap]
    exact flatMap_utf8EncodeChar_lt h
  constructor
  · exact hlt
  · intro h
    rcases lt_trichotomy a b with hless | rfl | hmore
    · exact hless
    · exact absurd h (List.lt_irrefl _)
    · exact absurd h (List.lt_asymm (hlt hmore))

theorem le_iff_utf8_le {a b : String} : a ≤ b ↔ utf8 a ≤ utf8 b := by
  rw [← not_lt, lt_iff_utf8_lt, List.not_lt]

end ScopeGrant.Text
