import Mathlib.Tactic.SplitIfs
import ScopeGrant.Text.Digit

/-!
# The digits of a number

The decimal digits of a number give its value back and have no zero in front. The characters that
have a value in hexadecimal are the sixteen digits, in either case.
-/

namespace ScopeGrant.Text

/-! ## Decimal digits -/

theorem digitsValue_eq_ofDigitChars (digits : List Char) :
    digitsValue digits = Nat.ofDigitChars 10 digits 0 := by
  simp only [digitsValue, digitValue, Nat.ofDigitChars_eq_foldl, Nat.mul_comm]

@[simp] theorem digitsValue_toDigits (n : Nat) : digitsValue (Nat.toDigits 10 n) = n := by
  rw [digitsValue_eq_ofDigitChars, Nat.ofDigitChars_ten_toDigits]

theorem isDigit_of_mem_toDigits {n : Nat} {c : Char} (h : c ∈ Nat.toDigits 10 n) :
    c.isDigit = true :=
  Nat.isDigit_of_mem_toDigits (by decide) (by decide) h

/-- Only a number that is zero begins with the digit zero. -/
theorem head?_toDigits {n : Nat} (h : 0 < n) : (Nat.toDigits 10 n).head? ≠ some '0' := by
  induction n using Nat.strongRecOn with
  | ind n ih =>
    rcases Nat.lt_or_ge n 10 with hn | hn
    · rw [Nat.toDigits_of_lt_base hn, List.head?_cons, ne_eq, Option.some.injEq]
      exact fun hzero => Nat.ne_of_gt h (Nat.digitChar_eq_zero.1 hzero)
    · have hfront : (Nat.toDigits 10 (n / 10)).head? ≠ some '0' := ih _ (by omega) (by omega)
      obtain ⟨c, digits, hdigits⟩ := List.exists_cons_of_ne_nil (Nat.toDigits_ne_nil (n := n / 10))
      rw [Nat.toDigits_of_base_le (by decide) hn]
      rw [hdigits] at hfront ⊢
      exact hfront

theorem length_toDigits_of_head? {n : Nat} (h : (Nat.toDigits 10 n).head? = some '0') :
    (Nat.toDigits 10 n).length = 1 := by
  rcases Nat.eq_zero_or_pos n with rfl | hn
  · rfl
  · exact absurd h (head?_toDigits hn)

/-- Digits have no sign in front. -/
theorem takeSign_toDigits (n : Nat) :
    takeSign (Nat.toDigits 10 n) = (false, Nat.toDigits 10 n) := by
  have hdigit : ∀ c ∈ Nat.toDigits 10 n, c.isDigit = true := fun _ => isDigit_of_mem_toDigits
  unfold takeSign
  split
  · rename_i rest heq
    exact absurd (hdigit '+' (heq ▸ List.mem_cons_self ..)) (by decide)
  · rename_i rest heq
    exact absurd (hdigit '-' (heq ▸ List.mem_cons_self ..)) (by decide)
  · rfl

theorem natural?_toDigits (n : Nat) : natural? (Nat.toDigits 10 n) = some n := by
  have hall : (Nat.toDigits 10 n).all Char.isDigit = true :=
    List.all_eq_true.2 fun _ => isDigit_of_mem_toDigits
  have hne : (Nat.toDigits 10 n).isEmpty = false :=
    List.isEmpty_eq_false_iff.2 Nat.toDigits_ne_nil
  rw [natural?, hall, hne, digitsValue_toDigits]
  rfl

theorem integer?_toDigits (n : Nat) : integer? (Nat.toDigits 10 n) = some (n : Int) := by
  rw [integer?, takeSign_toDigits]
  simp only [natural?_toDigits]
  rfl

/-! ## Hexadecimal digits -/

/-- The digit of a value in hexadecimal, in lower or upper case. -/
def IsHexDigit (d : Fin 16) (c : Char) : Prop :=
  c = Nat.digitChar d ∨ c = (Nat.digitChar d).toUpper

instance (d : Fin 16) (c : Char) : Decidable (IsHexDigit d c) :=
  inferInstanceAs (Decidable (_ ∨ _))

theorem isHexDigit_digitChar (d : Fin 16) : IsHexDigit d (Nat.digitChar d) :=
  Or.inl rfl

theorem IsHexDigit.hexValue?_eq {d : Fin 16} {c : Char} (h : IsHexDigit d c) :
    hexValue? c = some d.val := by
  rcases h with rfl | rfl
  · decide +revert
  · decide +revert

theorem toNat_lt_of_hexValue? {c : Char} {n : Nat} (h : hexValue? c = some n) : c.toNat < 128 := by
  unfold hexValue? at h
  split_ifs at h with hdigit hlower hupper
  · have hrange : 48 ≤ c.val ∧ c.val ≤ 57 := by simpa [Char.isDigit] using hdigit
    exact Nat.lt_of_le_of_lt hrange.2 (by decide)
  · exact Nat.lt_of_le_of_lt hlower.2 (by decide)
  · exact Nat.lt_of_le_of_lt hupper.2 (by decide)

theorem hexValue?_ofNat (n : Fin 128) :
    hexValue? (Char.ofNat n) = none ∨
      ∃ d : Fin 16, hexValue? (Char.ofNat n) = some d.val ∧ IsHexDigit d (Char.ofNat n) := by
  decide +revert

/-- Nothing but a digit has a value. -/
theorem exists_isHexDigit_of_hexValue? {c : Char} {n : Nat} (h : hexValue? c = some n) :
    ∃ d : Fin 16, d.val = n ∧ IsHexDigit d c := by
  have hascii := hexValue?_ofNat ⟨c.toNat, toNat_lt_of_hexValue? h⟩
  rw [Char.ofNat_toNat, h] at hascii
  simpa [eq_comm] using hascii

end ScopeGrant.Text
