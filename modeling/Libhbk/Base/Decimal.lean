import Mathlib.Algebra.Group.Nat.Defs
import Mathlib.Data.List.Induction

/-!
# Decimal numbers

`print n` are the digits of `n`, `value` reads digits back. Printed numbers are exactly the numbers without leading
zeros: `eq_print_iff`.
-/

namespace Libhbk.Decimal

/-- Digits, at least one. -/
structure IsNumber (p : List Char) : Prop where
  ne_nil : p ≠ []
  digits : ∀ c ∈ p, c.isDigit

def value (p : List Char) : Nat := Nat.ofDigitChars 10 p 0

/-- A zero in front is the only digit. -/
def NoLeadingZero (p : List Char) : Prop := p.head? = some '0' → p = ['0']

def print (n : Nat) : List Char := Nat.toDigits 10 n

instance (p : List Char) : Decidable (IsNumber p) :=
  decidable_of_iff (p ≠ [] ∧ p.all Char.isDigit = true)
    ⟨fun h => ⟨h.1, List.all_eq_true.mp h.2⟩, fun h => ⟨h.ne_nil, List.all_eq_true.mpr h.digits⟩⟩

instance (p : List Char) : Decidable (NoLeadingZero p) :=
  inferInstanceAs (Decidable (_ → _))

variable {p : List Char} {n : Nat}

theorem isNumber_print (n : Nat) : IsNumber (print n) :=
  ⟨Nat.toDigits_ne_nil, fun _ hc => Nat.isDigit_of_mem_toDigits (by decide) (by decide) hc⟩

@[simp] theorem value_print (n : Nat) : value (print n) = n := Nat.ofDigitChars_ten_toDigits

theorem exists_digitChar {c : Char} (h : c.isDigit) : ∃ d < 10, c = d.digitChar := by
  have hrange : 48 ≤ c.toNat ∧ c.toNat ≤ 57 := Char.isDigit_iff_toNat.mp h
  refine ⟨c.toNat - 48, by omega, ?_⟩
  rw [← Char.toNat_inj, Nat.toNat_digitChar_of_lt_ten (by omega)]
  omega

theorem value_concat (p : List Char) {d : Nat} (hd : d < 10) : value (p ++ [d.digitChar]) = 10 * value p + d := by
  rw [value, Nat.ofDigitChars_append, Nat.ofDigitChars_cons_digitChar_of_lt_ten hd, Nat.ofDigitChars_nil, value]

theorem value_pos (hp : IsNumber p) (hzero : p.head? ≠ some '0') : 0 < value p := by
  cases p with
  | nil => exact absurd rfl hp.ne_nil
  | cons c p =>
    obtain ⟨d, hd, rfl⟩ := exists_digitChar (hp.digits c List.mem_cons_self)
    have hpos : 0 < d := by
      apply Nat.pos_of_ne_zero
      rintro rfl
      exact hzero rfl
    rw [value, Nat.ofDigitChars_cons_digitChar_of_lt_ten hd, Nat.ofDigitChars_eq_ofDigitChars_zero]
    apply Nat.add_pos_left
    exact Nat.mul_pos (Nat.pow_pos (by decide)) (by omega)

theorem noLeadingZero_print (n : Nat) : NoLeadingZero (print n) := by
  induction n using Nat.strongRecOn with
  | ind n ih =>
    rw [print, Nat.toDigits_eq_if (by decide), ← print]
    split
    · intro hzero
      rw [List.head?_cons, Option.some.injEq] at hzero
      rw [hzero]
    · next hlt =>
      intro hzero
      rw [List.head?_append, Option.or_of_isSome (List.isSome_head?.mpr (isNumber_print _).ne_nil)] at hzero
      have hquot := congrArg value (ih (n / 10) (by omega) hzero)
      rw [value_print] at hquot
      have hsingle : value ['0'] = 0 := by decide
      omega

theorem print_value (hp : IsNumber p) (hzero : NoLeadingZero p) : print (value p) = p := by
  induction p using List.reverseRecOn with
  | nil => exact absurd rfl hp.ne_nil
  | append_singleton p c ih =>
    obtain ⟨d, hd, rfl⟩ := exists_digitChar (hp.digits c (by simp))
    rw [value_concat p hd]
    by_cases hnil : p = []
    · subst hnil
      have hnone : value [] = 0 := Nat.ofDigitChars_nil
      rw [hnone, Nat.mul_zero, Nat.zero_add]
      exact Nat.toDigits_of_lt_base hd
    · have hhead : p.head? ≠ some '0' := by
        intro h
        have hsingle := hzero (by rw [List.head?_append, h]; rfl)
        have hlength := congrArg List.length hsingle
        rw [List.length_append, List.length_singleton, List.length_singleton] at hlength
        exact hnil (List.eq_nil_of_length_eq_zero (by omega))
      have hp' : IsNumber p := ⟨hnil, fun c hc => hp.digits c (List.mem_append_left _ hc)⟩
      rw [print, ← Nat.toDigits_append_toDigits (by decide) (value_pos hp' hhead) hd, ← print,
        ih hp' fun h => absurd h hhead, Nat.toDigits_of_lt_base hd]

/-- **Printed numbers** are the numbers without leading zeros. -/
theorem eq_print_iff : p = print n ↔ IsNumber p ∧ NoLeadingZero p ∧ value p = n := by
  constructor
  · rintro rfl
    exact ⟨isNumber_print n, noLeadingZero_print n, value_print n⟩
  · rintro ⟨hp, hzero, rfl⟩
    exact (print_value hp hzero).symm

theorem print_injective : Function.Injective print :=
  Function.LeftInverse.injective value_print

theorem length_print_le {k : Nat} (hk : 0 < k) : (print n).length ≤ k ↔ n < 10 ^ k :=
  Nat.length_toDigits_le_iff (by decide) hk

theorem IsNumber.not_mem {c : Char} (hp : IsNumber p) (hc : c.isDigit = false) : c ∉ p := by
  intro hmem
  rw [hp.digits c hmem] at hc
  contradiction

end Libhbk.Decimal
