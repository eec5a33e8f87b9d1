import Libhbk.Base.BigEndian

/-!
# Hexadecimal numbers

`value` reads digits of either letter case, `print n` are the digits of `n` in lower case. Among texts of one length
the value is the text up to letter case: `value_eq_iff`.
-/

namespace Libhbk.Hex

open BigEndian

def digit? (c : Char) : Option Nat := "0123456789abcdef".toList.idxOf? c.toLower

def isDigit (c : Char) : Bool := (digit? c).isSome

def digit (c : Char) : Nat := (digit? c).getD 0

def value (p : List Char) : Nat := ofDigits 16 (p.map digit)

/-- Digits, at least one. -/
structure IsNumber (p : List Char) : Prop where
  ne_nil : p ≠ []
  digits : ∀ c ∈ p, isDigit c

instance (p : List Char) : Decidable (IsNumber p) :=
  decidable_of_iff (p ≠ [] ∧ p.all isDigit = true)
    ⟨fun h => ⟨h.1, List.all_eq_true.mp h.2⟩, fun h => ⟨h.ne_nil, List.all_eq_true.mpr h.digits⟩⟩

def print (n : Nat) : List Char := Nat.toDigits 16 n

variable {p q : List Char} {c d : Char} {n : Nat}

/-! ### Digits -/

theorem digit?_digitChar : ∀ n < 16, digit? n.digitChar = some n := by
  decide

theorem toLower_eq_of_digit? (h : digit? c = some n) : n < 16 ∧ c.toLower = n.digitChar := by
  obtain ⟨hlt, heq, -⟩ := List.idxOf?_eq_some_iff.mp h
  have hall : ∀ i < 16, "0123456789abcdef".toList[i]? = some i.digitChar := by decide
  have hi := hall n hlt
  rw [List.getElem?_eq_getElem hlt, heq, Option.some.injEq] at hi
  exact ⟨hlt, hi⟩

theorem toLower_eq (h : isDigit c) : c.toLower = (digit c).digitChar := by
  obtain ⟨n, hn⟩ := Option.isSome_iff_exists.mp h
  rw [digit, hn]
  exact (toLower_eq_of_digit? hn).2

theorem digit_lt (c : Char) : digit c < 16 := by
  rw [digit]
  cases h : digit? c with
  | none => decide
  | some n => exact (toLower_eq_of_digit? h).1

theorem digit_eq_iff (hc : isDigit c) (hd : isDigit d) : digit c = digit d ↔ c.toLower = d.toLower := by
  constructor
  · intro h
    rw [toLower_eq hc, toLower_eq hd, h]
  · intro h
    rw [digit, digit, digit?, digit?, h]

theorem IsNumber.not_mem (hp : IsNumber p) (hc : isDigit c = false) : c ∉ p := by
  intro hmem
  rw [hp.digits c hmem] at hc
  contradiction

theorem IsNumber.append (hp : IsNumber p) (hq : IsNumber q) : IsNumber (p ++ q) := by
  refine ⟨List.append_ne_nil_of_left_ne_nil hp.ne_nil q, fun c hc => ?_⟩
  rcases List.mem_append.mp hc with h | h
  · exact hp.digits c h
  · exact hq.digits c h

/-! ### Values -/

theorem value_append (p q : List Char) : value (p ++ q) = value p * 16 ^ q.length + value q := by
  rw [value, List.map_append, ofDigits_append, List.length_map, ← value, ← value]

theorem value_lt (p : List Char) : value p < 16 ^ p.length := by
  rw [value, ← List.length_map (f := digit)]
  apply ofDigits_lt (by decide)
  exact List.forall_mem_map.mpr fun c _ => digit_lt c

/-- **Equal values** of texts of one length: the texts are equal up to letter case. -/
theorem value_eq_iff (hlength : p.length = q.length) (hp : ∀ c ∈ p, isDigit c) (hq : ∀ c ∈ q, isDigit c) :
    value p = value q ↔ p.map Char.toLower = q.map Char.toLower := by
  have hdigits : value p = value q ↔ p.map digit = q.map digit := by
    apply ofDigits_injective (by decide)
    · rw [List.length_map, List.length_map, hlength]
    · exact List.forall_mem_map.mpr fun c _ => digit_lt c
    · exact List.forall_mem_map.mpr fun c _ => digit_lt c
  rw [hdigits]
  clear hdigits
  induction p generalizing q with
  | nil =>
    obtain rfl := List.eq_nil_of_length_eq_zero hlength.symm
    exact iff_of_true rfl rfl
  | cons c p ih =>
    obtain ⟨d, q, rfl⟩ := List.exists_cons_of_length_eq_add_one hlength.symm
    obtain ⟨hc, hp⟩ := List.forall_mem_cons.mp hp
    obtain ⟨hd, hq⟩ := List.forall_mem_cons.mp hq
    simp only [List.map_cons, List.cons.injEq]
    exact and_congr (digit_eq_iff hc hd) (ih (Nat.succ.inj hlength) hp hq)

/-! ### Printing -/

theorem isDigit_digitChar {m : Nat} (hm : m < 16) : isDigit m.digitChar := by
  rw [isDigit, digit?_digitChar m hm]
  rfl

theorem value_concat {m : Nat} (p : List Char) (hm : m < 16) : value (p ++ [m.digitChar]) = 16 * value p + m := by
  have hdigit : digit m.digitChar = m := by rw [digit, digit?_digitChar m hm, Option.getD_some]
  rw [value, List.map_append, List.map_singleton, hdigit, ofDigits_concat, value]

theorem isNumber_print (n : Nat) : IsNumber (print n) := by
  refine ⟨Nat.toDigits_ne_nil, ?_⟩
  induction n using Nat.strongRecOn with
  | ind n ih =>
    rw [print, Nat.toDigits_eq_if (by decide), ← print]
    split
    · next hlt =>
      intro c hc
      rw [List.mem_singleton.mp hc]
      exact isDigit_digitChar hlt
    · next hlt =>
      intro c hc
      rcases List.mem_append.mp hc with h | h
      · exact ih (n / 16) (by omega) c h
      · rw [List.mem_singleton.mp h]
        exact isDigit_digitChar (Nat.mod_lt _ (by decide))

@[simp] theorem value_print (n : Nat) : value (print n) = n := by
  induction n using Nat.strongRecOn with
  | ind n ih =>
    rw [print, Nat.toDigits_eq_if (by decide), ← print]
    split
    · next hlt =>
      rw [← List.nil_append [_], value_concat [] hlt]
      exact Nat.zero_add n
    · next hlt =>
      rw [value_concat _ (Nat.mod_lt _ (by decide)), ih (n / 16) (by omega)]
      omega

theorem length_print_le {k : Nat} (hk : 0 < k) : (print n).length ≤ k ↔ n < 16 ^ k :=
  Nat.length_toDigits_le_iff (by decide) hk

end Libhbk.Hex
