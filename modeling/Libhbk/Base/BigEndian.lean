import Mathlib.Data.Nat.Digits.Defs

/-!
# Numbers from digits, the uppermost first

`ofDigits b` reads digits in base `b` as a loop over them does. `Nat.ofDigits` reads the lowest one first.
-/

namespace Libhbk.BigEndian

def ofDigits (b : Nat) (l : List Nat) : Nat := l.foldl (fun n d => b * n + d) 0

variable {b : Nat} {l m : List Nat}

theorem ofDigits_eq (b : Nat) (l : List Nat) : ofDigits b l = Nat.ofDigits b l.reverse := by
  rw [Nat.ofDigits_eq_foldr, List.foldr_reverse, ofDigits]
  congr 1
  funext n d
  exact Nat.add_comm _ _

theorem ofDigits_append (b : Nat) (l m : List Nat) :
    ofDigits b (l ++ m) = ofDigits b l * b ^ m.length + ofDigits b m := by
  simp only [ofDigits_eq, List.reverse_append, Nat.ofDigits_append, List.length_reverse]
  rw [Nat.add_comm, Nat.mul_comm]

theorem ofDigits_concat (b : Nat) (l : List Nat) (d : Nat) : ofDigits b (l ++ [d]) = b * ofDigits b l + d := by
  rw [ofDigits, List.foldl_append, ← ofDigits, List.foldl_cons, List.foldl_nil]

theorem ofDigits_lt (hb : 1 < b) (hl : ∀ d ∈ l, d < b) : ofDigits b l < b ^ l.length := by
  rw [ofDigits_eq, ← List.length_reverse]
  apply Nat.ofDigits_lt_base_pow_length hb
  intro d hd
  exact hl d (List.mem_reverse.mp hd)

theorem ofDigits_injective (hb : 1 < b) (hlength : l.length = m.length) (hl : ∀ d ∈ l, d < b) (hm : ∀ d ∈ m, d < b) :
    ofDigits b l = ofDigits b m ↔ l = m := by
  constructor
  · intro h
    rw [ofDigits_eq, ofDigits_eq] at h
    rw [← List.reverse_inj]
    apply Nat.ofDigits_inj_of_len_eq hb ?_ ?_ ?_ h
    · rw [List.length_reverse, List.length_reverse, hlength]
    · exact fun d hd => hl d (List.mem_reverse.mp hd)
    · exact fun d hd => hm d (List.mem_reverse.mp hd)
  · exact congrArg (ofDigits b)

end Libhbk.BigEndian
