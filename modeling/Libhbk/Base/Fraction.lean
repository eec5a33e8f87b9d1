import Mathlib.Algebra.Order.Ring.Nat

/-!
# Fixed-point fractions

A second has `n` units, or `m` parts of a finer scale. `encode` gives the parts of a number of units, rounded
down; `decode` gives the units of the next part, rounded down again.
-/

namespace Libhbk.Fraction

/-- `r` units in parts. -/
def encode (n m r : Nat) : Nat := r * m / n

/-- The units that end with part `f`. -/
def decode (n m f : Nat) : Nat := (f + 1) * n / m

variable {n m : Nat}

theorem encode_lt (hm : 0 < m) {r : Nat} (hr : r < n) : encode n m r < m := by
  apply Nat.div_lt_of_lt_mul
  exact Nat.mul_lt_mul_of_pos_right hr hm

theorem encode_add_mul (hn : 0 < n) (q r : Nat) : encode n m (q * n + r) = q * m + encode n m r := by
  have hsplit : (q * n + r) * m = r * m + q * m * n := by
    rw [Nat.add_mul, Nat.mul_right_comm, Nat.add_comm]
  rw [encode, hsplit, Nat.add_mul_div_right _ _ hn, Nat.add_comm, encode]

/-- Narrowing to the parts of one second drops the whole seconds. -/
theorem encode_mod (hn : 0 < n) (hm : 0 < m) (r : Nat) : encode n m r % m = encode n m (r % n) := by
  have hr := encode_add_mul (m := m) hn (r / n) (r % n)
  rw [Nat.div_add_mod'] at hr
  rw [hr, Nat.mul_add_mod', Nat.mod_eq_of_lt (encode_lt hm (Nat.mod_lt r hn))]

/-- **Decoding undoes encoding** if the parts are finer than the units. -/
theorem decode_of_encode (hn : 0 < n) (hnm : n < m) (r : Nat) : decode n m (encode n m r) = r := by
  have hdiv := Nat.div_add_mod' (r * m) n
  have hmod := Nat.mod_lt (r * m) hn
  rw [decode, encode]
  apply Nat.div_eq_of_lt_le
  · rw [Nat.add_mul, Nat.one_mul]
    omega
  · rw [Nat.add_mul, Nat.one_mul, Nat.add_mul, Nat.one_mul]
    omega

theorem encode_inj (hn : 0 < n) (hnm : n < m) {r r' : Nat} : encode n m r = encode n m r' ↔ r = r' := by
  constructor
  · intro h
    rw [← decode_of_encode hn hnm r, h, decode_of_encode hn hnm]
  · rintro rfl
    rfl

theorem decode_mono {f g : Nat} (h : f ≤ g) : decode n m f ≤ decode n m g := by
  apply Nat.div_le_div_right
  exact Nat.mul_le_mul_right n (Nat.succ_le_succ h)

theorem decode_lt_iff (hn : 0 < n) (hm : 0 < m) (f : Nat) : decode n m f < n ↔ f + 1 < m := by
  rw [decode, Nat.div_lt_iff_lt_mul hm, Nat.mul_comm n m]
  exact Nat.mul_lt_mul_right hn

theorem decode_div {k : Nat} (hk : 0 < k) (f : Nat) : decode (n * k) m f / k = decode n m f := by
  rw [decode, decode, Nat.div_div_eq_div_mul, ← Nat.mul_assoc, Nat.mul_div_mul_right _ _ hk]

end Libhbk.Fraction
