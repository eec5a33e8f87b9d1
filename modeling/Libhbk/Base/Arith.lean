import Mathlib.Algebra.Group.Int.Defs
import Mathlib.Algebra.Group.Nat.Defs

/-!
# Machine integers

A `size_t` is a natural number below `2 ^ 64`; the conversions to signed types wrap around.
-/

namespace Libhbk

/-- `size_t` subtraction. -/
def sizeSub (a b : Nat) : Nat := (a + 2 ^ 64 - b) % 2 ^ 64

theorem sizeSub_of_le {a b : Nat} (h : b ≤ a) (ha : a < 2 ^ 64) : sizeSub a b = a - b := by
  unfold sizeSub
  omega

/-- `static_cast<int>` of a `size_t`. -/
def castInt (n : Nat) : Int := Int.bmod n (2 ^ 32)

theorem castInt_le (n : Nat) : castInt n ≤ n := by
  have hmod : (n : Int) % (2 ^ 32 : Nat) ≤ n := by omega
  unfold castInt
  simp only [Int.bmod]
  split <;> omega

theorem castInt_of_lt {n : Nat} (h : n < 2 ^ 31) : castInt n = n := by
  unfold castInt
  simp only [Int.bmod]
  split <;> omega

theorem castInt_eq_iff {n : Nat} : castInt n = n ↔ n < 2 ^ 31 := by
  constructor
  · intro h
    unfold castInt at h
    have hlt := Int.bmod_lt (x := (n : Int)) (m := 2 ^ 32) (by decide)
    omega
  · exact castInt_of_lt

theorem castInt_congr {m n : Nat} (h : m % 2 ^ 32 = n % 2 ^ 32) : castInt m = castInt n := by
  unfold castInt
  rw [← Int.emod_bmod, ← Int.emod_bmod (n : Int)]
  congr 1
  omega

theorem castInt_toNat {n : Nat} (h : 0 < castInt n) : (castInt n).toNat = n % 2 ^ 32 := by
  unfold castInt at h ⊢
  simp only [Int.bmod] at h ⊢
  split at h
  · next hlt =>
    rw [if_pos hlt]
    omega
  · omega

theorem castInt_neg {n : Nat} (hle : 2 ^ 31 ≤ n) (hlt : n < 2 ^ 32) : castInt n < 0 := by
  unfold castInt
  simp only [Int.bmod]
  split <;> omega

/-- An `int` as a `size_t`. -/
def castSize (i : Int) : Nat := (i % 2 ^ 64).toNat

theorem castSize_ofNat {n : Nat} (h : n < 2 ^ 64) : castSize n = n := by
  unfold castSize
  omega

/-- Below `2 ^ 31`, a length that went through `int` is no more than it was. -/
theorem le_of_le_castSize {n k : Nat} (h : n ≤ castSize (castInt k)) (hn : n < 2 ^ 31) : n ≤ k := by
  by_cases hk : k < 2 ^ 31
  · rwa [castInt_of_lt hk, castSize_ofNat (Nat.lt_trans hk (by decide))] at h
  · omega

/-- `static_cast<ssize_t>` of a `size_t`. -/
def castSsize (n : Nat) : Int := Int.bmod n (2 ^ 64)

theorem castSsize_of_lt {n : Nat} (h : n < 2 ^ 63) : castSsize n = n := by
  unfold castSsize
  simp only [Int.bmod]
  split <;> omega

end Libhbk
