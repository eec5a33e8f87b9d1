import Mathlib.Algebra.Group.Nat.Defs
import Mathlib.Data.List.TakeDrop

/-!
# Reading bytes in memory

A memory gives the byte at every address, also where a program has no business to read. `Holds mem off bs` says
that it holds the bytes `bs` from `off` on; `readLe` reads a little-endian number, and `leBytes` spells one.
-/

namespace Libhbk

/-- Up to a multiple of four, in 32 bits. -/
def align4 (n : Nat) : Nat := (n + 3) % 2 ^ 32 / 4 * 4

theorem align4_eq {n : Nat} (h : n + 3 < 2 ^ 32) : align4 n = (n + 3) / 4 * 4 := by
  rw [align4, Nat.mod_eq_of_lt h]

theorem le_align4 {n : Nat} (h : n + 3 < 2 ^ 32) : n ≤ align4 n ∧ align4 n < n + 4 := by
  rw [align4_eq h]
  omega

/-- What is added to a length to make it a multiple of four. -/
def padding (n : Nat) : List UInt8 := List.replicate ((4 - n % 4) % 4) 0

theorem add_length_padding {n : Nat} (h : n + 3 < 2 ^ 32) : n + (padding n).length = align4 n := by
  rw [align4_eq h, padding, List.length_replicate]
  omega

abbrev Memory := Nat → UInt8

/-- The number that the `k` bytes from `off` on spell, the least significant first. -/
def readLe (mem : Memory) (off : Nat) : Nat → Nat
  | 0 => 0
  | k + 1 => (mem off).toNat + 256 * readLe mem (off + 1) k

def leBytes : Nat → Nat → List UInt8
  | 0, _ => []
  | k + 1, v => UInt8.ofNat v :: leBytes k (v / 256)

theorem length_leBytes (k v : Nat) : (leBytes k v).length = k := by
  induction k generalizing v with
  | zero => rfl
  | succ k ih => rw [leBytes, List.length_cons, ih]

def Holds (mem : Memory) (off : Nat) (bs : List UInt8) : Prop := ∀ i b, bs[i]? = some b → mem (off + i) = b

variable {mem : Memory} {off : Nat}

theorem holds_cons {b : UInt8} {bs : List UInt8} :
    Holds mem off (b :: bs) ↔ mem off = b ∧ Holds mem (off + 1) bs := by
  constructor
  · intro h
    refine ⟨h 0 b rfl, fun i c hi => ?_⟩
    rw [Nat.add_assoc, Nat.add_comm 1 i]
    exact h (i + 1) c hi
  · rintro ⟨hb, hbs⟩ i c hi
    cases i with
    | zero =>
      rw [List.getElem?_cons_zero, Option.some_inj] at hi
      rw [← hi]
      exact hb
    | succ i =>
      rw [← Nat.add_comm 1 i, ← Nat.add_assoc]
      exact hbs i c hi

theorem holds_append {as bs : List UInt8} :
    Holds mem off (as ++ bs) ↔ Holds mem off as ∧ Holds mem (off + as.length) bs := by
  induction as generalizing off with
  | nil =>
    have hnil : Holds mem off [] := fun i b hi => by simp at hi
    rw [List.nil_append, List.length_nil, Nat.add_zero, and_iff_right hnil]
  | cons a as ih =>
    rw [List.cons_append, holds_cons, holds_cons, ih, and_assoc, List.length_cons]
    rw [show off + (as.length + 1) = off + 1 + as.length by omega]

/-- A memory that holds some bytes and zeros behind them. -/
def memoryOf (bs : List UInt8) : Memory := fun i => bs.getD i 0

theorem holds_memoryOf (bs : List UInt8) : Holds (memoryOf bs) 0 bs := by
  intro i b hi
  rw [Nat.zero_add, memoryOf, List.getD_eq_getElem?_getD, hi, Option.getD_some]

theorem readLe_leBytes {k v : Nat} (h : Holds mem off (leBytes k v)) : readLe mem off k = v % 256 ^ k := by
  induction k generalizing off v with
  | zero => rw [readLe, Nat.pow_zero, Nat.mod_one]
  | succ k ih =>
    obtain ⟨hb, hbs⟩ := holds_cons.mp h
    rw [readLe, hb, ih hbs, UInt8.toNat_ofNat', show 256 ^ (k + 1) = 256 * 256 ^ k from Nat.pow_succ', Nat.mod_mul]

theorem readLe_of_lt {k v : Nat} (h : Holds mem off (leBytes k v)) (hv : v < 256 ^ k) : readLe mem off k = v := by
  rw [readLe_leBytes h, Nat.mod_eq_of_lt hv]

end Libhbk
