import Mathlib.Data.List.TakeDrop

/-!
# Copies into memory blocks

A memory block is the list of its cells. `writeAt mem off bs` copies `bs` over the cells from `off` on,
as `memcpy` and the pieces of a scatter read do. `store` does so in a memory that has a cell at every address.
-/

namespace Libhbk

variable {α : Type*}

def writeAt (mem : List α) (off : Nat) (bs : List α) : List α :=
  mem.take off ++ bs ++ mem.drop (off + bs.length)

theorem length_writeAt {mem bs : List α} {off : Nat} (h : off + bs.length ≤ mem.length) :
    (writeAt mem off bs).length = mem.length := by
  simp only [writeAt, List.length_append, List.length_take, List.length_drop]
  omega

theorem take_writeAt {mem bs : List α} {off : Nat} (h : off ≤ mem.length) :
    (writeAt mem off bs).take (off + bs.length) = mem.take off ++ bs := by
  have hlen : (mem.take off ++ bs).length = off + bs.length := by
    rw [List.length_append, List.length_take, Nat.min_eq_left h]
  rw [writeAt, List.take_append_of_le_length (Nat.le_of_eq hlen.symm), List.take_of_length_le (Nat.le_of_eq hlen)]

theorem take_writeAt_zero (mem bs : List α) (n : Nat) (h : n ≤ bs.length) :
    (writeAt mem 0 bs).take n = bs.take n := by
  simp [writeAt, List.take_append_of_le_length h]

theorem getElem?_writeAt_zero (mem bs : List α) {i : Nat} (h : i < bs.length) : (writeAt mem 0 bs)[i]? = bs[i]? := by
  simp [writeAt, List.getElem?_append_left h]

/-- `n` cells from address `pos` on become `cells 0`, `cells 1` and so on. -/
def store (mem : Nat → α) (pos n : Nat) (cells : Nat → α) : Nat → α := fun a =>
  if pos ≤ a ∧ a < pos + n then cells (a - pos) else mem a

theorem store_zero (mem : Nat → α) (pos : Nat) (cells : Nat → α) : store mem pos 0 cells = mem := by
  funext a
  exact if_neg (by omega)

theorem store_inside (mem : Nat → α) (pos : Nat) {n i : Nat} (cells : Nat → α) (hi : i < n) :
    store mem pos n cells (pos + i) = cells i := by
  rw [store, if_pos (by omega), Nat.add_sub_cancel_left]

theorem store_outside (mem : Nat → α) {pos n a : Nat} (cells : Nat → α) (ha : a < pos ∨ pos + n ≤ a) :
    store mem pos n cells a = mem a :=
  if_neg (by omega)

theorem map_store_inside (mem : Nat → α) (pos n : Nat) (cells : Nat → α) :
    (List.range' pos n).map (store mem pos n cells) = (List.range n).map cells := by
  rw [List.range'_eq_map_range, List.map_map]
  exact List.map_congr_left fun i hi => store_inside _ _ _ (List.mem_range.mp hi)

theorem map_store_outside (mem : Nat → α) {pos n : Nat} (cells : Nat → α) {l : List Nat}
    (h : ∀ a ∈ l, a < pos ∨ pos + n ≤ a) : l.map (store mem pos n cells) = l.map mem :=
  List.map_congr_left fun a ha => store_outside mem cells (h a ha)

theorem store_store (mem : Nat → α) (pos k n : Nat) (cells : Nat → α) :
    store (store mem pos k cells) (pos + k) n (fun i => cells (k + i)) = store mem pos (k + n) cells := by
  funext a
  unfold store
  by_cases hsecond : pos + k ≤ a ∧ a < pos + k + n
  · rw [if_pos hsecond, if_pos (by omega)]
    exact congrArg cells (by omega)
  · rw [if_neg hsecond]
    by_cases hfirst : pos ≤ a ∧ a < pos + k
    · rw [if_pos hfirst, if_pos (by omega)]
    · rw [if_neg hfirst, if_neg (by omega)]

end Libhbk
