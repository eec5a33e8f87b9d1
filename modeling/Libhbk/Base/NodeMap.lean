import Mathlib.Logic.Function.Basic
import Mathlib.Data.Option.Basic

/-!
# Maps with nodes at stable addresses

A `std::unordered_map` keeps every pair in a node of its own, and the node's address stays valid until
the pair is erased. `NodeMap` keeps the two halves apart: `index` says which node belongs to a key,
`storage` what the memory at an address holds. Erasing a key drops its index only: freed storage holds
its last content until `emplace` reuses it, which is what a dangling pointer reads.
-/

namespace Libhbk

/-- The address of a node. -/
abbrev Addr := Nat

/-- A map whose nodes have addresses. A key's node holds that key. -/
structure NodeMap (κ ν : Type) where
  index : κ → Option Addr
  storage : Addr → Option (κ × ν)
  keyed : ∀ k a, index k = some a → ∃ v, storage a = some (k, v)

namespace NodeMap

variable {κ ν : Type}

def empty : NodeMap κ ν := ⟨fun _ => none, fun _ => none, by simp⟩

/-- What the storage at an address holds, live or not. -/
def deref (m : NodeMap κ ν) (a : Addr) : Option ν := (m.storage a).map Prod.snd

/-- The value of a key. -/
def get? (m : NodeMap κ ν) (k : κ) : Option ν := (m.index k).bind m.deref

/-- Does the node at this address belong to the map? -/
def live (m : NodeMap κ ν) (a : Addr) : Bool :=
  match m.storage a with
  | none => false
  | some (k, _) => m.index k == some a

theorem live_iff (m : NodeMap κ ν) (a : Addr) : m.live a = true ↔ ∃ k, m.index k = some a := by
  unfold live
  constructor
  · intro h
    split at h
    · simp at h
    · exact ⟨_, by simpa using h⟩
  · rintro ⟨k, hk⟩
    obtain ⟨v, hv⟩ := m.keyed k a hk
    simp [hv, hk]

theorem index_inj (m : NodeMap κ ν) {k k' : κ} {a : Addr} (h : m.index k = some a)
    (h' : m.index k' = some a) : k = k' := by
  obtain ⟨v, hv⟩ := m.keyed k a h
  obtain ⟨v', hv'⟩ := m.keyed k' a h'
  rw [hv] at hv'
  simp only [Option.some.injEq, Prod.mk.injEq] at hv'
  exact hv'.1

theorem storage_of_index (m : NodeMap κ ν) {k : κ} {a : Addr} (h : m.index k = some a) :
    ∃ v, m.storage a = some (k, v) ∧ m.get? k = some v := by
  obtain ⟨v, hv⟩ := m.keyed k a h
  exact ⟨v, hv, by simp [get?, h, deref, hv]⟩

theorem get?_eq_none (m : NodeMap κ ν) (k : κ) : m.get? k = none ↔ m.index k = none := by
  rcases h : m.index k with _ | a
  · simp [get?, h]
  · obtain ⟨v, _, hv⟩ := m.storage_of_index h
    simp [hv]

@[ext] theorem ext {m m' : NodeMap κ ν} (hi : m.index = m'.index) (hs : m.storage = m'.storage) :
    m = m' := by
  cases m
  cases m'
  simp_all

theorem ne_of_live_false (m : NodeMap κ ν) {a : Addr} {k' : κ} {a' : Addr} (hk : m.index k' = some a')
    (h : m.live a = false) :
    a' ≠ a := by
  rintro rfl
  rw [(m.live_iff a').mpr ⟨k', hk⟩] at h
  simp at h

/-- Change the value in the storage at an address in place. -/
def modifyAt (m : NodeMap κ ν) (a : Addr) (f : ν → ν) : NodeMap κ ν where
  index := m.index
  storage := Function.update m.storage a ((m.storage a).map fun p => (p.1, f p.2))
  keyed := by
    intro k' a' hk
    obtain ⟨v, hv⟩ := m.keyed k' a' hk
    by_cases e : a' = a
    · subst e
      exact ⟨f v, by simp [hv]⟩
    · exact ⟨v, by rw [Function.update_of_ne e, hv]⟩

@[simp] theorem index_modifyAt (m : NodeMap κ ν) (a : Addr) (f : ν → ν) :
    (m.modifyAt a f).index = m.index := rfl

theorem storage_modifyAt (m : NodeMap κ ν) (a : Addr) (f : ν → ν) : (m.modifyAt a f).storage =
    Function.update m.storage a ((m.storage a).map fun p => (p.1, f p.2)) := rfl

theorem modifyAt_id (m : NodeMap κ ν) (a : Addr) {f : ν → ν} (h : ∀ v, m.deref a = some v → f v = v) :
    m.modifyAt a f = m := by
  refine NodeMap.ext rfl ?_
  rw [storage_modifyAt]
  refine Function.update_eq_iff.mpr ⟨?_, fun _ _ => rfl⟩
  rcases hp : m.storage a with _ | ⟨k, v⟩
  · rfl
  · rw [Option.map_some, h v (by rw [deref, hp]; rfl)]

variable [DecidableEq κ]

/-- `emplace` of a key into a node at a free address. -/
def emplace (m : NodeMap κ ν) (k : κ) (v : ν) (a : Addr) (h : m.live a = false) : NodeMap κ ν where
  index := Function.update m.index k (some a)
  storage := Function.update m.storage a (some (k, v))
  keyed := by
    intro k' a' hk
    by_cases e : k' = k
    · subst e
      simp only [Function.update_self, Option.some.injEq] at hk
      subst hk
      exact ⟨v, by simp⟩
    · rw [Function.update_of_ne e] at hk
      rw [Function.update_of_ne (m.ne_of_live_false hk h)]
      exact m.keyed k' a' hk

/-- `erase` of a key. -/
def erase (m : NodeMap κ ν) (k : κ) : NodeMap κ ν where
  index := Function.update m.index k none
  storage := m.storage
  keyed := by
    intro k' a' hk
    by_cases e : k' = k
    · subst e
      simp at hk
    · rw [Function.update_of_ne e] at hk
      exact m.keyed k' a' hk

section emplace
variable (m : NodeMap κ ν) (k : κ) (v : ν) (a : Addr) (h : m.live a = false)

@[simp] theorem index_emplace :
    (m.emplace k v a h).index = Function.update m.index k (some a) := rfl

@[simp] theorem storage_emplace :
    (m.emplace k v a h).storage = Function.update m.storage a (some (k, v)) := rfl

@[simp] theorem get?_emplace : (m.emplace k v a h).get? = Function.update m.get? k (some v) := by
  funext k'
  by_cases e : k' = k
  · subst e
    simp [get?, deref]
  · rw [Function.update_of_ne e]
    simp only [get?, index_emplace, Function.update_of_ne e]
    rcases hk : m.index k' with _ | a'
    · rfl
    · simp [deref, Function.update_of_ne (m.ne_of_live_false hk h)]

end emplace

theorem get?_modifyAt (m : NodeMap κ ν) {k : κ} {a : Addr} (hk : m.index k = some a) (f : ν → ν) :
    (m.modifyAt a f).get? = Function.update m.get? k ((m.get? k).map f) := by
  funext k'
  by_cases e : k' = k
  · subst e
    obtain ⟨v, hv, hg⟩ := m.storage_of_index hk
    simp [get?, hk, deref, storage_modifyAt, hv]
  · rw [Function.update_of_ne e]
    simp only [get?, index_modifyAt]
    rcases hk' : m.index k' with _ | a'
    · rfl
    · have hne : a' ≠ a := by
        rintro rfl
        exact e (m.index_inj hk' hk)
      simp [deref, storage_modifyAt, Function.update_of_ne hne]

@[simp] theorem index_erase (m : NodeMap κ ν) (k : κ) :
    (m.erase k).index = Function.update m.index k none := rfl

@[simp] theorem storage_erase (m : NodeMap κ ν) (k : κ) : (m.erase k).storage = m.storage := rfl

@[simp] theorem get?_erase (m : NodeMap κ ν) (k : κ) :
    (m.erase k).get? = Function.update m.get? k none := by
  funext k'
  by_cases e : k' = k
  · subst e
    simp [get?]
  · simp only [get?, index_erase, Function.update_of_ne e]
    rfl

end NodeMap

end Libhbk
