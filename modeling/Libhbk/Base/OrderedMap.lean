import Mathlib.Order.Lattice

/-!
# Maps in the order of their keys

A `std::map` goes through its entries in ascending order of the keys. `alter` is what happens to the value that
`operator[]` refers to, made new if there is none.
-/

namespace Libhbk

/-- The entries, in strictly ascending order. -/
structure OrderedMap (κ ν : Type*) [LinearOrder κ] where
  entries : List (κ × ν)
  ascending : entries.Pairwise fun x y => x.1 < y.1

namespace OrderedMap

variable {κ ν : Type*} [LinearOrder κ]

def empty : OrderedMap κ ν := ⟨[], .nil⟩

def lookup (k : κ) : List (κ × ν) → Option ν
  | [] => none
  | (j, v) :: l => if j = k then some v else lookup k l

def alterEntries (k : κ) (f : Option ν → ν) : List (κ × ν) → List (κ × ν)
  | [] => [(k, f none)]
  | (j, v) :: l =>
    if k < j then (k, f none) :: (j, v) :: l
    else if j = k then (k, f (some v)) :: l
    else (j, v) :: alterEntries k f l

variable {k j : κ} {v : ν} {f : Option ν → ν} {l : List (κ × ν)}

theorem mem_alterEntries {x : κ × ν} (h : x ∈ alterEntries k f l) : x.1 = k ∨ x ∈ l := by
  induction l with
  | nil =>
    rw [List.mem_singleton.mp h]
    exact Or.inl rfl
  | cons y l ih =>
    rw [alterEntries] at h
    split_ifs at h
    · rcases List.mem_cons.mp h with rfl | h
      · exact Or.inl rfl
      · exact Or.inr h
    · rcases List.mem_cons.mp h with rfl | h
      · exact Or.inl rfl
      · exact Or.inr (List.mem_cons_of_mem _ h)
    · rcases List.mem_cons.mp h with rfl | h
      · exact Or.inr List.mem_cons_self
      · exact (ih h).imp_right (List.mem_cons_of_mem _)

theorem ascending_alterEntries (k : κ) (f : Option ν → ν) (h : l.Pairwise fun x y => x.1 < y.1) :
    (alterEntries k f l).Pairwise fun x y => x.1 < y.1 := by
  induction l with
  | nil => exact List.pairwise_singleton _ _
  | cons y l ih =>
    obtain ⟨hy, hl⟩ := List.pairwise_cons.mp h
    rw [alterEntries]
    split_ifs with hlt heq
    · refine List.pairwise_cons.mpr ⟨fun x hx => ?_, h⟩
      rcases List.mem_cons.mp hx with rfl | hx
      · exact hlt
      · exact lt_trans hlt (hy x hx)
    · subst heq
      exact List.pairwise_cons.mpr ⟨hy, hl⟩
    · refine List.pairwise_cons.mpr ⟨fun x hx => ?_, ih hl⟩
      rcases mem_alterEntries hx with hkey | hx
      · rw [hkey]
        exact lt_of_le_of_ne (not_lt.mp hlt) heq
      · exact hy x hx

theorem lookup_of_lt (h : ∀ x ∈ l, k < x.1) : lookup k l = none := by
  induction l with
  | nil => rfl
  | cons y l ih =>
    obtain ⟨hy, hl⟩ := List.forall_mem_cons.mp h
    rw [lookup, if_neg (ne_of_gt hy), ih hl]

theorem lookup_alterEntries (h : l.Pairwise fun x y => x.1 < y.1) :
    lookup j (alterEntries k f l) = if j = k then some (f (lookup k l)) else lookup j l := by
  induction l with
  | nil => simp only [alterEntries, lookup, eq_comm]
  | cons y l ih =>
    obtain ⟨hy, hl⟩ := List.pairwise_cons.mp h
    rw [alterEntries]
    by_cases hjk : j = k
    · subst hjk
      rw [if_pos rfl]
      split_ifs with hlt heq
      · have hnone : lookup j (y :: l) = none := by
          refine lookup_of_lt fun x hx => ?_
          rcases List.mem_cons.mp hx with rfl | hx
          · exact hlt
          · exact lt_trans hlt (hy x hx)
        rw [lookup, if_pos rfl, hnone]
      · rw [lookup, if_pos rfl, lookup, if_pos heq]
      · rw [lookup, if_neg heq, ih hl, if_pos rfl, lookup, if_neg heq]
    · rw [if_neg hjk]
      split_ifs with hlt heq
      · rw [lookup, if_neg (Ne.symm hjk)]
      · rw [lookup, if_neg (Ne.symm hjk), lookup, if_neg (fun h => hjk (h.symm.trans heq))]
      · rw [lookup, ih hl, if_neg hjk, lookup]

theorem lookup_eq_some_iff (h : l.Pairwise fun x y => x.1 < y.1) : lookup k l = some v ↔ (k, v) ∈ l := by
  induction l with
  | nil => simp [lookup]
  | cons y l ih =>
    obtain ⟨hy, hl⟩ := List.pairwise_cons.mp h
    obtain ⟨i, w⟩ := y
    rw [lookup, List.mem_cons, Prod.mk.injEq]
    split
    · next heq =>
      subst heq
      have hnot : (i, v) ∉ l := fun hmem => lt_irrefl i (hy _ hmem)
      rw [Option.some.injEq, or_iff_left hnot, and_iff_right rfl, eq_comm]
    · next hne =>
      rw [ih hl, or_iff_right]
      rintro ⟨rfl, -⟩
      exact hne rfl

/-! ### The operations -/

def find? (m : OrderedMap κ ν) (k : κ) : Option ν := lookup k m.entries

/-- The value at `k` becomes what `f` makes of it. -/
def alter (m : OrderedMap κ ν) (k : κ) (f : Option ν → ν) : OrderedMap κ ν :=
  ⟨alterEntries k f m.entries, ascending_alterEntries k f m.ascending⟩

def values (m : OrderedMap κ ν) : List ν := m.entries.map Prod.snd

variable (m : OrderedMap κ ν)

@[simp] theorem find?_empty (k : κ) : (empty : OrderedMap κ ν).find? k = none := rfl

@[simp] theorem find?_alter (k : κ) (f : Option ν → ν) (j : κ) :
    (m.alter k f).find? j = if j = k then some (f (m.find? k)) else m.find? j :=
  lookup_alterEntries m.ascending

theorem mem_entries_iff : (k, v) ∈ m.entries ↔ m.find? k = some v := (lookup_eq_some_iff m.ascending).symm

theorem mem_values_iff : v ∈ m.values ↔ ∃ k, m.find? k = some v := by
  rw [values, List.mem_map]
  constructor
  · rintro ⟨⟨k, w⟩, hmem, rfl⟩
    exact ⟨k, m.mem_entries_iff.mp hmem⟩
  · rintro ⟨k, hk⟩
    exact ⟨(k, v), m.mem_entries_iff.mpr hk, rfl⟩

/-- Values that know their keys are in ascending order of them. -/
theorem ascending_values {key : ν → κ} (h : ∀ k v, m.find? k = some v → key v = k) :
    m.values.Pairwise fun v w => key v < key w := by
  rw [values, List.pairwise_map]
  apply m.ascending.imp_of_mem
  rintro ⟨k, v⟩ ⟨j, w⟩ hv hw hlt
  rw [h k v (m.mem_entries_iff.mp hv), h j w (m.mem_entries_iff.mp hw)]
  exact hlt

end OrderedMap

end Libhbk
