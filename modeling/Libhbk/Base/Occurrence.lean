import Mathlib.Data.List.Infix

/-!
# Occurrences of a list in a list

`Cut s t b a`: the leftmost occurrence of `s` in `t` has `b` before it and `a` behind it. `find?` computes where it
is. `Pieces` cuts at the leftmost occurrences that do not overlap, again and again behind the last cut; the pieces
joined with `s` are the list itself, and none of them contains `s`. `CutsFrom` are the places of the same cuts.
-/

namespace Libhbk.Occurrence

variable {α : Type*} {s t b a x : List α}

/-- With `t` behind it, no occurrence of `s` begins in `x`. -/
def NoneBegins (s x t : List α) : Prop := ∀ i < x.length, ¬ s <+: (x ++ t).drop i

@[simp] theorem noneBegins_nil : NoneBegins s [] t := by
  intro i hi
  simp at hi

theorem noneBegins_cons {c : α} : NoneBegins s (c :: x) t ↔ ¬ s <+: c :: (x ++ t) ∧ NoneBegins s x t := by
  constructor
  · intro h
    refine ⟨h 0 (by simp), fun i hi => ?_⟩
    exact h (i + 1) (by simpa using hi)
  · rintro ⟨hhead, htail⟩ i hi
    cases i with
    | zero => exact hhead
    | succ i => exact htail i (by simpa using hi)

theorem noneBegins_append {y : List α} : NoneBegins s (x ++ y) t ↔ NoneBegins s x (y ++ t) ∧ NoneBegins s y t := by
  induction x with
  | nil => simp
  | cons c x ih => rw [List.cons_append, noneBegins_cons, noneBegins_cons, ih, List.append_assoc, and_assoc]

theorem infix_append_of_noneBegins (h : NoneBegins s x t) : s <:+: x ++ t ↔ s <:+: t := by
  induction x with
  | nil => rfl
  | cons c x ih =>
    obtain ⟨hhead, htail⟩ := noneBegins_cons.mp h
    rw [List.cons_append, List.infix_cons_iff, ih htail]
    exact or_iff_right hhead

/-- The leftmost occurrence of `s` in `t`, between `b` and `a`. -/
structure Cut (s t b a : List α) : Prop where
  eq : t = b ++ (s ++ a)
  leftmost : NoneBegins s b (s ++ a)

theorem Cut.isInfix (h : Cut s t b a) : s <:+: t := ⟨b, a, by rw [h.eq, List.append_assoc]⟩

theorem Cut.length (h : Cut s t b a) : t.length = b.length + s.length + a.length := by
  rw [h.eq, List.length_append, List.length_append, Nat.add_assoc]

theorem cut_of_begins (h : s <+: t) : Cut s t [] (t.drop s.length) :=
  ⟨(List.prefix_iff_eq_append.mp h).symm, noneBegins_nil⟩

theorem cut_append (h : NoneBegins s x t) (hcut : Cut s t b a) : Cut s (x ++ t) (x ++ b) a := by
  refine ⟨by rw [hcut.eq, List.append_assoc], noneBegins_append.mpr ⟨?_, hcut.leftmost⟩⟩
  rwa [← hcut.eq]

theorem Cut.unique {b' a' : List α} (h : Cut s t b a) (h' : Cut s t b' a') : b = b' ∧ a = a' := by
  have hle {b a b' a' : List α} (h : Cut s t b a) (h' : Cut s t b' a') : b'.length ≤ b.length := by
    by_contra hlt
    apply h'.leftmost b.length (by omega)
    rw [← h'.eq, h.eq, List.drop_left]
    exact List.prefix_append s a
  have heq : b ++ (s ++ a) = b' ++ (s ++ a') := by rw [← h.eq, h'.eq]
  obtain ⟨hb, ha⟩ := List.append_inj heq (Nat.le_antisymm (hle h' h) (hle h h'))
  exact ⟨hb, List.append_cancel_left ha⟩

section Find

variable [DecidableEq α]

/-- Where the leftmost occurrence of `s` begins. -/
def find? (s : List α) : List α → Option Nat
  | [] => if s = [] then some 0 else none
  | c :: t => if s <+: c :: t then some 0 else (find? s t).map (· + 1)

theorem find?_of_begins (h : s <+: t) : find? s t = some 0 := by
  cases t with
  | nil => rw [find?, if_pos (List.prefix_nil.mp h)]
  | cons c t => rw [find?, if_pos h]

theorem find?_append (h : NoneBegins s x t) : find? s (x ++ t) = (find? s t).map (x.length + ·) := by
  induction x with
  | nil => simp
  | cons c x ih =>
    obtain ⟨hhead, htail⟩ := noneBegins_cons.mp h
    rw [List.cons_append, find?, if_neg hhead, ih htail, Option.map_map, List.length_cons]
    congr 1
    funext n
    simp only [Function.comp_apply]
    omega

theorem Cut.find?_eq (h : Cut s t b a) : find? s t = some b.length := by
  rw [h.eq, find?_append h.leftmost, find?_of_begins (List.prefix_append s a)]
  rfl

theorem find?_cases (s t : List α) :
    (find? s t = none ∧ ¬ s <:+: t) ∨ ∃ b a, find? s t = some b.length ∧ Cut s t b a := by
  induction t with
  | nil =>
    by_cases hs : s = []
    · subst hs
      exact Or.inr ⟨[], [], rfl, cut_of_begins (List.prefix_refl _)⟩
    · refine Or.inl ⟨by rw [find?, if_neg hs], ?_⟩
      rwa [List.infix_nil]
  | cons c t ih =>
    by_cases hhead : s <+: c :: t
    · exact Or.inr ⟨[], _, find?_of_begins hhead, cut_of_begins hhead⟩
    · have hnone : NoneBegins s [c] t := noneBegins_cons.mpr ⟨hhead, noneBegins_nil⟩
      obtain ⟨hfind, hoccurs⟩ | ⟨b, a, hfind, hcut⟩ := ih
      · refine Or.inl ⟨by rw [find?, if_neg hhead, hfind]; rfl, ?_⟩
        rwa [← List.singleton_append, infix_append_of_noneBegins hnone]
      · exact Or.inr ⟨c :: b, a, (cut_append hnone hcut).find?_eq, cut_append hnone hcut⟩

end Find

theorem exists_cut (h : s <:+: t) : ∃ b a, Cut s t b a := by
  classical
  obtain ⟨-, hnot⟩ | ⟨b, a, -, hcut⟩ := find?_cases s t
  · contradiction
  · exact ⟨b, a, hcut⟩

/-! ### Cutting again behind each cut -/

/-- The pieces of `t` between the leftmost occurrences of `s` that do not overlap. -/
inductive Pieces (s : List α) : List α → List (List α) → Prop
  | last {t : List α} : ¬ s <:+: t → Pieces s t [t]
  | cut {t b a : List α} {ps : List (List α)} : Cut s t b a → Pieces s a ps → Pieces s t (b :: ps)

/-- `a` is what is left of `t` behind one of its cuts. -/
inductive Behind (s : List α) : List α → List α → Prop
  | here {t b a : List α} : Cut s t b a → Behind s t a
  | later {t b a a' : List α} : Cut s t b a → Behind s a a' → Behind s t a'

variable {ps qs : List (List α)}

theorem Pieces.ne_nil (h : Pieces s t ps) : ps ≠ [] := by
  cases h <;> exact List.cons_ne_nil _ _

theorem Pieces.intercalate (h : Pieces s t ps) : s.intercalate ps = t := by
  induction h with
  | last => exact List.intercalate_singleton
  | cut hcut hps ih =>
    rw [List.intercalate_cons_of_ne_nil hps.ne_nil, ih, hcut.eq, List.append_assoc]

/-- A piece that ends where the leftmost occurrence begins does not contain one. -/
theorem Cut.not_infix (hs : s ≠ []) (h : Cut s t b a) : ¬ s <:+: b := by
  rintro ⟨x, y, rfl⟩
  apply h.leftmost x.length
  · have hpos := List.length_pos_of_ne_nil hs
    simp only [List.length_append]
    omega
  · rw [List.append_assoc, List.append_assoc, List.drop_left]
    exact List.prefix_append _ _

theorem Pieces.not_infix (hs : s ≠ []) (h : Pieces s t ps) : ∀ p ∈ ps, ¬ s <:+: p := by
  induction h with
  | last hnot => simpa using hnot
  | cut hcut _ ih =>
    rw [List.forall_mem_cons]
    exact ⟨hcut.not_infix hs, ih⟩

theorem Pieces.unique (h : Pieces s t ps) (h' : Pieces s t qs) : ps = qs := by
  induction h generalizing qs with
  | last hnot =>
    cases h' with
    | last => rfl
    | cut hcut _ => exact absurd hcut.isInfix hnot
  | cut hcut _ ih =>
    cases h' with
    | last hnot => exact absurd hcut.isInfix hnot
    | cut hcut' hqs =>
      obtain ⟨rfl, rfl⟩ := hcut.unique hcut'
      rw [ih hqs]

/-- Joined with anything else: each cut makes the same difference. -/
theorem Pieces.length_intercalate (h : Pieces s t ps) (r : List α) :
    (r.intercalate ps).length + (ps.length - 1) * s.length = t.length + (ps.length - 1) * r.length := by
  induction h with
  | last => simp
  | @cut t b a ps hcut hps ih =>
    have hpos := List.length_pos_of_ne_nil hps.ne_nil
    obtain ⟨n, hn⟩ : ∃ n, ps.length = n + 1 := ⟨ps.length - 1, by omega⟩
    rw [List.intercalate_cons_of_ne_nil hps.ne_nil, List.length_cons, hcut.length]
    simp only [hn, List.length_append, Nat.add_sub_cancel, Nat.succ_mul] at ih ⊢
    omega

/-! ### The places of the cuts -/

/-- Where the leftmost occurrences of `s` in `t` begin, from `i` on, that do not overlap. -/
inductive CutsFrom (s t : List α) : Nat → List Nat → Prop
  | none {i : Nat} : (∀ k, i ≤ k → ¬ s <+: t.drop k) → CutsFrom s t i []
  | next {i j : Nat} {js : List Nat} : i ≤ j → s <+: t.drop j → (∀ k, i ≤ k → k < j → ¬ s <+: t.drop k) →
      CutsFrom s t (j + s.length) js → CutsFrom s t i (j :: js)

/-- The parts of `t` from `i` on, with `n` left out at each of the places. -/
def between (n : Nat) (t : List α) : Nat → List Nat → List (List α)
  | i, [] => [t.drop i]
  | i, j :: js => (t.drop i).take (j - i) :: between n t (j + n) js

theorem length_between {n i : Nat} {js : List Nat} : (between n t i js).length = js.length + 1 := by
  induction js generalizing i with
  | nil => rfl
  | cons j js ih => rw [between, List.length_cons, ih, List.length_cons]

theorem CutsFrom.unique {i : Nat} {js ks : List Nat} (h : CutsFrom s t i js) (h' : CutsFrom s t i ks) : js = ks := by
  induction h generalizing ks with
  | none hnone =>
    cases h' with
    | none => rfl
    | next hle hocc _ _ => exact absurd hocc (hnone _ hle)
  | @next i j js hle hocc hfirst _ ih =>
    cases h' with
    | none hnone => exact absurd hocc (hnone _ hle)
    | @next _ j' _ hle' hocc' hfirst' hrest' =>
      obtain rfl : j = j' := by
        by_contra hne
        rcases Nat.lt_or_gt_of_ne hne with hlt | hlt
        · exact hfirst' j hle hlt hocc
        · exact hfirst j' hle' hlt hocc'
      rw [ih hrest']

theorem cut_drop {i j : Nat} (hle : i ≤ j) (hocc : s <+: t.drop j)
    (hfirst : ∀ k, i ≤ k → k < j → ¬ s <+: t.drop k) :
    Cut s (t.drop i) ((t.drop i).take (j - i)) (t.drop (j + s.length)) := by
  have hsplit : t.drop i = (t.drop i).take (j - i) ++ (s ++ t.drop (j + s.length)) := by
    rw [← List.drop_drop, List.prefix_iff_eq_append.mp hocc]
    conv_lhs => rw [← List.take_append_drop (j - i) (t.drop i)]
    rw [List.drop_drop, Nat.add_sub_cancel' hle]
  refine ⟨hsplit, fun k hk => ?_⟩
  rw [← hsplit, List.drop_drop]
  apply hfirst
  · omega
  · rw [List.length_take] at hk
    omega

theorem cutsFrom_of_cut {i : Nat} {js : List Nat} (h : Cut s (t.drop i) b a)
    (hjs : CutsFrom s t (i + b.length + s.length) js) : CutsFrom s t i ((i + b.length) :: js) := by
  refine .next (Nat.le_add_right _ _) ?_ (fun k hle hlt => ?_) hjs
  · rw [← List.drop_drop, h.eq, List.drop_left]
    exact List.prefix_append _ _
  · have hk := h.leftmost (k - i) (by omega)
    rwa [← h.eq, List.drop_drop, Nat.add_sub_cancel' hle] at hk

theorem infix_drop_iff {i : Nat} : s <:+: t.drop i ↔ ∃ k, i ≤ k ∧ s <+: t.drop k := by
  constructor
  · rintro ⟨x, y, hxy⟩
    refine ⟨i + x.length, Nat.le_add_right _ _, ?_⟩
    rw [← List.drop_drop, ← hxy, List.append_assoc, List.drop_left]
    exact List.prefix_append _ _
  · rintro ⟨k, hle, hocc⟩
    refine hocc.isInfix.trans ?_
    rw [← Nat.add_sub_cancel' hle, ← List.drop_drop]
    exact (List.drop_suffix _ _).isInfix

theorem CutsFrom.pieces {i : Nat} {js : List Nat} (h : CutsFrom s t i js) :
    Pieces s (t.drop i) (between s.length t i js) := by
  induction h with
  | @none i hnone =>
    refine .last fun hoccurs => ?_
    obtain ⟨k, hle, hocc⟩ := infix_drop_iff.mp hoccurs
    exact hnone k hle hocc
  | next hle hocc hfirst _ ih => exact .cut (cut_drop hle hocc hfirst) ih

theorem exists_cutsFrom (hs : s ≠ []) (t : List α) (i : Nat) : ∃ js, CutsFrom s t i js := by
  by_cases hoccurs : s <:+: t.drop i
  · obtain ⟨b, a, hcut⟩ := exists_cut hoccurs
    have hless : t.length - (i + b.length + s.length) < t.length - i := by
      have hlength := hcut.length
      have hpos := List.length_pos_of_ne_nil hs
      rw [List.length_drop] at hlength
      omega
    obtain ⟨js, hjs⟩ := exists_cutsFrom hs t (i + b.length + s.length)
    exact ⟨_, cutsFrom_of_cut hcut hjs⟩
  · exact ⟨[], .none fun k hle hocc => hoccurs (infix_drop_iff.mpr ⟨k, hle, hocc⟩)⟩
termination_by t.length - i

/-! ### Counting all occurrences -/

section Count

variable [DecidableEq α]

/-- In how many places of a list `s` occurs, `s` not empty. -/
def occurrences (s : List α) : List α → Nat
  | [] => 0
  | c :: t => (if s <+: c :: t then 1 else 0) + occurrences s t

theorem occurrences_le_append (s x t : List α) : occurrences s t ≤ occurrences s (x ++ t) := by
  induction x with
  | nil => exact Nat.le_refl _
  | cons c x ih =>
    rw [List.cons_append, occurrences]
    omega

/-- More in front makes the number no larger exactly if no occurrence begins there. -/
theorem noneBegins_iff_occurrences_le : NoneBegins s x t ↔ occurrences s (x ++ t) ≤ occurrences s t := by
  induction x with
  | nil => simp
  | cons c x ih =>
    have hle := occurrences_le_append s x t
    rw [noneBegins_cons, ih, List.cons_append, occurrences]
    split
    · next hocc =>
      constructor
      · intro h
        exact absurd hocc h.1
      · omega
    · next hocc =>
      rw [Nat.zero_add]
      exact and_iff_right hocc

theorem occurrences_append (h : NoneBegins s x t) : occurrences s (x ++ t) = occurrences s t :=
  Nat.le_antisymm (noneBegins_iff_occurrences_le.mp h) (occurrences_le_append s x t)

theorem occurrences_eq_zero (h : ¬ s <:+: t) : occurrences s t = 0 := by
  induction t with
  | nil => rfl
  | cons c t ih =>
    rw [List.infix_cons_iff, not_or] at h
    rw [occurrences, if_neg h.1, ih h.2]

end Count

/-- Two occurrences of `s` never overlap: no end of `s` is a beginning of it. -/
def Unbordered (s : List α) : Prop := ∀ w, w <+: s → w <:+ s → w = [] ∨ w = s

theorem unbordered_singleton (c : α) : Unbordered [c] := by
  intro w hw _
  rcases List.prefix_cons_iff.mp hw with hnil | ⟨t, hw, ht⟩
  · exact Or.inl hnil
  · rw [hw, List.prefix_nil.mp ht]
    exact Or.inr rfl

theorem Unbordered.noneBegins_tail {c : α} (h : Unbordered (c :: s)) (a : List α) : NoneBegins (c :: s) s a := by
  intro i hi hocc
  rw [List.drop_append_of_le_length (by omega)] at hocc
  have hlength : (s.drop i).length < (c :: s).length := by
    rw [List.length_drop, List.length_cons]
    omega
  have hbegin : s.drop i <+: c :: s :=
    List.prefix_of_prefix_length_le (List.prefix_append _ a) hocc (Nat.le_of_lt hlength)
  have hend : s.drop i <:+ c :: s := (List.drop_suffix i s).trans (List.suffix_cons c s)
  rcases h _ hbegin hend with hnil | hall
  · rw [List.drop_eq_nil_iff] at hnil
    omega
  · rw [hall] at hlength
    omega

theorem Unbordered.occurrences_cut [DecidableEq α] (hs : s ≠ []) (hu : Unbordered s) (h : Cut s t b a) :
    occurrences s t = occurrences s a + 1 := by
  obtain ⟨c, s', rfl⟩ := List.exists_cons_of_ne_nil hs
  rw [h.eq, occurrences_append h.leftmost, List.cons_append, occurrences, occurrences_append (hu.noneBegins_tail a),
    if_pos, Nat.add_comm]
  exact List.prefix_append (c :: s') a

theorem Unbordered.length_pieces [DecidableEq α] (hs : s ≠ []) (hu : Unbordered s) (h : Pieces s t ps) :
    ps.length = occurrences s t + 1 := by
  induction h with
  | last hnot => rw [occurrences_eq_zero hnot, List.length_singleton]
  | cut hcut _ ih => rw [List.length_cons, ih, hu.occurrences_cut hs hcut]

/-! ### One element as separator -/

theorem noneBegins_singleton {c : α} : NoneBegins [c] x t ↔ c ∉ x := by
  induction x with
  | nil => simp
  | cons d x ih =>
    rw [noneBegins_cons, ih, List.mem_cons, not_or, List.cons_prefix_cons]
    simp

theorem prefix_append_cons_iff {c : α} {y v : List α} (hx : c ∉ x) : x <+: y ++ c :: v ↔ x <+: y := by
  constructor
  · intro h
    rcases List.prefix_or_prefix_of_prefix h (List.prefix_append y _) with hxy | ⟨z, rfl⟩
    · exact hxy
    · rw [List.prefix_append_right_inj] at h
      cases z with
      | nil => rw [List.append_nil]
      | cons d z =>
        obtain ⟨rfl, -⟩ := List.cons_prefix_cons.mp h
        exact absurd (List.mem_append_right _ List.mem_cons_self) hx
  · exact fun h => h.trans (List.prefix_append _ _)

theorem append_cons_prefix_iff {c : α} {u y v : List α} (hx : c ∉ x) (hy : c ∉ y) :
    x ++ c :: u <+: y ++ c :: v ↔ x = y ∧ u <+: v := by
  constructor
  · intro h
    obtain ⟨z, rfl⟩ := (prefix_append_cons_iff hx).mp ((List.prefix_append _ _).trans h)
    rw [List.append_assoc, List.prefix_append_right_inj] at h
    cases z with
    | nil => exact ⟨(List.append_nil _).symm, (List.cons_prefix_cons.mp h).2⟩
    | cons d z =>
      obtain ⟨rfl, -⟩ := List.cons_prefix_cons.mp h
      exact absurd (List.mem_append_right _ List.mem_cons_self) hy
  · rintro ⟨rfl, h⟩
    rw [List.prefix_append_right_inj, List.cons_prefix_cons]
    exact ⟨rfl, h⟩

/-- Parts without the separator are the pieces of what they are joined to. -/
theorem pieces_intercalate_singleton {c : α} {ps : List (List α)} (hps : ps ≠ []) (h : ∀ p ∈ ps, c ∉ p) :
    Pieces [c] ([c].intercalate ps) ps := by
  induction ps with
  | nil => contradiction
  | cons p ps ih =>
    obtain ⟨hp, htail⟩ := List.forall_mem_cons.mp h
    by_cases hnil : ps = []
    · subst hnil
      rw [List.intercalate_singleton]
      refine .last fun hoccurs => hp (hoccurs.subset (List.mem_singleton_self c))
    · rw [List.intercalate_cons_of_ne_nil hnil, List.append_assoc]
      exact .cut ⟨rfl, noneBegins_singleton.mpr hp⟩ (ih hnil htail)

end Libhbk.Occurrence
