import Libhbk.Base.Loop
import Libhbk.Base.Occurrence

/-!
# `split`

Strings are lists of characters, of any type; `npos` is `none`. Both overloads of `split` are the loop `splitBody`
with their own `find`. It cuts where `CutsFrom` says, so that the tokens are the `Pieces` of the text.
-/

namespace Libhbk.Strings

open Occurrence Loop

variable {α : Type*} [DecidableEq α]

/-- `text.find(s, pos)` -/
def find (text s : List α) (pos : Nat) : Option Nat :=
  if pos ≤ text.length then (find? s (text.drop pos)).map (pos + ·) else none

/-- `text.find(c, pos)` for one character. -/
def findChar (text : List α) (c : α) (pos : Nat) : Option Nat :=
  ((text.drop pos).idxOf? c).map (pos + ·)

/-- `text.substr(pos, n)` for `pos <= text.size()`, where it does not throw. -/
def substr (text : List α) (pos : Nat) : Option Nat → List α
  | none => text.drop pos
  | some n => (text.drop pos).take n

abbrev Tokens (α : Type*) := List (List α)

structure Scan (α : Type*) where
  result : Tokens α
  pos_start : Nat

/-- `pos_end` is found by `search`, the next token starts `n` characters behind it. -/
def splitBody (text : List α) (search : Nat → Option Nat) (n : Nat) : Loop (Scan α) (Tokens α)
  | ⟨result, pos_start⟩ =>
    -- `npos - pos_start` is more than what is left
    let token := substr text pos_start ((search pos_start).map (· - pos_start))
    match search pos_start with
    | none => .inr (result ++ [token])
    | some pos_end => .inl ⟨result ++ [token], pos_end + n⟩

variable {text s : List α} {c : α} {pos : Nat}

theorem find_none (h : ∀ k, pos ≤ k → ¬ s <+: text.drop k) : find text s pos = none := by
  rw [find]
  split
  · obtain ⟨hnone, -⟩ | ⟨b, a, -, hcut⟩ := find?_cases s (text.drop pos)
    · rw [hnone]
      rfl
    · obtain ⟨k, hle, hocc⟩ := infix_drop_iff.mp hcut.isInfix
      exact absurd hocc (h k hle)
  · rfl

theorem find_of_cut {b a : List α} (h : Cut s (text.drop pos) b a) (hpos : pos ≤ text.length) :
    find text s pos = some (pos + b.length) := by
  rw [find, if_pos hpos, h.find?_eq]
  rfl

theorem find_inside {j : Nat} (h : find text s pos = some j) : pos ≤ j ∧ j + s.length ≤ text.length := by
  rw [find] at h
  split at h
  · obtain ⟨hnone, -⟩ | ⟨b, a, hsome, hcut⟩ := find?_cases s (text.drop pos)
    · rw [hnone] at h
      contradiction
    · have hlength := hcut.length
      rw [List.length_drop] at hlength
      rw [hsome, Option.map_some, Option.some.injEq] at h
      omega
  · contradiction

theorem find_zero_iff : find text s 0 = some 0 ↔ s <+: text := by
  rw [find, if_pos (Nat.zero_le _), List.drop_zero]
  constructor
  · intro h
    obtain ⟨hnone, -⟩ | ⟨b, a, hsome, hcut⟩ := find?_cases s text
    · rw [hnone] at h
      contradiction
    · rw [hsome, Option.map_some, Option.some.injEq, Nat.zero_add] at h
      rw [hcut.eq, List.eq_nil_of_length_eq_zero h]
      exact List.prefix_append s a
  · intro h
    rw [find?_of_begins h]
    rfl

theorem find?_singleton (c : α) (t : List α) : find? [c] t = t.idxOf? c := by
  induction t with
  | nil => rfl
  | cons d t ih =>
    rw [find?, List.idxOf?_cons, ih]
    simp only [List.cons_prefix_cons, List.nil_prefix, and_true, beq_iff_eq, @eq_comm _ d c]

theorem findChar_eq (text : List α) (c : α) : findChar text c = find text [c] := by
  funext pos
  rw [findChar, find, find?_singleton]
  split
  · rfl
  · rw [List.drop_of_length_le (by omega)]
    rfl

/-- The loop ends: each token is behind the one before, and `substr` is never asked for more than the end. -/
theorem splitBody_step (hs : s ≠ []) (x x' : Scan α) (h : splitBody text (find text s) s.length x = .inl x') :
    x'.pos_start ≤ text.length ∧ text.length - x'.pos_start < text.length - x.pos_start := by
  have hpos := List.length_pos_of_ne_nil hs
  rw [splitBody] at h
  cases hfind : find text s x.pos_start with
  | none =>
    rw [hfind] at h
    contradiction
  | some pos_end =>
    have hinside := find_inside hfind
    rw [hfind] at h
    obtain rfl := Sum.inl.inj h
    dsimp only
    omega

theorem splitBody_ends (hs : s ≠ []) (text : List α) :
    (run (splitBody text (find text s) s.length) (text.length + 1) ⟨[], 0⟩).isSome :=
  run_isSome (I := fun _ => True) (μ := fun x => text.length - x.pos_start)
    (fun x x' _ h => ⟨trivial, (splitBody_step hs x x' h).2⟩) trivial (Nat.lt_succ_self _)

theorem splitBody_char_ends (text : List α) (c : α) :
    (run (splitBody text (findChar text c) 1) (text.length + 1) ⟨[], 0⟩).isSome := by
  rw [findChar_eq]
  exact splitBody_ends (List.cons_ne_nil c []) text

/-- `split(text, separator)` for a single character. -/
def splitChar (text : List α) (separator : α) : Tokens α :=
  (run (splitBody text (findChar text separator) 1) (text.length + 1) ⟨[], 0⟩).get (splitBody_char_ends text separator)

/-- `split(text, separator)` for a string. -/
def split (text separator : List α) : Tokens α :=
  if h : separator = [] then [text]
  else (run (splitBody text (find text separator) separator.length) (text.length + 1) ⟨[], 0⟩).get
    (splitBody_ends h text)

theorem splitChar_eq (text : List α) (c : α) : splitChar text c = split text [c] := by
  rw [split, dif_neg (List.cons_ne_nil c [])]
  simp only [splitChar, findChar_eq]
  rfl

theorem returns_split (hs : s ≠ []) (text : List α) :
    Returns (splitBody text (find text s) s.length) ⟨[], 0⟩ (split text s) := by
  rw [split, dif_neg hs]
  exact returns_of_run (Option.some_get _).symm

theorem splitBody_returns (hs : s ≠ []) {js : List Nat} (h : CutsFrom s text pos js) (result : Tokens α) :
    Returns (splitBody text (find text s) s.length) ⟨result, pos⟩ (result ++ between s.length text pos js) := by
  induction h generalizing result with
  | none hnone =>
    refine .leave ?_
    rw [splitBody, find_none hnone]
    rfl
  | @next i j js hle hocc hfirst _ ih =>
    have hpos := List.length_pos_of_ne_nil hs
    have hlength := hocc.length_le
    rw [List.length_drop] at hlength
    have hfind := find_of_cut (cut_drop hle hocc hfirst) (by omega)
    rw [List.length_take, List.length_drop, Nat.min_eq_left (by omega), Nat.add_sub_cancel' hle] at hfind
    have hrest := ih (result ++ [(text.drop i).take (j - i)])
    rw [List.append_assoc] at hrest
    refine .next ?_ hrest
    rw [splitBody, hfind]
    rfl

theorem split_eq_between (hs : s ≠ []) {js : List Nat} (h : CutsFrom s text 0 js) :
    split text s = between s.length text 0 js :=
  (returns_split hs text).unique (splitBody_returns hs h [])

theorem pieces_split (hs : s ≠ []) (text : List α) : Pieces s text (split text s) := by
  obtain ⟨js, hjs⟩ := exists_cutsFrom hs text 0
  rw [split_eq_between hs hjs]
  exact hjs.pieces

theorem length_splitChar (text : List α) (c : α) : (splitChar text c).length = text.count c + 1 := by
  have hcount (t : List α) : occurrences [c] t = t.count c := by
    induction t with
    | nil => rfl
    | cons d t ih =>
      rw [occurrences, ih, List.count_cons, Nat.add_comm]
      simp only [List.cons_prefix_cons, List.nil_prefix, and_true, beq_iff_eq, @eq_comm _ d c]
  rw [splitChar_eq, (unbordered_singleton c).length_pieces (List.cons_ne_nil c []) (pieces_split (List.cons_ne_nil c []) text),
    hcount]

/-- **`split` is the leftmost decomposition**: the cuts are the leftmost occurrences that do not overlap, and the
tokens are what is between them. -/
theorem split_leftmost :
    (∀ text s : List α, s ≠ [] →
      s.intercalate (split text s) = text ∧ (∀ token ∈ split text s, ¬ s <:+: token) ∧
        ∃ js, (∀ ks, CutsFrom s text 0 ks ↔ ks = js) ∧ split text s = between s.length text 0 js ∧
          (split text s).length = js.length + 1) ∧
      ∀ (text : List α) (c : α), splitChar text c = split text [c] := by
  refine ⟨fun text s hs => ?_, splitChar_eq⟩
  have hpieces := pieces_split hs text
  obtain ⟨js, hjs⟩ := exists_cutsFrom hs text 0
  have hbetween := split_eq_between hs hjs
  refine ⟨hpieces.intercalate, hpieces.not_infix hs, js, fun ks => ?_, hbetween, ?_⟩
  · constructor
    · exact fun hks => hks.unique hjs
    · rintro rfl
      exact hjs
  · rw [hbetween, length_between]

theorem split_leftmost_overlapping :
    (['a', 'a'].intercalate (split "aaaab".toList "aa".toList) = "aaaab".toList ∧
        ∀ token ∈ split "aaaab".toList "aa".toList, ¬ ['a', 'a'] <:+: token) ∧
      splitChar "a.b".toList '.' = split "a.b".toList ['.'] :=
  ⟨⟨(split_leftmost.1 "aaaab".toList "aa".toList (by decide)).1,
    (split_leftmost.1 "aaaab".toList "aa".toList (by decide)).2.1⟩, split_leftmost.2 "a.b".toList '.'⟩

example : split "aaaab".toList "aa".toList = ["".toList, "".toList, "b".toList] := by decide

end Libhbk.Strings
