import Mathlib.Data.Option.Basic

/-!
# Loops that may not end

The body of a loop takes a state and either goes on with another state or leaves the loop with a result.
`Returns` is the meaning of the loop, `run` computes it. The rules: `Returns.invariant` for what holds where the
loop is left, `run_isSome` for loops with a measure that decreases.
-/

namespace Libhbk

/-- A loop by its body: `.inl` goes on, `.inr` leaves. -/
abbrev Loop (S R : Type*) := S → S ⊕ R

namespace Loop

variable {S R : Type*}

/-- Started in `s` the loop ends after finitely many iterations, with result `r`. -/
inductive Returns (body : Loop S R) : S → R → Prop
  | leave {s r} : body s = .inr r → Returns body s r
  | next {s s' r} : body s = .inl s' → Returns body s' r → Returns body s r

/-- At most `n` iterations. -/
def run (body : Loop S R) : Nat → S → Option R
  | 0, _ => none
  | n + 1, s =>
    match body s with
    | .inl s' => run body n s'
    | .inr r => some r

variable {body : Loop S R} {s s' : S} {r r' : R}

theorem returns_of_leave (h : body s = .inr r) : Returns body s r' ↔ r' = r := by
  constructor
  · intro hret
    cases hret with
    | leave h' =>
      rw [h] at h'
      exact (Sum.inr.inj h').symm
    | next h' _ =>
      rw [h] at h'
      contradiction
  · rintro rfl
    exact .leave h

theorem returns_of_next (h : body s = .inl s') : Returns body s r ↔ Returns body s' r := by
  constructor
  · intro hret
    cases hret with
    | leave h' =>
      rw [h] at h'
      contradiction
    | next h' hret =>
      rw [h] at h'
      rwa [Sum.inl.inj h']
  · exact .next h

theorem Returns.unique (h : Returns body s r) (h' : Returns body s r') : r = r' := by
  induction h with
  | leave hs => exact ((returns_of_leave hs).mp h').symm
  | next hs _ ih => exact ih ((returns_of_next hs).mp h')

theorem returns_of_run {n : Nat} (h : run body n s = some r) : Returns body s r := by
  induction n generalizing s with
  | zero => simp [run] at h
  | succ n ih =>
    rw [run] at h
    split at h
    · next s' hs => exact .next hs (ih h)
    · next r' hs => exact .leave (by rw [hs, Option.some.inj h])

/-- What holds at the start and is kept by every iteration holds where the loop is left. -/
theorem Returns.invariant {I : S → Prop} (hstep : ∀ s s', I s → body s = .inl s' → I s') (h : Returns body s r)
    (hs : I s) : ∃ s', I s' ∧ body s' = .inr r := by
  induction h with
  | leave hleave => exact ⟨_, hs, hleave⟩
  | next hnext _ ih => exact ih (hstep _ _ hs hnext)

/-- **A measure that decreases** bounds the iterations. -/
theorem run_isSome {I : S → Prop} {μ : S → Nat} (hstep : ∀ s s', I s → body s = .inl s' → I s' ∧ μ s' < μ s)
    (hs : I s) {n : Nat} (hn : μ s < n) : (run body n s).isSome := by
  induction n generalizing s with
  | zero => omega
  | succ n ih =>
    rw [run]
    split
    · next s' hnext =>
      obtain ⟨hs', hlt⟩ := hstep _ _ hs hnext
      exact ih hs' (by omega)
    · exact Option.isSome_some

end Loop

end Libhbk
