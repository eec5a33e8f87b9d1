import Libhbk.Base.Machine
import Mathlib.Algebra.Order.Ring.Nat

/-!
# Counting over runs

Two rules for runs of a machine. `Run.sum_eq` keeps an exact account: what the steps of a run take from a measure is
what it has lost at the end. `Run.countP_le` bounds the steps that work, where each of them lowers a potential, by
the potential at the start and the steps that raise it.
-/

namespace Libhbk

theorem countP_cons_toNat {α : Type*} (q : α → Bool) (x : α) (xs : List α) :
    (x :: xs).countP q = xs.countP q + (q x).toNat := by
  rw [List.countP_cons]
  cases q x <;> rfl

namespace Machine

variable {S A : Type*} {m : Machine S A} {s₀ s : S} {tr : List (S × A)}

/-- **Account.** -/
theorem Run.sum_eq {P : S → Prop} (measure : S → Nat) (taken : S → A → Nat) (h0 : P s₀)
    (hkeep : ∀ s a s', P s → m s a = some s' → P s')
    (hstep : ∀ s a s', P s → m s a = some s' → measure s' + taken s a = measure s) (h : Run m s₀ tr s) :
    measure s + (tr.map fun x => taken x.1 x.2).sum = measure s₀ := by
  induction h with
  | nil => rfl
  | snoc hrun hs ih =>
    have hone := hstep _ _ _ (hrun.invariant h0 hkeep) hs
    rw [List.map_cons, List.sum_cons]
    dsimp only
    omega

/-- **Potential.** -/
theorem Run.countP_le {P : S → Prop} {G : S → A → Prop} (potential : S → Nat) (works credits : S → A → Bool) (h0 : P s₀)
    (hkeep : ∀ s a s', P s → G s a → m s a = some s' → P s')
    (hstep : ∀ s a s', P s → G s a → m s a = some s' →
      potential s' + (works s a).toNat ≤ potential s + (credits s a).toNat)
    (h : Run m s₀ tr s) (hg : ∀ x ∈ tr, G x.1 x.2) :
    potential s + tr.countP (fun x => works x.1 x.2) ≤ potential s₀ + tr.countP fun x => credits x.1 x.2 := by
  induction h with
  | nil => exact Nat.le_refl _
  | @snoc tr s a s' hrun hs ih =>
    have hold := fun x hx => hg x (List.mem_cons_of_mem _ hx)
    have hone := hstep s a s' (hrun.guarded h0 hkeep hold) (hg _ List.mem_cons_self) hs
    have hsum := ih hold
    rw [countP_cons_toNat, countP_cons_toNat]
    dsimp only
    omega

end Machine

end Libhbk
