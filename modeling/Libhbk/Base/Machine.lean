import Mathlib.Data.List.Infix
import Mathlib.Data.Option.Basic
import Mathlib.Order.Monotone.Basic

/-!
# Partial machines and their runs

A machine is a partial step function: `m s a` is the state after action `a` in `s`, `none` if `a` is
not enabled there. `Run m s₀ tr s` is a finite run from `s₀` to `s`; its trace `tr` lists the steps
taken, each with the state it was taken in, the newest first. `exec` computes runs.

The rules: `Run.invariant` for what every step keeps, `Run.guarded` for what the steps that meet a
condition keep, `Run.forall_iff` for what the steps themselves do, `Run.trace_induction` for facts that
tie the state to its trace, and `Run.split` to look at the step behind one entry of a trace. `settle` drives
a machine with any list of actions, `along` with any endless sequence of them; `exists_disabled` is the rule for
what ends.
-/

namespace Libhbk

/-- A partial step function on states `S` under actions `A`. -/
abbrev Machine (S A : Type*) := S → A → Option S

namespace Machine

variable {S A : Type*}

/-- A finite run of `m` from `s₀`, with its trace (newest step first). -/
inductive Run (m : Machine S A) (s₀ : S) : List (S × A) → S → Prop
  | nil : Run m s₀ [] s₀
  | snoc {tr s a s'} : Run m s₀ tr s → m s a = some s' → Run m s₀ ((s, a) :: tr) s'

/-- Execute the actions in order, extending the trace. -/
def exec (m : Machine S A) : List (S × A) → S → List A → Option (List (S × A) × S)
  | tr, s, [] => some (tr, s)
  | tr, s, a :: as => (m s a).bind fun s' => exec m ((s, a) :: tr) s' as

variable {m : Machine S A} {s₀ s : S} {tr : List (S × A)}

theorem Run.exec (h : Run m s₀ tr s) (as : List A) {tr' : List (S × A)} {s' : S}
    (he : m.exec tr s as = some (tr', s')) : Run m s₀ tr' s' := by
  induction as generalizing tr s with
  | nil =>
    simp only [Machine.exec, Option.some.injEq, Prod.mk.injEq] at he
    obtain ⟨rfl, rfl⟩ := he
    exact h
  | cons a as ih =>
    simp only [Machine.exec, Option.bind_eq_some_iff] at he
    obtain ⟨s₁, hstep, he⟩ := he
    exact ih (h.snoc hstep) he

theorem run_of_exec (m : Machine S A) (s₀ : S) (as : List A) {tr' : List (S × A)} {s' : S}
    (he : m.exec [] s₀ as = some (tr', s')) : Run m s₀ tr' s' :=
  Run.nil.exec as he

/-- The same for the state alone, where the trace does not matter. -/
theorem exists_run_of_exec (m : Machine S A) (s₀ : S) (as : List A) (s' : S)
    (he : (m.exec [] s₀ as).map Prod.snd = some s') : ∃ tr, Run m s₀ tr s' := by
  obtain ⟨⟨tr, s₁⟩, hexec, rfl⟩ := Option.map_eq_some_iff.mp he
  exact ⟨tr, run_of_exec m s₀ as hexec⟩

/-- Facts about a state together with the trace that leads to it. -/
theorem Run.trace_induction {P : List (S × A) → S → Prop} (h0 : P [] s₀)
    (hstep : ∀ tr s a s', Run m s₀ tr s → P tr s → m s a = some s' → P ((s, a) :: tr) s')
    (h : Run m s₀ tr s) : P tr s := by
  induction h with
  | nil => exact h0
  | snoc hrun hs ih => exact hstep _ _ _ _ hrun ih hs

/-- What holds at the start and is kept by every step that meets `G` holds after every run whose
steps all meet `G`. -/
theorem Run.guarded {P : S → Prop} {G : S → A → Prop} (h0 : P s₀)
    (hstep : ∀ s a s', P s → G s a → m s a = some s' → P s')
    (h : Run m s₀ tr s) (hg : ∀ x ∈ tr, G x.1 x.2) : P s := by
  induction h with
  | nil => exact h0
  | snoc hrun hs ih =>
    exact hstep _ _ _ (ih fun x hx => hg x (List.mem_cons_of_mem _ hx)) (hg _ List.mem_cons_self) hs

/-- What holds at the start and is kept by every step holds after every run. -/
theorem Run.invariant {P : S → Prop} (h0 : P s₀)
    (hstep : ∀ s a s', P s → m s a = some s' → P s') (h : Run m s₀ tr s) : P s :=
  h.guarded (G := fun _ _ => True) h0 (fun s a s' hp _ hs => hstep s a s' hp hs) fun _ _ => trivial

/-- Steps that do what they should: where that is a condition on the step in every state that meets `P`, and such
steps keep `P`. -/
theorem Run.forall_iff {P : S → Prop} {Q G : S → A → Prop} (h0 : P s₀)
    (hiff : ∀ s a s', P s → m s a = some s' → (Q s a ↔ G s a))
    (hstep : ∀ s a s', P s → Q s a → m s a = some s' → P s') (h : Run m s₀ tr s) :
    (∀ x ∈ tr, Q x.1 x.2) ↔ ∀ x ∈ tr, G x.1 x.2 := by
  have hboth : ((∀ x ∈ tr, Q x.1 x.2) ↔ ∀ x ∈ tr, G x.1 x.2) ∧ ((∀ x ∈ tr, Q x.1 x.2) → P s) := by
    induction h with
    | nil => exact ⟨⟨fun _ => List.forall_mem_nil _, fun _ => List.forall_mem_nil _⟩, fun _ => h0⟩
    | snoc hrun hs ih =>
      obtain ⟨ih, hp⟩ := ih
      rw [List.forall_mem_cons, List.forall_mem_cons, ← ih]
      exact ⟨and_congr_left fun hall => hiff _ _ _ (hp hall) hs, fun hall => hstep _ _ _ (hp hall.2) hall.1 hs⟩
  exact hboth.1

theorem Run.trans {s₁ : S} {tr' : List (S × A)} (h : Run m s₀ tr s) (h' : Run m s tr' s₁) :
    Run m s₀ (tr' ++ tr) s₁ := by
  induction h' with
  | nil => exact h
  | snoc _ hs ih => exact ih.snoc hs

/-- The run behind a split trace: up to the older part, and from there on. -/
theorem Run.append {tr₁ tr₂ : List (S × A)} (h : Run m s₀ (tr₂ ++ tr₁) s) :
    ∃ s₁, Run m s₀ tr₁ s₁ ∧ Run m s₁ tr₂ s := by
  induction tr₂ generalizing s with
  | nil => exact ⟨s, h, Run.nil⟩
  | cons x tr₂ ih =>
    cases h with
    | snoc hrun hs =>
      obtain ⟨s₁, h₁, h₂⟩ := ih hrun
      exact ⟨s₁, h₁, h₂.snoc hs⟩

/-- The run up to one entry of a trace, that entry's step, and the run after it. -/
theorem Run.split {x : S × A} {tr₁ tr₂ : List (S × A)} (h : Run m s₀ (tr₂ ++ x :: tr₁) s) :
    ∃ s', Run m s₀ tr₁ x.1 ∧ m x.1 x.2 = some s' ∧ Run m s' tr₂ s := by
  obtain ⟨s₁, h₁, h₂⟩ := h.append
  cases h₁ with
  | snoc hrun hs => exact ⟨s₁, hrun, hs, h₂⟩

/-- Every state a run goes through is reached by a run with a shorter trace. -/
theorem Run.of_mem (h : Run m s₀ tr s) {x : S × A} (hx : x ∈ tr) :
    ∃ tr₁, Run m s₀ tr₁ x.1 ∧ ∀ y ∈ tr₁, y ∈ tr := by
  obtain ⟨tr₂, tr₁, rfl⟩ := List.append_of_mem hx
  obtain ⟨_, h₁, _, _⟩ := h.split
  exact ⟨tr₁, h₁, fun y hy => List.mem_append_right _ (List.mem_cons_of_mem _ hy)⟩

/-! ### Actions taken in order as long as they are enabled -/

/-- Where `m` ends up: at the first action that is not enabled, or behind the last one. -/
def settle (m : Machine S A) : S → List A → S
  | s, [] => s
  | s, a :: as =>
    match m s a with
    | none => s
    | some s' => settle m s' as

theorem settle_cons {a : A} {s' : S} (h : m s a = some s') (as : List A) : m.settle s (a :: as) = m.settle s' as := by
  rw [settle, h]

theorem settle_none {a : A} (h : m s a = none) (as : List A) : m.settle s (a :: as) = s := by
  rw [settle, h]

theorem settle_stuck (h : ∀ a, m s a = none) (as : List A) : m.settle s as = s := by
  cases as with
  | nil => rfl
  | cons a as => exact settle_none (h a) as

theorem settle_invariant {P : S → Prop} (hstep : ∀ s a s', P s → m s a = some s' → P s') (h : P s) (as : List A) :
    P (m.settle s as) := by
  induction as generalizing s with
  | nil => exact h
  | cons a as ih =>
    rw [settle]
    split
    · exact h
    · next s' hs' => exact ih (hstep s a s' h hs')

/-! ### Endless sequences of actions -/

/-- The state after the first `n` actions; one that is not enabled changes nothing. -/
def along (m : Machine S A) (s : S) (acts : Nat → A) : Nat → S
  | 0 => s
  | n + 1 => (m (along m s acts n) (acts n)).getD (along m s acts n)

variable {acts : Nat → A}

theorem along_succ {n : Nat} {s' : S} (h : m (m.along s acts n) (acts n) = some s') : m.along s acts (n + 1) = s' := by
  rw [along, h, Option.getD_some]

theorem exists_run_along (m : Machine S A) (s : S) (acts : Nat → A) (n : Nat) : ∃ tr, Run m s tr (m.along s acts n) := by
  induction n with
  | zero => exact ⟨[], Run.nil⟩
  | succ n ih =>
    obtain ⟨tr, hrun⟩ := ih
    cases hstep : m (m.along s acts n) (acts n) with
    | none => exact ⟨tr, by rwa [along, hstep, Option.getD_none]⟩
    | some s' => exact ⟨_, along_succ hstep ▸ hrun.snoc hstep⟩

/-- **Progress.** Where no step increases the rank and the actions `G` decrease it, a sequence with `G` again and
again comes to an action that is not enabled. -/
theorem exists_disabled {P : S → Prop} {G : A → Prop} (rank : S → Nat) (h0 : P s)
    (hkeep : ∀ s a s', P s → m s a = some s' → P s')
    (hle : ∀ s a s', P s → m s a = some s' → rank s' ≤ rank s)
    (hlt : ∀ s a s', P s → G a → m s a = some s' → rank s' < rank s)
    (hagain : ∀ i, ∃ j, i ≤ j ∧ G (acts j)) : ∃ n, m (m.along s acts n) (acts n) = none := by
  by_contra hnever
  have henabled : ∀ n, m (m.along s acts n) (acts n) = some (m.along s acts (n + 1)) := by
    intro n
    cases hstep : m (m.along s acts n) (acts n) with
    | none => exact absurd ⟨n, hstep⟩ hnever
    | some s' => rw [along_succ hstep]
  have hP : ∀ n, P (m.along s acts n) := by
    intro n
    obtain ⟨tr, hrun⟩ := exists_run_along m s acts n
    exact hrun.invariant h0 hkeep
  have hanti : Antitone fun n => rank (m.along s acts n) :=
    antitone_nat_of_succ_le fun n => hle _ _ _ (hP n) (henabled n)
  -- behind every state the rank is below every bound
  have hbelow : ∀ k i, rank (m.along s acts i) < k → False := by
    intro k
    induction k with
    | zero => exact fun i hi => Nat.not_lt_zero _ hi
    | succ k ih =>
      intro i hi
      obtain ⟨j, hij, hG⟩ := hagain i
      have hdrop := hlt _ _ _ (hP j) hG (henabled j)
      exact ih (j + 1) (hdrop.trans_le ((hanti hij).trans (Nat.le_of_lt_succ hi)))
  exact hbelow _ 0 (Nat.lt_succ_self _)

end Machine

end Libhbk
