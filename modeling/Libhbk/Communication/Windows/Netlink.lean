import Libhbk.Sys.Windows.Overlapped

/-!
# Changes of the interfaces on Windows

`Netlink` has `NotifyAddrChange` announce the next change of the addresses. `process` brings the list of adapters up to
date, tells the observer, and orders the next announcement. A change between the update and the order is announced by
nobody: the list stays behind until there is another one.
-/

namespace Libhbk.Windows

open Machine Port Operation

/-- The configuration of the interfaces by the number of its changes: as it is, as the list of adapters has it, and as
it was when the announcement was ordered. -/
structure Netlink where
  configuration : Nat
  netadapterlist : Nat
  ordered : Nat
  deriving DecidableEq, Repr

namespace Netlink

inductive Outside where
  | change

/-- In a call of `process`: whether `GetAdaptersInfo` succeeds, and whether the observer throws. -/
structure Process where
  updates : Bool
  throws : Bool

def update (s : Netlink) (updates : Bool) : Netlink := if updates then { s with netadapterlist := s.configuration } else s

/-- `Netlink::process`. An announcement comes when the configuration is not that of the order. -/
def operation : Operation Netlink Outside Process where
  outside
    | .change, s => some { s with configuration := s.configuration + 1 }
  completes s := if s.ordered < s.configuration then some s else none
  work x s := some (x.throws, s.update x.updates)
  orders s := { s with ordered := s.configuration }
  ret ordered := if ordered then 0 else -1
  ret_nonpos ordered := by cases ordered <;> decide

/-- After the constructor of the list and `start`, with nothing changed in between. -/
def start (n : Nat) : Netlink := ⟨n, n, n⟩

variable {H : Type}

/-- A step, with the state it is made in. -/
abbrev Entry (H : Type) := State H Netlink × Operation.Act H Outside Process

/-- Since the list was brought up to date last, there was a change before the order, or an update has failed that would
have found one. The newest step comes first. -/
def missed : List (Entry H) → Bool
  | [] => false
  | (s, .outside .change) :: tr => s.working || missed tr
  | (s, .work x) :: _ => !x.updates && (s.items.netadapterlist != s.items.configuration)
  | _ :: tr => missed tr

/-- What the list is behind. -/
structure Behind (tr : List (Entry H)) (s : State H Netlink) : Prop where
  list_le : s.items.netadapterlist ≤ s.items.configuration
  ordered_le : s.items.ordered ≤ s.items.configuration
  working : s.working = true → (s.items.netadapterlist = s.items.configuration ↔ missed tr = false)
  pending : s.pending = true → (s.items.netadapterlist = s.items.ordered ↔ missed tr = false)

variable {key : Nat} {tr : List (Entry H)} {s s' : State H Netlink} {a : Operation.Act H Outside Process}

theorem Behind.step (h : Behind tr s) (hinv : Operation.Inv operation key tr s) (hs : Operation.Step operation key s a s') :
    Behind ((s, a) :: tr) s' := by
  cases hs with
  | dequeue hport => exact ⟨h.list_le, h.ordered_le, h.working, h.pending⟩
  | aside hne haside => exact ⟨h.list_le, h.ordered_le, h.working, h.pending⟩
  | @outside e q hout =>
    cases e with
    | change =>
      obtain rfl := Option.some.inj hout
      have hlist := h.list_le
      have hordered := h.ordered_le
      refine ⟨hlist.trans (Nat.le_succ _), hordered.trans (Nat.le_succ _), fun hworking => ?_, fun hpending => ?_⟩
      · rw [missed, show s.working = true from hworking, Bool.true_or]
        refine iff_of_false (fun heq => ?_) (by simp)
        dsimp only at heq
        omega
      · have hidle : s.working = false := by
          rw [Bool.eq_false_iff]
          intro hworking
          have halone := (hinv.alone (hinv.working hworking)).1
          rw [show s.pending = true from hpending] at halone
          simp at halone
        rw [missed, hidle, Bool.false_or]
        exact h.pending hpending
  | complete hpending hq =>
    obtain ⟨_, hq⟩ := Option.ite_none_right_eq_some.mp hq
    obtain rfl := Option.some.inj hq
    exact ⟨h.list_le, h.ordered_le, h.working, fun hno => by simp at hno⟩
  | fail hpending => exact ⟨h.list_le, h.ordered_le, h.working, fun hno => by simp at hno⟩
  | @work x throws q loop hprocessing hworking hwork hloop =>
    obtain ⟨_, rfl⟩ := Prod.mk.inj (Option.some.inj hwork)
    have hpending := (hinv.alone hprocessing).1
    have hnone : ∀ P : Prop, s.pending = true → P := by
      intro P hyes
      rw [hpending] at hyes
      simp at hyes
    cases hupdates : x.updates with
    | true =>
      refine ⟨Nat.le_refl _, h.ordered_le, fun _ => ?_, fun hyes => hnone _ hyes⟩
      rw [missed, hupdates]
      exact iff_of_true rfl rfl
    | false =>
      refine ⟨h.list_le, h.ordered_le, fun _ => ?_, fun hyes => hnone _ hyes⟩
      rw [missed, hupdates, Bool.not_false, Bool.true_and, bne_eq_false_iff_eq]
      exact Iff.rfl
  | @finish ordered loop hworking hloop =>
    have hpending := (hinv.alone (hinv.working hworking)).1
    cases ordered with
    | true => exact ⟨h.list_le, Nat.le_refl _, fun hno => by simp at hno, fun _ => h.working hworking⟩
    | false =>
      refine ⟨h.list_le, h.ordered_le, fun hno => by simp at hno, fun hyes => ?_⟩
      dsimp only at hyes
      rw [hpending] at hyes
      simp at hyes

theorem run_behind (hkey : key ≠ 0) {eventInfos : Nat → Option H} {process : H} {n : Nat}
    (h : (operation.step key).Run (Operation.start eventInfos key process (start n)) tr s) : Behind tr s := by
  have hboth : Operation.Inv operation key tr s ∧ Behind tr s := by
    refine h.trace_induction (P := fun tr s => Operation.Inv operation key tr s ∧ Behind tr s) ?_ ?_
    · exact ⟨run_inv hkey .nil, Nat.le_refl _, Nat.le_refl _, fun hno => by simp [Operation.start] at hno,
        fun _ => iff_of_true rfl rfl⟩
    · intro tr s a s' _ hboth hs
      have hcases := step_cases hkey hboth.1.serves hs
      exact ⟨hboth.1.step hcases, hboth.2.step hboth.1 hcases⟩
  exact hboth.2

/-- **The list is current, or behind until the next change.** Each announcement is processed once, but for those that
fail, the one that is queued and the one that `execute` is about to process. If nothing has lost the announcements, then
where `execute` waits with nothing to process and nothing to announce, the list is that of the configuration exactly if
no change has come between the last update and the order behind it, and no update has failed since. -/
theorem list_current_iff (hkey : key ≠ 0) (eventInfos : Nat → Option H) (process : H) (n : Nat)
    (h : (operation.step key).Run (Operation.start eventInfos key process (start n)) tr s) :
    tr.countP (fun y => ends y.2) = tr.countP (fun y => works y.2) + tr.countP (drops operation key) +
        s.port.countP (ours key) + (engaged key s.loop && !s.working).toNat ∧
      (tr.any (loses operation key) = false → s.loop.pc = .wait → s.port.countP (ours key) = 0 →
        operation.completes s.items = none →
          (s.items.netadapterlist = s.items.configuration ↔ missed tr = false)) := by
  have hinv := run_inv hkey h
  have hbehind := run_behind hkey h
  refine ⟨hinv.account, fun hkept hpc hport hnothing => ?_⟩
  have hordered : s.items.ordered = s.items.configuration := by
    have hle := hbehind.ordered_le
    have hnot : ¬ s.items.ordered < s.items.configuration := fun hlt => by simp [operation, hlt] at hnothing
    omega
  rw [← hordered]
  exact hbehind.pending (hinv.rests hkept hpc hport).1

/-- A second change comes before the announcement of it is ordered: the list stays behind. -/
theorem list_current_iff_second_change :
    ∃ (tr : List (Entry Nat)) (s : State Nat Netlink),
      (operation.step 7).Run (Operation.start (fun _ => none) 7 10 (start 0)) tr s ∧ s.loop.pc = .wait ∧
      s.items = ⟨2, 1, 2⟩ ∧ missed tr = true ∧ (s.items.netadapterlist = s.items.configuration ↔ missed tr = false) := by
  have hexec : ((operation.step 7).exec [] (Operation.start (fun _ => none) 7 (10 : Nat) (start 0))
      [.outside .change, .complete, .port .dequeue, .port (.loop .find), .work ⟨true, false⟩, .outside .change,
        .finish true, .port (.loop .test)]).map
          (fun x => ((x.1.any (loses operation 7), missed x.1), x.2.loop.pc, x.2.port, x.2.items)) =
      some ((false, true), .wait, [], ⟨2, 1, 2⟩) := by
    decide +kernel
  obtain ⟨⟨tr, s⟩, hrun, hend⟩ := Option.map_eq_some_iff.mp hexec
  simp only [Prod.mk.injEq] at hend
  obtain ⟨⟨hkept, hmissed⟩, hpc, hport, hitems⟩ := hend
  have hrun := run_of_exec _ _ _ hrun
  have hiff := (list_current_iff (by decide) _ _ _ hrun).2 hkept hpc (by rw [hport]; rfl) (by rw [hitems]; rfl)
  exact ⟨tr, s, hrun, hpc, hitems, hmissed, hiff⟩

end Netlink

end Libhbk.Windows
