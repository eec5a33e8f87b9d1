import Libhbk.Base.Machine
import Mathlib.Logic.Function.Basic

/-!
# The event loop on Windows

`execute` takes a packet from the completion port and calls the handler that `m_eventInfos` has under the packet's
key, again and again as long as it returns a positive value. The lock is held in one turn of this inner loop and
free between two of them. The actions are the steps of `execute`, and what handlers and other threads do.
-/

namespace Libhbk

open Machine

variable {H : Type}

namespace Windows

/-- What `GetQueuedCompletionStatus` gives: nothing was dequeued; an operation failed; a packet. -/
inductive EventLoop.Dequeued where
  | nothing
  | failed (lastError completionKey : Nat)
  | packet (completionKey : Nat)
  deriving DecidableEq, Repr

def errorNetnameDeleted : Nat := 64

def errorOperationAborted : Nat := 995

/-- Where `execute` is: waiting for a packet, before `find` in the inner loop (`further` if the handler's value was
positive), in the handler, in the handler of a connection that is closed, before the loop's condition, left. -/
inductive EventLoop.Pc where
  | wait
  | find (further : Bool)
  | handling
  | closed
  | test
  | returned (retVal : Int)
  | thrown
  deriving DecidableEq, Repr

/-- `m_eventInfos` and the variables of `execute`. -/
structure EventLoop (H : Type) where
  eventInfos : Nat → Option H
  event : Nat
  retval : Int
  pc : EventLoop.Pc

/-- `handled` is a handler that returns, `threw` one that does not. -/
inductive EventLoop.Act (H : Type) where
  | completion (c : Dequeued)
  | find
  | handled (retval : Int)
  | threw
  | test
  | addEvent (event : Nat) (eventHandler : Option H)
  | eraseEvent (event : Nat)
  deriving DecidableEq, Repr

namespace EventLoop

/-- `execute()` is called. -/
def start (eventInfos : Nat → Option H) : EventLoop H := ⟨eventInfos, 0, 0, .wait⟩

/-- What `execute` does with what it dequeued; the key of the stop packet is `WSA_INVALID_EVENT`. -/
def dequeue (s : EventLoop H) : Dequeued → EventLoop H
  | .nothing => s
  | .failed lastError completionKey =>
    if lastError = errorNetnameDeleted then
      if (s.eventInfos completionKey).isSome then { s with event := completionKey, pc := .closed } else s
    else if lastError ≠ errorOperationAborted then { s with pc := .returned 0 }
    else s
  | .packet completionKey =>
    if completionKey = 0 then { s with pc := .returned 0 }
    else { s with event := completionKey, retval := 0, pc := .find false }

def step : Machine (EventLoop H) (Act H)
  | s, .completion c => if s.pc = .wait then some (dequeue s c) else none
  | s, .find =>
    match s.pc with
    | .find _ => some { s with pc := if (s.eventInfos s.event).isSome then .handling else .test }
    | _ => none
  | s, .handled retval =>
    match s.pc with
    | .handling => some { s with retval := retval, pc := .test }
    | .closed => some { s with pc := .wait }
    | _ => none
  | s, .threw => if s.pc = .handling ∨ s.pc = .closed then some { s with pc := .thrown } else none
  | s, .test =>
    if s.pc = .test then some { s with pc := if 0 < s.retval then .find true else .wait } else none
  | s, .addEvent event eventHandler =>
    match eventHandler with
    | none => some s
    | some handler => some { s with eventInfos := Function.update s.eventInfos event (some handler) }
  | s, .eraseEvent event => some { s with eventInfos := Function.update s.eventInfos event none }

/-! ### The turns of the inner loop -/

/-- A turn after the first one is taken only with the event registered. -/
def Fine (x : EventLoop H × Act H) : Prop :=
  x.2 = .find → x.1.pc = .find true → (x.1.eventInfos x.1.event).isSome

/-- The turns since the last packet; the newest action comes first. -/
def turns : List (Act H) → Nat
  | [] => 0
  | .completion _ :: _ => 0
  | .find :: acts => turns acts + 1
  | _ :: acts => turns acts

/-- How often since then a handler returned a positive value. -/
def positives : List (Act H) → Nat
  | [] => 0
  | .completion _ :: _ => 0
  | .handled retval :: acts => positives acts + if 0 < retval then 1 else 0
  | _ :: acts => positives acts

/-- Since the last turn `event` has been erased, and not added again. -/
def gone (event : Nat) : List (Act H) → Bool
  | [] => false
  | .find :: _ => false
  | .eraseEvent e :: acts => if e = event then true else gone event acts
  | .addEvent e (some _) :: acts => if e = event then false else gone event acts
  | _ :: acts => gone event acts

/-- At no further turn the event has been erased since the turn before. -/
def Kept : List (EventLoop H × Act H) → Prop
  | [] => True
  | (s, a) :: tr => Kept tr ∧ (a = .find → s.pc = .find true → gone s.event (tr.map Prod.snd) = false)

/-- The inner loop does not spin: no further turn without the event, and one turn more at most than positive
values. -/
structure Ends (tr : List (EventLoop H × Act H)) : Prop where
  fine : ∀ x ∈ tr, Fine x
  turns_le : turns (tr.map Prod.snd) ≤ positives (tr.map Prod.snd) + 1

/-! ### What holds between two actions -/

variable {s s' : EventLoop H} {a : Act H} {acts : List (Act H)} {tr : List (EventLoop H × Act H)}

/-- The dispatched event is registered unless it is gone. -/
def Tracked (acts : List (Act H)) (s : EventLoop H) : Prop := (s.eventInfos s.event).isSome = !gone s.event acts

/-- As long as every further turn found the event. -/
structure Inv (acts : List (Act H)) (s : EventLoop H) : Prop where
  turns_le : turns acts ≤ positives acts + 1
  first : s.pc = .find false → s.retval = 0 ∧ turns acts = 0
  further : s.pc = .find true → turns acts ≤ positives acts ∧ Tracked acts s
  handling : s.pc = .handling → Tracked acts s
  test : s.pc = .test → 0 < s.retval → turns acts ≤ positives acts ∧ Tracked acts s

theorem tracked_add (h : Tracked acts s) (event : Nat) (handler : H) :
    Tracked (.addEvent event (some handler) :: acts)
      { s with eventInfos := Function.update s.eventInfos event (some handler) } := by
  change (Function.update s.eventInfos event (some handler) s.event).isSome =
    !if event = s.event then false else gone s.event acts
  by_cases he : event = s.event
  · rw [if_pos he, he, Function.update_self]
    rfl
  · rw [if_neg he, Function.update_of_ne (Ne.symm he)]
    exact h

theorem tracked_erase (h : Tracked acts s) (event : Nat) :
    Tracked (.eraseEvent event :: acts) { s with eventInfos := Function.update s.eventInfos event none } := by
  change (Function.update s.eventInfos event none s.event).isSome =
    !if event = s.event then true else gone s.event acts
  by_cases he : event = s.event
  · rw [if_pos he, he, Function.update_self]
    rfl
  · rw [if_neg he, Function.update_of_ne (Ne.symm he)]
    exact h

theorem Inv.change (h : Inv acts s) {eventInfos : Nat → Option H} (hturns : turns (a :: acts) = turns acts)
    (hpositives : positives (a :: acts) = positives acts)
    (htracked : Tracked acts s → Tracked (a :: acts) { s with eventInfos := eventInfos }) :
    Inv (a :: acts) { s with eventInfos := eventInfos } := by
  refine ⟨?_, fun hpc => ?_, fun hpc => ?_, fun hpc => htracked (h.handling hpc), fun hpc hpos => ?_⟩
  · rw [hturns, hpositives]
    exact h.turns_le
  · rw [hturns]
    exact h.first hpc
  · rw [hturns, hpositives]
    exact ⟨(h.further hpc).1, htracked (h.further hpc).2⟩
  · rw [hturns, hpositives]
    exact ⟨(h.test hpc hpos).1, htracked (h.test hpc hpos).2⟩

theorem inv_outside (hturns : turns acts ≤ positives acts + 1)
    (hpc : s.pc = .wait ∨ s.pc = .closed ∨ s.pc = .thrown ∨ ∃ r, s.pc = .returned r) : Inv acts s := by
  refine ⟨hturns, fun h => ?_, fun h => ?_, fun h => ?_, fun h => ?_⟩ <;> simp [h] at hpc

theorem dequeue_inv (c : Dequeued) (hpc : s.pc = .wait) : Inv (.completion c :: acts) (dequeue s c) := by
  have hturns : turns (Act.completion c :: acts) ≤ positives (Act.completion c :: acts) + 1 := Nat.zero_le _
  cases c with
  | nothing => exact inv_outside hturns (Or.inl hpc)
  | failed lastError completionKey =>
    rw [dequeue]
    split_ifs
    · exact inv_outside hturns (Or.inr (Or.inl rfl))
    · exact inv_outside hturns (Or.inl hpc)
    · exact inv_outside hturns (Or.inr (Or.inr (Or.inr ⟨0, rfl⟩)))
    · exact inv_outside hturns (Or.inl hpc)
  | packet completionKey =>
    rw [dequeue]
    split_ifs
    · exact inv_outside hturns (Or.inr (Or.inr (Or.inr ⟨0, rfl⟩)))
    · exact ⟨hturns, fun _ => ⟨rfl, rfl⟩, nofun, nofun, nofun⟩

theorem find_inv (h : Inv acts s) {further : Bool} (hpc : s.pc = .find further) (hfine : Fine (s, .find)) :
    Inv (.find :: acts) { s with pc := if (s.eventInfos s.event).isSome then .handling else .test } := by
  have hturns : turns acts ≤ positives acts := by
    cases further with
    | false => exact (h.first hpc).2 ▸ Nat.zero_le _
    | true => exact (h.further hpc).1
  by_cases hfound : (s.eventInfos s.event).isSome = true
  · rw [if_pos hfound]
    exact ⟨Nat.succ_le_succ hturns, nofun, nofun, fun _ => hfound, nofun⟩
  · rw [if_neg hfound]
    refine ⟨Nat.succ_le_succ hturns, nofun, nofun, nofun, fun _ hpos => ?_⟩
    -- there is no such turn but the first one
    cases further with
    | false => exact absurd (h.first hpc).1 (Int.ne_of_gt hpos)
    | true => exact absurd (hfine rfl hpc) hfound

theorem step_inv (h : Inv acts s) (hfine : Fine (s, a)) (hstep : step s a = some s') : Inv (a :: acts) s' := by
  cases a with
  | completion c =>
    obtain ⟨hpc, hstep⟩ := Option.ite_none_right_eq_some.mp hstep
    obtain rfl := Option.some.inj hstep
    exact dequeue_inv c hpc
  | find =>
    cases hpc : s.pc with
    | find further =>
      simp only [step, hpc] at hstep
      obtain rfl := Option.some.inj hstep
      exact find_inv h hpc hfine
    | wait | handling | closed | test | returned _ | thrown => simp only [step, hpc, reduceCtorEq] at hstep
  | handled retval =>
    have hle : positives acts ≤ positives (Act.handled retval :: acts) := Nat.le_add_right _ _
    have hturns : turns (Act.handled retval :: acts) ≤ positives (Act.handled retval :: acts) + 1 :=
      h.turns_le.trans (Nat.succ_le_succ hle)
    cases hpc : s.pc with
    | handling =>
      simp only [step, hpc] at hstep
      obtain rfl := Option.some.inj hstep
      refine ⟨hturns, nofun, nofun, nofun, fun _ hpos => ⟨?_, h.handling hpc⟩⟩
      rw [positives, if_pos hpos]
      exact h.turns_le
    | closed =>
      simp only [step, hpc] at hstep
      obtain rfl := Option.some.inj hstep
      exact inv_outside hturns (Or.inl rfl)
    | wait | find _ | test | returned _ | thrown => simp only [step, hpc, reduceCtorEq] at hstep
  | threw =>
    obtain ⟨_, hstep⟩ := Option.ite_none_right_eq_some.mp hstep
    obtain rfl := Option.some.inj hstep
    exact inv_outside h.turns_le (Or.inr (Or.inr (Or.inl rfl)))
  | test =>
    obtain ⟨hpc, hstep⟩ := Option.ite_none_right_eq_some.mp hstep
    obtain rfl := Option.some.inj hstep
    split_ifs with hpos
    · exact ⟨h.turns_le, nofun, fun _ => h.test hpc hpos, nofun, nofun⟩
    · exact inv_outside h.turns_le (Or.inl rfl)
  | addEvent event eventHandler =>
    cases eventHandler with
    | none =>
      obtain rfl := Option.some.inj hstep
      exact h.change rfl rfl id
    | some handler =>
      obtain rfl := Option.some.inj hstep
      exact h.change rfl rfl fun htracked => tracked_add htracked event handler
  | eraseEvent event =>
    obtain rfl := Option.some.inj hstep
    exact h.change rfl rfl fun htracked => tracked_erase htracked event

theorem fine_iff (h : Inv acts s) :
    Fine (s, a) ↔ (a = .find → s.pc = .find true → gone s.event acts = false) := by
  refine forall₂_congr fun _ hpc => ?_
  rw [(h.further hpc).2]
  cases gone s.event acts <;> simp

theorem run_inv {eventInfos : Nat → Option H} (hrun : step.Run (start eventInfos) tr s) :
    ((∀ x ∈ tr, Fine x) ↔ Kept tr) ∧ (Kept tr → Inv (tr.map Prod.snd) s) := by
  refine hrun.trace_induction
    (P := fun tr s => ((∀ x ∈ tr, Fine x) ↔ Kept tr) ∧ (Kept tr → Inv (tr.map Prod.snd) s)) ?_ ?_
  · exact ⟨iff_of_true (List.forall_mem_nil _) trivial, fun _ => inv_outside (Nat.zero_le _) (Or.inl rfl)⟩
  · intro tr s a s' _ ih hstep
    obtain ⟨hiff, hinv⟩ := ih
    have hnew : Kept tr → (Fine (s, a) ↔ (a = .find → s.pc = .find true → gone s.event (tr.map Prod.snd) = false)) :=
      fun hkept => fine_iff (hinv hkept)
    constructor
    · rw [List.forall_mem_cons, Kept, hiff, and_comm]
      exact and_congr_right hnew
    · rintro ⟨hkept, hlast⟩
      exact step_inv (hinv hkept) ((hnew hkept).mpr hlast) hstep

/-- **The inner loop ends** exactly if at no further turn the event has been erased since the turn before. -/
theorem execute_ends_iff {eventInfos : Nat → Option H} (hrun : step.Run (start eventInfos) tr s) :
    Ends tr ↔ Kept tr := by
  obtain ⟨hiff, hinv⟩ := run_inv hrun
  exact ⟨fun hends => hiff.mp hends.fine, fun hkept => ⟨hiff.mpr hkept, (hinv hkept).turns_le⟩⟩

/-- The handler wants to be called once more. -/
theorem execute_ends_twice :
    ∃ (tr : List (EventLoop Nat × Act Nat)) (s : EventLoop Nat), step.Run (start fun _ => none) tr s ∧
      s.pc = .wait ∧ turns (tr.map Prod.snd) = 2 ∧ Ends tr := by
  have hrun := run_of_exec step (start fun _ => none : EventLoop Nat)
    [.addEvent 5 (some 10), .completion (.packet 5), .find, .handled 1, .test, .eraseEvent 6, .find, .handled 0, .test]
    rfl
  refine ⟨_, _, hrun, rfl, rfl, (execute_ends_iff hrun).mpr ?_⟩
  simp [Kept, gone, dequeue, start]

theorem turns_without (hpc : s.pc = .find true) (hnone : s.eventInfos s.event = none) (hpos : 0 < s.retval) (n : Nat) :
    ∃ tr : List (EventLoop H × Act H), step.Run s tr s ∧ ∀ acts,
      turns (tr.map Prod.snd ++ acts) = turns acts + n ∧ positives (tr.map Prod.snd ++ acts) = positives acts := by
  have hfind : step s .find = some { s with pc := .test } := by
    simp only [step, hpc, hnone, Option.isSome_none, Bool.false_eq_true, if_false]
  have htest : step { s with pc := .test } .test = some s := by
    simp only [step, if_true, if_pos hpos, ← hpc]
  induction n with
  | zero => exact ⟨[], Run.nil, fun acts => ⟨rfl, rfl⟩⟩
  | succ n ih =>
    obtain ⟨tr, hrun, hcount⟩ := ih
    refine ⟨_, (hrun.snoc hfind).snoc htest, fun acts => ?_⟩
    obtain ⟨hturns, hpositives⟩ := hcount acts
    constructor
    · change turns (tr.map Prod.snd ++ acts) + 1 = turns acts + (n + 1)
      omega
    · exact hpositives

/-- A handler erases its own event and returns 1. It is called once, and the loop takes any number of turns. -/
theorem erased_spins :
    (∀ n, ∃ (tr : List (EventLoop Nat × Act Nat)) (s : EventLoop Nat), step.Run (start fun _ => none) tr s ∧
      positives (tr.map Prod.snd) = 1 ∧ turns (tr.map Prod.snd) = n + 1 ∧ s.pc = .find true) ∧
    ¬ ∀ (tr : List (EventLoop Nat × Act Nat)) (s : EventLoop Nat), step.Run (start fun _ => none) tr s → Ends tr := by
  obtain ⟨tr₀, s, hrun, hpc, hnone, hpos, hpositives₀, hturns₀⟩ :
      ∃ (tr : List (EventLoop Nat × Act Nat)) (s : EventLoop Nat), step.Run (start fun _ => none) tr s ∧
        s.pc = .find true ∧ s.eventInfos s.event = none ∧ 0 < s.retval ∧ positives (tr.map Prod.snd) = 1 ∧
        turns (tr.map Prod.snd) = 1 :=
    ⟨_, _, run_of_exec _ _ [.addEvent 5 (some 10), .completion (.packet 5), .find, .eraseEvent 5, .handled 1, .test] rfl,
      rfl, rfl, Int.one_pos, rfl, rfl⟩
  have hspins : ∀ n, ∃ (tr : List (EventLoop Nat × Act Nat)) (s : EventLoop Nat),
      step.Run (start fun _ => none) tr s ∧ positives (tr.map Prod.snd) = 1 ∧ turns (tr.map Prod.snd) = n + 1 ∧
        s.pc = .find true := by
    intro n
    obtain ⟨tr, hmore, hcount⟩ := turns_without hpc hnone hpos n
    obtain ⟨hturns, hpositives⟩ := hcount (tr₀.map Prod.snd)
    refine ⟨_, s, hrun.trans hmore, ?_, ?_, hpc⟩
    · rw [List.map_append, hpositives, hpositives₀]
    · rw [List.map_append, hturns, hturns₀, Nat.add_comm]
  refine ⟨hspins, fun h => ?_⟩
  obtain ⟨tr, s, hrun, hpositives, hturns, _⟩ := hspins 2
  have hle := (h tr s hrun).turns_le
  omega

end EventLoop

end Windows

end Libhbk
