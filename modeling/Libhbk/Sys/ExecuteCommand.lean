import Libhbk.Base.Machine
import Libhbk.Communication.Ipv4Address

/-!
# Executing a command with input

`executeCommand` writes to the standard input of a child and waits for it. A run follows one process: the parent, or the
child that is the result of `fork`. How the child ends is known from `waitStatus` only.
-/

namespace Libhbk

/-- How a process ends. -/
inductive ChildEnd
  | exited (code : UInt8)
  | signaled (signal : Nat) (coreDump : Bool) (h : 0 < signal ∧ signal < 127)

/-- How `waitpid` puts it. -/
def ChildEnd.waitStatus : ChildEnd → Nat
  | exited code => code.toNat <<< 8
  | signaled signal coreDump _ => if coreDump then signal + 128 else signal

/-- What `waitpid` returns: the child has ended, or -1; `waitStatus` is `uninitialised` then. -/
inductive WaitResult
  | ended (e : ChildEnd)
  | error (uninitialised : UInt32)

def WaitResult.waitStatus : WaitResult → Nat
  | ended e => e.waitStatus
  | error uninitialised => uninitialised.toNat

/-- What `write` returns: a number of bytes, or -1; `intr` if `errno` is `EINTR` then. -/
inductive WriteResult
  | count (bytes : Nat)
  | error (intr : Bool)

/-- The arguments. -/
structure ExecuteCommand where
  command : List Char
  params : List (List Char)
  stdinString : List Char

namespace ExecuteCommand

open Machine
open Ipv4Address (cStr)

/-- The calls of the system with what they return; -1 is `none` or `false`. -/
inductive Call
  | pipe (pfd : Option (Nat × Nat))
  | fork (cpid : Int)
  | dup2 (success : Bool)
  | execve (success : Bool)
  | write (result : WriteResult)
  | waitpid (result : WaitResult)

/-- The call that comes next, or how the process goes on without one. -/
inductive Pc
  | pipe
  | fork
  | dup2
  | execve
  | write
  | waitpid
  | replaced (path : List Char) (argv : List (List Char))
  | exited (status : Nat)
  | returned (ret : Int)

/-- The variables, and what has been written to the pipe. -/
structure State where
  pc : Pc
  pfd : Nat × Nat
  pStdinData : Nat
  stdinDataSize : Nat
  written : List Char

def STDIN_FILENO : Nat := 0

def EXIT_SUCCESS : Nat := 0

def EXIT_FAILURE : Nat := 1

def WIFEXITED (waitStatus : Nat) : Prop := waitStatus &&& 0x7f = 0

instance (waitStatus : Nat) : Decidable (WIFEXITED waitStatus) := inferInstanceAs (Decidable (_ = _))

def WEXITSTATUS (waitStatus : Nat) : Nat := (waitStatus &&& 0xff00) >>> 8

/-- What is returned for a `waitStatus`. -/
def evaluate (waitStatus : Nat) : Int :=
  if ¬ WIFEXITED waitStatus then -1
  else if WEXITSTATUS waitStatus ≠ EXIT_SUCCESS then -1
  else 0

/-- `while(stdinDataSize)` -/
def loop (s : State) : State := { s with pc := if s.stdinDataSize ≠ 0 then .write else .waitpid }

def start (c : ExecuteCommand) : State := ⟨.pipe, (0, 0), 0, c.stdinString.length, []⟩

/-- The arguments as the new program gets them. -/
def argv (c : ExecuteCommand) : List (List Char) := cStr c.command :: c.params.map cStr

def step (c : ExecuteCommand) : Machine State Call := fun s call =>
  match s.pc, call with
  | .pipe, .pipe none => some { s with pc := .returned (-1) }
  | .pipe, .pipe (some pfd) => some { s with pc := .fork, pfd := pfd }
  | .fork, .fork cpid =>
    if cpid = -1 then some { s with pc := .returned (-1) }
    else if cpid = 0 then some { s with pc := if s.pfd.1 ≠ STDIN_FILENO then .dup2 else .execve }
    else if 0 < cpid then some (loop s)
    else some { s with pc := .returned (-1) }
  | .dup2, .dup2 success => some { s with pc := if success then .execve else .returned (-1) }
  | .execve, .execve success =>
    some { s with pc := if success then .replaced (cStr c.command) c.argv else .exited EXIT_FAILURE }
  | .write, .write (.count ret) =>
    if ret ≤ s.stdinDataSize then
      some (loop { s with
        stdinDataSize := s.stdinDataSize - ret
        pStdinData := s.pStdinData + ret
        written := s.written ++ (c.stdinString.drop s.pStdinData).take ret })
    else none
  | .write, .write (.error _) => some { s with pc := .waitpid }
  | .waitpid, .waitpid result => some { s with pc := .returned (evaluate result.waitStatus) }
  | _, _ => none

/-! ### The status of the child -/

theorem wifexited_iff (waitStatus : Nat) : WIFEXITED waitStatus ↔ waitStatus % 128 = 0 := by
  rw [WIFEXITED, Nat.and_two_pow_sub_one_eq_mod waitStatus 7]

theorem wexitstatus_eq (waitStatus : Nat) : WEXITSTATUS waitStatus = waitStatus / 256 % 256 := by
  rw [WEXITSTATUS, Nat.shiftRight_and_distrib, Nat.shiftRight_eq_div_pow]
  exact Nat.and_two_pow_sub_one_eq_mod (waitStatus / 256) 8

theorem evaluate_eq_zero_iff (waitStatus : Nat) :
    evaluate waitStatus = 0 ↔ WIFEXITED waitStatus ∧ WEXITSTATUS waitStatus = EXIT_SUCCESS := by
  rw [evaluate]
  split_ifs with hexited hsuccess
  · exact iff_of_false (by decide) fun h => hsuccess h.2
  · exact iff_of_true rfl ⟨hexited, not_not.mp hsuccess⟩
  · exact iff_of_false (by decide) fun h => hexited h.1

/-- **The status tells how the child has ended.** -/
theorem evaluate_waitStatus (e : ChildEnd) : evaluate e.waitStatus = 0 ↔ e = .exited 0 := by
  rw [evaluate_eq_zero_iff, wifexited_iff, wexitstatus_eq, EXIT_SUCCESS]
  cases e with
  | exited code =>
    have hlt := code.toNat_lt
    rw [ChildEnd.waitStatus, Nat.shiftLeft_eq, ChildEnd.exited.injEq, ← UInt8.toNat_inj, UInt8.toNat_zero]
    omega
  | signaled signal coreDump h =>
    rw [ChildEnd.waitStatus]
    apply iff_of_false
    · split_ifs <;> omega
    · exact fun heq => by contradiction

/-! ### Runs -/

variable {c : ExecuteCommand} {tr : List (State × Call)} {s s' : State} {call : Call}

/-- What the calls of `waitpid` returned. -/
def waits (tr : List (State × Call)) : List WaitResult :=
  tr.filterMap fun x => match x.2 with
    | .waitpid result => some result
    | _ => none

theorem waits_waitpid (s : State) (result : WaitResult) (tr : List (State × Call)) :
    waits ((s, .waitpid result) :: tr) = result :: waits tr := rfl

/-- A call of `write` returned -1. -/
def WriteFails (tr : List (State × Call)) : Prop := ∃ x ∈ tr, ∃ intr, x.2 = .write (.error intr)

theorem writeFails_nil : ¬ WriteFails [] := by
  rintro ⟨x, hx, -⟩
  contradiction

theorem writeFails_cons : WriteFails ((s, call) :: tr) ↔ (∃ intr, call = .write (.error intr)) ∨ WriteFails tr := by
  simp only [WriteFails, List.exists_mem_cons_iff]

/-- Neither has a call of `write` failed nor `waitpid` been called. -/
def Quiet (tr : List (State × Call)) : Prop := waits tr = [] ∧ ¬ WriteFails tr

/-- What is known of the calls where the process is. -/
def Phase (tr : List (State × Call)) (s : State) : Prop :=
  match s.pc with
  | .waitpid => waits tr = [] ∧ (s.stdinDataSize = 0 ↔ ¬ WriteFails tr)
  | .returned ret => (waits tr = [] ∧ ret ≠ 0) ∨
      ∃ result, waits tr = [result] ∧ ret = evaluate result.waitStatus ∧ (s.stdinDataSize = 0 ↔ ¬ WriteFails tr)
  | .write => Quiet tr ∧ s.stdinDataSize ≠ 0
  | _ => Quiet tr

/-- The bytes written are those in front of `pStdinData`, and `stdinDataSize` counts the others. -/
structure Inv (c : ExecuteCommand) (tr : List (State × Call)) (s : State) : Prop where
  written : s.written = c.stdinString.take s.pStdinData
  size : s.pStdinData + s.stdinDataSize = c.stdinString.length
  phase : Phase tr s

theorem quiet_nil : Quiet [] := ⟨rfl, writeFails_nil⟩

theorem Quiet.cons (h : Quiet tr) (hwait : ∀ result, call ≠ .waitpid result)
    (hwrite : ∀ intr, call ≠ .write (.error intr)) : Quiet ((s, call) :: tr) := by
  refine ⟨?_, ?_⟩
  · rw [waits, List.filterMap_cons_none]
    · exact h.1
    · cases call with
      | waitpid result => exact absurd rfl (hwait result)
      | _ => rfl
  · rw [writeFails_cons]
    rintro (⟨intr, rfl⟩ | hfails)
    · exact hwrite intr rfl
    · exact h.2 hfails

theorem Quiet.loop (h : Quiet tr) : Phase tr (loop s) := by
  rw [Phase, ExecuteCommand.loop]
  by_cases hsize : s.stdinDataSize = 0
  · rw [if_neg (not_not.mpr hsize)]
    exact ⟨h.1, iff_of_true hsize h.2⟩
  · rw [if_pos hsize]
    exact ⟨h, hsize⟩

theorem inv_start (c : ExecuteCommand) : Inv c [] c.start :=
  ⟨rfl, Nat.zero_add _, quiet_nil⟩

theorem Quiet.failed {data : State} (h : Quiet tr) : Phase tr { data with pc := .returned (-1) } :=
  Or.inl ⟨h.1, by decide⟩

theorem Inv.step (h : Inv c tr s) (hstep : c.step s call = some s') : Inv c ((s, call) :: tr) s' := by
  obtain ⟨hwritten, hsize, hphase⟩ := h
  unfold Phase at hphase
  unfold ExecuteCommand.step at hstep
  split at hstep
  · next hpc =>
    rw [hpc] at hphase
    have hquiet : Quiet ((s, .pipe none) :: tr) := Quiet.cons hphase (by simp) (by simp)
    obtain rfl := Option.some.inj hstep
    exact ⟨hwritten, hsize, hquiet.failed⟩
  · next pfd hpc =>
    rw [hpc] at hphase
    obtain rfl := Option.some.inj hstep
    exact ⟨hwritten, hsize, Quiet.cons hphase (by simp) (by simp)⟩
  · next cpid hpc =>
    rw [hpc] at hphase
    have hquiet : Quiet ((s, .fork cpid) :: tr) := Quiet.cons hphase (by simp) (by simp)
    split_ifs at hstep with hfailed hchild hparent
    · obtain rfl := Option.some.inj hstep
      exact ⟨hwritten, hsize, hquiet.failed⟩
    · obtain rfl := Option.some.inj hstep
      exact ⟨hwritten, hsize, hquiet⟩
    · obtain rfl := Option.some.inj hstep
      exact ⟨hwritten, hsize, hquiet⟩
    · obtain rfl := Option.some.inj hstep
      exact ⟨hwritten, hsize, hquiet.loop⟩
    · obtain rfl := Option.some.inj hstep
      exact ⟨hwritten, hsize, hquiet.failed⟩
  · next success hpc =>
    rw [hpc] at hphase
    have hquiet : Quiet ((s, .dup2 success) :: tr) := Quiet.cons hphase (by simp) (by simp)
    obtain rfl := Option.some.inj hstep
    cases success
    · exact ⟨hwritten, hsize, hquiet.failed⟩
    · exact ⟨hwritten, hsize, hquiet⟩
  · next success hpc =>
    rw [hpc] at hphase
    have hquiet : Quiet ((s, .execve success) :: tr) := Quiet.cons hphase (by simp) (by simp)
    obtain rfl := Option.some.inj hstep
    cases success <;> exact ⟨hwritten, hsize, hquiet⟩
  · next ret hpc =>
    rw [hpc] at hphase
    obtain ⟨hret, hstep⟩ := Option.ite_none_right_eq_some.mp hstep
    obtain rfl := Option.some.inj hstep
    refine ⟨?_, ?_, (hphase.1.cons (by simp) (by simp)).loop⟩
    · change s.written ++ (c.stdinString.drop s.pStdinData).take ret = c.stdinString.take (s.pStdinData + ret)
      rw [hwritten, List.take_add]
    · change s.pStdinData + ret + (s.stdinDataSize - ret) = c.stdinString.length
      omega
  · next intr hpc =>
    rw [hpc] at hphase
    obtain rfl := Option.some.inj hstep
    refine ⟨hwritten, hsize, hphase.1.1, ?_⟩
    exact iff_of_false hphase.2 (not_not.mpr (writeFails_cons.mpr (Or.inl ⟨intr, rfl⟩)))
  · next result hpc =>
    rw [hpc] at hphase
    obtain ⟨hwaits, hall⟩ := hphase
    obtain rfl := Option.some.inj hstep
    refine ⟨hwritten, hsize, Or.inr ⟨result, ?_, rfl, ?_⟩⟩
    · rw [waits_waitpid, hwaits]
    · rw [hall, writeFails_cons, or_iff_right]
      rintro ⟨intr, h⟩
      contradiction
  · contradiction

theorem run_inv (h : c.step.Run c.start tr s) : Inv c tr s :=
  h.trace_induction (inv_start c) fun _ _ _ _ _ hinv hstep => hinv.step hstep

/-! ### What 0 stands for -/

/-- What has been written is the beginning of `stdinString`, and where 0 is returned it is all of it and the child has
exited with `EXIT_SUCCESS`. -/
def Delivers (c : ExecuteCommand) (tr : List (State × Call)) (s : State) : Prop :=
  s.written <+: c.stdinString ∧
    (s.pc = .returned 0 → s.written = c.stdinString ∧ .ended (.exited 0) ∈ waits tr)

/-- The status says that the child has exited with `EXIT_SUCCESS`. -/
def ReadsSuccess (waitStatus : Nat) : Prop := WIFEXITED waitStatus ∧ WEXITSTATUS waitStatus = EXIT_SUCCESS

theorem Inv.written_eq_iff (h : Inv c tr s) : s.written = c.stdinString ↔ s.stdinDataSize = 0 := by
  have hsize := h.size
  rw [h.written, List.take_eq_self_iff]
  omega

theorem Inv.returned (h : Inv c tr s) : (waits tr = [] ∧ s.pc ≠ .returned 0) ∨
    ∃ result, waits tr = [result] ∧ s.pc = .returned (evaluate result.waitStatus) ∧
      (s.stdinDataSize = 0 ↔ ¬ WriteFails tr) := by
  have hphase := h.phase
  unfold Phase at hphase
  split at hphase
  · next hpc => exact Or.inl ⟨hphase.1, by simp [hpc]⟩
  · next ret hpc =>
    obtain ⟨hwaits, hne⟩ | ⟨result, hwaits, rfl, hall⟩ := hphase
    · exact Or.inl ⟨hwaits, by simpa [hpc] using hne⟩
    · exact Or.inr ⟨result, hwaits, hpc, hall⟩
  · next hpc => exact Or.inl ⟨hphase.1.1, by simp [hpc]⟩
  · next hnot _ => exact Or.inl ⟨hphase.1, hnot 0⟩

/-- **0 is returned only after everything has been delivered**, exactly if no `write` fails where the child exits with
`EXIT_SUCCESS`, and no `waitpid` fails where `waitStatus` happens to say so. -/
theorem executeCommand_iff (c : ExecuteCommand) {tr : List (State × Call)} {s : State}
    (h : c.step.Run c.start tr s) :
    Delivers c tr s ↔ (.ended (.exited 0) ∈ waits tr → ¬ WriteFails tr) ∧
      ∀ uninitialised : UInt32, .error uninitialised ∈ waits tr → ¬ ReadsSuccess uninitialised.toNat := by
  have hinv := run_inv h
  have hwritten : s.written <+: c.stdinString := by
    rw [hinv.written]
    exact List.take_prefix _ _
  rw [Delivers, and_iff_right hwritten]
  obtain ⟨hwaits, hpc⟩ | ⟨result, hwaits, hpc, hall⟩ := hinv.returned
  · rw [hwaits]
    apply iff_of_true
    · exact fun hzero => absurd hzero hpc
    · exact ⟨fun hmem => by contradiction, fun _ hmem => by contradiction⟩
  · rw [hwaits, hpc, Pc.returned.injEq, hinv.written_eq_iff, hall]
    cases result with
    | ended e =>
      rw [WaitResult.waitStatus, evaluate_waitStatus]
      simp only [List.mem_singleton, WaitResult.ended.injEq, reduceCtorEq, false_imp_iff, implies_true, and_true]
      constructor
      · exact fun hdelivers hexited => (hdelivers hexited.symm).1
      · exact fun hexited he => ⟨hexited he.symm, he.symm⟩
    | error uninitialised =>
      rw [WaitResult.waitStatus, evaluate_eq_zero_iff]
      simp only [List.mem_singleton, WaitResult.error.injEq, reduceCtorEq, false_imp_iff, true_and, and_false,
        imp_false, forall_eq, ReadsSuccess]

def wc : ExecuteCommand := ⟨"/usr/bin/wc".toList, ["-w".toList], "bla blub".toList⟩

/-- Written in two parts. -/
theorem executeCommand_wc : ∃ tr s, wc.step.Run wc.start tr s ∧ s.pc = .returned 0 ∧
    (Delivers wc tr s ↔ (.ended (.exited 0) ∈ waits tr → ¬ WriteFails tr) ∧
      ∀ uninitialised : UInt32, .error uninitialised ∈ waits tr → ¬ ReadsSuccess uninitialised.toNat) := by
  have hrun := run_of_exec wc.step wc.start
    [.pipe (some (3, 4)), .fork 7, .write (.count 3), .write (.count 5), .waitpid (.ended (.exited 0))] rfl
  exact ⟨_, _, hrun, rfl, executeCommand_iff wc hrun⟩

/-- Does not read its input. -/
def binTrue : ExecuteCommand := ⟨"/bin/true".toList, [], "bla blub".toList⟩

theorem binTrue_returns_zero : ∃ tr s, binTrue.step.Run binTrue.start tr s ∧ s.pc = .returned 0 ∧ s.written = [] ∧
    ¬ Delivers binTrue tr s := by
  have hrun := run_of_exec binTrue.step binTrue.start
    [.pipe (some (3, 4)), .fork 7, .write (.error false), .waitpid (.ended (.exited 0))] rfl
  refine ⟨_, _, hrun, rfl, rfl, ?_⟩
  rintro ⟨-, hzero⟩
  have hall := (hzero rfl).1
  contradiction

end ExecuteCommand

end Libhbk
