import Libhbk.Sys.EventLoop.Drain

/-!
# A batch is served before `execute` waits again

The passes over a batch go on until no signalled event is left, edge triggered events are not reported
again. A handler that throws is not counted as left: its event stays on, and is served in the next pass if
some other handler of this pass asks for one, but dropped if this pass is the last. A handler that runs may register
the handler of an event anew: `addEvent` calls it then until nothing is left, which serves the event too.
-/

namespace Libhbk

namespace Sys

variable {H : Type}

theorem batch_ends {s₀ s₁ s : Sys H} (hagree : s₀.loop.Agrees) {fds : List Fd}
    (hwait : exec s₀ (.wait fds) = some s₁) (hstop : ∀ fd ∈ fds, (s₀.loop.kernel.report fd).ptr ≠ none)
    {tr : List (Sys H × Act H)} (hrun : exec.Run s₁ tr s) (hfirst : ∀ x ∈ tr, x.1.pc ≠ .wait) :
    Serving s₀.loop.kernel fds s₁ tr s ∧
      (InBatch fds.length s ∨ ∃ s' tr' m, tr = (s', .step) :: tr' ∧ s'.pc = .slot m 0 ∧ fds.length ≤ m ∧
        s.pc = .wait ∧ Serving s₀.loop.kernel fds s₁ tr' s' ∧ exec s' .step = some s) := by
  induction hrun with
  | nil =>
    obtain ⟨hserving, hbatch⟩ := serving_of_wait hagree hwait
    exact ⟨hserving, Or.inl hbatch⟩
  | @snoc tr s a s' _ hs ih =>
    have hpc : s.pc ≠ .wait := hfirst _ List.mem_cons_self
    obtain ⟨hserving, hbatch | ⟨_, _, _, _, _, _, hwait', _⟩⟩ := ih fun x hx => hfirst x (List.mem_cons_of_mem _ hx)
    · refine ⟨hserving.step (exec_step hs) hpc, ?_⟩
      rcases (exec_step hs).inBatch hbatch with h | ⟨m, hslot, hm, rfl, hend⟩ | ⟨m, hm, hnull, _⟩
      · exact Or.inl h
      · exact Or.inr ⟨s, tr, m, rfl, hslot, hm, hend, hserving, hs⟩
      · rw [hserving.ptr, ptr_of_wait hwait hm, Option.some.injEq] at hnull
        exact absurd hnull (hstop _ (List.getElem_mem hm))
    · exact absurd hwait' hpc

/-- Where `execute` waits again, an event whose registration stays is done, or its handler threw in the last pass. -/
theorem done_or_threw {s₀ s₁ s : Sys H} (hagree : s₀.loop.Agrees) {fds : List Fd}
    (hwait : exec s₀ (.wait fds) = some s₁) (hstop : ∀ fd ∈ fds, (s₀.loop.kernel.report fd).ptr ≠ none)
    {tr : List (Sys H × Act H)} (hrun : exec.Run s₁ tr s) (hfirst : ∀ x ∈ tr, x.1.pc ≠ .wait) (hpc : s.pc = .wait)
    {i : Nat} {fd : Fd} {d : Dir} (hfd : fds[i]? = some fd) (hsig : signals (s₀.loop.kernel.report fd).events d = true)
    (herased : ¬ Erased tr fd d) : Done tr i d ∨ ∃ x ∈ pass tr, outcome? x = some (i, d, none) := by
  obtain ⟨hserving, hbatch | ⟨s', tr', m, rfl, hslot, hm, _, hserving', hs⟩⟩ :=
    batch_ends hagree hwait hstop hrun hfirst
  · simp [InBatch, hpc, Pc.locked] at hbatch
  obtain ⟨hi, _⟩ := List.getElem?_eq_some_iff.mp hfd
  obtain ⟨p, hptr⟩ := Option.ne_none_iff_exists'.mp (hstop fd (List.mem_of_getElem? hfd))
  rcases (hserving.tracked i fd d p hfd hptr hsig).on_or_done herased with hon | hdone
  · -- passed in the last pass and still on: its handler threw there
    right
    have hslotpc : s'.pc ≠ .wait := by
      rw [hslot]
      simp
    obtain ⟨o, hlast, ho⟩ := (hserving'.tracked i fd d p hfd hptr hsig).called (not_erased_cons herased).1
      ((exec_step hs).on_le hslotpc hon) (by rw [hslot]; exact Nat.lt_of_lt_of_le hi hm)
    obtain rfl : o = none := ho.resolve_right (by simp [hslot, Pc.left])
    obtain ⟨x, hx, hthrew⟩ := exists_of_lastOutcome hlast
    have hnotstart : s'.pc.atStart = false := by
      rw [hslot]
      cases m with
      | zero => omega
      | succ m => rfl
    exact ⟨x, by rw [pass_cons, hnotstart]; exact List.mem_cons_of_mem _ hx, hthrew⟩
  · exact Or.inl hdone

end Sys

namespace Threads

variable {H : Type} [DecidableEq H]

/-- The last call of the handler of the event returned a value that says that nothing is left. -/
def Served (tr : List (Threads H × ThreadAct H)) (i : Nat) (fd : Fd) (d : Dir) : Prop :=
  ∃ r ≤ 0, lastEnded i fd d tr = some (some r)

/-- **A batch is served unless a handler throws.** When `execute` waits again, each event of the batch has been served
(the last call of its handler returned a value `≤ 0`, or its registration was erased) exactly if this holds of each
event whose registration stays: where an add has called its handler since the last call by `execute`, the last of these
calls returned a value `≤ 0`, and otherwise the handler did not throw in the last pass. -/
theorem batch_served_iff (stopFd : Fd) (events : List EpollEvent) (tr₀ : List (Threads H × ThreadAct H))
    (s₀ s₁ s : Threads H) (fds : List Fd) (tr : List (Threads H × ThreadAct H))
    (hreach : step.Run (start stopFd events) tr₀ s₀) (hwait : step s₀ (.sys (.wait fds)) = some s₁)
    (hstop : ∀ fd ∈ fds, (s₀.sys.loop.kernel.report fd).ptr ≠ none) (hrun : step.Run s₁ tr s)
    (hfirst : ∀ x ∈ tr, x.1.sys.pc ≠ .wait) (hpc : s.sys.pc = .wait) :
    (∀ i fd d, fds[i]? = some fd → signals (s₀.sys.loop.kernel.report fd).events d = true →
      Served tr i fd d ∨ Sys.Erased (sysTrace tr) fd d) ↔
    ∀ i fd d, fds[i]? = some fd → signals (s₀.sys.loop.kernel.report fd).events d = true →
      ¬ Sys.Erased (sysTrace tr) fd d →
      (∀ o, drainedSince i fd d tr = some o → ∃ r ≤ 0, o = some r) ∧
      (drainedSince i fd d tr = none → ∀ x ∈ Sys.pass (sysTrace tr), Sys.outcome? x ≠ some (i, d, none)) := by
  have hagree := Sys.exec_agrees (run_sys hreach)
  have hfirst' : ∀ x ∈ sysTrace tr, x.1.pc ≠ .wait := by
    intro x hx
    obtain ⟨y, hy, hsys, _⟩ := mem_sysTrace hx
    exact hsys ▸ hfirst y hy
  have hserving := (Sys.batch_ends hagree (exec_of_step hwait) hstop (run_sys hrun) hfirst').1
  constructor
  · intro hserved i fd d hfd hsig herased
    obtain ⟨r, hr, hlast⟩ := (hserved i fd d hfd hsig).resolve_right herased
    rw [lastEnded_eq] at hlast
    refine ⟨fun o ho => ?_, fun hnone x hx hthrew => ?_⟩
    · rw [ho, Option.some_or, Option.some.injEq] at hlast
      exact ⟨r, hr, hlast⟩
    · rw [hnone, Option.none_or, hserving.once.last x hx i d none hthrew] at hlast
      simp at hlast
  · intro hcalls i fd d hfd hsig
    by_cases herased : Sys.Erased (sysTrace tr) fd d
    · exact Or.inr herased
    left
    obtain ⟨hadd, hlastPass⟩ := hcalls i fd d hfd hsig herased
    rw [Served, lastEnded_eq]
    cases hsince : drainedSince i fd d tr with
    | some o =>
      obtain ⟨r, hr, rfl⟩ := hadd o hsince
      exact ⟨r, hr, rfl⟩
    | none =>
      rcases Sys.done_or_threw hagree (exec_of_step hwait) hstop (run_sys hrun) hfirst' hpc hfd hsig herased with
        ⟨r, hr, hdone⟩ | ⟨x, hx, hthrew⟩
      · exact ⟨r, hr, hdone⟩
      · exact absurd hthrew (hlastPass hsince x hx)

/-- In the only pass one handler throws; the other one registers it anew and `addEvent` calls it until nothing is
left. -/
theorem batch_served_registered_anew :
    ∃ (tr₀ tr : List (Threads Nat × ThreadAct Nat)) (s₀ s₁ s : Threads Nat), step.Run (start 3 []) tr₀ s₀ ∧
      step s₀ (.sys (.wait [5, 6])) = some s₁ ∧ step.Run s₁ tr s ∧ s.sys.pc = .wait ∧
      tr.filterMap (ended? 0 5 .inp) = [some 0, some 1, none] ∧ tr.filterMap (ended? 1 6 .inp) = [some 0] ∧
      ∀ i fd d, [5, 6][i]? = some fd → signals (s₀.sys.loop.kernel.report fd).events d = true →
        Served tr i fd d ∨ Sys.Erased (sysTrace tr) fd d := by
  have hexec : ((step.exec [] (start 3 [] : Threads Nat) [.sys (.call (.user 0) (.add .inp 5 (some 10) 0 true)),
      .call (.user 0), .ret (.user 0) 0, .sys (.call (.user 0) (.add .inp 6 (some 20) 1 true)), .call (.user 0),
      .ret (.user 0) 0, .sys (.edge 5 EPOLLIN), .sys (.edge 6 EPOLLIN), .sys .execute]).bind fun x =>
      (step x.2 (.sys (.wait [5, 6]))).bind fun s₁ =>
        (step.exec [] s₁ [.sys .assign, .sys .lock, .sys .step, .sys .step, .sys .throw, .sys .step, .sys .step,
          .sys .step, .sys (.call .loop (.add .inp 5 (some 11) 2 true)), .call .loop, .ret .loop 1, .call .loop,
          .ret .loop 0, .sys (.ret 0), .sys .step, .sys .step]).map fun y =>
          [[5, 6].all fun fd => decide ((x.2.sys.loop.kernel.report fd).ptr ≠ none),
            [5, 6].all fun fd => decide (signals (x.2.sys.loop.kernel.report fd).events .out = false),
            y.1.all fun z => decide (z.1.sys.pc ≠ .wait), decide (y.2.sys.pc = .wait),
            decide (y.1.filterMap (ended? 0 5 .inp) = [some 0, some 1, none]),
            decide (y.1.filterMap (ended? 1 6 .inp) = [some 0]),
            decide (drainedSince 0 5 .inp y.1 = some (some 0)), decide (drainedSince 1 6 .inp y.1 = none),
            (Sys.pass (sysTrace y.1)).all fun z => decide (Sys.outcome? z ≠ some (1, .inp, none))]) =
      some [true, true, true, true, true, true, true, true, true] := by
    decide +kernel
  obtain ⟨⟨tr₀, s₀⟩, hreach, hexec⟩ := Option.bind_eq_some_iff.mp hexec
  obtain ⟨s₁, hwait, hexec⟩ := Option.bind_eq_some_iff.mp hexec
  obtain ⟨⟨tr, s⟩, hrun, hend⟩ := Option.map_eq_some_iff.mp hexec
  simp only [List.cons.injEq, List.all_eq_true, decide_eq_true_eq, and_true] at hend
  obtain ⟨hptr, hout, hfirst, hpc, hfive, hsix, hsince, hnone, hpass⟩ := hend
  have hreach := Machine.run_of_exec _ _ _ hreach
  have hrun := Machine.run_of_exec _ _ _ hrun
  refine ⟨tr₀, tr, s₀, s₁, s, hreach, hwait, hrun, hpc, hfive, hsix, ?_⟩
  refine (batch_served_iff 3 [] _ _ _ _ [5, 6] _ hreach hwait hptr hrun hfirst hpc).mpr fun i fd d hfd hsig _ => ?_
  cases d with
  | out =>
    rw [hout fd (List.mem_of_getElem? hfd)] at hsig
    simp at hsig
  | inp =>
    rcases i with _ | _ | i
    · obtain rfl := Option.some.inj hfd
      rw [hsince]
      exact ⟨fun o ho => ⟨0, Int.le_refl 0, (Option.some.inj ho).symm⟩, by simp⟩
    · obtain rfl := Option.some.inj hfd
      rw [hnone]
      exact ⟨by simp, fun _ => hpass⟩
    · simp at hfd

/-- A handler throws in the only pass: `execute` waits again with the event unserved. -/
theorem throw_drops_event :
    ∃ (tr : List (Threads Nat × ThreadAct Nat)) (s : Threads Nat), step.Run (start 3 []) tr s ∧
      tr.map Prod.snd = [.sys .step, .sys .step, .sys .throw, .sys .step, .sys .step, .sys .lock, .sys .assign,
        .sys (.wait [5]), .sys .execute, .sys (.edge 5 EPOLLIN), .ret (.user 0) 0, .call (.user 0),
        .sys (.call (.user 0) (.add .inp 5 (some 10) 0 true))] ∧
      s.sys.pc = .wait ∧ s.drains = [] ∧ s.sys.loop.kernel.edges 5 = 0 ∧ s.sys.loop.handlerOf 5 .inp = some 10 ∧
      lastEnded 0 5 .inp tr = some none :=
  ⟨_, _, Machine.run_of_exec _ _ [.sys (.call (.user 0) (.add .inp 5 (some 10) 0 true)), .call (.user 0),
    .ret (.user 0) 0, .sys (.edge 5 EPOLLIN), .sys .execute, .sys (.wait [5]), .sys .assign, .sys .lock, .sys .step,
    .sys .step, .sys .throw, .sys .step, .sys .step] rfl, rfl, rfl, rfl, rfl, rfl, rfl⟩

end Threads

end Libhbk
