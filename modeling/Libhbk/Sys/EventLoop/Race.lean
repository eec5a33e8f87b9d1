import Libhbk.Sys.EventLoop.Pending

/-!
# Erasing from another thread

An erase promises that no callback is called from pending events afterwards. It clears the slots below
`m_eventCount`, but `execute` writes `m_events` and then `m_eventCount` without the lock. The promise holds
in every run whose erases from other threads are covered (`CoveredCall`): an erase that comes between the
two writes finds the slot of its entry below the old value of `m_eventCount`.
-/

namespace Libhbk.Sys

variable {H : Type} {s s' : Sys H} {a : Act H} {fd : Fd} {d : Dir}

/-- The action registers a handler for this direction of this descriptor. -/
def Registers (fd : Fd) (d : Dir) : Act H → Prop
  | .call _ (.add d' fd' ..) => fd' = fd ∧ d' = d
  | _ => False

theorem Step.unregistered (hs : Step s a s') (hno : ¬ Registers fd d a) (h : s.loop.handlerOf fd d = none) :
    s'.loop.handlerOf fd d = none := by
  cases hs with
  | @call c o r _ hr =>
    have hchange := (EventLoop.apply_change hr).1
    by_cases hne : o.fd = fd ∧ o.dir = d
    · obtain ⟨rfl, rfl⟩ := hne
      rcases o with ⟨d, fd, eh, p, grant⟩ | ⟨d, fd⟩
      · exact absurd ⟨rfl, rfl⟩ hno
      · exact hchange.erased
    · show r.loop.handlerOf fd d = none
      rw [hchange.handlerOf (not_and_or.mp hne), h]
  | _ => exact h

theorem unregistered_after_erase {c : Caller} {s₁ : Sys H} (herase : exec s (.call c (.erase d fd)) = some s₁)
    {tr : List (Sys H × Act H)} (hrun : exec.Run s₁ tr s') (hno : ∀ x ∈ tr, ¬ Registers fd d x.2) :
    s'.loop.handlerOf fd d = none := by
  have h₁ : s₁.loop.handlerOf fd d = none := by
    cases exec_step herase with
    | call _ hr => exact (EventLoop.apply_change hr).1.erased
  exact hrun.guarded (P := fun s => s.loop.handlerOf fd d = none) (G := fun _ a => ¬ Registers fd d a)
    h₁ (fun _ _ _ h hg hs => (exec_step hs).unregistered hg h) hno

/-- Whatever `m_eventCount` was at the start: if the erases of other threads are covered, `execute` calls
registered handlers only, and none between an erase and the next registration. -/
theorem erased_never_called (stopFd : Fd) (events : List EpollEvent) (count : Int) (tr : List (Sys H × Act H))
    (s : Sys H) (hrun : exec.Run ⟨{ EventLoop.new stopFd events with eventCount := count }, .out⟩ tr s)
    (hcov : ∀ x ∈ tr, x.1.CoveredCall x.2) :
    (∀ x ∈ tr, ∀ fd d h, Invokes x fd d h → x.1.loop.handlerOf fd d = some h) ∧
      ∀ later x earlier c d fd, tr = later ++ x :: earlier → x.2 = .call c (.erase d fd) →
        (∀ y ∈ later, ¬ Registers fd d y.2) → ∀ y ∈ later, ∀ h, ¬ Invokes y fd d h := by
  have hregistered : ∀ x ∈ tr, ∀ fd d h, Invokes x fd d h → x.1.loop.handlerOf fd d = some h := by
    intro x hx fd d h hinv
    obtain ⟨tr₁, hrun₁, hsub⟩ := hrun.of_mem hx
    have hpos : Positioned x.1 := hrun₁.invariant (fun n p hat => by simp [Pc.at?] at hat)
      fun _ _ _ h hs => (exec_step hs).positioned h
    refine registered_of_invokes hpos ?_ hinv
    exact exec_pending (EventLoop.agrees_new stopFd events) (PendingOk.zero _) hrun₁ fun y hy => hcov y (hsub y hy)
  refine ⟨hregistered, ?_⟩
  rintro later x earlier c d fd rfl herase hno y hy h hinv
  obtain ⟨s₁, _, hstep, hlater⟩ := hrun.split
  rw [herase] at hstep
  obtain ⟨tr₁, hrun₁, hsub⟩ := hlater.of_mem hy
  have hnone := unregistered_after_erase hstep hrun₁ fun z hz => hno z (hsub z hz)
  rw [hregistered y (List.mem_append_left _ hy) fd d h hinv] at hnone
  simp at hnone

/-- Two batches with one event each. The erase between the two writes of the second batch finds its slot below
the count of the first. -/
theorem erased_never_called_second_batch :
    ∃ (later earlier : List (Sys Nat × Act Nat)) (x : Sys Nat × Act Nat) (s : Sys Nat),
      exec.Run ⟨{ EventLoop.new 3 [] with eventCount := 0 }, .out⟩ (later ++ x :: earlier) s ∧
      x.1.pc = .filled 1 ∧ x.2 = .call (.user 0) (.erase .inp 5) ∧
      later.map Prod.snd = [.step, .step, .step, .lock, .assign] ∧ ∀ y ∈ later, ∀ h, ¬ Invokes y 5 .inp h := by
  have hrun := Machine.run_of_exec exec (⟨{ EventLoop.new 3 [] with eventCount := 0 }, .out⟩ : Sys Nat)
    [.call (.user 0) (.add .inp 5 (some 10) 0 true), .edge 5 EPOLLIN, .execute, .wait [5], .assign, .lock, .step,
      .step, .ret 0, .step, .step, .edge 5 EPOLLIN, .wait [5], .call (.user 0) (.erase .inp 5), .assign, .lock,
      .step, .step, .step] rfl
  have h := (erased_never_called 3 [] 0 _ _ hrun (by
    repeat (first
      | exact List.forall_mem_nil _
      | refine List.forall_mem_cons.mpr ⟨trivial, ?_⟩
      | refine List.forall_mem_cons.mpr ⟨fun i hi _ _ _ => Int.ofNat_lt.mpr hi, ?_⟩))).2
    [_, _, _, _, _] _ _ (.user 0) .inp 5 rfl rfl (by
      repeat (first
        | exact List.forall_mem_nil _
        | refine List.forall_mem_cons.mpr ⟨id, ?_⟩))
  exact ⟨_, _, _, _, hrun, rfl, rfl, rfl, h⟩

/-- The erase comes between the two writes of the first batch, clears nothing, and the erased handler is
called. -/
theorem erased_called_in_window :
    ∃ (tr : List (Sys Nat × Act Nat)) (s : Sys Nat), exec.Run (start 3 []) tr s ∧
      tr.map Prod.snd = [.step, .step, .lock, .assign, .call (.user 0) (.erase .inp 5), .wait [5], .execute,
        .edge 5 EPOLLIN, .call (.user 0) (.add .inp 5 (some 10) 0 true)] ∧
      s.pc = .running 0 0 .inp 0 5 10 ∧ s.loop.handlerOf 5 .inp = none :=
  ⟨_, _, Machine.run_of_exec _ _ [.call (.user 0) (.add .inp 5 (some 10) 0 true), .edge 5 EPOLLIN, .execute, .wait [5],
    .call (.user 0) (.erase .inp 5), .assign, .lock, .step, .step] rfl, rfl, rfl, rfl⟩

end Libhbk.Sys
