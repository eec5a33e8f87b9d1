import Libhbk.Sys.EventLoop.Batch

/-!
# Each event in its turn

A handler that returns a positive value wants to be called again at once; `execute` calls it only after all other
events of the batch that are on have had their turn. Over a whole batch the numbers of calls of two events that stay on
differ by one at most, whatever the handlers return and whatever else is registered or erased meanwhile.
-/

namespace Libhbk

variable {H : Type}

namespace Pc

variable {pc : Pc H} {i j : Nat} {d e : Dir}

/-- The events of a batch in the order of the dispatch. -/
def Earlier (i : Nat) (d : Dir) (j : Nat) (e : Dir) : Prop := i < j ∨ (i = j ∧ d = .inp ∧ e = .out)

theorem Passed.locked (h : pc.Passed i d) : pc.locked = true := by
  cases pc with
  | slot | test | running => rfl
  | _ => exact absurd h id

theorem Passed.earlier (h : pc.Passed j e) (hearlier : Earlier i d j e) : pc.Passed i d := by
  rcases hearlier with hlt | ⟨rfl, rfl, rfl⟩
  · cases pc with
    | slot n => exact Nat.lt_trans hlt h
    | test | running =>
      left
      rcases h with h | ⟨rfl, _⟩
      · exact Nat.lt_trans hlt h
      · exact hlt
    | _ => exact absurd h id
  · cases pc with
    | slot n => exact h
    | test | running =>
      rcases h with h | ⟨_, h, _⟩
      · exact Or.inl h
      · simp at h
    | _ => exact absurd h id

end Pc

namespace Sys

variable {s s' : Sys H} {a : Act H} {tr : List (Sys H × Act H)} {i : Nat} {d : Dir}

/-- The calls for the event `d` of slot `i` that have ended. -/
def calls (i : Nat) (d : Dir) (tr : List (Sys H × Act H)) : Nat :=
  tr.countP fun x => (outcome? x).any fun c => decide (c.1 = i ∧ c.2.1 = d)

/-- All slots are passed, and the dispatch begins with the first one again. -/
def startsOver (x : Sys H × Act H) : Bool :=
  match x.1.pc, x.2 with
  | .slot n left, .step => decide (x.1.loop.eventCount ≤ n ∧ left ≠ 0)
  | _, _ => false

/-- The passes that are complete. -/
def rounds (tr : List (Sys H × Act H)) : Nat := tr.countP startsOver

/-! ### Calls -/

theorem calls_of_outcome {o : Option Int} (h : outcome? (s, a) = some (i, d, o)) :
    calls i d ((s, a) :: tr) = calls i d tr + 1 := by
  rw [calls, List.countP_cons, h]
  simp [calls]

theorem calls_of_ne (h : ∀ o, outcome? (s, a) ≠ some (i, d, o)) : calls i d ((s, a) :: tr) = calls i d tr := by
  rw [calls, List.countP_cons, calls]
  rcases hout : outcome? (s, a) with _ | ⟨j, e, o⟩
  · rfl
  · have hne : ¬ (j = i ∧ e = d) := by
      rintro ⟨rfl, rfl⟩
      exact h o hout
    simp [hne]

theorem rounds_cons (x : Sys H × Act H) : rounds (x :: tr) = rounds tr + (startsOver x).toNat := by
  rw [rounds, List.countP_cons, rounds]
  cases startsOver x <;> rfl

theorem Step.passed_of_outcome (hs : Step s a s') {o : Option Int} (h : outcome? (s, a) = some (i, d, o)) :
    s'.pc.Passed i d ∧ startsOver (s, a) = false := by
  obtain ⟨p, left, fd, hd, hpc⟩ := running_of_outcome h
  refine ⟨?_, by simp [startsOver, hpc]⟩
  cases hs with
  | more hrun _ =>
    obtain ⟨rfl, rfl, rfl, -⟩ := Pc.running.inj (hpc.symm.trans hrun)
    exact Pc.passed_after.mpr (Or.inr ⟨rfl, rfl⟩)
  | finished hrun _ =>
    obtain ⟨rfl, rfl, rfl, -⟩ := Pc.running.inj (hpc.symm.trans hrun)
    exact Pc.passed_after.mpr (Or.inr ⟨rfl, rfl⟩)
  | throw hrun =>
    obtain ⟨rfl, rfl, rfl, -⟩ := Pc.running.inj (hpc.symm.trans hrun)
    exact Pc.passed_after.mpr (Or.inr ⟨rfl, rfl⟩)
  | _ => simp [outcome?] at h

theorem Step.locked (hs : Step s a s') (h : s.pc.locked = true) :
    s'.pc.locked = true ∨ s'.pc = .wait ∨ s'.pc = .out := by
  have hafter : ∀ n p d left, (Pc.after n p d left : Pc H).locked = true := by
    intro n p d left
    cases d <;> rfl
  cases hs with
  | execute hpc | wait hpc _ | waitFails hpc | assign hpc | assignFailed hpc | lock hpc => simp [hpc, Pc.locked] at h
  | enter _ _ _ _ | again _ _ _ | invoke _ _ => exact Or.inl rfl
  | skip _ _ | more _ _ | finished _ _ | throw _ => exact Or.inl (hafter _ _ _ _)
  | call _ _ | edge | close => exact Or.inl h
  | stop _ _ _ _ => exact Or.inr (Or.inr rfl)
  | done _ _ => exact Or.inr (Or.inl rfl)

theorem Step.atStart_of_startsOver (hs : Step s a s') (h : startsOver (s, a) = true) : s'.pc.atStart = true := by
  unfold startsOver at h
  split at h
  · next n left hpc ha =>
    dsimp only at hpc ha
    subst ha
    obtain ⟨hcount, hleft⟩ := of_decide_eq_true h
    dsimp only at hcount
    cases hs with
    | enter hslot hn _ _ =>
      obtain ⟨rfl, -⟩ := Pc.slot.inj (hpc.symm.trans hslot)
      omega
    | stop hslot hn _ _ =>
      obtain ⟨rfl, -⟩ := Pc.slot.inj (hpc.symm.trans hslot)
      omega
    | again _ _ _ => rfl
    | done hslot _ => exact absurd (Pc.slot.inj (hpc.symm.trans hslot)).2 hleft
    | invoke hslot _ | skip hslot _ => simp [hpc] at hslot
  · simp at h

theorem Step.passed_keep (hs : Step s a s') (h : s.pc.Passed i d) {n : Nat} (hbatch : InBatch n s') :
    (startsOver (s, a) = true ∧ ¬ s'.pc.Passed i d) ∨ (startsOver (s, a) = false ∧ s'.pc.Passed i d) := by
  have hlocked : s'.pc.locked = true := by
    rcases hs.locked h.locked with hl | hpc | hpc
    · exact hl
    · simp [InBatch, hpc, Pc.locked] at hbatch
    · simp [InBatch, hpc, Pc.locked] at hbatch
  cases hstart : s'.pc.atStart with
  | false =>
    refine Or.inr ⟨?_, (hs.passed_mono hlocked hstart).2 i d h⟩
    rw [Bool.eq_false_iff]
    intro hover
    rw [hs.atStart_of_startsOver hover] at hstart
    simp at hstart
  | true =>
    left
    refine ⟨?_, fun hp => by simp [hp.atStart] at hstart⟩
    cases hs with
    | again hpc hcount hleft =>
      simp only [startsOver, hpc]
      exact decide_eq_true ⟨hcount, hleft⟩
    | lock hpc =>
      rw [hpc] at h
      exact absurd h id
    | call _ _ | edge | close => exact absurd (h.atStart.symm.trans hstart) Bool.false_ne_true
    | @assignFailed eintr _ => cases eintr <;> simp [Pc.atStart] at hstart
    | @skip n p e left _ _ => cases e <;> simp [Pc.after, Pc.atStart] at hstart
    | @more n p e left _ _ _ _ _ => cases e <;> simp [Pc.after, Pc.atStart] at hstart
    | @finished n p e left _ _ _ _ _ => cases e <;> simp [Pc.after, Pc.atStart] at hstart
    | @throw n p e left _ _ _ => cases e <;> simp [Pc.after, Pc.atStart] at hstart
    | execute | wait | waitFails | assign | enter | stop | done | invoke => simp [Pc.atStart] at hstart

theorem passed_of_startsOver {n : Nat} (hbatch : InBatch n s) (hi : i < n) (h : startsOver (s, a) = true) :
    s.pc.Passed i d := by
  unfold startsOver at h
  split at h
  · next m left hpc _ =>
    dsimp only at hpc
    obtain ⟨hcount, _⟩ := of_decide_eq_true h
    have hn : s.loop.eventCount = n := by
      rcases hbatch with hfilled | ⟨_, hn⟩
      · simp [hpc] at hfilled
      · exact hn
    rw [hpc]
    show i < m
    dsimp only at hcount
    omega
  · simp at h

/-! ### Calls and passes -/

/-- In each pass an event is called at most once. -/
structure Limited (i : Nat) (d : Dir) (tr : List (Sys H × Act H)) (s : Sys H) : Prop where
  passed : s.pc.Passed i d → calls i d tr ≤ rounds tr + 1
  ahead : ¬ s.pc.Passed i d → calls i d tr ≤ rounds tr

/-- An event that is on and registered is called in each pass. -/
structure Attended (i : Nat) (d : Dir) (tr : List (Sys H × Act H)) (s : Sys H) : Prop where
  passed : s.pc.Passed i d → rounds tr + 1 ≤ calls i d tr
  ahead : ¬ s.pc.Passed i d → rounds tr ≤ calls i d tr

theorem not_passed_of_outcome {o : Option Int} (h : outcome? (s, a) = some (i, d, o)) : ¬ s.pc.Passed i d := by
  obtain ⟨p, left, fd, hd, hpc⟩ := running_of_outcome h
  rw [hpc]
  exact Pc.not_passed_running

theorem Limited.step (h : Limited i d tr s) (hs : Step s a s') {n : Nat} (hbatch : InBatch n s') :
    Limited i d ((s, a) :: tr) s' := by
  by_cases hout : ∃ o, outcome? (s, a) = some (i, d, o)
  · obtain ⟨o, hout⟩ := hout
    obtain ⟨hpassed, hover⟩ := hs.passed_of_outcome hout
    have hle := h.ahead (not_passed_of_outcome hout)
    refine ⟨fun _ => ?_, fun hno => absurd hpassed hno⟩
    rw [calls_of_outcome hout, rounds_cons, hover]
    exact Nat.succ_le_succ hle
  · have hcalls : calls i d ((s, a) :: tr) = calls i d tr := calls_of_ne fun o ho => hout ⟨o, ho⟩
    have hmono : rounds tr ≤ rounds ((s, a) :: tr) := by
      rw [rounds_cons]
      omega
    by_cases hp : s.pc.Passed i d
    · have hle := h.passed hp
      rcases hs.passed_keep hp hbatch with ⟨hover, hno⟩ | ⟨_, hp'⟩
      · refine ⟨fun hp' => absurd hp' hno, fun _ => ?_⟩
        rw [hcalls, rounds_cons, hover]
        exact hle
      · exact ⟨fun _ => by omega, fun hno => absurd hp' hno⟩
    · have hle := h.ahead hp
      exact ⟨fun _ => by omega, fun _ => by omega⟩

theorem Attended.step (h : Attended i d tr s) (hs : Step s a s') {n : Nat} (hbatch : InBatch n s)
    (hbatch' : InBatch n s') (hi : i < n) (hpos : Positioned s) {fd : Fd} {p : Addr} (htracked : Tracked i fd d p tr s)
    (hne : ¬ Erased tr fd d) (hon : On s i d) : Attended i d ((s, a) :: tr) s' := by
  by_cases hout : ∃ o, outcome? (s, a) = some (i, d, o)
  · obtain ⟨o, hout⟩ := hout
    obtain ⟨hpassed, hover⟩ := hs.passed_of_outcome hout
    have hle := h.ahead (not_passed_of_outcome hout)
    refine ⟨fun _ => ?_, fun hno => absurd hpassed hno⟩
    rw [calls_of_outcome hout, rounds_cons, hover]
    exact Nat.succ_le_succ hle
  · have hcalls : calls i d ((s, a) :: tr) = calls i d tr := calls_of_ne fun o ho => hout ⟨o, ho⟩
    by_cases hp : s.pc.Passed i d
    · have hle := h.passed hp
      rcases hs.passed_keep hp hbatch' with ⟨hover, hno⟩ | ⟨hover, hp'⟩
      · refine ⟨fun hp' => absurd hp' hno, fun _ => ?_⟩
        rw [hcalls, rounds_cons, hover]
        exact hle
      · refine ⟨fun _ => ?_, fun hno => absurd hp' hno⟩
        rw [hcalls, rounds_cons, hover]
        exact hle
    · have hle := h.ahead hp
      have hover : startsOver (s, a) = false := by
        rw [Bool.eq_false_iff]
        exact fun hover => hp (passed_of_startsOver hbatch hi hover)
      refine ⟨fun hp' => ?_, fun _ => ?_⟩
      · -- without a call an event is passed only if it is off or not registered
        exfalso
        rcases hs.passed hp' with ⟨hp₀, _⟩ | ⟨q, left, htest, hinv⟩ | ho | ⟨r, _, ho, _⟩ | ⟨r, _, ho, _⟩
        · exact hp hp₀
        · obtain ⟨_, hq⟩ := hpos i q (by rw [htest]; rfl)
          rw [htracked.ptr, Option.some.injEq, Option.some.injEq] at hq
          subst hq
          exact invoked_of_on hon (htracked.registered hne) hinv
        · exact hout ⟨_, ho⟩
        · exact hout ⟨_, ho⟩
        · exact hout ⟨_, ho⟩
      · rw [hcalls, rounds_cons, hover]
        exact hle

/-! ### A batch -/

/-- What a run over a batch keeps. -/
structure Taking (k : Kernel) (fds : List Fd) (s₁ : Sys H) (tr : List (Sys H × Act H)) (s : Sys H) : Prop where
  serving : Serving k fds s₁ tr s
  limited : ∀ j e, Limited j e tr s
  attended : ∀ i fd d, fds[i]? = some fd → (k.report fd).ptr ≠ none → signals (k.report fd).events d = true →
    ¬ Erased tr fd d → On s i d → Attended i d tr s

theorem Taking.step {k : Kernel} {fds : List Fd} {s₁ : Sys H} (h : Taking k fds s₁ tr s) (hs : Step s a s')
    (hpc : s.pc ≠ .wait) (hbatch : InBatch fds.length s) (hbatch' : InBatch fds.length s') :
    Taking k fds s₁ ((s, a) :: tr) s' := by
  refine ⟨h.serving.step hs hpc, fun j e => (h.limited j e).step hs hbatch', fun i fd d hfd hptr hsig hne hon => ?_⟩
  have hne₀ := (not_erased_cons hne).1
  have hon₀ := hs.on_le hpc hon
  obtain ⟨p, hp⟩ := Option.ne_none_iff_exists'.mp hptr
  obtain ⟨hi, _⟩ := List.getElem?_eq_some_iff.mp hfd
  exact (h.attended i fd d hfd hptr hsig hne₀ hon₀).step hs hbatch hbatch' hi h.serving.positioned
    (h.serving.tracked i fd d p hfd hp hsig) hne₀ hon₀

theorem taking_of_wait {s₀ s₁ : Sys H} (hagree : s₀.loop.Agrees) {fds : List Fd}
    (hwait : exec s₀ (.wait fds) = some s₁) : Taking s₀.loop.kernel fds s₁ [] s₁ := by
  have hnot : ∀ i d, ¬ s₁.pc.Passed i d := by
    obtain ⟨evs, k, _, rfl⟩ := exec_wait hwait
    exact fun i d => id
  exact ⟨(serving_of_wait hagree hwait).1, fun j e => ⟨fun h => absurd h (hnot j e), fun _ => Nat.le_refl _⟩,
    fun i _ d _ _ _ _ _ => ⟨fun h => absurd h (hnot i d), fun _ => Nat.le_refl _⟩⟩

theorem Taking.fair {k : Kernel} {fds : List Fd} {s₁ : Sys H} (h : Taking k fds s₁ tr s) {fd : Fd}
    (hfd : fds[i]? = some fd) (hptr : (k.report fd).ptr ≠ none) (hsig : signals (k.report fd).events d = true)
    (hne : ¬ Erased tr fd d) (hon : On s i d) (j : Nat) (e : Dir) :
    calls j e tr ≤ calls i d tr + 1 ∧ (Pc.Earlier i d j e → calls j e tr ≤ calls i d tr) := by
  have hi := h.attended i fd d hfd hptr hsig hne hon
  have hj := h.limited j e
  by_cases hpi : s.pc.Passed i d
  · have hge := hi.passed hpi
    by_cases hpj : s.pc.Passed j e
    · have hle := hj.passed hpj
      exact ⟨by omega, fun _ => by omega⟩
    · have hle := hj.ahead hpj
      exact ⟨by omega, fun _ => by omega⟩
  · have hge := hi.ahead hpi
    by_cases hpj : s.pc.Passed j e
    · have hle := hj.passed hpj
      exact ⟨by omega, fun hearlier => absurd (hpj.earlier hearlier) hpi⟩
    · have hle := hj.ahead hpj
      exact ⟨by omega, fun _ => by omega⟩

theorem taking {s₀ s₁ : Sys H} (hagree : s₀.loop.Agrees) {fds : List Fd} (hwait : exec s₀ (.wait fds) = some s₁)
    (hrun : exec.Run s₁ tr s) (hfirst : ∀ x ∈ tr, x.1.pc ≠ .wait ∧ x.1.pc ≠ .out) :
    (Taking s₀.loop.kernel fds s₁ tr s ∧ InBatch fds.length s) ∨
      ∃ x tr', tr = x :: tr' ∧ Taking s₀.loop.kernel fds s₁ tr' x.1 ∧ Step x.1 x.2 s ∧ (s.pc = .wait ∨ s.pc = .out) := by
  induction hrun with
  | nil => exact Or.inl ⟨taking_of_wait hagree hwait, (serving_of_wait hagree hwait).2⟩
  | @snoc tr s a s' _ hs ih =>
    obtain ⟨hw, ho⟩ := hfirst _ List.mem_cons_self
    rcases ih fun x hx => hfirst x (List.mem_cons_of_mem _ hx) with ⟨h, hbatch⟩ | ⟨_, _, _, _, _, hpc | hpc⟩
    · rcases (exec_step hs).inBatch hbatch with hbatch' | ⟨_, _, _, _, hend⟩ | ⟨_, _, _, hs'⟩
      · exact Or.inl ⟨h.step (exec_step hs) hw hbatch hbatch', hbatch'⟩
      · exact Or.inr ⟨(s, a), tr, rfl, h, exec_step hs, Or.inl hend⟩
      · exact Or.inr ⟨(s, a), tr, rfl, h, exec_step hs, Or.inr (by rw [hs'])⟩
    · exact absurd hpc hw
    · exact absurd hpc ho

theorem Step.outcome_end (hs : Step s a s') (hpc : s'.pc = .wait ∨ s'.pc = .out) : outcome? (s, a) = none := by
  rw [← Option.not_isSome_iff_eq_none, Option.isSome_iff_exists]
  rintro ⟨⟨i, d, o⟩, hout⟩
  have hlocked := (hs.passed_of_outcome hout).1.locked
  rcases hpc with hpc | hpc
  · simp [hpc, Pc.locked] at hlocked
  · simp [hpc, Pc.locked] at hlocked

/-- **An event that is on is never two calls behind another event of its batch, and never behind a later one.** -/
theorem dispatch_fair (stopFd : Fd) (events : List EpollEvent) (tr₀ : List (Sys H × Act H)) (s₀ s₁ s : Sys H)
    (fds : List Fd) (tr : List (Sys H × Act H)) (hreach : exec.Run (start stopFd events) tr₀ s₀)
    (hwait : exec s₀ (.wait fds) = some s₁) (hrun : exec.Run s₁ tr s)
    (hfirst : ∀ x ∈ tr, x.1.pc ≠ .wait ∧ x.1.pc ≠ .out) (i : Nat) (fd : Fd) (d : Dir) (hfd : fds[i]? = some fd)
    (hptr : (s₀.loop.kernel.report fd).ptr ≠ none) (hsig : signals (s₀.loop.kernel.report fd).events d = true)
    (hkept : ¬ Erased tr fd d) (hon : On s i d) (j : Nat) (e : Dir) :
    calls j e tr ≤ calls i d tr + 1 ∧ (Pc.Earlier i d j e → calls j e tr ≤ calls i d tr) := by
  rcases taking (exec_agrees hreach) hwait hrun hfirst with ⟨h, _⟩ | ⟨⟨s', a⟩, tr', rfl, h, hstep, hend⟩
  · exact h.fair hfd hptr hsig hkept hon j e
  · have hout := hstep.outcome_end hend
    have hcalls : ∀ j e, calls j e ((s', a) :: tr') = calls j e tr' :=
      fun j e => calls_of_ne fun o ho => by simp [hout] at ho
    rw [hcalls, hcalls]
    exact h.fair hfd hptr hsig (not_erased_cons hkept).1 (hstep.on_le (hfirst _ List.mem_cons_self).1 hon) j e

/-- A step of the dispatch, not a call that registers or erases. -/
def dispatches (x : Sys Nat × Act Nat) : Bool :=
  decide (x.1.pc ≠ .wait) && decide (x.1.pc ≠ .out) && match x.2 with
    | .call .. => false
    | _ => true

/-- Both handlers want to be called again and again; the batch is left in the middle of its third pass. -/
theorem dispatch_fair_third_pass :
    ∃ (tr₀ tr : List (Sys Nat × Act Nat)) (s₀ s₁ s : Sys Nat), exec.Run (start 3 []) tr₀ s₀ ∧
      exec s₀ (.wait [5, 6]) = some s₁ ∧ exec.Run s₁ tr s ∧ calls 0 .inp tr = 3 ∧ calls 1 .inp tr = 2 ∧
      ∀ j e, calls j e tr ≤ calls 1 .inp tr + 1 ∧ (Pc.Earlier 1 .inp j e → calls j e tr ≤ calls 1 .inp tr) := by
  have hexec : ((exec.exec [] (start 3 []) [.call (.user 0) (.add .inp 5 (some 10) 0 true),
      .call (.user 0) (.add .inp 6 (some 20) 1 true), .edge 5 EPOLLIN, .edge 6 EPOLLIN, .execute]).bind fun x =>
      (exec x.2 (.wait [5, 6])).bind fun s₁ =>
        (exec.exec [] s₁ [.assign, .lock, .step, .step, .ret 1, .step, .step, .step, .ret 1, .step, .step, .step, .step,
          .ret 1, .step, .step, .step, .ret 1, .step, .step, .step, .step, .ret 1]).map fun y =>
          ((calls 0 .inp y.1, calls 1 .inp y.1), (x.2.loop.kernel.report 6).ptr.isSome,
            signals (x.2.loop.kernel.report 6).events .inp, y.2.loop.events[1]?.map fun ev => signals ev.events .inp,
            y.1.all dispatches)) =
      some ((3, 2), true, true, some true, true) := by
    decide +kernel
  obtain ⟨⟨tr₀, s₀⟩, hreach, hexec⟩ := Option.bind_eq_some_iff.mp hexec
  obtain ⟨s₁, hwait, hexec⟩ := Option.bind_eq_some_iff.mp hexec
  obtain ⟨⟨tr, s⟩, hrun, hend⟩ := Option.map_eq_some_iff.mp hexec
  simp only [Prod.mk.injEq, List.all_eq_true] at hend
  obtain ⟨⟨hfirst, hsecond⟩, hptr, hsig, hon, hquiet⟩ := hend
  have hreach := Machine.run_of_exec _ _ _ hreach
  have hrun := Machine.run_of_exec _ _ _ hrun
  refine ⟨tr₀, tr, s₀, s₁, s, hreach, hwait, hrun, hfirst, hsecond, ?_⟩
  refine dispatch_fair 3 [] tr₀ s₀ s₁ s [5, 6] tr hreach hwait hrun (fun x hx => ?_) 1 6 .inp rfl
    (Option.isSome_iff_ne_none.mp hptr) hsig ?_ (Option.map_eq_some_iff.mp hon)
  · have hdispatch := hquiet x hx
    simp only [dispatches, Bool.and_eq_true, decide_eq_true_eq] at hdispatch
    exact hdispatch.1
  · rintro ⟨⟨s', a⟩, hx, herase⟩
    have hdispatch := hquiet _ hx
    cases a with
    | call => simp [dispatches] at hdispatch
    | _ => exact herase

end Sys

end Libhbk
