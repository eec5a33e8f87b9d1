import Libhbk.Sys.EventLoop.Stop

/-!
# A watched descriptor

A descriptor whose input handler stays registered, in an event loop that nobody stops. `Sound` is what holds in
every state of such an event loop, `Watched` adds the registration, and `Due` follows one edge through a batch:
from the `epoll_wait` that reports it to the call of the handler.
-/

namespace Libhbk

variable {H : Type}

/-- The dispatch runs `process`, the input handler of the node `p`. -/
def Pc.dispatches [DecidableEq H] (pc : Pc H) (p : Addr) (process : H) : Bool :=
  match pc with
  | .running _ q .inp _ _ h => q = p && h = process
  | _ => false

theorem Pc.dispatches_iff [DecidableEq H] {pc : Pc H} {p : Addr} {process : H} :
    pc.dispatches p process = true ↔ ∃ n left fd, pc = .running n p .inp left fd process := by
  constructor
  · intro h
    unfold Pc.dispatches at h
    split at h
    · next n q left fd hd =>
      simp only [Bool.and_eq_true, decide_eq_true_eq] at h
      obtain ⟨rfl, rfl⟩ := h
      exact ⟨n, left, fd, rfl⟩
    · simp at h
  · rintro ⟨n, left, fd, rfl⟩
    simp [Pc.dispatches]

namespace Sys

variable {s s' : Sys H} {a : Act H} {fd stopFd : Fd} {p : Addr} {process : H}

/-! ### Every state of an event loop that is not stopped -/

structure Sound (stopFd : Fd) (s : Sys H) : Prop where
  positioned : Positioned s
  agrees : s.loop.Agrees
  noStop : NoStop stopFd s
  /-- `m_events` holds the batch. -/
  sized : s.active ≤ s.loop.events.length
  /-- The slots of the batch point to different nodes. -/
  distinct : ∀ i < s.active, ∀ j < s.active, ∀ p, s.loop.events[i]?.map EpollEvent.ptr = some (some p) →
    s.loop.events[j]?.map EpollEvent.ptr = some (some p) → i = j

theorem Step.length_events (hs : Step s a s') (hpc : s.pc ≠ .wait) :
    s.loop.events.length ≤ s'.loop.events.length := by
  by_contra hlt
  have hptr := hs.ptr hpc s'.loop.events.length
  rw [List.getElem?_eq_none (Nat.le_refl _), List.getElem?_eq_getElem (by omega)] at hptr
  simp at hptr

theorem Step.sound (hs : Step s a s') (hno : ¬ Signals stopFd a) (h : Sound stopFd s) : Sound stopFd s' := by
  refine ⟨hs.positioned h.positioned, hs.agrees h.agrees, hs.noStop hno h.noStop, ?_, ?_⟩
  · by_cases hpc : s.pc = .wait
    · rcases hs.active_wait hpc with hzero | ⟨fds, evs, k, rfl, hwaited, rfl⟩
      · omega
      · show fds.length ≤ (writeAt s.loop.events 0 evs).length
        by_contra hlt
        have hfd := List.getElem?_eq_getElem (show (writeAt s.loop.events 0 evs).length < fds.length by omega)
        have hslot := waited_slot hwaited s.loop.events hfd
        rw [List.getElem?_eq_none (Nat.le_refl _)] at hslot
        simp at hslot
    · exact Nat.le_trans (hs.active_le hpc) (Nat.le_trans h.sized (hs.length_events hpc))
  · intro i hi j hj p hpi hpj
    by_cases hpc : s.pc = .wait
    · rcases hs.active_wait hpc with hzero | ⟨fds, evs, k, rfl, hwaited, rfl⟩
      · omega
      · exact (pending_of_wait h.agrees hwaited).distinct i hi j hj p hpi hpj
    · rw [hs.ptr hpc] at hpi hpj
      have hle := hs.active_le hpc
      exact h.distinct i (Nat.lt_of_lt_of_le hi hle) j (Nat.lt_of_lt_of_le hj hle) p hpi hpj

theorem start_sound (stopFd : Fd) (events : List EpollEvent) : Sound stopFd (start stopFd events : Sys H) :=
  ⟨start_positioned stopFd events, EventLoop.agrees_new stopFd events, start_noStop stopFd events, Nat.zero_le _,
    fun i hi => absurd hi (Nat.not_lt_zero i)⟩

theorem exec_sound {events : List EpollEvent} {tr : List (Sys H × Act H)} (hrun : exec.Run (start stopFd events) tr s)
    (hno : ∀ x ∈ tr, ¬ Signals stopFd x.2) : Sound stopFd s :=
  hrun.guarded (G := fun _ a => ¬ Signals stopFd a) (start_sound stopFd events)
    (fun _ _ _ h hg hs => (exec_step hs).sound hg h) hno

/-! ### The registration -/

/-- The action neither stops the event loop nor touches the descriptor or its registration. -/
def Spares (fd stopFd : Fd) : Act H → Prop
  | .edge fd' _ => fd' ≠ stopFd
  | .call _ o => o.fd ≠ fd
  | .close fd' => fd' ≠ fd
  | _ => True

theorem Spares.not_erases (h : Spares fd stopFd a) (d : Dir) : ¬ Erases fd d a := by
  rcases a with _ | fds | eintr | _ | _ | _ | r | _ | ⟨c, o⟩ | ⟨fd', bits⟩ | fd'
  case call =>
    rcases o with ⟨d', fd', eh, a, grant⟩ | ⟨d', fd'⟩
    · exact id
    · exact fun he => h he.1
  all_goals exact id

theorem Spares.not_signals (h : Spares fd stopFd a) : ¬ Signals stopFd a := by
  cases a with
  | edge fd' bits => exact h
  | _ => exact id

/-- `process` is the input handler of `fd`, for the kernel and for the dispatch; its node is `p`. -/
structure Watched (fd stopFd : Fd) (p : Addr) (process : H) (s : Sys H) : Prop where
  sound : Sound stopFd s
  index : s.loop.eventInfos.index fd = some p
  handler : s.loop.handlerOf fd .inp = some process
  interest : ∃ ev, s.loop.kernel.interest fd = some ev ∧ ev.ptr = some p ∧ signals ev.events .inp = true

namespace Watched

theorem registered (h : Watched fd stopFd p process s) :
    s.loop.eventInfos.index fd = some p ∧ (s.loop.handlerOf fd .inp).isSome = true :=
  ⟨h.index, by rw [h.handler]; rfl⟩

theorem step (h : Watched fd stopFd p process s) (hs : Step s a s') (ha : Spares fd stopFd a) :
    Watched fd stopFd p process s' := by
  refine ⟨hs.sound ha.not_signals h.sound, (hs.registered (ha.not_erases .inp) h.registered).1, ?_, ?_⟩
  · cases hs with
    | call _ hr =>
      rw [← h.handler]
      exact (EventLoop.apply_change hr).1.handlerOf (Or.inl ha)
    | _ => exact h.handler
  · cases hs with
    | wait _ hw =>
      rw [show _ = s.loop.kernel.interest from (Kernel.wait_eq hw).interest]
      exact h.interest
    | call _ hr =>
      rw [EventLoop.apply_interest hr ha]
      exact h.interest
    | close =>
      rw [show (Kernel.drop _ _).interest fd = s.loop.kernel.interest fd from Function.update_of_ne ha.symm _ _]
      exact h.interest
    | _ => exact h.interest

theorem new (h : Sound stopFd s) (hnew : s.loop.kernel.interest fd = none) {c : Caller}
    (hc : c.admitted s.pc = true) {grant : Bool} {r : OpResult Kernel H}
    (hadd : s.loop.apply (.add .inp fd (some process) p grant) = some r) (hret : r.ret = 0) :
    Watched fd stopFd p process { s with loop := r.loop } := by
  have hs : s.Step (.call c (.add .inp fd (some process) p grant)) { s with loop := r.loop } := .call hc hadd
  obtain ⟨hindex, hhandler, hinterest⟩ := EventLoop.apply_new hadd hnew hret
  exact ⟨hs.sound id h, hindex, hhandler, ⟨_, hinterest, rfl, by simp⟩⟩

end Watched

/-- The states in which the input handler `process` has just been registered for the new descriptor `fd`: after any run
of an event loop that was not stopped, `addEvent` has succeeded. No call of `process` is in progress. -/
inductive Registered (fd stopFd : Fd) (p : Addr) (process : H) : Sys H → Prop
  | mk (c : Caller) (grant : Bool) {events tr s₀ r} :
      exec.Run (start stopFd events) tr s₀ → (∀ x ∈ tr, ¬ Signals stopFd x.2) →
      fd ≠ stopFd → s₀.loop.kernel.interest fd = none → c.admitted s₀.pc = true →
      s₀.loop.apply (.add .inp fd (some process) p grant) = some r → r.ret = 0 →
      (∀ n q d left fd', s₀.pc ≠ .running n q d left fd' process) →
      Registered fd stopFd p process { s₀ with loop := r.loop }

/-- `execute` waits, and the first handler has been registered. -/
def serving (fd stopFd : Fd) (p : Addr) (process : H) (events : List EpollEvent) : Sys H :=
  ⟨(EventLoop.addHandler (Kernel.ctl true) .inp (.new stopFd events) ⟨p, rfl⟩ fd (some process)).loop, .wait⟩

namespace Registered

theorem watched (h : Registered fd stopFd p process s) : Watched fd stopFd p process s := by
  obtain ⟨_, _, hrun, hno, _, hnew, hc, hadd, hret, _⟩ := h
  exact .new (exec_sound hrun hno) hnew hc hadd hret

theorem ne_stopFd (h : Registered fd stopFd p process s) : fd ≠ stopFd := by
  obtain ⟨_, _, _, _, hne, _, _, _, _, _⟩ := h
  exact hne

theorem idle (h : Registered fd stopFd p process s) {n : Nat} {q : Addr} {d : Dir} {left : Nat} {fd' : Fd} :
    s.pc ≠ .running n q d left fd' process := by
  obtain ⟨_, _, _, _, _, _, _, _, _, hidle⟩ := h
  exact hidle n q d left fd'

theorem first (events : List EpollEvent) (hfd : fd ≠ -1) (hstop : fd ≠ stopFd) :
    Registered fd stopFd p process (serving fd stopFd p process events) := by
  have hnew : (EventLoop.new stopFd events : EventLoop Kernel H).kernel.interest fd = none := if_neg hstop
  refine .mk (.user 0) true (Machine.run_of_exec exec (start stopFd events) [.execute] rfl)
    (List.forall_mem_cons.mpr ⟨id, List.forall_mem_nil _⟩) hstop hnew rfl rfl ?_ (by simp)
  rcases EventLoop.addHandler_cases (Kernel.ctl true) .inp (EventLoop.new stopFd events) ⟨p, rfl⟩ fd (some process) with
    ⟨hno, _⟩ | ⟨h, _, _, _, hr⟩ | ⟨h, a, _, _, hidx, _⟩
  · exact absurd hno (by simp [hfd])
  · rw [hr, EventLoop.control, Kernel.ctl]
    · rfl
    · exact hnew
  · change none = some a at hidx
    simp at hidx

end Registered

namespace Watched

theorem invoked (h : Watched fd stopFd p process s) {n : Nat} {fd' : Fd} {hd : H}
    (hinv : s.loop.invoked n p .inp = some (fd', hd)) : fd' = fd ∧ hd = process := by
  obtain ⟨hs, hstorage, hget⟩ := s.loop.eventInfos.storage_of_index h.index
  have hhandler := h.handler
  rw [EventLoop.handlerOf, hget, Option.bind_some] at hhandler
  obtain ⟨ev, _, hinv⟩ := Option.bind_eq_some_iff.mp hinv
  rw [Option.ite_none_right_eq_some, hstorage, Option.bind_some, hhandler] at hinv
  obtain ⟨rfl, rfl⟩ := Prod.mk.inj (Option.some.inj hinv.2)
  exact ⟨rfl, rfl⟩

theorem report (h : Watched fd stopFd p process s) :
    signals (s.loop.kernel.report fd).events .inp = signals (s.loop.kernel.edges fd) .inp := by
  obtain ⟨ev, hint, _, hmask⟩ := h.interest
  rw [Kernel.report, hint]
  simp [hmask]

end Watched

theorem Step.edge_kept (hs : Step s a s') (ha : Spares fd stopFd a)
    (hedge : signals (s.loop.kernel.edges fd) .inp = true) :
    signals (s'.loop.kernel.edges fd) .inp = true ∨ ∃ fds, a = .wait fds ∧ fd ∈ fds := by
  cases hs with
  | @wait fds evs k _ hw =>
    by_cases hfd : fd ∈ fds
    · exact Or.inr ⟨fds, rfl, hfd⟩
    · left
      rw [show (_ : BitVec 32) = s.loop.kernel.edges fd from ((Kernel.wait_eq hw).edges fd).trans (if_neg hfd)]
      exact hedge
  | call _ hr =>
    rw [EventLoop.apply_edges_of_ne hr ha]
    exact Or.inl hedge
  | @edge fd' bits =>
    left
    show signals (Function.update s.loop.kernel.edges fd' (s.loop.kernel.edges fd' ||| bits) fd) .inp = true
    rw [Function.update_apply]
    split
    · next hfd =>
      rw [signals_or, ← hfd, hedge]
      rfl
    · exact hedge
  | close =>
    rw [show (Kernel.drop _ _).edges fd = s.loop.kernel.edges fd from Function.update_of_ne ha.symm _ _]
    exact Or.inl hedge
  | _ => exact Or.inl hedge

/-! ### From the report to the call -/

/-- The event of slot `i` points to `p`, is on, and is still to be passed, in this pass or in another. -/
structure Due (p : Addr) (i : Nat) (s : Sys H) : Prop where
  active : i < s.active
  ptr : s.loop.events[i]?.map EpollEvent.ptr = some (some p)
  on : On s i .inp
  ahead : ¬ s.pc.Passed i .inp ∨ 0 < s.pc.left

namespace Due

variable {i : Nat}

theorem ne_wait (h : Due p i s) : s.pc ≠ .wait := by
  intro hpc
  have hi := h.active
  rw [Sys.active, hpc] at hi
  exact Nat.not_lt_zero i hi

theorem of_wait (h : Watched fd stopFd p process s) {fds : List Fd} (hfd : fd ∈ fds) (hs : Step s (.wait fds) s')
    (hedge : signals (s.loop.kernel.edges fd) .inp = true) :
    ∃ i, Due p i s' ∧ s'.pc = .filled fds.length := by
  cases hs with
  | wait _ hw =>
    have hwaited := Kernel.wait_eq hw
    obtain ⟨i, hi⟩ := List.mem_iff_getElem?.mp hfd
    obtain ⟨ev, hint, hptr, hmask⟩ := h.interest
    obtain ⟨ev', hint', hptr', hsig⟩ := Kernel.report_eq (hwaited.ready fd hfd)
    obtain rfl := Option.some.inj (hint.symm.trans hint')
    have hslot := waited_slot hwaited s.loop.events hi
    refine ⟨i, ⟨(List.getElem?_eq_some_iff.mp hi).1, ?_, ⟨_, hslot, ?_⟩, Or.inl id⟩, rfl⟩
    · rw [hslot, Option.map_some, hptr', hptr]
    · rw [hsig, hedge, hmask]
      rfl

theorem step (h : Due p i s) (hw : Watched fd stopFd p process s) (hs : Step s a s') (ha : Spares fd stopFd a)
    (hout : ∀ o, outcome? (s, a) ≠ some (i, .inp, o)) : Due p i s' := by
  have hpc := h.ne_wait
  refine ⟨?_, ?_, ?_, ?_⟩
  · refine (hs.active hw.sound.noStop h.active).resolve_right fun ⟨hleft, hpassed⟩ => ?_
    rcases h.ahead with hahead | hahead
    · exact hahead (hpassed .inp)
    · omega
  · rw [hs.ptr hpc]
    exact h.ptr
  · exact (hs.on hpc (ha.not_erases .inp) hw.registered h.ptr h.on).resolve_right fun ⟨_, _, ho⟩ => hout _ ho
  · by_cases hp : s'.pc.Passed i .inp
    · rcases hs.passed hp with ⟨hp, hleft⟩ | ⟨q, left, htest, hinv⟩ | ho | ⟨r, _, ho, _⟩ | ⟨r, _, ho, _⟩
      · have := h.ahead.resolve_left fun hn => hn hp
        exact Or.inr (by omega)
      · obtain ⟨_, hq⟩ := hw.sound.positioned i q (by rw [htest]; rfl)
        rw [h.ptr, Option.some.injEq, Option.some.injEq] at hq
        subst hq
        exact absurd hinv (invoked_of_on h.on hw.registered)
      · exact absurd ho (hout _)
      · exact absurd ho (hout _)
      · exact absurd ho (hout _)
    · exact Or.inl hp

theorem running (h : Due p i s) (hs : Step s a s') (hw : Watched fd stopFd p process s) {q : Addr} {left : Nat}
    {fd' : Fd} {hd : H} (hrun : s'.pc = .running i q .inp left fd' hd) :
    s.pc = .running i q .inp left fd' hd ∨
      q = p ∧ hd = process ∧ a = .step ∧ s.pc = .test i p .inp left ∧ s.loop.invoked i p .inp ≠ none := by
  rcases (hs.running hrun).2 with hold | ⟨rfl, htest, hinv, _⟩
  · exact Or.inl hold
  · right
    obtain ⟨_, hq⟩ := hw.sound.positioned i q (by rw [htest]; rfl)
    rw [h.ptr, Option.some.injEq, Option.some.injEq] at hq
    subst hq
    exact ⟨rfl, (hw.invoked hinv).2, rfl, htest, by rw [hinv]; simp⟩

end Due

/-! ### Who ends the call -/

variable [DecidableEq H]

/-- What a machine around the event loop leaves to it: the handler of the node `p` ends by the machine's own steps. -/
def admits (fd stopFd : Fd) (p : Addr) (process : H) (pc : Pc H) : Act H → Bool
  | .ret _ => !pc.dispatches p process
  | .throw => !pc.dispatches p process
  | .edge fd' _ => fd' ≠ stopFd
  | .call _ o => o.fd ≠ fd
  | .close fd' => fd' ≠ fd
  | _ => true

theorem spares_of_admits {pc : Pc H} (h : admits fd stopFd p process pc a = true) : Spares fd stopFd a := by
  cases a with
  | edge fd' bits => simpa [admits, Spares] using h
  | call c o => simpa [admits, Spares] using h
  | close fd' => simpa [admits, Spares] using h
  | _ => trivial

theorem outcome_of_admits (h : admits fd stopFd p process s.pc a = true) (hrun : s.pc.dispatches p process = true) :
    outcome? (s, a) = none := by
  unfold outcome?
  split
  · next ha =>
    change a = _ at ha
    subst ha
    simp [admits, hrun] at h
  · next ha =>
    change a = _ at ha
    subst ha
    simp [admits, hrun] at h
  · rfl

theorem Step.dispatches (hs : Step s a s') (hout : outcome? (s, a) = none) (h : s.pc.dispatches p process = true) :
    s'.pc.dispatches p process = true := by
  cases hs with
  | more hpc _ => simp [outcome?, hpc] at hout
  | finished hpc _ => simp [outcome?, hpc] at hout
  | throw hpc => simp [outcome?, hpc] at hout
  | call _ _ => exact h
  | edge => exact h
  | close => exact h
  | execute hpc | wait hpc | waitFails hpc | assign hpc | assignFailed hpc | lock hpc | enter hpc | stop hpc
  | again hpc | done hpc | invoke hpc | skip hpc => simp [Pc.dispatches, hpc] at h

theorem Step.not_dispatches {r : Int} (hs : Step s (.ret r) s') : s'.pc.dispatches p process = false := by
  have hafter : ∀ n q d left, (Pc.after n q d left : Pc H).dispatches p process = false := by
    intro n q d left
    cases d <;> rfl
  cases hs with
  | more _ _ => exact hafter _ _ _ _
  | finished _ _ => exact hafter _ _ _ _

end Sys

end Libhbk
