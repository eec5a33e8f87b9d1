import Libhbk.Sys.EventLoop.Drain

/-!
# Stopping in the middle of a batch

At the stop notification `execute` returns at once. What is left of the batch is forgotten: the next
`execute` fills `m_events` anew, and the kernel does not report an edge twice. So the descriptors behind
the stop event, and those whose handlers wanted to be called again or threw, wait for a new edge, unless a
handler that ran before registered them anew and `addEvent` has called them until nothing was left.
-/

namespace Libhbk

namespace Sys

variable {H : Type} {s s' : Sys H} {a : Act H} {tr : List (Sys H × Act H)} {fd : Fd}

/-- A new edge of the descriptor. -/
def Signals (fd : Fd) : Act H → Prop
  | .edge fd' _ => fd' = fd
  | _ => False

instance (fd : Fd) : (a : Act H) → Decidable (Signals fd a)
  | .edge fd' _ => inferInstanceAs (Decidable (fd' = fd))
  | .execute | .wait _ | .waitFails _ | .assign | .lock | .step | .ret _ | .throw | .call _ _ | .close _ => isFalse id

/-- A new edge of the descriptor, or a registry operation on it. -/
def Touches (fd : Fd) : Act H → Prop
  | .edge fd' _ => fd' = fd
  | .call _ o => o.fd = fd
  | _ => False

theorem signals_touches {a : Act H} (h : Signals fd a) : Touches fd a := by
  cases a with
  | edge => exact h
  | _ => exact absurd h id

/-! ### A descriptor without edges is not dispatched -/

/-- Nothing is signalled for the descriptor, and no slot of the batch points to an entry of it. -/
structure Silent (fd : Fd) (s : Sys H) : Prop where
  agrees : s.loop.Agrees
  positioned : Positioned s
  edges : s.loop.kernel.edges fd = 0
  slots : ∀ i < s.active, ∀ p, s.loop.events[i]?.map EpollEvent.ptr = some (some p) →
    (s.loop.eventInfos.storage p).map Prod.fst ≠ some fd

theorem Step.edges (hs : Step s a s') (hno : ¬ Signals fd a) (h : s.loop.kernel.edges fd = 0) :
    s'.loop.kernel.edges fd = 0 := by
  cases hs with
  | wait _ hw => rw [(Kernel.wait_eq hw).edges, h, ite_self]
  | call _ hr => exact EventLoop.apply_edges hr h
  | @edge fd' bits =>
    have hne : fd ≠ fd' := by
      rintro rfl
      exact hno rfl
    show Function.update _ _ _ fd = 0
    rw [Function.update_of_ne hne, h]
  | close =>
    show Function.update _ _ _ fd = 0
    rw [Function.update_apply, h, ite_self]
  | _ => exact h

theorem active_after (l : EventLoop Kernel H) (n : Nat) (p : Addr) (d : Dir) (left : Nat) :
    (⟨l, .after n p d left⟩ : Sys H).active = l.eventCount.toNat := by
  cases d <;> rfl

theorem Step.active_le (hs : Step s a s') (hpc : s.pc ≠ .wait) : s'.active ≤ s.active := by
  cases hs with
  | wait h _ => exact absurd h hpc
  | assign h => simp [active, h]
  | @assignFailed eintr _ => cases eintr <;> exact Nat.zero_le _
  | lock h => simp [active, h]
  | enter h _ _ _ => simp [active, h]
  | again h _ _ => simp [active, h]
  | invoke h _ => simp [active, h]
  | skip h _ => rw [active_after]; simp [active, h]
  | more h _ => rw [active_after]; simp [active, h]
  | finished h _ => rw [active_after]; simp [active, h, EventLoop.clearSlot]
  | throw h => rw [active_after]; simp [active, h]
  | call _ hr => simp [active, (EventLoop.apply_change hr).2]
  | edge => exact Nat.le_refl _
  | close => exact Nat.le_refl _
  | execute | waitFails | stop | done => exact Nat.zero_le _

theorem Step.active_wait (hs : Step s a s') (hpc : s.pc = .wait) :
    s'.active = 0 ∨ ∃ fds evs k, a = .wait fds ∧ s.loop.kernel.Waited fds evs k ∧
      s' = ⟨{ s.loop with events := writeAt s.loop.events 0 evs, kernel := k }, .filled fds.length⟩ := by
  cases hs with
  | wait _ hw => exact Or.inr ⟨_, _, _, rfl, Kernel.wait_eq hw, rfl⟩
  | waitFails _ => exact Or.inl rfl
  | call _ _ => exact Or.inl (by rw [Sys.active, hpc])
  | edge => exact Or.inl (by rw [Sys.active, hpc])
  | close => exact Or.inl (by rw [Sys.active, hpc])
  | execute h | assign h | assignFailed h | lock h | enter h | stop h | again h | done h | invoke h | skip h | more h
  | finished h | throw h => simp [hpc] at h

theorem Silent.step (h : Silent fd s) (hs : Step s a s') (hno : ¬ Touches fd a) : Silent fd s' := by
  refine ⟨hs.agrees h.agrees, hs.positioned h.positioned, hs.edges (fun ha => hno (signals_touches ha)) h.edges,
    fun i hi p hptr => ?_⟩
  by_cases hpc : s.pc = .wait
  · rcases hs.active_wait hpc with hzero | ⟨fds, evs, k, rfl, hwaited, rfl⟩
    · omega
    · -- a slot of the new batch belongs to a descriptor with edges
      have hfd := List.getElem?_eq_getElem (show i < fds.length from hi)
      simp only [waited_slot hwaited _ hfd, Option.map_some, Option.some.injEq] at hptr
      obtain ⟨v, hstorage, _⟩ := s.loop.eventInfos.storage_of_index (waited_agrees h.agrees hwaited hfd hptr).1
      rw [show (s.loop.eventInfos.storage p).map Prod.fst = some fds[i] by rw [hstorage]; rfl]
      intro heq
      have hready := hwaited.ready fds[i] (List.getElem_mem hi)
      rw [Option.some.inj heq] at hready
      unfold Kernel.report at hready
      split at hready
      · exact hready rfl
      · rw [h.edges] at hready
        simp at hready
  · rw [hs.ptr hpc] at hptr
    have hold := h.slots i (Nat.lt_of_lt_of_le hi (hs.active_le hpc)) p hptr
    cases hs with
    | call _ hr => exact fun hkey => hold ((EventLoop.apply_change hr).1.key hno hkey)
    | _ => exact hold

/-- Nothing has been written to `stopFd`: no slot of the batch is the stop event. -/
structure NoStop (stopFd : Fd) (s : Sys H) : Prop where
  /-- Only the loop's own event is registered with the null pointer. -/
  null : ∀ fd ev, s.loop.kernel.interest fd = some ev → ev.ptr = none → fd = stopFd
  edges : s.loop.kernel.edges stopFd = 0
  slots : ∀ i < s.active, s.loop.events[i]?.map EpollEvent.ptr ≠ some none

theorem start_noStop (stopFd : Fd) (events : List EpollEvent) : NoStop stopFd (start stopFd events : Sys H) := by
  refine ⟨fun fd ev hint _ => ?_, rfl, fun i hi => absurd hi (Nat.not_lt_zero i)⟩
  simp only [start, EventLoop.new, Option.ite_none_right_eq_some] at hint
  exact hint.1

theorem Step.noStop {stopFd : Fd} (hs : Step s a s') (hno : ¬ Signals stopFd a) (h : NoStop stopFd s) :
    NoStop stopFd s' := by
  refine ⟨fun fd ev hint hnull => ?_, hs.edges hno h.edges, fun i hi hslot => ?_⟩
  · cases hs with
    | wait _ hw =>
      rw [show _ = s.loop.kernel.interest from (Kernel.wait_eq hw).interest] at hint
      exact h.null fd ev hint hnull
    | call _ hr => exact h.null fd ev ((EventLoop.apply_ptr hr hint).resolve_right fun hne => hne hnull) hnull
    | close =>
      simp only [Kernel.drop, Function.update_apply, Option.ite_none_left_eq_some] at hint
      exact h.null fd ev hint.2 hnull
    | _ => exact h.null fd ev hint hnull
  · by_cases hpc : s.pc = .wait
    · rcases hs.active_wait hpc with hzero | ⟨fds, evs, k, rfl, hwaited, rfl⟩
      · omega
      · have hfd := List.getElem?_eq_getElem (show i < fds.length from hi)
        simp only [waited_slot hwaited _ hfd, Option.map_some, Option.some.injEq] at hslot
        have hready := hwaited.ready fds[i] (List.getElem_mem hi)
        obtain ⟨ev, hint, hptr, _⟩ := Kernel.report_eq hready
        rw [h.null _ ev hint (hptr ▸ hslot)] at hready hint
        rw [Kernel.report, hint, h.edges] at hready
        simp at hready
    · rw [hs.ptr hpc] at hslot
      exact h.slots i (Nat.lt_of_lt_of_le hi (hs.active_le hpc)) hslot

/-- A batch without the stop event stays active until all of its slots have been passed with nothing left. -/
theorem Step.active {stopFd : Fd} (hs : Step s a s') (h : NoStop stopFd s) {i : Nat} (hi : i < s.active) :
    i < s'.active ∨ (s.pc.left = 0 ∧ ∀ d, s.pc.Passed i d) := by
  cases hs with
  | execute hpc => simp [Sys.active, hpc] at hi
  | wait hpc _ => simp [Sys.active, hpc] at hi
  | waitFails hpc => simp [Sys.active, hpc] at hi
  | assignFailed hpc => simp [Sys.active, hpc] at hi
  | assign hpc => exact Or.inl (by simpa [Sys.active, hpc] using hi)
  | lock hpc => exact Or.inl (by simpa [Sys.active, hpc] using hi)
  | enter hpc _ _ _ => exact Or.inl (by simpa [Sys.active, hpc] using hi)
  | again hpc _ _ => exact Or.inl (by simpa [Sys.active, hpc] using hi)
  | invoke hpc _ => exact Or.inl (by simpa [Sys.active, hpc] using hi)
  | skip hpc _ => exact Or.inl (by rw [active_after]; simpa [Sys.active, hpc] using hi)
  | more hpc _ => exact Or.inl (by rw [active_after]; simpa [Sys.active, hpc] using hi)
  | finished hpc _ => exact Or.inl (by rw [active_after]; simpa [Sys.active, hpc, EventLoop.clearSlot] using hi)
  | throw hpc => exact Or.inl (by rw [active_after]; simpa [Sys.active, hpc] using hi)
  | call _ hr => exact Or.inl (by simpa [Sys.active, (EventLoop.apply_change hr).2] using hi)
  | edge => exact Or.inl hi
  | close => exact Or.inl hi
  | @stop n left ev hpc hn hev hp =>
    refine absurd ?_ (h.slots n ?_)
    · rw [hev, Option.map_some, hp]
    · rw [Sys.active, hpc]
      show n < s.loop.eventCount.toNat
      omega
  | @done n hpc hcount =>
    right
    rw [Sys.active, hpc] at hi
    rw [hpc]
    refine ⟨rfl, fun d => ?_⟩
    show i < n
    change i < s.loop.eventCount.toNat at hi
    omega

/-! ### The interrupted batch -/

/-- How many slots this pass has come to. -/
def slotsReached (s : Sys H) : Nat :=
  match s.pc with
  | .slot n _ => n
  | .test n .. => n + 1
  | .running n .. => n + 1
  | _ => 0

/-- None of the slots that this pass has come to is the stop event. -/
def BeforeStop (s : Sys H) : Prop := ∀ i < s.slotsReached, s.loop.events[i]?.map EpollEvent.ptr ≠ some none

theorem Step.beforeStop (hs : Step s a s') (h : BeforeStop s) : BeforeStop s' := by
  by_cases hpc : s.pc = .wait
  · have hzero : s'.slotsReached = 0 := by
      cases hs <;> simp_all [slotsReached]
    intro i hi
    omega
  intro i hi
  rw [hs.ptr hpc]
  have active_after : ∀ (l : EventLoop Kernel H) n p d left, (⟨l, .after n p d left⟩ : Sys H).slotsReached = n + 1 := by
    intro l n p d left
    cases d <;> rfl
  cases hs with
  | enter hslot _ hev hp =>
    rcases Nat.lt_succ_iff_lt_or_eq.mp hi with hi | rfl
    · exact h i (by rw [slotsReached, hslot]; exact hi)
    · rw [hev, Option.map_some, hp]
      simp
  | invoke hslot _ => exact h i (by rw [slotsReached, hslot]; exact hi)
  | skip hslot _ =>
    rw [active_after] at hi
    exact h i (by rw [slotsReached, hslot]; exact hi)
  | more hslot _ =>
    rw [active_after] at hi
    exact h i (by rw [slotsReached, hslot]; exact hi)
  | finished hslot _ =>
    rw [active_after] at hi
    exact h i (by rw [slotsReached, hslot]; exact hi)
  | throw hslot =>
    rw [active_after] at hi
    exact h i (by rw [slotsReached, hslot]; exact hi)
  | call _ _ => exact h i hi
  | edge => exact h i hi
  | close => exact h i hi
  | @assignFailed eintr _ => cases eintr <;> exact absurd hi (Nat.not_lt_zero i)
  | execute | wait | waitFails | assign | lock | stop | again | done => exact absurd hi (Nat.not_lt_zero i)

/-- A run over a batch without new edges for it. -/
structure Interrupted (k : Kernel) (fds : List Fd) (s₁ : Sys H) (tr : List (Sys H × Act H)) (s : Sys H) : Prop where
  serving : Serving k fds s₁ tr s
  agrees : s.loop.Agrees
  beforeStop : BeforeStop s
  called : ∀ x ∈ tr, ∀ i d o, outcome? x = some (i, d, o) → ∀ j ≤ i, s₁.loop.events[j]?.map EpollEvent.ptr ≠ some none
  edges : ∀ fd ∈ fds, s.loop.kernel.edges fd = 0

theorem interrupted {s₀ s₁ : Sys H} (hagree : s₀.loop.Agrees) {fds : List Fd} (hwait : exec s₀ (.wait fds) = some s₁)
    (hrun : exec.Run s₁ tr s) (hfirst : ∀ x ∈ tr, x.1.pc ≠ .wait)
    (hquiet : ∀ x ∈ tr, ∀ fd ∈ fds, ¬ Signals fd x.2) :
    Interrupted s₀.loop.kernel fds s₁ tr s := by
  induction hrun with
  | nil =>
    refine ⟨(serving_of_wait hagree hwait).1, (exec_step hwait).agrees hagree, ?_, fun x hx => by simp at hx, ?_⟩
    · obtain ⟨evs, k, _, rfl⟩ := exec_wait hwait
      exact fun i hi => absurd hi (Nat.not_lt_zero i)
    · obtain ⟨evs, k, hw, rfl⟩ := exec_wait hwait
      intro fd hfd
      show k.edges fd = 0
      rw [hw.edges, if_pos hfd]
  | @snoc tr s a s' _ hs ih =>
    have hold := ih (fun x hx => hfirst x (List.mem_cons_of_mem _ hx)) fun x hx => hquiet x (List.mem_cons_of_mem _ hx)
    have hstep := exec_step hs
    refine ⟨hold.serving.step hstep (hfirst _ List.mem_cons_self), hstep.agrees hold.agrees,
      hstep.beforeStop hold.beforeStop, fun x hx i d o hout j hj => ?_,
      fun fd hfd => hstep.edges (hquiet _ List.mem_cons_self fd hfd) (hold.edges fd hfd)⟩
    rcases List.mem_cons.mp hx with rfl | hx
    · obtain ⟨p, left, fd, hd, hpc⟩ := running_of_outcome hout
      rw [← hold.serving.ptr]
      exact hold.beforeStop j (by rw [slotsReached, hpc]; exact Nat.lt_succ_of_le hj)
    · exact hold.called x hx i d o hout j hj

end Sys

namespace Threads

variable {H : Type} {tr : List (Threads H × ThreadAct H)} {i : Nat} {fd : Fd} {d : Dir} {o : Option Int}

variable [DecidableEq H]

end Threads

end Libhbk
