import Libhbk.Base.Potential
import Libhbk.Sys.EventLoop.Fairness
import Libhbk.Sys.EventLoop.Stop

/-!
# `stop` gets through

`stop` writes to `m_stopFd`, from any thread and at any time, and nobody reads it away. The edge is pending in the
kernel until `epoll_wait` reports it, and then it is a slot of the batch with the null pointer until the dispatch comes
to it. `stop_not_lost` follows each call of `stop` on this way, `stop_prompt` bounds the second part of it.
-/

namespace Libhbk.Sys

variable {H : Type} {s s' : Sys H} {a : Act H} {tr : List (Sys H × Act H)} {stopFd : Fd} {i : Nat}

/-- The write of `stop`. -/
def isStop (stopFd : Fd) : Act H → Bool
  | .edge fd _ => fd == stopFd
  | _ => false

/-- `execute` returns 0. -/
def returns (x : Sys H × Act H) : Bool :=
  match x.1.pc, x.2 with
  | .slot n _, .step =>
    decide ((n : Int) < x.1.loop.eventCount) && (x.1.loop.events[n]?.map EpollEvent.ptr == some none)
  | _, _ => false

/-- A slot of the active batch is the stop event. -/
def reported (s : Sys H) : Bool := (s.loop.events.take s.active).any fun ev => ev.ptr.isNone

/-- The edges of `stop` that `execute` has not answered: one in the kernel, one in the batch. -/
def unanswered (stopFd : Fd) (s : Sys H) : Nat := (s.loop.kernel.edges stopFd != 0).toNat + s.reported.toNat

/-- `m_stopFd` is the loop's own, and `stop` makes it readable. -/
def SparesStop (stopFd : Fd) : Act H → Prop
  | .edge fd bits => fd = stopFd → bits = EPOLLIN
  | .call _ o => o.fd ≠ stopFd
  | .close fd => fd ≠ stopFd
  | _ => True

/-- What the loop's own event keeps. -/
structure Wakeable (stopFd : Fd) (s : Sys H) : Prop where
  interest : s.loop.kernel.interest stopFd = some ⟨EPOLLIN ||| EPOLLET, none⟩
  /-- No other event has the null pointer. -/
  null : ∀ fd ev, s.loop.kernel.interest fd = some ev → ev.ptr = none → fd = stopFd
  edges : s.loop.kernel.edges stopFd = 0 ∨ s.loop.kernel.edges stopFd = EPOLLIN
  beforeStop : BeforeStop s

/-! ### The stop event in the batch -/

theorem reported_iff : s.reported = true ↔ ∃ i < s.active, s.loop.events[i]?.map EpollEvent.ptr = some none := by
  rw [reported, List.any_eq_true]
  constructor
  · rintro ⟨ev, hev, hnull⟩
    obtain ⟨i, hi, hget⟩ := List.mem_take_iff_getElem.mp hev
    refine ⟨i, by omega, ?_⟩
    rw [List.getElem?_eq_getElem (by omega), hget, Option.map_some, Option.isNone_iff_eq_none.mp hnull]
  · rintro ⟨i, hi, hslot⟩
    obtain ⟨ev, hev, hnull⟩ := Option.map_eq_some_iff.mp hslot
    refine ⟨ev, ?_, Option.isNone_iff_eq_none.mpr hnull⟩
    obtain ⟨hlt, hget⟩ := List.getElem?_eq_some_iff.mp hev
    exact List.mem_take_iff_getElem.mpr ⟨i, by omega, hget⟩

theorem reported_of_active (h : s.active = 0) : s.reported = false := by
  rw [reported, h, List.take_zero]
  rfl

theorem active_of_wait (h : s.pc = .wait) : s.active = 0 := by
  rw [active, h]

theorem Step.of_returns (stopFd : Fd) (hs : Step s a s') (h : returns (s, a) = true) :
    s.reported = true ∧ s'.reported = false ∧ s'.loop.kernel = s.loop.kernel ∧ isStop stopFd a = false := by
  unfold returns at h
  split at h
  · next n left hpc ha =>
    dsimp only at hpc ha h
    subst ha
    obtain ⟨hn, hslot⟩ := (Bool.and_eq_true _ _).mp h
    have hn := of_decide_eq_true hn
    have hslot := beq_iff_eq.mp hslot
    refine ⟨reported_iff.mpr ⟨n, ?_, hslot⟩, ?_⟩
    · rw [Sys.active, hpc]
      dsimp only
      omega
    cases hs with
    | stop _ _ _ _ => exact ⟨reported_of_active rfl, rfl, rfl⟩
    | enter hpc' _ hev hp =>
      obtain ⟨rfl, -⟩ := Pc.slot.inj (hpc.symm.trans hpc')
      simp [hev, hp] at hslot
    | again hpc' hcount _ =>
      obtain ⟨rfl, -⟩ := Pc.slot.inj (hpc.symm.trans hpc')
      omega
    | done hpc' hcount =>
      obtain ⟨rfl, -⟩ := Pc.slot.inj (hpc.symm.trans hpc')
      omega
    | invoke hpc' _ | skip hpc' _ => simp [hpc] at hpc'
  · simp at h

theorem Step.reported_le (hs : Step s a s') (hpc : s.pc ≠ .wait) (h : s'.reported = true) : s.reported = true := by
  obtain ⟨i, hi, hslot⟩ := reported_iff.mp h
  rw [hs.ptr hpc] at hslot
  exact reported_iff.mpr ⟨i, Nat.lt_of_lt_of_le hi (hs.active_le hpc), hslot⟩

theorem Step.reported_keep (hs : Step s a s') (hbefore : BeforeStop s) (h : s.reported = true) :
    s'.reported = true ∨ returns (s, a) = true := by
  obtain ⟨i, hi, hslot⟩ := reported_iff.mp h
  have hpc : s.pc ≠ .wait := by
    intro hpc
    rw [active_of_wait hpc] at hi
    omega
  have hactive : i < s'.active → s'.reported = true := by
    intro hi'
    exact reported_iff.mpr ⟨i, hi', (hs.ptr hpc i).trans hslot⟩
  cases hs with
  | execute hpc => simp [Sys.active, hpc] at hi
  | wait hpc _ => simp [Sys.active, hpc] at hi
  | waitFails hpc => simp [Sys.active, hpc] at hi
  | assignFailed hpc => simp [Sys.active, hpc] at hi
  | assign hpc => exact Or.inl (hactive (by simpa [Sys.active, hpc] using hi))
  | lock hpc => exact Or.inl (hactive (by simpa [Sys.active, hpc] using hi))
  | enter hpc _ _ _ => exact Or.inl (hactive (by simpa [Sys.active, hpc] using hi))
  | again hpc _ _ => exact Or.inl (hactive (by simpa [Sys.active, hpc] using hi))
  | invoke hpc _ => exact Or.inl (hactive (by simpa [Sys.active, hpc] using hi))
  | skip hpc _ => exact Or.inl (hactive (by rw [active_after]; simpa [Sys.active, hpc] using hi))
  | more hpc _ => exact Or.inl (hactive (by rw [active_after]; simpa [Sys.active, hpc] using hi))
  | finished hpc _ =>
    exact Or.inl (hactive (by rw [active_after]; simpa [Sys.active, hpc, EventLoop.clearSlot] using hi))
  | throw hpc => exact Or.inl (hactive (by rw [active_after]; simpa [Sys.active, hpc] using hi))
  | call _ hr => exact Or.inl (hactive (by simpa [Sys.active, (EventLoop.apply_change hr).2] using hi))
  | edge => exact Or.inl (hactive hi)
  | close => exact Or.inl (hactive hi)
  | stop hpc hn hev hp =>
    right
    simp [returns, hpc, hn, hev, hp]
  | @done n hpc hcount =>
    -- the pass is behind the stop event
    refine absurd hslot (hbefore i ?_)
    simp only [Sys.active, hpc] at hi
    rw [slotsReached, hpc]
    dsimp only
    omega

/-! ### The edge in the kernel -/

theorem start_wakeable (stopFd : Fd) (events : List EpollEvent) : Wakeable stopFd (start stopFd events : Sys H) := by
  refine ⟨if_pos rfl, fun fd ev hint _ => ?_, Or.inl rfl, fun i hi => absurd hi (Nat.not_lt_zero i)⟩
  simp only [start, EventLoop.new, Option.ite_none_right_eq_some] at hint
  exact hint.1

theorem Step.stop_edges (hs : Step s a s') (hspare : SparesStop stopFd a) :
    (∃ fds, a = .wait fds ∧ stopFd ∈ fds ∧ s.loop.kernel.edges stopFd ≠ 0 ∧ s'.loop.kernel.edges stopFd = 0) ∨
      (isStop stopFd a = true ∧ s'.loop.kernel.edges stopFd = s.loop.kernel.edges stopFd ||| EPOLLIN) ∨
      (isStop stopFd a = false ∧ s'.loop.kernel.edges stopFd = s.loop.kernel.edges stopFd ∧
        ∀ fds, a = .wait fds → stopFd ∉ fds) := by
  cases hs with
  | @wait fds evs k hpc hw =>
    have hwaited := Kernel.wait_eq hw
    by_cases hmem : stopFd ∈ fds
    · refine Or.inl ⟨fds, rfl, hmem, fun hzero => hwaited.ready stopFd hmem ?_, ?_⟩
      · unfold Kernel.report
        split
        · rfl
        · simp [hzero]
      · exact (hwaited.edges stopFd).trans (if_pos hmem)
    · refine Or.inr (Or.inr ⟨rfl, (hwaited.edges stopFd).trans (if_neg hmem), ?_⟩)
      rintro _ ⟨⟩
      exact hmem
  | call _ hr => exact Or.inr (Or.inr ⟨rfl, EventLoop.apply_edges_of_ne hr hspare, fun _ ha => nomatch ha⟩)
  | @edge fd bits =>
    by_cases hfd : fd = stopFd
    · subst hfd
      obtain rfl := hspare rfl
      exact Or.inr (Or.inl ⟨beq_self_eq_true fd, Function.update_self ..⟩)
    · exact Or.inr (Or.inr ⟨beq_eq_false_iff_ne.mpr hfd, Function.update_of_ne (Ne.symm hfd) .., fun _ ha => nomatch ha⟩)
  | close => exact Or.inr (Or.inr ⟨rfl, Function.update_of_ne (Ne.symm hspare) .., fun _ ha => nomatch ha⟩)
  | _ => exact Or.inr (Or.inr ⟨rfl, rfl, fun _ ha => nomatch ha⟩)

theorem Step.wakeable (hs : Step s a s') (hspare : SparesStop stopFd a) (h : Wakeable stopFd s) : Wakeable stopFd s' := by
  refine ⟨?_, fun fd ev hint hnull => ?_, ?_, hs.beforeStop h.beforeStop⟩
  · cases hs with
    | wait _ hw =>
      rw [← h.interest]
      exact congrFun (Kernel.wait_eq hw).interest stopFd
    | call _ hr => exact (EventLoop.apply_interest hr hspare).trans h.interest
    | close => exact (Function.update_of_ne (Ne.symm hspare) ..).trans h.interest
    | _ => exact h.interest
  · cases hs with
    | wait _ hw =>
      rw [show _ = s.loop.kernel.interest from (Kernel.wait_eq hw).interest] at hint
      exact h.null fd ev hint hnull
    | call _ hr => exact h.null fd ev ((EventLoop.apply_ptr hr hint).resolve_right fun hne => hne hnull) hnull
    | close =>
      simp only [Kernel.drop, Function.update_apply, Option.ite_none_left_eq_some] at hint
      exact h.null fd ev hint.2 hnull
    | _ => exact h.null fd ev hint hnull
  · rcases hs.stop_edges hspare with ⟨_, _, _, _, hzero⟩ | ⟨_, hor⟩ | ⟨_, hsame, _⟩
    · exact Or.inl hzero
    · right
      rcases h.edges with hzero | hin
      · rw [hor, hzero]
        decide
      · rw [hor, hin]
        decide
    · rw [hsame]
      exact h.edges

theorem reported_wait {fds : List Fd} {evs : List EpollEvent} {k : Kernel} (h : Wakeable stopFd s)
    (hw : s.loop.kernel.Waited fds evs k) :
    reported (⟨{ s.loop with events := writeAt s.loop.events 0 evs, kernel := k }, .filled fds.length⟩ : Sys H) = true ↔
      stopFd ∈ fds := by
  rw [reported_iff]
  constructor
  · rintro ⟨i, hi, hslot⟩
    change i < fds.length at hi
    have hfd := List.getElem?_eq_getElem hi
    rw [waited_slot hw _ hfd, Option.map_some, Option.some.injEq] at hslot
    obtain ⟨ev, hint, hptr, _⟩ := Kernel.report_eq (hw.ready fds[i] (List.getElem_mem hi))
    rw [← h.null _ ev hint (hptr ▸ hslot)]
    exact List.getElem_mem hi
  · intro hmem
    obtain ⟨i, hi, rfl⟩ := List.getElem_of_mem hmem
    refine ⟨i, hi, ?_⟩
    rw [waited_slot hw _ (List.getElem?_eq_getElem hi), Option.map_some, Kernel.report, h.interest]

theorem Step.reported_new (hs : Step s a s') (h : Wakeable stopFd s) (hnew : s'.reported = true)
    (hold : s.reported = false) : ∃ fds, a = .wait fds ∧ stopFd ∈ fds := by
  by_cases hpc : s.pc = .wait
  · rcases hs.active_wait hpc with hzero | ⟨fds, evs, k, rfl, hwaited, rfl⟩
    · rw [reported_of_active hzero] at hnew
      simp at hnew
    · exact ⟨fds, rfl, (reported_wait h hwaited).mp hnew⟩
  · rw [hs.reported_le hpc hnew] at hold
    simp at hold

theorem Step.unanswered (hs : Step s a s') (hspare : SparesStop stopFd a) (h : Wakeable stopFd s) :
    unanswered stopFd s' + (returns (s, a)).toNat ≤ unanswered stopFd s + (isStop stopFd a).toNat := by
  unfold Sys.unanswered
  by_cases hret : returns (s, a) = true
  · obtain ⟨hbefore, hafter, hkernel, hstop⟩ := hs.of_returns stopFd hret
    rw [hret, hbefore, hafter, hkernel, hstop]
    exact Nat.le_refl _
  · rw [Bool.not_eq_true] at hret
    rw [hret]
    have hone : ∀ b : Bool, b.toNat ≤ 1 := Bool.toNat_le
    rcases hs.stop_edges hspare with ⟨fds, rfl, hmem, hedge, hzero⟩ | ⟨hstop, _⟩ | ⟨_, hsame, hno⟩
    · rw [hzero, bne_iff_ne.mpr hedge]
      have hrep := hone s'.reported
      simp only [bne_self_eq_false, Bool.toNat_false, Bool.toNat_true]
      omega
    · have hrep : s'.reported.toNat ≤ s.reported.toNat := by
        cases hold : s.reported with
        | true => exact hone _
        | false =>
          cases hnew : s'.reported with
          | false => exact Nat.le_refl _
          | true =>
            obtain ⟨fds, rfl, _⟩ := hs.reported_new h hnew hold
            simp [isStop] at hstop
      have hedge := hone (s'.loop.kernel.edges stopFd != 0)
      rw [hstop]
      simp only [Bool.toNat_false, Bool.toNat_true]
      omega
    · have hrep : s'.reported.toNat ≤ s.reported.toNat := by
        cases hold : s.reported with
        | true => exact hone _
        | false =>
          cases hnew : s'.reported with
          | false => exact Nat.le_refl _
          | true =>
            obtain ⟨fds, rfl, hmem⟩ := hs.reported_new h hnew hold
            exact absurd hmem (hno fds rfl)
      rw [hsame]
      simp only [Bool.toNat_false]
      omega

/-! ### From `stop` to the return -/

/-- What has become of a call of `stop`, after the steps `tr`: its edge is pending in the kernel, or `epoll_wait` has
reported it, and the stop event is still to be dispatched or `execute` has returned 0. -/
def Answered (stopFd : Fd) (tr : List (Sys H × Act H)) (s : Sys H) : Prop :=
  s.loop.kernel.edges stopFd ≠ 0 ∨ ∃ later x earlier fds, tr = later ++ x :: earlier ∧ x.2 = .wait fds ∧ stopFd ∈ fds ∧
    (s.reported = true ∨ ∃ y ∈ later, returns y = true)

theorem Answered.step (h : Answered stopFd tr s) (hs : Step s a s') (hspare : SparesStop stopFd a)
    (hwake : Wakeable stopFd s) : Answered stopFd ((s, a) :: tr) s' := by
  rcases h with hedge | ⟨later, x, earlier, fds, rfl, hx, hmem, hanswer⟩
  · rcases hs.stop_edges hspare with ⟨fds, rfl, hmem, _, _⟩ | ⟨_, hor⟩ | ⟨_, hsame, _⟩
    · right
      refine ⟨[], _, tr, fds, rfl, rfl, hmem, Or.inl ?_⟩
      cases hs with
      | wait hpc hw => exact (reported_wait hwake (Kernel.wait_eq hw)).mpr hmem
    · left
      rw [hor, hwake.edges.resolve_left hedge]
      decide
    · left
      rw [hsame]
      exact hedge
  · refine Or.inr ⟨(s, a) :: later, x, earlier, fds, rfl, hx, hmem, ?_⟩
    rcases hanswer with hrep | ⟨y, hy, hret⟩
    · rcases hs.reported_keep hwake.beforeStop hrep with hrep | hret
      · exact Or.inl hrep
      · exact Or.inr ⟨_, List.mem_cons_self, hret⟩
    · exact Or.inr ⟨y, List.mem_cons_of_mem _ hy, hret⟩

/-- **`stop` is neither lost nor answered twice.** Each call of it has its edge in the kernel, or the stop event in the
batch, or `execute` has returned 0 since `epoll_wait` reported it; and `execute` does not return 0 more often than
`stop` was called, less what is still pending. -/
theorem stop_not_lost (stopFd : Fd) (events : List EpollEvent) {tr : List (Sys H × Act H)} {s : Sys H}
    (hrun : exec.Run (start stopFd events) tr s) (hspare : ∀ x ∈ tr, SparesStop stopFd x.2) :
    (∀ later x earlier, tr = later ++ x :: earlier → isStop stopFd x.2 = true → Answered stopFd later s) ∧
      unanswered stopFd s + tr.countP returns ≤ tr.countP fun x => isStop stopFd x.2 := by
  have hwake : ∀ {tr : List (Sys H × Act H)} {s : Sys H}, exec.Run (start stopFd events) tr s →
      (∀ x ∈ tr, SparesStop stopFd x.2) → Wakeable stopFd s := by
    intro tr s hrun hspare
    exact hrun.guarded (G := fun _ a => SparesStop stopFd a) (start_wakeable stopFd events)
      (fun _ _ _ h hg hs => (exec_step hs).wakeable hg h) hspare
  constructor
  · intro later
    induction later generalizing tr s with
    | nil =>
      rintro ⟨s₀, a⟩ earlier rfl hstop
      cases hrun with
      | snoc hrun hs =>
        have hspare₀ := hspare _ List.mem_cons_self
        have hwake₀ := hwake hrun fun x hx => hspare x (List.mem_cons_of_mem _ hx)
        rcases (exec_step hs).stop_edges hspare₀ with ⟨_, rfl, _⟩ | ⟨_, hor⟩ | ⟨hno, _⟩
        · simp [isStop] at hstop
        · left
          rw [hor]
          rcases hwake₀.edges with hzero | hin
          · rw [hzero]
            decide
          · rw [hin]
            decide
        · rw [hno] at hstop
          simp at hstop
    | cons y later ih =>
      rintro x earlier rfl hstop
      cases hrun with
      | snoc hrun hs =>
        have hold := fun x hx => hspare x (List.mem_cons_of_mem _ hx)
        exact (ih hrun hold x earlier rfl hstop).step (exec_step hs) (hspare _ List.mem_cons_self) (hwake hrun hold)
  · have hcount := hrun.countP_le (P := Wakeable stopFd) (G := fun _ a => SparesStop stopFd a) (unanswered stopFd)
      (fun s a => returns (s, a)) (fun _ a => isStop stopFd a) (start_wakeable stopFd events)
      (fun _ _ _ h hg hs => (exec_step hs).wakeable hg h) (fun _ _ _ h hg hs => (exec_step hs).unanswered hg h) hspare
    have hzero : unanswered stopFd (start stopFd events : Sys H) = 0 := by
      rfl
    rw [hzero, Nat.zero_add] at hcount
    exact hcount

/-! ### From the report to the return -/

/-- A step of the thread in `execute`. -/
def ownStep : Act H → Bool
  | .call _ _ => false
  | .edge _ _ => false
  | .close _ => false
  | _ => true

/-- The steps to the return, where the stop event is in slot `i`. -/
def toGo (i : Nat) (s : Sys H) : Nat :=
  match s.pc with
  | .filled _ => 5 * i + 3
  | .counted => 5 * i + 2
  | .slot n _ => 5 * (i - n) + 1
  | .test n _ .inp _ => 5 * (i - n)
  | .running n _ .inp .. => 5 * (i - n) - 1
  | .test n _ .out _ => 5 * (i - n) - 2
  | .running n _ .out .. => 5 * (i - n) - 3
  | _ => 0

/-- The first pass over a batch of `m` events is not behind slot `i`, the stop event. -/
structure Nearing (m i : Nat) (s : Sys H) : Prop where
  batch : InBatch m s
  slot : s.loop.events[i]?.map EpollEvent.ptr = some none
  reached : s.slotsReached ≤ i

theorem toGo_after (l : EventLoop Kernel H) (n : Nat) (p : Addr) (d : Dir) (left i : Nat) :
    toGo i (⟨l, .after n p d left⟩ : Sys H) = match d with | .inp => 5 * (i - n) - 2 | .out => 5 * (i - (n + 1)) + 1 := by
  cases d <;> rfl

theorem slotsReached_after (l : EventLoop Kernel H) (n : Nat) (p : Addr) (d : Dir) (left : Nat) :
    slotsReached (⟨l, .after n p d left⟩ : Sys H) = n + 1 := by
  cases d <;> rfl

theorem InBatch.eventCount {m : Nat} (h : InBatch m s) (hl : s.pc.locked = true) : s.loop.eventCount = m := by
  rcases h with hpc | ⟨_, hcount⟩
  · simp [hpc, Pc.locked] at hl
  · exact hcount

theorem Step.nearing {m : Nat} (hs : Step s a s') (hi : i < m) (h : Nearing m i s) (hno : returns (s, a) = false) :
    Nearing m i s' := by
  have hpc : s.pc ≠ .wait := by
    intro hpc
    have hbatch := h.batch
    simp [InBatch, hpc, Pc.locked] at hbatch
  have hslot : s'.loop.events[i]?.map EpollEvent.ptr = some none := (hs.ptr hpc i).trans h.slot
  have hbehind : ∀ n left, s.pc = .slot n left → ¬ s.loop.eventCount ≤ n := by
    intro n left hslot hle
    have hreached := h.reached
    rw [h.batch.eventCount (by rw [hslot]; rfl)] at hle
    rw [slotsReached, hslot] at hreached
    dsimp only at hreached
    omega
  have hreached : s'.slotsReached ≤ i := by
    have hold := h.reached
    cases hs with
    | @enter n left p ev hslot' _ hev hp =>
      rw [slotsReached, hslot'] at hold
      have hne : n ≠ i := by
        rintro rfl
        have hnull := h.slot
        rw [hev, Option.map_some, hp] at hnull
        simp at hnull
      show n + 1 ≤ i
      dsimp only at hold
      omega
    | invoke hpc' _ =>
      rw [slotsReached, hpc'] at hold
      exact hold
    | skip hpc' _ =>
      rw [slotsReached, hpc'] at hold
      rw [slotsReached_after]
      exact hold
    | more hpc' _ =>
      rw [slotsReached, hpc'] at hold
      rw [slotsReached_after]
      exact hold
    | finished hpc' _ =>
      rw [slotsReached, hpc'] at hold
      rw [slotsReached_after]
      exact hold
    | throw hpc' =>
      rw [slotsReached, hpc'] at hold
      rw [slotsReached_after]
      exact hold
    | call _ _ | edge | close => exact hold
    | @assignFailed eintr _ => cases eintr <;> exact Nat.zero_le i
    | execute | wait | waitFails | assign | lock | stop | again | done => exact Nat.zero_le i
  refine ⟨?_, hslot, hreached⟩
  rcases hs.inBatch h.batch with hbatch | ⟨n, hslot', hn, _, _⟩ | ⟨_, _, _, hout⟩
  · exact hbatch
  · refine absurd ?_ (hbehind n 0 hslot')
    rw [h.batch.eventCount (by rw [hslot']; rfl)]
    exact Int.ofNat_le.mpr hn
  · exfalso
    have hbatch := h.batch
    cases hs with
    | stop hslot' hn hev hp => simp [returns, hslot', hn, hev, hp] at hno
    | call _ _ | edge | close =>
      have hpc' : s.pc = .out := congrArg pc hout
      simp [InBatch, hpc', Pc.locked] at hbatch
    | @assignFailed eintr hpc' => simp [InBatch, hpc', Pc.locked] at hbatch
    | @skip n p d left _ _ => cases d <;> simp [Pc.after] at hout
    | @more n p d left _ _ _ _ _ => cases d <;> simp [Pc.after] at hout
    | @finished n p d left _ _ _ _ _ => cases d <;> simp [Pc.after] at hout
    | @throw n p d left _ _ _ => cases d <;> simp [Pc.after] at hout
    | execute | wait | waitFails | assign | lock | enter | again | done | invoke => simp at hout

theorem Step.toGo {m : Nat} (hs : Step s a s') (hi : i < m) (h : Nearing m i s) (hno : returns (s, a) = false) :
    toGo i s' + (ownStep a).toNat ≤ toGo i s := by
  have hbatch := h.batch
  have hold := h.reached
  have hnew := (hs.nearing hi h hno).reached
  cases hs with
  | execute hpc | wait hpc _ | waitFails hpc | assignFailed hpc => simp [InBatch, hpc, Pc.locked] at hbatch
  | assign hpc => simp [Sys.toGo, hpc, ownStep]
  | lock hpc => simp [Sys.toGo, hpc, ownStep]
  | enter hpc _ _ _ => simp [Sys.toGo, hpc, ownStep]
  | stop hpc hn hev hp => simp [returns, hpc, hn, hev, hp] at hno
  | @again n left hpc hcount _ =>
    rw [slotsReached, hpc] at hold
    rw [hbatch.eventCount (by rw [hpc]; rfl)] at hcount
    dsimp only at hold
    omega
  | @done n hpc hcount =>
    rw [slotsReached, hpc] at hold
    rw [hbatch.eventCount (by rw [hpc]; rfl)] at hcount
    dsimp only at hold
    omega
  | @invoke n p d left fd hd hpc _ =>
    rw [slotsReached, hpc] at hold
    dsimp only at hold
    cases d <;> simp only [Sys.toGo, hpc, ownStep, Bool.toNat_true] <;> omega
  | @skip n p d left hpc _ =>
    rw [slotsReached, hpc] at hold
    dsimp only at hold
    rw [toGo_after]
    cases d <;> simp only [Sys.toGo, hpc, ownStep, Bool.toNat_true] <;> omega
  | @more n p d left fd hd r hpc _ =>
    rw [slotsReached, hpc] at hold
    dsimp only at hold
    rw [toGo_after]
    cases d <;> simp only [Sys.toGo, hpc, ownStep, Bool.toNat_true] <;> omega
  | @finished n p d left fd hd r hpc _ =>
    rw [slotsReached, hpc] at hold
    dsimp only at hold
    rw [toGo_after]
    cases d <;> simp only [Sys.toGo, hpc, ownStep, Bool.toNat_true] <;> omega
  | @throw n p d left fd hd hpc =>
    rw [slotsReached, hpc] at hold
    dsimp only at hold
    rw [toGo_after]
    cases d <;> simp only [Sys.toGo, hpc, ownStep, Bool.toNat_true] <;> omega
  | call _ _ | edge | close => exact Nat.le_refl _

theorem Nearing.not_passed {m : Nat} (h : Nearing m i s) (d : Dir) : ¬ s.pc.Passed i d := by
  intro hp
  have hreached := h.reached
  rw [slotsReached] at hreached
  cases hpc : s.pc with
  | slot n | test n | running n =>
    rw [hpc] at hp hreached
    simp only [Pc.Passed] at hp hreached
    omega
  | _ => exact absurd (hpc ▸ hp : (_ : Pc H).Passed i d) id

theorem Nearing.exists_step {m : Nat} (h : Nearing m i s) (hi : i < m) : ∃ a s', ownStep a = true ∧ exec s a = some s' := by
  have hlength : i < s.loop.events.length := by
    obtain ⟨ev, hev, _⟩ := Option.map_eq_some_iff.mp h.slot
    exact (List.getElem?_eq_some_iff.mp hev).1
  have hreached := h.reached
  have hbatch := h.batch
  rw [slotsReached] at hreached
  cases hpc : s.pc with
  | out | wait | failed => simp [InBatch, hpc, Pc.locked] at hbatch
  | filled n => exact ⟨.assign, ⟨{ s.loop with eventCount := n }, .counted⟩, rfl, by simp only [exec, hpc]⟩
  | counted => exact ⟨.lock, { s with pc := .slot 0 0 }, rfl, by simp only [exec, hpc]⟩
  | slot n left =>
    rw [hpc] at hreached
    dsimp only at hreached
    have hcount := hbatch.eventCount (by rw [hpc]; rfl)
    have hn : (n : Int) < s.loop.eventCount := by omega
    have hget := List.getElem?_eq_getElem (show n < s.loop.events.length by omega)
    have hs : s.dispatch ≠ none := by
      unfold dispatch
      rw [hpc]
      dsimp only
      rw [if_pos hn, hget]
      simp
    obtain ⟨s', hs'⟩ := Option.ne_none_iff_exists'.mp hs
    exact ⟨.step, s', rfl, hs'⟩
  | test n p d left =>
    have hs : s.dispatch ≠ none := by
      unfold dispatch
      rw [hpc]
      dsimp only
      split <;> simp
    obtain ⟨s', hs'⟩ := Option.ne_none_iff_exists'.mp hs
    exact ⟨.step, s', rfl, hs'⟩
  | running n p d left fd hd => exact ⟨.throw, { s with pc := .after n p d left }, rfl, by simp only [exec, hpc]⟩

theorem Nearing.toGo_pos {m : Nat} (h : Nearing m i s) : 0 < toGo i s := by
  have hreached := h.reached
  have hbatch := h.batch
  rw [slotsReached] at hreached
  rw [toGo]
  cases hpc : s.pc with
  | out | wait | failed => simp [InBatch, hpc, Pc.locked] at hbatch
  | filled n | counted | slot n left => exact Nat.succ_pos _
  | test n p d left | running n p d left fd hd =>
    rw [hpc] at hreached
    dsimp only at hreached
    cases d <;> dsimp only <;> omega

/-- **`stop` takes effect in the pass that finds it.** From the `epoll_wait` that reports it in slot `i`, the thread in
`execute` takes at most `5 * i + 3` steps up to the return, whatever the handlers do and the other threads call; until
then it can always take one. It calls the events in the slots before `i` only, and each of them once at most. -/
theorem stop_prompt (stopFd : Fd) (events : List EpollEvent) {tr₀ tr : List (Sys H × Act H)} {s₀ s₁ s : Sys H}
    (hreach : exec.Run (start stopFd events) tr₀ s₀) (hspare : ∀ x ∈ tr₀, SparesStop stopFd x.2) {fds : List Fd}
    (hwait : exec s₀ (.wait fds) = some s₁) (hfd : fds[i]? = some stopFd) (hrun : exec.Run s₁ tr s)
    (hno : ∀ x ∈ tr, returns x = false) :
    tr.countP (fun x => ownStep x.2) ≤ 5 * i + 2 ∧ (∃ a s', ownStep a = true ∧ exec s a = some s') ∧
      (∀ x ∈ tr, ∀ j d o, outcome? x = some (j, d, o) → j < i) ∧ ∀ j d, calls j d tr ≤ 1 := by
  obtain ⟨hi, _⟩ := List.getElem?_eq_some_iff.mp hfd
  have hwake : Wakeable stopFd s₀ := hreach.guarded (G := fun _ a => SparesStop stopFd a) (start_wakeable stopFd events)
    (fun _ _ _ h hg hs => (exec_step hs).wakeable hg h) hspare
  have hstart : Nearing fds.length i s₁ := by
    obtain ⟨evs, k, hw, rfl⟩ := exec_wait hwait
    refine ⟨Or.inl rfl, ?_, Nat.zero_le i⟩
    rw [waited_slot hw _ hfd, Option.map_some, Kernel.report, hwake.interest]
  have hnear : ∀ {tr : List (Sys H × Act H)} {s : Sys H}, exec.Run s₁ tr s → (∀ x ∈ tr, returns x = false) →
      Nearing fds.length i s := by
    intro tr s hrun hno
    exact hrun.guarded (G := fun s a => returns (s, a) = false) hstart
      (fun _ _ _ h hg hs => (exec_step hs).nearing hi h hg) hno
  have hmem : ∀ x ∈ tr, Nearing fds.length i x.1 := by
    intro x hx
    obtain ⟨tr₁, hrun₁, hsub⟩ := hrun.of_mem hx
    exact hnear hrun₁ fun y hy => hno y (hsub y hy)
  refine ⟨?_, (hnear hrun hno).exists_step hi, fun x hx j d o hout => ?_, fun j d => ?_⟩
  · have hcount := hrun.countP_le (P := Nearing fds.length i) (G := fun s a => returns (s, a) = false) (toGo i)
      (fun _ a => ownStep a) (fun _ _ => false) hstart (fun _ _ _ h hg hs => (exec_step hs).nearing hi h hg)
      (fun _ _ _ h hg hs => (exec_step hs).toGo hi h hg) hno
    have hfirst : toGo i s₁ = 5 * i + 3 := by
      obtain ⟨evs, k, _, rfl⟩ := exec_wait hwait
      rfl
    have hleft := (hnear hrun hno).toGo_pos
    rw [hfirst, List.countP_false, Function.const_apply] at hcount
    omega
  · obtain ⟨p, left, fd, hd, hpc⟩ := running_of_outcome hout
    have hreached := (hmem x hx).reached
    rw [slotsReached, hpc] at hreached
    exact hreached
  · have hlimited : ∀ {tr : List (Sys H × Act H)} {s : Sys H}, exec.Run s₁ tr s → (∀ x ∈ tr, returns x = false) →
        Limited j d tr s := by
      intro tr s hrun hno
      induction hrun with
      | nil => exact ⟨fun _ => Nat.zero_le _, fun _ => Nat.zero_le _⟩
      | snoc hrun hs ih =>
        exact (ih fun x hx => hno x (List.mem_cons_of_mem _ hx)).step (exec_step hs) (hnear (hrun.snoc hs) hno).batch
    have hrounds : rounds tr = 0 := by
      rw [rounds, List.countP_eq_zero]
      exact fun x hx hover => (hmem x hx).not_passed d (passed_of_startsOver (hmem x hx).batch hi hover)
    by_cases hp : s.pc.Passed j d
    · have hone := (hlimited hrun hno).passed hp
      omega
    · have hzero := (hlimited hrun hno).ahead hp
      omega

/-- `stop` twice before `execute` sees it, and once more while it returns: the second return is still to come. -/
theorem stop_not_lost_thrice :
    ∃ (tr : List (Sys Nat × Act Nat)) (s : Sys Nat), exec.Run (start 3 []) tr s ∧ s.pc = .out ∧
      tr.countP returns = 1 ∧ (tr.countP fun x => isStop 3 x.2) = 3 ∧ unanswered 3 s = 1 ∧
      ∀ later x earlier, tr = later ++ x :: earlier → isStop 3 x.2 = true → Answered 3 later s := by
  have hexec : (exec.exec [] (start 3 []) [.edge 3 EPOLLIN, .edge 3 EPOLLIN, .execute, .wait [3], .assign,
      .edge 3 EPOLLIN, .lock, .step]).map (fun x => (decide (x.2.pc = (.out : Pc Nat)), x.1.countP returns,
        (x.1.countP fun y => isStop 3 y.2), unanswered 3 x.2, x.1.all fun y => match y.2 with
          | .edge fd bits => fd == 3 && bits == EPOLLIN
          | .call .. => false
          | .close _ => false
          | _ => true)) = some (true, 1, 3, 1, true) := by
    decide +kernel
  obtain ⟨⟨tr, s⟩, hrun, hend⟩ := Option.map_eq_some_iff.mp hexec
  simp only [Prod.mk.injEq, List.all_eq_true, decide_eq_true_eq] at hend
  obtain ⟨hpc, hreturns, hstops, hleft, hall⟩ := hend
  have hspare : ∀ x ∈ tr, SparesStop 3 x.2 := by
    rintro ⟨s', a⟩ hx
    have ha := hall _ hx
    cases a with
    | edge fd bits => exact fun _ => beq_iff_eq.mp ((Bool.and_eq_true _ _).mp ha).2
    | call | close => simp at ha
    | _ => trivial
  have hlost := stop_not_lost 3 [] (Machine.run_of_exec _ _ _ hrun) hspare
  exact ⟨tr, s, Machine.run_of_exec _ _ _ hrun, hpc, hreturns, hstops, hleft, hlost.1⟩

/-- Another descriptor stands before the stop event; its handler wants to be called again, but is not. -/
theorem stop_prompt_second_slot :
    ∃ (tr₀ tr : List (Sys Nat × Act Nat)) (s₀ s₁ s : Sys Nat), exec.Run (start 3 []) tr₀ s₀ ∧
      exec s₀ (.wait [5, 3]) = some s₁ ∧ exec.Run s₁ tr s ∧ s.pc = .slot 1 1 ∧
      tr.countP (fun x => ownStep x.2) ≤ 7 ∧ ∀ j d, calls j d tr ≤ 1 := by
  have hexec : ((exec.exec [] (start 3 []) [.call (.user 0) (.add .inp 5 (some 10) 0 true), .edge 5 EPOLLIN,
      .edge 3 EPOLLIN, .execute]).bind fun x => (exec x.2 (.wait [5, 3])).bind fun s₁ =>
        (exec.exec [] s₁ [.assign, .lock, .step, .step, .ret 1, .step]).map fun y =>
          (decide (y.2.pc = (.slot 1 1 : Pc Nat)), y.1.all (fun z => !returns z), x.1.all fun z => match z.2 with
            | .edge fd bits => fd != 3 || bits == EPOLLIN
            | .call _ o => o.fd != 3
            | .close _ => false
            | _ => true)) = some (true, true, true) := by
    decide +kernel
  obtain ⟨⟨tr₀, s₀⟩, hreach, hexec⟩ := Option.bind_eq_some_iff.mp hexec
  obtain ⟨s₁, hwait, hexec⟩ := Option.bind_eq_some_iff.mp hexec
  obtain ⟨⟨tr, s⟩, hrun, hend⟩ := Option.map_eq_some_iff.mp hexec
  simp only [Prod.mk.injEq, List.all_eq_true, decide_eq_true_eq, Bool.not_eq_true'] at hend
  obtain ⟨hpc, hno, hall⟩ := hend
  have hspare : ∀ x ∈ tr₀, SparesStop 3 x.2 := by
    rintro ⟨s', a⟩ hx
    have ha := hall _ hx
    cases a with
    | edge fd bits =>
      rintro rfl
      simpa using ha
    | call c o => exact bne_iff_ne.mp ha
    | close => simp at ha
    | _ => trivial
  have hrun := Machine.run_of_exec _ _ _ hrun
  obtain ⟨hcount, _, _, hcalls⟩ := stop_prompt 3 [] (Machine.run_of_exec _ _ _ hreach) hspare hwait (i := 1) rfl hrun hno
  exact ⟨tr₀, tr, s₀, s₁, s, Machine.run_of_exec _ _ _ hreach, hwait, hrun, hpc, hcount, hcalls⟩

end Libhbk.Sys
