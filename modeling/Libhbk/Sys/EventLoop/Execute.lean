import Libhbk.Base.Bytes
import Libhbk.Base.Machine
import Libhbk.Sys.EventLoop.Change

/-!
# `EventLoop::execute` among other threads

One thread runs `execute`; handlers and other threads call the registry operations. The machine takes
the steps of `execute` one by one: `epoll_wait` fills `m_events`, `m_eventCount` is assigned, the lock is
taken, and the batch is dispatched. Other threads call operations while the lock is free, the handler that
runs may call them at any time. Readiness changes (`edge`; a registration that finds its descriptor ready
is one too) and closed descriptors come from outside. The calls that `addEvent` makes behind its registration
are those of the machine `Threads`, which has this one inside.
-/

namespace Libhbk

/-- Where `execute` stands. In the dispatch, `n` is the slot and `left` is `eventsLeft`. -/
inductive Pc (H : Type) where
  | out
  | wait
  /-- `epoll_wait` has filled `n` slots, `m_eventCount` has its old value. -/
  | filled (n : Nat)
  | failed (eintr : Bool)
  /-- `m_eventCount` is assigned, the lock not taken. -/
  | counted
  | slot (n left : Nat)
  | test (n : Nat) (p : Addr) (d : Dir) (left : Nat)
  | running (n : Nat) (p : Addr) (d : Dir) (left : Nat) (fd : Fd) (h : H)
  deriving DecidableEq, Repr

namespace Pc

variable {H : Type}

/-- `execute` holds the lock. -/
def locked : Pc H → Bool
  | slot .. => true
  | test .. => true
  | running .. => true
  | _ => false

/-- Where the dispatch goes on after the event of one direction of a slot. -/
def after (n : Nat) (p : Addr) (d : Dir) (left : Nat) : Pc H :=
  match d with
  | .inp => test n p .out left
  | .out => slot (n + 1) left

/-- The slot and the pointer that the dispatch works on. -/
def at? : Pc H → Option (Nat × Addr)
  | test n p _ _ => some (n, p)
  | running n p .. => some (n, p)
  | _ => none

theorem at?_after (n : Nat) (p : Addr) (d : Dir) (left : Nat) :
    (after n p d left : Pc H).at? = if d = .inp then some (n, p) else none := by
  cases d <;> rfl

end Pc

/-- The thread that calls an operation: the one in `execute`, from a handler, or another. -/
inductive Caller where
  | loop
  | user (t : Nat)
  deriving DecidableEq, Repr

/-- The lock admits a call. -/
def Caller.admitted {H : Type} : Caller → Pc H → Bool
  | loop, .running .. => true
  | loop, _ => false
  | user _, pc => !pc.locked

inductive Act (H : Type) where
  | execute
  | wait (fds : List Fd)
  | waitFails (eintr : Bool)
  | assign
  | lock
  /-- The dispatch goes on up to the next handler, or ends. -/
  | step
  | ret (r : Int)
  | throw
  | call (c : Caller) (o : Op H)
  | edge (fd : Fd) (bits : BitVec 32)
  | close (fd : Fd)

structure Sys (H : Type) where
  loop : EventLoop Kernel H
  pc : Pc H

namespace EventLoop

variable {K H : Type}

/-- `m_events[n].events &= ~bit`. -/
def clearSlot (l : EventLoop K H) (n : Nat) (d : Dir) : EventLoop K H :=
  { l with events := l.events.modify n fun ev => { ev with events := ev.events &&& ~~~d.bit } }

theorem clearSlot_ptr (l : EventLoop K H) (n : Nat) (d : Dir) (i : Nat) :
    (l.clearSlot n d).events[i]?.map EpollEvent.ptr = l.events[i]?.map EpollEvent.ptr := by
  simp only [clearSlot, List.getElem?_modify, Option.map_eq_map, Option.map_map]
  congr 1
  funext ev
  simp only [Function.comp]
  split <;> rfl

theorem clearSlot_signals {l : EventLoop K H} {n : Nat} {d : Dir} {i : Nat} {ev' : EpollEvent}
    (h : (l.clearSlot n d).events[i]? = some ev') :
    ∃ ev, l.events[i]? = some ev ∧ ev'.ptr = ev.ptr ∧
      ∀ e, signals ev'.events e = (signals ev.events e && !decide (i = n ∧ e = d)) := by
  simp only [clearSlot, List.getElem?_modify, Option.map_eq_map, Option.map_eq_some_iff] at h
  obtain ⟨ev, hev, rfl⟩ := h
  refine ⟨ev, hev, ?_, fun e => ?_⟩
  · split <;> rfl
  · by_cases hn : n = i
    · subst hn
      simp [eq_comm]
    · simp [hn, Ne.symm hn]

/-- The handler that the event `d` of slot `n` calls, and the descriptor it was stored for. `p` is read
as it is in memory. An empty handler throws, which is caught, and has no effect. -/
def invoked (l : EventLoop K H) (n : Nat) (p : Addr) (d : Dir) : Option (Fd × H) :=
  l.events[n]?.bind fun ev =>
    if signals ev.events d then (l.eventInfos.storage p).bind fun e => (e.2.handler d).map fun h => (e.1, h) else none

end EventLoop

namespace Sys

variable {H : Type}

def start (stopFd : Fd) (events : List EpollEvent) : Sys H := ⟨.new stopFd events, .out⟩

def dispatch (s : Sys H) : Option (Sys H) :=
  match s.pc with
  | .slot n left =>
    if n < s.loop.eventCount then
      s.loop.events[n]?.map fun ev =>
        match ev.ptr with
        | some p => { s with pc := .test n p .inp left }
        | none => { s with pc := .out } -- stop notification: return 0
    else if left ≠ 0 then some { s with pc := .slot 0 0 }
    else some { s with pc := .wait }
  | .test n p d left =>
    match s.loop.invoked n p d with
    | some (fd, h) => some { s with pc := .running n p d left fd h }
    | none => some { s with pc := .after n p d left }
  | _ => none

/-- The machine. -/
def exec : Machine (Sys H) (Act H) := fun s a =>
  match a, s.pc with
  | .execute, .out => some { s with pc := .wait }
  | .wait fds, .wait =>
    (s.loop.kernel.wait fds).map fun (evs, k) =>
      ⟨{ s.loop with events := writeAt s.loop.events 0 evs, kernel := k }, .filled fds.length⟩
  | .waitFails eintr, .wait => some { s with pc := .failed eintr }
  | .assign, .filled n => some ⟨{ s.loop with eventCount := n }, .counted⟩
  | .assign, .failed eintr => some ⟨{ s.loop with eventCount := -1 }, if eintr then .counted else .out⟩
  | .lock, .counted => some { s with pc := .slot 0 0 }
  | .step, _ => s.dispatch
  | .ret r, .running n p d left _ _ =>
    if 0 < r then some { s with pc := .after n p d (left + 1) }
    else some ⟨s.loop.clearSlot n d, .after n p d left⟩
  | .throw, .running n p d left _ _ => some { s with pc := .after n p d left }
  | .call c o, pc => if c.admitted pc then (s.loop.apply o).map fun r => { s with loop := r.loop } else none
  | .edge fd bits, _ => some { s with loop := { s.loop with kernel := s.loop.kernel.signal fd bits } }
  | .close fd, _ => some { s with loop := { s.loop with kernel := s.loop.kernel.drop fd } }
  | _, _ => none

/-- The handler that a step of the dispatch calls. -/
def Invokes (x : Sys H × Act H) (fd : Fd) (d : Dir) (h : H) : Prop :=
  x.2 = .step ∧ ∃ n p left, x.1.pc = .test n p d left ∧ x.1.loop.invoked n p d = some (fd, h)

/-! ### What each step can do -/

/-- The steps of the machine, one constructor for each branch. -/
inductive Step (s : Sys H) : Act H → Sys H → Prop
  | execute : s.pc = .out → Step s .execute { s with pc := .wait }
  | wait {fds evs k} : s.pc = .wait → s.loop.kernel.wait fds = some (evs, k) →
      Step s (.wait fds) ⟨{ s.loop with events := writeAt s.loop.events 0 evs, kernel := k }, .filled fds.length⟩
  | waitFails {eintr} : s.pc = .wait → Step s (.waitFails eintr) { s with pc := .failed eintr }
  | assign {n} : s.pc = .filled n → Step s .assign ⟨{ s.loop with eventCount := n }, .counted⟩
  | assignFailed {eintr} : s.pc = .failed eintr →
      Step s .assign ⟨{ s.loop with eventCount := -1 }, if eintr then .counted else .out⟩
  | lock : s.pc = .counted → Step s .lock { s with pc := .slot 0 0 }
  | enter {n left p ev} : s.pc = .slot n left → (n : Int) < s.loop.eventCount → s.loop.events[n]? = some ev →
      ev.ptr = some p → Step s .step { s with pc := .test n p .inp left }
  | stop {n left ev} : s.pc = .slot n left → (n : Int) < s.loop.eventCount → s.loop.events[n]? = some ev →
      ev.ptr = none → Step s .step { s with pc := .out }
  | again {n left} : s.pc = .slot n left → s.loop.eventCount ≤ n → left ≠ 0 →
      Step s .step { s with pc := .slot 0 0 }
  | done {n} : s.pc = .slot n 0 → s.loop.eventCount ≤ n → Step s .step { s with pc := .wait }
  | invoke {n p d left fd h} : s.pc = .test n p d left → s.loop.invoked n p d = some (fd, h) →
      Step s .step { s with pc := .running n p d left fd h }
  | skip {n p d left} : s.pc = .test n p d left → s.loop.invoked n p d = none →
      Step s .step { s with pc := .after n p d left }
  | more {n p d left fd h r} : s.pc = .running n p d left fd h → 0 < r →
      Step s (.ret r) { s with pc := .after n p d (left + 1) }
  | finished {n p d left fd h r} : s.pc = .running n p d left fd h → r ≤ 0 →
      Step s (.ret r) ⟨s.loop.clearSlot n d, .after n p d left⟩
  | throw {n p d left fd h} : s.pc = .running n p d left fd h → Step s .throw { s with pc := .after n p d left }
  | call {c o r} : c.admitted s.pc = true → s.loop.apply o = some r → Step s (.call c o) { s with loop := r.loop }
  | edge {fd bits} : Step s (.edge fd bits) { s with loop := { s.loop with kernel := s.loop.kernel.signal fd bits } }
  | close {fd} : Step s (.close fd) { s with loop := { s.loop with kernel := s.loop.kernel.drop fd } }

theorem dispatch_step {s s' : Sys H} (h : s.dispatch = some s') : Step s .step s' := by
  unfold dispatch at h
  rcases hpc : s.pc with _ | _ | n | eintr | _ | ⟨n, left⟩ | ⟨n, p, d, left⟩ | ⟨n, p, d, left, fd, hd⟩ <;>
    simp only [hpc, reduceCtorEq] at h
  · by_cases hn : (n : Int) < s.loop.eventCount
    · rw [if_pos hn, Option.map_eq_some_iff] at h
      obtain ⟨ev, hev, rfl⟩ := h
      rcases hp : ev.ptr with _ | p
      · exact .stop hpc hn hev hp
      · exact .enter hpc hn hev hp
    · rw [if_neg hn] at h
      by_cases hl : left = 0
      · subst hl
        obtain rfl := Option.some.inj h
        exact .done hpc (by omega)
      · rw [if_pos hl] at h
        obtain rfl := Option.some.inj h
        exact .again hpc (by omega) hl
  · rcases hi : s.loop.invoked n p d with _ | ⟨fd, hd⟩ <;> rw [hi] at h <;> obtain rfl := Option.some.inj h
    · exact .skip hpc hi
    · exact .invoke hpc hi

theorem exec_step {s s' : Sys H} {a : Act H} (h : exec s a = some s') : Step s a s' := by
  cases a with
  | step => exact dispatch_step h
  | call c o =>
    simp only [exec, Option.ite_none_right_eq_some, Option.map_eq_some_iff] at h
    obtain ⟨hc, r, hr, rfl⟩ := h
    exact .call hc hr
  | edge fd bits =>
    obtain rfl := Option.some.inj h
    exact .edge
  | close fd =>
    obtain rfl := Option.some.inj h
    exact .close
  | wait fds =>
    rcases hpc : s.pc with _ | _ | n | eintr | _ | ⟨n, left⟩ | ⟨n, p, d, left⟩ | ⟨n, p, d, left, fd, hd⟩ <;>
      simp only [exec, hpc, reduceCtorEq, Option.map_eq_some_iff] at h
    obtain ⟨⟨evs, k⟩, hw, rfl⟩ := h
    exact .wait hpc hw
  | ret r =>
    rcases hpc : s.pc with _ | _ | n | eintr | _ | ⟨n, left⟩ | ⟨n, p, d, left⟩ | ⟨n, p, d, left, fd, hd⟩ <;>
      simp only [exec, hpc, reduceCtorEq] at h
    by_cases hr : 0 < r
    · rw [if_pos hr] at h
      obtain rfl := Option.some.inj h
      exact .more hpc hr
    · rw [if_neg hr] at h
      obtain rfl := Option.some.inj h
      exact .finished hpc (by omega)
  | execute | waitFails eintr | assign | lock | throw =>
    rcases hpc : s.pc with _ | _ | n | eintr | _ | ⟨n, left⟩ | ⟨n, p, d, left⟩ | ⟨n, p, d, left, fd, hd⟩ <;>
      simp only [exec, hpc, reduceCtorEq] at h <;> obtain rfl := Option.some.inj h <;>
      constructor <;> assumption

/-! ### What holds in every run -/

/-- The dispatch works on a slot of the batch, through the slot's pointer. -/
def Positioned (s : Sys H) : Prop :=
  ∀ n p, s.pc.at? = some (n, p) →
    (n : Int) < s.loop.eventCount ∧ s.loop.events[n]?.map EpollEvent.ptr = some (some p)

theorem Step.positioned {s s' : Sys H} {a : Act H} (hs : Step s a s') (h : Positioned s) : Positioned s' := by
  -- what is written to the slots and to the count leaves the position alone
  have hkeep : ∀ (l' : EventLoop Kernel H) (pc' : Pc H), l'.eventCount = s.loop.eventCount →
      (∀ i : Nat, l'.events[i]?.map EpollEvent.ptr = s.loop.events[i]?.map EpollEvent.ptr) →
      (∀ n p, pc'.at? = some (n, p) → s.pc.at? = some (n, p)) → Positioned (⟨l', pc'⟩ : Sys H) := by
    intro l' pc' hcount hptr hpc n p hat
    rw [show (⟨l', pc'⟩ : Sys H).loop = l' from rfl, hcount, hptr]
    exact h n p (hpc n p hat)
  have hafter : ∀ {n p d left}, s.pc.at? = some (n, p) →
      ∀ m q, (Pc.after n p d left : Pc H).at? = some (m, q) → s.pc.at? = some (m, q) := by
    intro n p d left hat m q hm
    rw [Pc.at?_after, Option.ite_none_right_eq_some] at hm
    rw [hat, hm.2]
  cases hs with
  | enter hpc hn hev hp =>
    rintro m q ⟨⟩
    exact ⟨hn, by rw [hev, Option.map_some, hp]⟩
  | invoke hpc _ =>
    refine hkeep _ _ rfl (fun _ => rfl) fun m q hat => ?_
    rw [hpc]
    exact hat
  | skip hpc _ => exact hkeep _ _ rfl (fun _ => rfl) (hafter (by rw [hpc]; rfl))
  | more hpc _ => exact hkeep _ _ rfl (fun _ => rfl) (hafter (by rw [hpc]; rfl))
  | throw hpc => exact hkeep _ _ rfl (fun _ => rfl) (hafter (by rw [hpc]; rfl))
  | finished hpc _ => exact hkeep _ _ rfl (EventLoop.clearSlot_ptr _ _ _) (hafter (by rw [hpc]; rfl))
  | call hc hr =>
    obtain ⟨hchange, hcount⟩ := EventLoop.apply_change hr
    exact hkeep _ _ hcount hchange.ptr fun _ _ => id
  | edge => exact hkeep _ _ rfl (fun _ => rfl) fun _ _ => id
  | close => exact hkeep _ _ rfl (fun _ => rfl) fun _ _ => id
  | @assignFailed eintr _ =>
    intro m q hat
    cases eintr <;> simp [Pc.at?] at hat
  | execute | wait | waitFails | assign | lock | stop | again | done =>
    intro m q hat
    simp [Pc.at?] at hat

theorem Step.agrees {s s' : Sys H} {a : Act H} (hs : Step s a s') (h : s.loop.Agrees) : s'.loop.Agrees := by
  cases hs with
  | wait _ hw =>
    intro fd ev p hint hptr
    rw [show _ = s.loop.kernel.interest from (Kernel.wait_eq hw).interest] at hint
    exact h fd ev p hint hptr
  | call _ hr => exact EventLoop.apply_agrees h hr
  | close =>
    intro fd ev p hint hptr
    simp only [Kernel.drop, Function.update_apply, Option.ite_none_left_eq_some] at hint
    exact h fd ev p hint.2 hptr
  | _ => exact h

theorem start_positioned (stopFd : Fd) (events : List EpollEvent) : Positioned (start stopFd events : Sys H) := by
  intro n p hat
  simp [start, Pc.at?] at hat

theorem exec_agrees {stopFd : Fd} {events : List EpollEvent} {tr : List (Sys H × Act H)} {s : Sys H}
    (hrun : exec.Run (start stopFd events) tr s) : s.loop.Agrees :=
  hrun.invariant (P := fun s => s.loop.Agrees) (EventLoop.agrees_new stopFd events)
    fun _ _ _ h hs => (exec_step hs).agrees h

end Sys

end Libhbk
