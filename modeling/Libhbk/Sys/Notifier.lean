import Libhbk.Sys.EventLoop.Watched
import Libhbk.Sys.Timer

/-!
# Notifiers

`notify` adds one to the counter of an eventfd. The event loop calls `process`, which takes the whole counter
with one read and calls the handler that many times. Both run beside `execute` and beside each other: any
thread may notify or set the handler between any two steps, the handler itself included.

No notification is lost because of `Inv.ready`: while the counter is not zero, the kernel holds an edge of the eventfd,
or the batch holds its event on in a slot that this pass has still to come to, or `process` runs for that slot
and has not read.
-/

namespace Libhbk

variable {H C : Type}

/-- The largest value of an eventfd. -/
def eventfdMax : Nat := 0xfffffffffffffffe

/-- A notifier and the event loop it belongs to. -/
structure Notifier (H C : Type) where
  sys : Sys H
  /-- What the eventfd `m_fd` counts. -/
  counter : Nat
  /-- A `process` in progress has read, and has this many calls to make. -/
  owed : Option Nat
  eventHandler : Cb C

namespace Notifier

/-- The constructor: the eventfd has been created, and `addEvent` has left the event loop in this state. -/
def new (sys : Sys H) : Notifier H C := ⟨sys, 0, none, .nop⟩

def set (s : Notifier H C) (eventHandler : Option C) : Int × Notifier H C :=
  match eventHandler with
  | some h => (0, { s with eventHandler := .user h })
  | none => (0, { s with eventHandler := .nop })

/-- `notify`: the result of writing 1, which fails with `EAGAIN` where the counter would get too large. -/
def notify (fd : Fd) (s : Notifier H C) : Int × Notifier H C :=
  if s.counter < eventfdMax then
    (8, { s with counter := s.counter + 1,
                 sys := { s.sys with loop := { s.sys.loop with kernel := s.sys.loop.kernel.signal fd EPOLLIN } } })
  else (-1, s)

/-- `::read(m_fd, &eventCount, sizeof(eventCount))`: the result and `eventCount`. -/
def read (s : Notifier H C) : Int × Nat × Notifier H C :=
  if s.counter = 0 then (-1, 0, s) else (8, s.counter, { s with counter := 0 })

inductive Act (H C : Type) where
  /-- A step of `execute`, or of something else that uses the event loop. -/
  | loop (a : Libhbk.Act H)
  | notify
  | set (eventHandler : Option C)
  /-- `process` reads; it returns -1 if there is nothing to read. -/
  | read
  /-- `process` calls the handler. -/
  | call
  /-- `process` returns 0. -/
  | finish

/-- The machine; the constructor has registered `process` for `fd`, in the node `p`. -/
def step [DecidableEq H] (fd stopFd : Fd) (p : Addr) (process : H) : Machine (Notifier H C) (Act H C) := fun s a =>
  match a with
  | .loop a =>
    if Sys.admits fd stopFd p process s.sys.pc a then (s.sys.exec a).map fun sys => { s with sys := sys } else none
  | .notify => some (s.notify fd).2
  | .set eventHandler => some (s.set eventHandler).2
  | .read =>
    if s.sys.pc.dispatches p process ∧ s.owed = none then
      let (result, eventCount, s) := s.read
      if result ≠ 8 then (s.sys.exec (.ret (-1))).map fun sys => { s with sys := sys }
      else some { s with owed := some eventCount }
    else none
  | .call =>
    match s.owed with
    | some (n + 1) => some { s with owed := some n }
    | _ => none
  | .finish =>
    if s.owed = some 0 then (s.sys.exec (.ret 0)).map fun sys => { s with sys := sys, owed := none } else none

/-- The step is a notification that succeeds. -/
def notified (fd : Fd) (x : Notifier H C × Act H C) : Bool :=
  match x.2 with
  | .notify => (x.1.notify fd).1 = 8
  | _ => false

/-- The step is an execution of the handler. -/
def executed (x : Notifier H C × Act H C) : Bool :=
  match x.2 with
  | .call => true
  | _ => false

variable [DecidableEq H] {fd stopFd : Fd} {p : Addr} {process : H} {s s' : Notifier H C} {a : Act H C}

/-- The steps of the machine. -/
inductive Step (fd stopFd : Fd) (p : Addr) (process : H) (s : Notifier H C) : Act H C → Notifier H C → Prop
  | loop {a sys} : Sys.admits fd stopFd p process s.sys.pc a = true → s.sys.Step a sys →
      Step fd stopFd p process s (.loop a) { s with sys := sys }
  | notify : s.counter < eventfdMax → Step fd stopFd p process s .notify { s with
      counter := s.counter + 1,
      sys := { s.sys with loop := { s.sys.loop with kernel := s.sys.loop.kernel.signal fd EPOLLIN } } }
  | full : ¬ s.counter < eventfdMax → Step fd stopFd p process s .notify s
  | set {eventHandler h} : Step fd stopFd p process s (.set eventHandler) { s with eventHandler := h }
  | again {sys} : s.owed = none → s.counter = 0 → s.sys.Step (.ret (-1)) sys →
      Step fd stopFd p process s .read { s with sys := sys }
  | read : s.sys.pc.dispatches p process = true → s.owed = none →
      Step fd stopFd p process s .read { s with counter := 0, owed := some s.counter }
  | call {n} : s.owed = some (n + 1) → Step fd stopFd p process s .call { s with owed := some n }
  | finish {sys} : s.owed = some 0 → s.sys.Step (.ret 0) sys →
      Step fd stopFd p process s .finish { s with sys := sys, owed := none }

theorem step_cases (h : step fd stopFd p process s a = some s') : Step fd stopFd p process s a s' := by
  cases a with
  | loop a =>
    simp only [step, Option.ite_none_right_eq_some, Option.map_eq_some_iff] at h
    obtain ⟨hadmits, sys, hexec, rfl⟩ := h
    exact .loop hadmits (Sys.exec_step hexec)
  | notify =>
    obtain rfl := Option.some.inj h
    by_cases hc : s.counter < eventfdMax
    · rw [notify, if_pos hc]
      exact .notify hc
    · rw [notify, if_neg hc]
      exact .full hc
  | set eventHandler =>
    obtain rfl := Option.some.inj h
    cases eventHandler <;> exact .set
  | read =>
    simp only [step, Option.ite_none_right_eq_some] at h
    obtain ⟨⟨hcalls, howed⟩, h⟩ := h
    by_cases hc : s.counter = 0
    · simp only [read, if_pos hc, ne_eq, reduceCtorEq, not_false_eq_true, if_true, Int.reduceNeg,
        Option.map_eq_some_iff] at h
      obtain ⟨sys, hexec, rfl⟩ := h
      exact .again howed hc (Sys.exec_step hexec)
    · simp only [read, if_neg hc, ne_eq, not_true_eq_false, if_false, Option.some.injEq] at h
      subst h
      exact .read hcalls howed
  | call =>
    simp only [step] at h
    split at h
    · next n howed =>
      obtain rfl := Option.some.inj h
      exact .call howed
    · simp at h
  | finish =>
    simp only [step, Option.ite_none_right_eq_some, Option.map_eq_some_iff] at h
    obtain ⟨howed, sys, hexec, rfl⟩ := h
    exact .finish howed (Sys.exec_step hexec)

/-! ### No lost notification -/

/-- A slot of the batch is due, and if its call runs, `process` has not read. -/
def Ready (p : Addr) (process : H) (owed : Option Nat) (s : Sys H) : Prop :=
  ∃ i, s.Due p i ∧ ∀ q left fd' h, s.pc = .running i q .inp left fd' h → q = p ∧ h = process ∧ owed = none

theorem Ready.step {sys sys' : Sys H} {b : Libhbk.Act H} {owed owed' : Option Nat} (h : Ready p process owed sys)
    (hw : sys.Watched fd stopFd p process) (hs : sys.Step b sys') (hb : Sys.Spares fd stopFd b)
    (hidle : owed ≠ none → sys.pc.dispatches p process = true)
    (hcall : ∀ i o, Sys.outcome? (sys, b) = some (i, .inp, o) → sys.pc.dispatches p process = true → owed ≠ none)
    (howed : sys'.pc.dispatches p process = true → owed' = owed) : Ready p process owed' sys' := by
  obtain ⟨i, hdue, hrun⟩ := h
  have hdispatches : ∀ left fd', (.running i p .inp left fd' process : Pc H).dispatches p process = true := by
    intro left fd'
    simp [Pc.dispatches]
  -- the call for this slot does not end: it is `process`, which has not read
  have hout : ∀ o, Sys.outcome? (sys, b) ≠ some (i, .inp, o) := by
    intro o hout
    obtain ⟨q, left, fd', hd, hpc⟩ := Sys.running_of_outcome hout
    obtain ⟨rfl, rfl, hnone⟩ := hrun q left fd' hd hpc
    exact hcall i o hout (by rw [hpc]; exact hdispatches left fd') hnone
  refine ⟨i, hdue.step hw hs hb hout, fun q left fd' hd hpc => ?_⟩
  rcases hdue.running hs hw hpc with hold | ⟨rfl, rfl, _, htest, _⟩
  · obtain ⟨rfl, rfl, hnone⟩ := hrun q left fd' hd hold
    exact ⟨rfl, rfl, (howed (by rw [hpc]; exact hdispatches left fd')).trans hnone⟩
  · refine ⟨rfl, rfl, (howed (by rw [hpc]; exact hdispatches left fd')).trans ?_⟩
    by_contra hne
    have hrunning := hidle hne
    rw [htest] at hrunning
    simp [Pc.dispatches] at hrunning

structure Inv (fd stopFd : Fd) (p : Addr) (process : H) (s : Notifier H C) : Prop where
  watched : s.sys.Watched fd stopFd p process
  running : s.owed ≠ none → s.sys.pc.dispatches p process = true
  ready : 0 < s.counter → signals (s.sys.loop.kernel.edges fd) .inp = true ∨ Ready p process s.owed s.sys

theorem Step.inv (hs : Step fd stopFd p process s a s') (hfd : fd ≠ stopFd) (h : Inv fd stopFd p process s) :
    Inv fd stopFd p process s' := by
  cases hs with
  | @loop b sys hadmits hs =>
    have hb := Sys.spares_of_admits hadmits
    refine ⟨h.watched.step hs hb, fun howed => ?_, fun hc => ?_⟩
    · exact hs.dispatches (Sys.outcome_of_admits hadmits (h.running howed)) (h.running howed)
    · rcases h.ready hc with hedge | hready
      · rcases hs.edge_kept hb hedge with hedge' | ⟨fds, rfl, hmem⟩
        · exact Or.inl hedge'
        · obtain ⟨i, hdue, hpc⟩ := Sys.Due.of_wait h.watched hmem hs hedge
          exact Or.inr ⟨i, hdue, fun q left fd' hd hrun => by simp [hpc] at hrun⟩
      · refine Or.inr (hready.step h.watched hs hb h.running (fun i o hout hrun => ?_) fun _ => rfl)
        rw [Sys.outcome_of_admits hadmits hrun] at hout
        simp at hout
  | notify hc =>
    refine ⟨h.watched.step .edge hfd, h.running, fun _ => Or.inl ?_⟩
    show signals (Function.update s.sys.loop.kernel.edges fd (s.sys.loop.kernel.edges fd ||| EPOLLIN) fd) .inp = true
    rw [Function.update_self, signals_or, signals_EPOLLIN]
    simp
  | full _ => exact h
  | set => exact ⟨h.watched, h.running, h.ready⟩
  | again howed hc hs =>
    exact ⟨h.watched.step hs trivial, fun hne => absurd howed hne, fun hpos => absurd hc (Nat.ne_of_gt hpos)⟩
  | read hrun howed => exact ⟨h.watched, fun _ => hrun, fun hpos => absurd hpos (Nat.lt_irrefl 0)⟩
  | @call n howed =>
    refine ⟨h.watched, fun _ => h.running (by simp [howed]), fun hc => ?_⟩
    refine (h.ready hc).imp id fun ⟨i, hdue, hrun⟩ => ⟨i, hdue, fun q left fd' hd hpc => ?_⟩
    have hnone := (hrun q left fd' hd hpc).2.2
    rw [howed] at hnone
    simp at hnone
  | finish howed hs =>
    refine ⟨h.watched.step hs trivial, fun hne => absurd rfl hne, fun hc => ?_⟩
    rcases h.ready hc with hedge | hready
    · refine Or.inl ((hs.edge_kept (show Sys.Spares fd stopFd _ from trivial) hedge).resolve_right ?_)
      rintro ⟨_, hwait, _⟩
      simp at hwait
    · refine Or.inr (hready.step h.watched hs trivial h.running (fun _ _ _ _ => by simp [howed]) fun hrun => ?_)
      rw [hs.not_dispatches] at hrun
      simp at hrun

theorem Step.count {tr : List (Notifier H C × Act H C)} (hs : Step fd stopFd p process s a s')
    (h : tr.countP (notified fd) = tr.countP executed + s.counter + s.owed.getD 0) :
    ((s, a) :: tr).countP (notified fd) = ((s, a) :: tr).countP executed + s'.counter + s'.owed.getD 0 := by
  rw [List.countP_cons, List.countP_cons, h]
  cases hs with
  | loop _ _ => simp [notified, executed]
  | notify hc =>
    simp [notified, executed, Notifier.notify, hc]
    omega
  | full hc => simp [notified, executed, Notifier.notify, hc]
  | set => simp [notified, executed]
  | again _ _ _ => simp [notified, executed]
  | read _ howed => simp [notified, executed, howed]
  | call howed =>
    simp [notified, executed, howed]
    omega
  | finish howed _ => simp [notified, executed, howed]

/-- Every notification is executed once, or is still counted by the eventfd, or is owed by a `process` in progress;
and where `execute` waits with nothing to report, the eventfd counts nothing. -/
theorem notifications_executed_once (fd stopFd : Fd) (p : Addr) (process : H) (sys : Sys H)
    (tr : List (Notifier H C × Act H C)) (s : Notifier H C) (hreg : sys.Registered fd stopFd p process)
    (hrun : (step fd stopFd p process).Run (new sys) tr s) :
    tr.countP (notified fd) = tr.countP executed + s.counter + s.owed.getD 0 ∧
      (s.sys.pc = .wait → (∀ fds, s.sys.loop.kernel.wait fds = none) → s.counter = 0) := by
  have hinv : Inv fd stopFd p process s :=
    hrun.invariant ⟨hreg.watched, fun h => absurd rfl h, fun h => absurd h (Nat.lt_irrefl 0)⟩
      fun _ _ _ h hs => (step_cases hs).inv hreg.ne_stopFd h
  refine ⟨?_, fun hpc hnothing => ?_⟩
  · exact hrun.trace_induction (P := fun tr s => tr.countP (notified fd) = tr.countP executed + s.counter + s.owed.getD 0)
      rfl fun _ _ _ _ _ h hs => (step_cases hs).count h
  · by_contra hne
    rcases hinv.ready (Nat.pos_of_ne_zero hne) with hedge | ⟨i, hdue, _⟩
    · -- the kernel has an edge to report
      rw [← hinv.watched.report] at hedge
      have hready : (s.sys.loop.kernel.report fd).events ≠ 0 := by
        intro hzero
        rw [hzero] at hedge
        exact absurd hedge (by decide)
      have hwait := hnothing [fd]
      rw [Kernel.wait, if_pos ⟨by simp, by simp [MAXEVENTS], by simp, by simpa using hready⟩] at hwait
      simp at hwait
    · exact hdue.ne_wait hpc

/-- The handler notifies again, after the read and before the event is turned off. -/
theorem notifications_executed_once_recursive :
    ∃ (tr : List (Notifier Nat Nat × Act Nat Nat)) (s : Notifier Nat Nat),
      tr.map Prod.snd = [.loop .step, .loop .step, .finish, .call, .read, .loop .step, .loop .step, .loop .lock,
        .loop .assign, .loop (.wait [5]), .loop .step, .loop .step, .finish, .notify, .call, .read, .loop .step,
        .loop .step, .loop .lock, .loop .assign, .loop (.wait [5]), .notify, .set (some 7)] ∧
      s.sys.pc = .wait ∧ tr.countP (notified 5) = 2 ∧
      tr.countP (notified 5) = tr.countP executed + s.counter + s.owed.getD 0 ∧
      (s.sys.pc = .wait → (∀ fds, s.sys.loop.kernel.wait fds = none) → s.counter = 0) :=
  ⟨_, _, rfl, rfl, rfl, notifications_executed_once 5 3 0 10 _ _ _
    (.first [] (by decide) (by decide))
    (Machine.run_of_exec _ _ [.set (some 7), .notify, .loop (.wait [5]), .loop .assign,
      .loop .lock, .loop .step, .loop .step, .read, .call, .notify, .finish, .loop .step, .loop .step, .loop (.wait [5]),
      .loop .assign, .loop .lock, .loop .step, .loop .step, .read, .call, .finish, .loop .step, .loop .step] rfl)⟩

end Notifier

end Libhbk
