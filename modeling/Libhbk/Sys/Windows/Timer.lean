import Libhbk.Sys.Timer

/-!
# Timers on Windows

The other `Timer` creates a timer of the timer queue for each `set`, and its handle is the key under which the
event loop knows `process`. Driven by the same operations, with each expiry dispatched before the next one, it
should show what the `Timer` on Linux shows: the return values and the callbacks.
-/

namespace Libhbk

variable {H : Type}

namespace Windows

/-- A timer of the timer queue. -/
structure QueueTimer where
  dueTime : UInt32
  period : UInt32
  signaled : Bool
  deriving DecidableEq, Repr

/-- It has not signaled yet, or it signals again and again. -/
def QueueTimer.Running (q : QueueTimer) : Prop := q.signaled = false ∨ q.period ≠ 0

instance (q : QueueTimer) : Decidable q.Running := inferInstanceAs (Decidable (_ ∨ _))

/-- `m_fd.overlapped.hEvent` with the timer behind it, whether the event loop has `process` under this key, and
`m_eventHandler`. -/
structure Timer (H : Type) where
  hEvent : Option QueueTimer
  registered : Bool
  eventHandler : Option H
  deriving DecidableEq, Repr

namespace Timer

/-- The constructor. -/
def new : Timer H := ⟨none, false, none⟩

/-- `m_eventLoop.eraseEvent(m_fd)`. -/
def eraseEvent (t : Timer H) : Timer H := { t with registered := false }

/-- `DeleteTimerQueueTimer`, if there is a timer. -/
def delete (t : Timer H) : Timer H := { t with hEvent := none }

/-- `set(periodMs, repeated, eventHandler)`; `created` if `CreateTimerQueueTimer` succeeds. -/
def set (t : Timer H) (periodMs : UInt32) (repeated : Bool) (eventHandler : Option H) (created : Bool) :
    Int × Timer H :=
  let t := t.eraseEvent.delete
  let repeatPeriod := if repeated then periodMs else 0
  let t := { t with eventHandler := eventHandler }
  if created then
    -- `process` is never empty, and there is no file to associate with the completion port
    (0, { t with hEvent := some ⟨periodMs, repeatPeriod, false⟩, registered := true })
  else (-1, t)

/-- `process()`. -/
def process (t : Timer H) : Option (H × Bool) := t.eventHandler.map fun h => (h, true)

/-- `cancel()`: the return value, the callback, and the timer afterwards. -/
def cancel (t : Timer H) : Int × Option (H × Bool) × Timer H :=
  let t := t.eraseEvent.delete
  (0, t.eventHandler.map fun h => (h, false), t)

/-- The time comes: `timerCb` posts the key, and the event loop calls what it has under it. -/
def elapse (t : Timer H) : Option (H × Bool) × Timer H :=
  match t.hEvent with
  | none => (none, t)
  | some q =>
    if q.Running then
      (if t.registered then t.process else none, { t with hEvent := some { q with signaled := true } })
    else (none, t)

end Timer

end Windows

/-! ### The same operations on both -/

/-- What is done to a timer on one thread; `elapse` is an expiry together with its dispatch. -/
inductive TimerOp (H : Type) where
  | set (periodMs : UInt32) (repeated : Bool) (eventHandler : H)
  | cancel
  | elapse
  deriving DecidableEq, Repr

/-- What an operation shows: the return value and the callback. -/
structure Outcome (H : Type) where
  ret : Int
  called : Option (H × Bool)
  deriving DecidableEq, Repr

/-- The outcomes of a sequence of operations. -/
def outcomes {S : Type} (apply : S → TimerOp H → Outcome H × S) : S → List (TimerOp H) → List (Outcome H)
  | _, [] => []
  | s, op :: ops => (apply s op).1 :: outcomes apply (apply s op).2 ops

/-- On Linux. The time only comes while the timerfd is armed. -/
def Timer.apply (t : Timer H) : TimerOp H → Outcome H × Timer H
  | .set periodMs repeated eventHandler =>
    let (ret, t) := t.set periodMs repeated (some eventHandler)
    (⟨ret, none⟩, t)
  | .cancel =>
    let (ret, called, t) := t.cancel
    (⟨ret, Invoked.callback called⟩, t)
  | .elapse =>
    match t.fd.bind (·.expire) with
    | none => (⟨0, none⟩, t)
    | some fd =>
      let (called, t) := Timer.process { t with fd := some fd }
      (⟨0, Invoked.callback called⟩, t)

/-- On Windows, where the system has a timer for every `set`. -/
def Windows.Timer.apply (t : Windows.Timer H) : TimerOp H → Outcome H × Windows.Timer H
  | .set periodMs repeated eventHandler =>
    let (ret, t) := t.set periodMs repeated (some eventHandler) true
    (⟨ret, none⟩, t)
  | .cancel =>
    let (ret, called, t) := t.cancel
    (⟨ret, called⟩, t)
  | .elapse =>
    let (called, t) := t.elapse
    (⟨0, called⟩, t)

/-- No `set` with a period of zero. -/
def TimerOp.PeriodSet : TimerOp H → Prop
  | .set periodMs _ _ => periodMs ≠ 0
  | _ => True

def TimerOp.IsSet : TimerOp H → Prop
  | .set _ _ _ => True
  | _ => False

/-! ### Side by side -/

/-- After a `set` with the handler `h`, and no `cancel` since. -/
structure Started (h : H) (l : Timer H) (w : Windows.Timer H) : Prop where
  fd : ∃ fd q, l.fd = some fd ∧ fd.expirations = 0 ∧ w.hEvent = some q ∧
    (fd.spec.itValue ≠ .zero ↔ q.Running) ∧ (fd.spec.itInterval ≠ .zero ↔ q.period ≠ 0)
  registered : w.registered = true
  linux : l.eventHandler = some (.user h)
  windows : w.eventHandler = some h

variable {l : Timer H} {w : Windows.Timer H} {h : H}

theorem outcomes_cons_iff {op : TimerOp H} {ops : List (TimerOp H)} :
    outcomes Timer.apply l (op :: ops) = outcomes Windows.Timer.apply w (op :: ops) ↔
      (l.apply op).1 = (w.apply op).1 ∧
        outcomes Timer.apply (l.apply op).2 ops = outcomes Windows.Timer.apply (w.apply op).2 ops :=
  List.cons.injEq _ _ _ _ ▸ Iff.rfl

theorem set_zero_ne (l : Timer H) (w : Windows.Timer H) (repeated : Bool) (new : H) :
    (l.apply (.set 0 repeated new)).1 ≠ (w.apply (.set 0 repeated new)).1 := by
  intro he
  have hret : (-1 : Int) = 0 := congrArg Outcome.ret he
  omega

theorem set_started {fd : Timerfd} (hfd : l.fd = some fd) (hsome : l.eventHandler ≠ none) {periodMs : UInt32}
    (hp : periodMs ≠ 0) (repeated : Bool) (new : H) :
    (l.apply (.set periodMs repeated new)).1 = (w.apply (.set periodMs repeated new)).1 ∧
      Started new (l.apply (.set periodMs repeated new)).2 (w.apply (.set periodMs repeated new)).2 := by
  obtain ⟨cb, hcb⟩ := Option.ne_none_iff_exists'.mp hsome
  have hl : l.apply (.set periodMs repeated new) =
      (⟨0, none⟩, ⟨some ⟨Timer.timespecOf periodMs repeated, 0⟩, some (.user new)⟩) := by
    simp only [Timer.apply, Timer.set_eq hfd hp, Timer.stored, hcb]
    rfl
  rw [hl]
  refine ⟨rfl, ⟨_, _, rfl, rfl, rfl, ?_, ?_⟩, rfl, rfl, rfl⟩
  · exact iff_of_true (Timer.timespecOf_ne_zero hp repeated) (Or.inl rfl)
  · cases repeated with
    | false => exact iff_of_false (fun he => he rfl) (fun he => he rfl)
    | true => exact iff_of_true (Timer.timespecOf_ne_zero hp true) hp

theorem Started.cancel_ne (hs : Started h l w) : (l.apply .cancel).1 ≠ (w.apply .cancel).1 := by
  obtain ⟨fd, q, hfd, -⟩ := hs.fd
  have hw : (w.apply .cancel).1 = ⟨0, some (h, false)⟩ := by
    simp only [Windows.Timer.apply, Windows.Timer.cancel, Windows.Timer.eraseEvent, Windows.Timer.delete,
      hs.windows]
    rfl
  have hl : (l.apply .cancel).1 = ⟨l.cancel.1, Invoked.callback l.cancel.2.1⟩ := rfl
  rw [hw, hl]
  intro he
  obtain ⟨hret, hcalled⟩ := Outcome.mk.inj he
  rw [Timer.cancel_called hfd] at hcalled
  by_cases hzero : fd.spec.itValue = .zero
  · rw [if_pos hzero] at hcalled
    exact nomatch hcalled
  · rw [Timer.cancel_running hfd hzero] at hret
    omega

theorem Started.elapse (hs : Started h l w) :
    (l.apply .elapse).1 = (w.apply .elapse).1 ∧ Started h (l.apply .elapse).2 (w.apply .elapse).2 := by
  obtain ⟨fd, q, hfd, hnone, hq, hrunning, hinterval⟩ := hs.fd
  by_cases hzero : fd.spec.itValue = .zero
  · have hl : l.apply .elapse = (⟨0, none⟩, l) := by
      simp only [Timer.apply, hfd, Option.bind_some, Timerfd.expire, if_pos hzero]
    have hw : w.apply .elapse = (⟨0, none⟩, w) := by
      simp only [Windows.Timer.apply, Windows.Timer.elapse, hq, if_neg (fun hr => hrunning.mpr hr hzero)]
    rw [hl, hw]
    exact ⟨rfl, hs⟩
  · have hl : l.apply .elapse =
        (⟨0, some (h, true)⟩, { l with fd := some ⟨⟨fd.spec.itInterval, fd.spec.itInterval⟩, 0⟩ }) := by
      simp only [Timer.apply, hfd, Option.bind_some, Timerfd.expire, if_neg hzero, hnone, Timer.process, hs.linux]
      rfl
    have hw : w.apply .elapse =
        (⟨0, some (h, true)⟩, { w with hEvent := some { q with signaled := true } }) := by
      simp only [Windows.Timer.apply, Windows.Timer.elapse, hq, if_pos (hrunning.mp hzero), hs.registered, if_true,
        Windows.Timer.process, hs.windows]
      rfl
    rw [hl, hw]
    refine ⟨rfl, ⟨_, _, rfl, rfl, rfl, ?_, hinterval⟩, hs.registered, hs.linux, hs.windows⟩
    -- it goes on exactly if it is repeated
    rw [hinterval, Windows.QueueTimer.Running]
    exact (or_iff_right (by rintro ⟨⟩)).symm

theorem Started.outcomes_iff (hs : Started h l w) (ops : List (TimerOp H)) :
    outcomes Timer.apply l ops = outcomes Windows.Timer.apply w ops ↔
      (∀ op ∈ ops, op.PeriodSet) ∧ ∀ op ∈ ops, op ≠ .cancel := by
  induction ops generalizing h l w with
  | nil => exact iff_of_true rfl ⟨nofun, nofun⟩
  | cons op ops ih =>
    rw [outcomes_cons_iff, List.forall_mem_cons, List.forall_mem_cons]
    cases op with
    | set periodMs repeated new =>
      by_cases hp : periodMs = 0
      · subst hp
        exact iff_of_false (fun he => set_zero_ne l w repeated new he.1) (fun he => he.1.1 rfl)
      · obtain ⟨fd, q, hfd, -⟩ := hs.fd
        obtain ⟨heq, hstarted⟩ := set_started (w := w) hfd (hs.linux ▸ Option.some_ne_none _) hp repeated new
        have hperiod : (TimerOp.set periodMs repeated new).PeriodSet := hp
        have hne : TimerOp.set periodMs repeated new ≠ .cancel := nofun
        rw [and_iff_right heq, ih hstarted, and_iff_right hperiod, and_iff_right hne]
    | cancel => exact iff_of_false (fun he => hs.cancel_ne he.1) (fun he => he.2.1 rfl)
    | elapse =>
      have hperiod : (TimerOp.elapse : TimerOp H).PeriodSet := trivial
      have hne : (TimerOp.elapse : TimerOp H) ≠ .cancel := nofun
      rw [and_iff_right hs.elapse.1, ih hs.elapse.2, and_iff_right hperiod, and_iff_right hne]

/-- **The two timers agree** exactly on the sequences without a `set` with a period of zero and without a `cancel`
after a `set`. -/
theorem timers_agree_iff (ops : List (TimerOp H)) :
    outcomes Timer.apply .new ops = outcomes Windows.Timer.apply .new ops ↔
      (∀ op ∈ ops, op.PeriodSet) ∧ ops.Pairwise fun before after => before.IsSet → after ≠ .cancel := by
  induction ops with
  | nil => exact iff_of_true rfl ⟨nofun, .nil⟩
  | cons op ops ih =>
    rw [outcomes_cons_iff, List.forall_mem_cons, List.pairwise_cons]
    cases op with
    | set periodMs repeated new =>
      by_cases hp : periodMs = 0
      · subst hp
        exact iff_of_false (fun he => set_zero_ne .new .new repeated new he.1) (fun he => he.1.1 rfl)
      · obtain ⟨heq, hstarted⟩ := set_started (l := .new) (w := .new) rfl (Option.some_ne_none _) hp repeated new
        have hperiod : (TimerOp.set periodMs repeated new).PeriodSet := hp
        rw [and_iff_right heq, hstarted.outcomes_iff, and_iff_right hperiod]
        refine and_congr_right fun _ => ⟨fun hc => ⟨fun op hop _ => hc op hop, ?_⟩, fun hc op hop => hc.1 op hop trivial⟩
        exact List.pairwise_of_forall_mem_list fun _ _ b hb _ => hc b hb
    | cancel =>
      -- nothing is running, and the default callback is not called
      exact (and_iff_right rfl).trans (ih.trans (by simp [TimerOp.PeriodSet, TimerOp.IsSet]))
    | elapse => exact (and_iff_right rfl).trans (ih.trans (by simp [TimerOp.PeriodSet, TimerOp.IsSet]))

/-- `cancel` of a running timer returns 1 on Linux and 0 on Windows. -/
theorem timers_disagree :
    ¬ ∀ ops : List (TimerOp Nat), outcomes Timer.apply .new ops = outcomes Windows.Timer.apply .new ops := by
  intro h
  exact absurd (h [.set 50 false 1, .cancel]) (by decide)

end Libhbk
