import Libhbk.Sys.Timer

/-!
# Callbacks that call back into the timer

A callback may `set` and `cancel` its own timer, and the callbacks of these calls may do so again. Calls that
wait for their callback are a stack of frames: `process` has nothing left to do when it returns, `cancel`
disarms the timerfd only then. `established` is what the `set` or `cancel` that began last asks for.
-/

namespace Libhbk

open Machine

variable {H : Type}

/-- A call that waits for its callback to return. -/
inductive Frame where
  | process
  | cancel
  deriving DecidableEq, Repr

/-- A timer and the calls in progress, the innermost first. -/
structure Reentry (H : Type) where
  timer : Timer H
  frames : List Frame
  deriving DecidableEq, Repr

namespace Reentry

/-- The constructor. -/
def new : Reentry H := ⟨.new, []⟩

/-- What can happen; `ret` is the return of the innermost callback. A callback is what happens until then. -/
inductive Act (H : Type) where
  | set (periodMs : UInt32) (repeated : Bool) (eventHandler : Option H)
  | setMilliseconds (count : Int) (repeated : Bool) (eventHandler : Option H)
  | cancel
  | expire
  | process
  | ret
  deriving DecidableEq, Repr

/-- The callback that a call runs. -/
def called (s : Reentry H) : Act H → Option (H × Bool)
  | .cancel => s.timer.called .cancel
  | .process => s.timer.called .process
  | _ => none

def step : Machine (Reentry H) (Act H)
  | s, .set periodMs repeated eventHandler =>
    some { s with timer := (s.timer.set periodMs repeated eventHandler).2 }
  | s, .setMilliseconds count repeated eventHandler =>
    some { s with timer := (s.timer.setMilliseconds count repeated eventHandler).2 }
  | s, .cancel =>
    if (s.called .cancel).isSome then
      -- the handler is cleared, the callback runs, and the timerfd is still armed
      some ⟨{ s.timer with eventHandler := some .nop }, .cancel :: s.frames⟩
    else some { s with timer := s.timer.cancel.2.2 }
  | s, .expire => (s.timer.fd.bind (·.expire)).map fun fd => { s with timer := { s.timer with fd := some fd } }
  | s, .process =>
    -- the event loop waits for the callback, too
    if s.frames = [] then some ⟨s.timer.process.2, if (s.called .process).isSome then [.process] else []⟩ else none
  | s, .ret =>
    match s.frames with
    | [] => none
    | .process :: frames => some { s with frames := frames }
    | .cancel :: frames => some ⟨(s.timer.settime ⟨.zero, .zero⟩).2, frames⟩

/-! ### What the last operation asks for -/

/-- The setting of the timerfd and the handler that the `set` or `cancel` that began last establishes; a setting
that expires goes on with its interval. -/
def established : List (Reentry H × Act H) → Itimerspec × Option (Cb H)
  | [] => (⟨.zero, .zero⟩, some .nop)
  | (_, .set periodMs repeated h) :: tr =>
    if periodMs = 0 then established tr else (Timer.timespecOf periodMs repeated, h.map .user)
  | (_, .setMilliseconds count repeated h) :: tr =>
    if UInt32.ofInt count = 0 then established tr else (Timer.timespecOf (UInt32.ofInt count) repeated, h.map .user)
  | (_, .cancel) :: _ => (⟨.zero, .zero⟩, some .nop)
  | (_, .expire) :: tr =>
    let (spec, eventHandler) := established tr
    (⟨spec.itInterval, spec.itInterval⟩, eventHandler)
  | (_, .process) :: tr => established tr
  | (_, .ret) :: tr => established tr

/-- The state in which the last successful `set` began, if no `cancel` began since. -/
def latestSet : List (Reentry H × Act H) → Option (Reentry H)
  | [] => none
  | (s, .set periodMs _ _) :: tr => if periodMs = 0 then latestSet tr else some s
  | (s, .setMilliseconds count _ _) :: tr => if UInt32.ofInt count = 0 then latestSet tr else some s
  | (_, .cancel) :: _ => none
  | (_, .expire) :: tr => latestSet tr
  | (_, .process) :: tr => latestSet tr
  | (_, .ret) :: tr => latestSet tr

/-- The last operation wins. -/
def LastWins (tr : List (Reentry H × Act H)) (s : Reentry H) : Prop :=
  s.timer.fd.map (·.spec) = some (established tr).1 ∧ s.timer.eventHandler = (established tr).2

variable {tr : List (Reentry H × Act H)} {s s' : Reentry H} {a : Act H}

/-! ### The parts of a step -/

theorem callback_nop (h : s.timer.eventHandler = some .nop) : s.called .cancel = none := by
  simp only [called, Timer.called, Timer.cancel, h]
  split
  · rfl
  · split
    · rfl
    · rfl

theorem disarm_eq {fd : Timerfd} (hfd : s.timer.fd = some fd) :
    (s.timer.settime ⟨.zero, .zero⟩).2 = ⟨some ⟨⟨.zero, .zero⟩, 0⟩, s.timer.eventHandler⟩ := by
  simp only [Timer.settime, hfd]
  rfl

theorem established_none (h : latestSet tr = none) : established tr = (⟨.zero, .zero⟩, some .nop) := by
  induction tr with
  | nil => rfl
  | cons x tr ih =>
    obtain ⟨s, a⟩ := x
    cases a with
    | set periodMs repeated h' =>
      simp only [latestSet] at h
      split at h
      · next hp => rw [established, if_pos hp, ih h]
      · exact nomatch h
    | setMilliseconds count repeated h' =>
      simp only [latestSet] at h
      split at h
      · next hp => rw [established, if_pos hp, ih h]
      · exact nomatch h
    | cancel => rfl
    | expire => rw [established, ih h]
    | process => exact ih h
    | ret => exact ih h

theorem established_zero (tr : List (Reentry H × Act H)) (h : (established tr).1.itValue = .zero) :
    (established tr).1 = ⟨.zero, .zero⟩ := by
  induction tr with
  | nil => rfl
  | cons x tr ih =>
    obtain ⟨s, a⟩ := x
    cases a with
    | set periodMs repeated h' =>
      simp only [established] at h ⊢
      split at h
      · next hp => rw [if_pos hp, ih h]
      · next hp => exact absurd h (Timer.timespecOf_ne_zero hp repeated)
    | setMilliseconds count repeated h' =>
      simp only [established] at h ⊢
      split at h
      · next hp => rw [if_pos hp, ih h]
      · next hp => exact absurd h (Timer.timespecOf_ne_zero hp repeated)
    | cancel => rfl
    | expire =>
      change (established tr).1.itInterval = .zero at h
      simp only [established, h]
    | process => exact ih h
    | ret => exact ih h

/-! ### What holds between two steps -/

/-- The timerfd is set as established, or a `cancel` that began before is still to disarm it or has done so. -/
def SpecKept (tr : List (Reentry H × Act H)) (spec : Itimerspec) (frames : List Frame) : Prop :=
  match latestSet tr with
  | none => spec = (established tr).1 ∨ .cancel ∈ frames
  | some s₀ =>
    (spec = (established tr).1 ∧ (.cancel ∈ s₀.frames → .cancel ∈ frames) ∨
      spec = ⟨.zero, .zero⟩ ∧ .cancel ∈ s₀.frames) ∧
    (.cancel ∈ frames → .cancel ∈ s₀.frames)

structure Kept (tr : List (Reentry H × Act H)) (s : Reentry H) (fd : Timerfd) : Prop where
  fd_eq : s.timer.fd = some fd
  spec : SpecKept tr fd.spec s.frames
  eventHandler : s.timer.eventHandler = (established tr).2 ↔
    ∀ s₀, latestSet tr = some s₀ → s₀.timer.eventHandler ≠ none

variable {fd : Timerfd}

theorem SpecKept.congr {tr' : List (Reentry H × Act H)} {spec : Itimerspec} {frames frames' : List Frame}
    (h : SpecKept tr spec frames) (hlatest : latestSet tr' = latestSet tr) (hest : established tr' = established tr)
    (hframes : .cancel ∈ frames' ↔ .cancel ∈ frames) : SpecKept tr' spec frames' := by
  unfold SpecKept at h ⊢
  rw [hlatest, hest]
  simp only [hframes]
  exact h

theorem Kept.congr {tr' : List (Reentry H × Act H)} {fd' : Timerfd} (h : Kept tr s fd)
    (hlatest : latestSet tr' = latestSet tr) (hest : established tr' = established tr)
    (hfd : s'.timer.fd = some fd') (hspec : fd'.spec = fd.spec)
    (hhandler : s'.timer.eventHandler = s.timer.eventHandler) (hframes : .cancel ∈ s'.frames ↔ .cancel ∈ s.frames) :
    Kept tr' s' fd' := by
  refine ⟨hfd, ?_, ?_⟩
  · rw [hspec]
    exact h.spec.congr hlatest hest hframes
  · rw [hhandler, hlatest, hest]
    exact h.eventHandler

theorem set_kept (h : Kept tr s fd) {periodMs : UInt32} {repeated : Bool} {new : Option H} {a : Act H}
    (hlatest : latestSet ((s, a) :: tr) = if periodMs = 0 then latestSet tr else some s)
    (hest : established ((s, a) :: tr) =
      if periodMs = 0 then established tr else (Timer.timespecOf periodMs repeated, new.map .user)) :
    ∃ fd', Kept ((s, a) :: tr) { s with timer := (s.timer.set periodMs repeated new).2 } fd' := by
  by_cases hp : periodMs = 0
  · subst hp
    rw [if_pos rfl] at hlatest hest
    exact ⟨fd, h.congr hlatest hest h.fd_eq rfl rfl Iff.rfl⟩
  · rw [if_neg hp] at hlatest hest
    rw [Timer.set_eq h.fd_eq hp]
    refine ⟨⟨Timer.timespecOf periodMs repeated, 0⟩, rfl, ?_, ?_⟩
    · unfold SpecKept
      rw [hlatest, hest]
      exact ⟨Or.inl ⟨rfl, id⟩, id⟩
    · rw [hlatest, hest]
      simp only [Option.some.injEq, forall_eq', Timer.stored]
      cases hold : s.timer.eventHandler with
      | none => cases new <;> simp
      | some cb => simp

theorem cancel_kept (h : Kept tr s fd) (hstep : step s .cancel = some s') :
    ∃ fd', Kept ((s, .cancel) :: tr) s' fd' := by
  have hhandler (eventHandler : Option (Cb H)) (he : eventHandler = some .nop) :
      eventHandler = (established ((s, .cancel) :: tr)).2 ↔
        ∀ s₀, latestSet ((s, .cancel) :: tr) = some s₀ → s₀.timer.eventHandler ≠ none :=
    iff_of_true he (fun _ he => (nomatch he))
  simp only [step] at hstep
  split at hstep
  · obtain rfl := Option.some.inj hstep
    exact ⟨fd, h.fd_eq, Or.inr List.mem_cons_self, hhandler _ rfl⟩
  · obtain rfl := Option.some.inj hstep
    rw [Timer.cancel_timer h.fd_eq]
    exact ⟨⟨⟨.zero, .zero⟩, 0⟩, rfl, Or.inl rfl, hhandler _ rfl⟩

theorem expire_kept (h : Kept tr s fd) (hstep : step s .expire = some s') :
    ∃ fd', Kept ((s, .expire) :: tr) s' fd' := by
  simp only [step, h.fd_eq, Option.bind_some, Option.map_eq_some_iff, Timerfd.expire,
    Option.ite_none_left_eq_some] at hstep
  obtain ⟨fd', ⟨hrunning, hfd'⟩, rfl⟩ := hstep
  obtain rfl := Option.some.inj hfd'
  refine ⟨_, rfl, ?_, h.eventHandler⟩
  have hspec := h.spec
  simp only [SpecKept, latestSet, established] at hspec ⊢
  split
  · next hnone =>
    rw [hnone, established_none hnone] at hspec
    exact hspec.imp (fun he => absurd (congrArg Itimerspec.itValue he) hrunning) id
  · next s₀ hsome =>
    rw [hsome] at hspec
    refine ⟨hspec.1.imp (fun he => ?_) (fun he => ?_), hspec.2⟩
    · rw [he.1]
      exact ⟨rfl, he.2⟩
    · exact absurd (congrArg Itimerspec.itValue he.1) hrunning

theorem process_kept (h : Kept tr s fd) (hstep : step s .process = some s') :
    ∃ fd', Kept ((s, .process) :: tr) s' fd' := by
  simp only [step, Option.ite_none_right_eq_some] at hstep
  obtain ⟨hidle, hstep⟩ := hstep
  obtain rfl := Option.some.inj hstep
  have hframes : Frame.cancel ∈ (if (s.called .process).isSome then [Frame.process] else []) ↔
      Frame.cancel ∈ s.frames := by
    rw [hidle]
    split <;> simp
  rw [Timer.process_eq h.fd_eq]
  split
  · exact ⟨fd, h.congr rfl rfl h.fd_eq rfl rfl hframes⟩
  · exact ⟨{ fd with expirations := 0 }, h.congr rfl rfl rfl rfl rfl hframes⟩

theorem ret_kept (h : Kept tr s fd) (hstep : step s .ret = some s') : ∃ fd', Kept ((s, .ret) :: tr) s' fd' := by
  simp only [step] at hstep
  split at hstep
  · exact nomatch hstep
  · next frames hframes =>
    obtain rfl := Option.some.inj hstep
    exact ⟨fd, h.congr rfl rfl h.fd_eq rfl rfl (by simp [hframes])⟩
  · -- the timerfd is disarmed
    next frames hframes =>
    obtain rfl := Option.some.inj hstep
    rw [disarm_eq h.fd_eq]
    refine ⟨_, rfl, ?_, h.eventHandler⟩
    have hspec := h.spec
    simp only [SpecKept, latestSet, established, hframes, List.mem_cons_self, or_true, true_implies] at hspec ⊢
    split
    · next hnone =>
      rw [established_none hnone]
      exact Or.inl rfl
    · next s₀ hsome =>
      rw [hsome] at hspec
      exact ⟨Or.inr ⟨trivial, hspec.2⟩, fun _ => hspec.2⟩

/-- **Step rule.** -/
theorem step_kept (h : Kept tr s fd) (hstep : step s a = some s') : ∃ fd', Kept ((s, a) :: tr) s' fd' := by
  cases a with
  | set periodMs repeated new =>
    obtain rfl := Option.some.inj hstep
    exact set_kept h rfl rfl
  | setMilliseconds count repeated new =>
    obtain rfl := Option.some.inj hstep
    exact set_kept h rfl rfl
  | cancel => exact cancel_kept h hstep
  | expire => exact expire_kept h hstep
  | process => exact process_kept h hstep
  | ret => exact ret_kept h hstep

theorem run_kept (h : (step (H := H)).Run new tr s) : ∃ fd, Kept tr s fd := by
  refine h.trace_induction (P := fun tr s => ∃ fd, Kept tr s fd) ?_ ?_
  · exact ⟨.create, rfl, Or.inl rfl, iff_of_true rfl (fun _ he => (nomatch he))⟩
  · rintro tr s a s' _ ⟨fd, hk⟩ hstep
    exact step_kept hk hstep

/-- **The last operation wins.** A `cancel` after another one, without a successful `set` in between, calls
nothing back; and when the outermost operation has returned, the timer is as the last one established it exactly
if that was no `set` on an empty handler and no `set` inside a callback of `cancel`, unless it had already run
out. -/
theorem last_operation_wins_iff (h : (step (H := H)).Run new tr s) :
    (latestSet tr = none → s.called .cancel = none) ∧
      (s.frames = [] → (LastWins tr s ↔ ∀ s₀, latestSet tr = some s₀ →
        s₀.timer.eventHandler ≠ none ∧ (.cancel ∈ s₀.frames → (established tr).1.itValue = .zero))) := by
  obtain ⟨fd, hk⟩ := run_kept h
  constructor
  · intro hnone
    refine callback_nop ?_
    rw [hk.eventHandler.mpr (fun _ he => (nomatch hnone.symm.trans he)), established_none hnone]
  · intro hidle
    have hspec := hk.spec
    have hwins : LastWins tr s ↔ fd.spec = (established tr).1 ∧
        ∀ s₀, latestSet tr = some s₀ → s₀.timer.eventHandler ≠ none := by
      rw [LastWins, hk.eventHandler, hk.fd_eq, Option.map_some, Option.some_inj]
    rw [hwins]
    simp only [SpecKept, hidle, List.not_mem_nil, or_false, imp_false] at hspec
    cases hlatest : latestSet tr with
    | none =>
      rw [hlatest] at hspec
      exact iff_of_true ⟨hspec, fun _ he => (nomatch he)⟩ (fun _ he => (nomatch he))
    | some s₀ =>
      rw [hlatest] at hspec
      simp only [Option.some.injEq, forall_eq']
      rw [and_comm, and_congr_right_iff]
      intro _
      rcases hspec.1 with ⟨he, hout⟩ | ⟨he, hin⟩
      · exact iff_of_true he fun hin => absurd hin hout
      · constructor
        · intro hest _
          rw [← hest, he]
        · intro hrun
          rw [he, established_zero tr (hrun hin)]

/-- The callback of an expiry sets the timer, cancels it (the callback of that cancels once more) and sets it
again. -/
theorem last_operation_wins_nested :
    ∃ tr s, (step (H := Nat)).Run new tr s ∧ s.frames = [] ∧ latestSet tr ≠ none ∧ LastWins tr s := by
  have h := run_of_exec (step (H := Nat)) new
    [.set 50 false (some 1), .expire, .process, .set 20 true (some 2), .cancel, .cancel, .ret, .set 30 false (some 3),
      .ret] rfl
  refine ⟨_, _, h, rfl, Option.some_ne_none _, ((last_operation_wins_iff h).2 rfl).mpr ?_⟩
  rintro s₀ he
  obtain rfl := Option.some.inj he
  exact ⟨Option.some_ne_none _, fun hin => absurd hin (by decide)⟩

/-- The callback of `cancel` sets the timer again: `cancel` disarms it when it goes on. -/
theorem set_in_cancel_disarmed :
    ¬ ∀ tr s, (step (H := Nat)).Run new tr s → s.frames = [] → LastWins tr s := by
  intro h
  have hrun := run_of_exec (step (H := Nat)) new
    [.set 50 false (some 1), .cancel, .set 50 false (some 2), .ret] rfl
  exact absurd (h _ _ hrun rfl).1 (by decide)

end Reentry

end Libhbk
