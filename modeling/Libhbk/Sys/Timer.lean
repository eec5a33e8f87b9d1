import Libhbk.Base.Machine

/-!
# Timers

`Timer` keeps the callback of its latest `set` in `m_eventHandler`, puts `nop` there when it is cancelled, and
leaves the time to a timerfd. The callbacks here do not call back into the timer; whether the stored one may
be called shows only when the timerfd has expired.
-/

namespace Libhbk

/-! ### The timerfd -/

/-- `struct timespec`. -/
@[ext]
structure Timespec where
  tvSec : Int
  tvNsec : Int
  deriving DecidableEq, Repr

/-- `struct itimerspec`. -/
structure Itimerspec where
  itInterval : Timespec
  itValue : Timespec
  deriving DecidableEq, Repr

def Timespec.zero : Timespec := ⟨0, 0⟩

def Timespec.Valid (t : Timespec) : Prop := 0 ≤ t.tvSec ∧ 0 ≤ t.tvNsec ∧ t.tvNsec < 1000000000

instance (t : Timespec) : Decidable t.Valid := inferInstanceAs (Decidable (_ ∧ _))

/-- A timerfd: its setting, with `itValue` zero if it is not armed, and the expirations since it was last set
or read. -/
structure Timerfd where
  spec : Itimerspec
  expirations : Nat
  deriving DecidableEq, Repr

namespace Timerfd

/-- `timerfd_create`. -/
def create : Timerfd := ⟨⟨.zero, .zero⟩, 0⟩

/-- `timerfd_settime(fd, 0, &spec, nullptr)`, which fails with `EINVAL`. Expirations not yet read are lost. -/
def settime (_fd : Timerfd) (spec : Itimerspec) : Option Timerfd :=
  if spec.itValue.Valid ∧ spec.itInterval.Valid then some ⟨spec, 0⟩ else none

/-- The time comes. A one-shot timer is disarmed then. -/
def expire (fd : Timerfd) : Option Timerfd :=
  if fd.spec.itValue = .zero then none
  else some ⟨⟨fd.spec.itInterval, fd.spec.itInterval⟩, fd.expirations + 1⟩

/-- `read` of the 8 bytes; -1 for `EAGAIN`. -/
def read (fd : Timerfd) : Int × Timerfd :=
  if fd.expirations = 0 then (-1, fd) else (8, { fd with expirations := 0 })

end Timerfd

/-! ### The timer -/

/-- A callable: the default callback, or one of the user. -/
inductive Cb (H : Type) where
  | nop
  | user (h : H)
  deriving DecidableEq, Repr

/-- What the call of a `std::function` comes to. An empty one throws `std::bad_function_call`. -/
inductive Invoked (H : Type) where
  | nop
  | user (h : H) (fired : Bool)
  | badFunctionCall
  deriving DecidableEq, Repr

variable {H : Type}

/-- `f(fired)` with `none` for the empty function. -/
def invoke : Option (Cb H) → Bool → Invoked H
  | none, _ => .badFunctionCall
  | some .nop, _ => .nop
  | some (.user h), fired => .user h fired

/-- The user's callback behind a call of the stored function, and what it is passed. -/
def Invoked.callback : Option (Invoked H) → Option (H × Bool)
  | some (.user h fired) => some (h, fired)
  | _ => none

/-- `m_fd`, with what it refers to, `none` if to nothing, and `m_eventHandler`. -/
structure Timer (H : Type) where
  fd : Option Timerfd
  eventHandler : Option (Cb H)
  deriving DecidableEq, Repr

namespace Timer

/-- The constructor, unless `timerfd_create` or `addEvent` fail. -/
def new : Timer H := ⟨some .create, some .nop⟩

/-- `timerfd_settime(m_fd, 0, &timespec, nullptr)`. -/
def settime (t : Timer H) (timespec : Itimerspec) : Int × Timer H :=
  match t.fd.bind (·.settime timespec) with
  | some fd => (0, { t with fd := some fd })
  | none => (-1, t)

/-- What `set` hands to `timerfd_settime`, in `unsigned int`. -/
def timespecOf (periodMs : UInt32) (repeated : Bool) : Itimerspec :=
  let periodS := periodMs / 1000
  let rest := periodMs % 1000
  let itValue : Timespec := ⟨periodS.toNat, (rest * 1000 * 1000).toNat⟩
  ⟨if repeated then itValue else .zero, itValue⟩

/-- `set(periodMs, repeated, eventHandler)`. -/
def set (t : Timer H) (periodMs : UInt32) (repeated : Bool) (eventHandler : Option H) : Int × Timer H :=
  if periodMs = 0 then (-1, t)
  else
    settime { t with eventHandler := if t.eventHandler.isSome then eventHandler.map .user else some .nop }
      (timespecOf periodMs repeated)

/-- `set(std::chrono::milliseconds period, repeated, eventHandler)` with `count` the count of `period`. -/
def setMilliseconds (t : Timer H) (count : Int) (repeated : Bool) (eventHandler : Option H) : Int × Timer H :=
  t.set (UInt32.ofInt count) repeated eventHandler

/-- `cancel()`: the return value, what was called, and the timer afterwards. -/
def cancel (t : Timer H) : Int × Option (Invoked H) × Timer H :=
  let originalEventHandler := t.eventHandler
  let t := { t with eventHandler := some .nop }
  match t.fd with
  | none => (-1, none, t)
  | some fd =>
    let disarmed := (t.settime ⟨.zero, .zero⟩).2
    if fd.spec.itValue.tvSec ≠ 0 ∨ fd.spec.itValue.tvNsec ≠ 0 then
      -- the timer is running
      (1, if originalEventHandler.isSome then some (invoke originalEventHandler false) else none, disarmed)
    else (0, none, disarmed)

/-- `process()`: what was called, and the timer afterwards. -/
def process (t : Timer H) : Option (Invoked H) × Timer H :=
  match t.fd with
  | none => (none, t)
  | some fd =>
    let (result, fd) := fd.read
    if result = 8 then (some (invoke t.eventHandler true), { t with fd := some fd })
    else (none, { t with fd := some fd })

/-- `process` would find the timerfd expired. -/
def Expired (t : Timer H) : Prop := ∃ fd, t.fd = some fd ∧ 0 < fd.expirations

/-- What can happen to a timer. -/
inductive Act (H : Type) where
  | set (periodMs : UInt32) (repeated : Bool) (eventHandler : Option H)
  | setMilliseconds (count : Int) (repeated : Bool) (eventHandler : Option H)
  | cancel
  | expire
  | process
  deriving DecidableEq, Repr

def step : Machine (Timer H) (Act H)
  | t, .set periodMs repeated eventHandler => some (t.set periodMs repeated eventHandler).2
  | t, .setMilliseconds count repeated eventHandler => some (t.setMilliseconds count repeated eventHandler).2
  | t, .cancel => some t.cancel.2.2
  | t, .expire => (t.fd.bind (·.expire)).map fun fd => { t with fd := some fd }
  | t, .process => some t.process.2

/-- The user's callback that a step calls. -/
def called (t : Timer H) : Act H → Option (H × Bool)
  | .cancel => Invoked.callback t.cancel.2.1
  | .process => Invoked.callback t.process.1
  | _ => none

/-! ### Spec lemmas -/

variable {t : Timer H} {tr : List (Timer H × Act H)}

theorem nsec_eq (periodMs : UInt32) :
    (periodMs % 1000 * 1000 * 1000).toNat = periodMs.toNat % 1000 * 1000000 := by
  have hrest : (periodMs % 1000).toNat = periodMs.toNat % 1000 := UInt32.toNat_mod _ _
  rw [UInt32.toNat_mul, UInt32.toNat_mul, hrest]
  show periodMs.toNat % 1000 * 1000 % 4294967296 * 1000 % 4294967296 = periodMs.toNat % 1000 * 1000000
  omega

theorem timespecOf_valid (periodMs : UInt32) (repeated : Bool) :
    (timespecOf periodMs repeated).itValue.Valid ∧ (timespecOf periodMs repeated).itInterval.Valid := by
  have hvalue : (timespecOf periodMs repeated).itValue.Valid := by
    refine ⟨Int.natCast_nonneg _, Int.natCast_nonneg _, ?_⟩
    show ((periodMs % 1000 * 1000 * 1000).toNat : Int) < 1000000000
    rw [nsec_eq]
    omega
  refine ⟨hvalue, ?_⟩
  cases repeated
  · show Timespec.Valid .zero
    decide
  · exact hvalue

theorem timespecOf_ne_zero {periodMs : UInt32} (h : periodMs ≠ 0) (repeated : Bool) :
    (timespecOf periodMs repeated).itValue ≠ .zero := by
  intro he
  obtain ⟨hsec, hnsec⟩ := Timespec.mk.inj he
  have hpos : periodMs.toNat ≠ 0 := fun h0 => h (UInt32.toNat_inj.mp h0)
  rw [nsec_eq] at hnsec
  rw [UInt32.toNat_div] at hsec
  change ((periodMs.toNat / 1000 : Nat) : Int) = 0 at hsec
  omega

/-- What `set` stores, given what is stored. -/
def stored (eventHandler : Option (Cb H)) (new : Option H) : Option (Cb H) :=
  if eventHandler.isSome then new.map .user else some .nop

theorem set_zero (t : Timer H) (repeated : Bool) (h : Option H) : t.set 0 repeated h = (-1, t) := rfl

theorem set_eq {fd : Timerfd} (hfd : t.fd = some fd) {periodMs : UInt32} (hp : periodMs ≠ 0) (repeated : Bool)
    (h : Option H) :
    t.set periodMs repeated h =
      (0, ⟨some ⟨timespecOf periodMs repeated, 0⟩, stored t.eventHandler h⟩) := by
  rw [set, if_neg hp]
  simp only [settime, hfd, Option.bind_some, Timerfd.settime, if_pos (timespecOf_valid periodMs repeated)]
  rfl

theorem cancel_timer {fd : Timerfd} (hfd : t.fd = some fd) :
    t.cancel.2.2 = ⟨some ⟨⟨.zero, .zero⟩, 0⟩, some .nop⟩ := by
  have hsettime : settime (⟨t.fd, some .nop⟩ : Timer H) ⟨.zero, .zero⟩ = (0, ⟨some ⟨⟨.zero, .zero⟩, 0⟩, some .nop⟩) := by
    rw [hfd]
    rfl
  simp only [cancel, hfd] at hsettime ⊢
  rw [hsettime]
  split <;> rfl

theorem cancel_called {fd : Timerfd} (hfd : t.fd = some fd) :
    t.cancel.2.1 =
      if fd.spec.itValue = .zero then none else t.eventHandler.map fun cb => invoke (some cb) false := by
  have hrunning : fd.spec.itValue.tvSec ≠ 0 ∨ fd.spec.itValue.tvNsec ≠ 0 ↔ ¬ fd.spec.itValue = .zero := by
    rw [← not_and_or, not_iff_not]
    exact ⟨fun h => Timespec.ext h.1 h.2, fun h => h ▸ ⟨rfl, rfl⟩⟩
  simp only [cancel, hfd]
  by_cases hzero : fd.spec.itValue = .zero
  · rw [if_pos hzero, if_neg (fun h => hrunning.mp h hzero)]
  · rw [if_neg hzero, if_pos (hrunning.mpr hzero)]
    cases t.eventHandler <;> rfl

theorem cancel_running {fd : Timerfd} (hfd : t.fd = some fd) (h : fd.spec.itValue ≠ .zero) : t.cancel.1 = 1 := by
  have hrunning : fd.spec.itValue.tvSec ≠ 0 ∨ fd.spec.itValue.tvNsec ≠ 0 := by
    by_contra hzero
    obtain ⟨hsec, hnsec⟩ := not_or.mp hzero
    exact h (Timespec.ext (not_not.mp hsec) (not_not.mp hnsec))
  simp only [cancel, hfd, if_pos hrunning]

theorem process_eq {fd : Timerfd} (hfd : t.fd = some fd) :
    t.process = if fd.expirations = 0 then (none, t)
      else (some (invoke t.eventHandler true), { t with fd := some { fd with expirations := 0 } }) := by
  simp only [process, hfd, Timerfd.read]
  by_cases h : fd.expirations = 0
  · simp only [if_pos h]
    rw [if_neg (by decide), ← hfd]
  · simp only [if_neg h]
    rw [if_pos trivial]

/-! ### The latest set -/

/-- The latest successful `set`, if nothing was cancelled since: the timer it was called on and its handler. -/
def latest : List (Timer H × Act H) → Option (Timer H × Option H)
  | [] => none
  | (t, .set periodMs repeated h) :: tr => if (t.set periodMs repeated h).1 = 0 then some (t, h) else latest tr
  | (t, .setMilliseconds count repeated h) :: tr =>
    if (t.setMilliseconds count repeated h).1 = 0 then some (t, h) else latest tr
  | (_, .cancel) :: _ => none
  | _ :: tr => latest tr

/-- What the expiry of the timer should come to. -/
def wanted (tr : List (Timer H × Act H)) : Invoked H :=
  match latest tr with
  | some (_, some h) => .user h true
  | _ => .nop

/-- The next `process` calls the handler of the latest `set`. -/
def Answers (tr : List (Timer H × Act H)) (t : Timer H) : Prop :=
  (t.Expired → t.process.1 = some (wanted tr)) ∧ t.process.1 ≠ some .badFunctionCall

/-- What is stored after a run. -/
structure Kept (tr : List (Timer H × Act H)) (t : Timer H) : Prop where
  fd : t.fd ≠ none
  eventHandler : t.eventHandler = (latest tr).elim (some .nop) fun x => stored x.1.eventHandler x.2

theorem set_kept (hk : Kept tr t) {periodMs : UInt32} {repeated : Bool} {h : Option H} {a : Act H}
    (ha : latest ((t, a) :: tr) = if (t.set periodMs repeated h).1 = 0 then some (t, h) else latest tr) :
    Kept ((t, a) :: tr) (t.set periodMs repeated h).2 := by
  obtain ⟨fd, hfd⟩ := Option.ne_none_iff_exists'.mp hk.fd
  by_cases hp : periodMs = 0
  · subst hp
    rw [set_zero] at ha ⊢
    exact ⟨hk.fd, ha ▸ hk.eventHandler⟩
  · rw [set_eq hfd hp] at ha ⊢
    refine ⟨Option.some_ne_none _, ?_⟩
    rw [ha, if_pos rfl]
    rfl

theorem step_kept {a : Act H} {t' : Timer H} (hk : Kept tr t) (hstep : step t a = some t') :
    Kept ((t, a) :: tr) t' := by
  obtain ⟨fd, hfd⟩ := Option.ne_none_iff_exists'.mp hk.fd
  cases a with
  | set periodMs repeated h =>
    obtain rfl := Option.some.inj hstep
    exact set_kept hk rfl
  | setMilliseconds count repeated h =>
    obtain rfl := Option.some.inj hstep
    exact set_kept hk rfl
  | cancel =>
    obtain rfl := Option.some.inj hstep
    rw [cancel_timer hfd]
    exact ⟨Option.some_ne_none _, rfl⟩
  | expire =>
    simp only [step, Option.map_eq_some_iff] at hstep
    obtain ⟨fd', _, rfl⟩ := hstep
    exact ⟨Option.some_ne_none _, hk.eventHandler⟩
  | process =>
    obtain rfl := Option.some.inj hstep
    rw [process_eq hfd]
    split
    · exact ⟨hk.fd, hk.eventHandler⟩
    · exact ⟨Option.some_ne_none _, hk.eventHandler⟩

theorem run_kept (h : (step (H := H)).Run new tr t) : Kept tr t := by
  refine h.trace_induction ⟨Option.some_ne_none _, rfl⟩ ?_
  intro tr t a t' _ hk hstep
  exact step_kept hk hstep

/-! ### Expiry -/

theorem process_expired {fd : Timerfd} (hfd : t.fd = some fd) (h : 0 < fd.expirations) :
    t.process.1 = some (invoke t.eventHandler true) := by
  rw [process_eq hfd, if_neg (by omega)]

theorem process_idle (h : ¬ t.Expired) : t.process.1 = none := by
  cases hfd : t.fd with
  | none => simp only [process, hfd]
  | some fd =>
    rw [process_eq hfd, if_pos]
    exact Nat.eq_zero_of_not_pos fun hpos => h ⟨fd, hfd, hpos⟩

theorem invoke_stored_iff (eventHandler : Option (Cb H)) (new : Option H) :
    invoke (stored eventHandler new) true = (new.elim .nop fun h => .user h true) ↔
      (new = none ↔ eventHandler = none) := by
  rcases eventHandler with _ | cb <;> rcases new with _ | h <;> simp [stored, invoke]

/-- **The handler of the latest `set`.** After any run the next expiry is answered by it exactly if it was empty
just in case the stored one was when it was set. -/
theorem latest_handler_called_iff (h : (step (H := H)).Run new tr t) :
    Answers tr t ↔ (t.Expired → ∀ x, latest tr = some x → (x.2 = none ↔ x.1.eventHandler = none)) := by
  have hk := run_kept h
  by_cases hexp : t.Expired
  · obtain ⟨fd, hfd, hpos⟩ := hexp
    have hcall : Answers tr t ↔ invoke t.eventHandler true = wanted tr := by
      refine ⟨fun ha => ?_, fun he => ⟨fun _ => ?_, ?_⟩⟩
      · have hw := ha.1 ⟨fd, hfd, hpos⟩
        rwa [process_expired hfd hpos, Option.some_inj] at hw
      · rw [process_expired hfd hpos, he]
      · rw [process_expired hfd hpos, he, wanted]
        split <;> simp
    rw [hcall, hk.eventHandler]
    cases hl : latest tr with
    | none => simp [wanted, hl, invoke]
    | some x =>
      obtain ⟨t₀, hnew⟩ := x
      have hw : wanted tr = hnew.elim .nop fun h => .user h true := by
        cases hnew <;> simp only [wanted, hl, Option.elim]
      rw [hw, Option.elim_some, invoke_stored_iff]
      constructor
      · rintro hiff _ x ⟨⟩
        exact hiff
      · intro hcond
        exact hcond ⟨fd, hfd, hpos⟩ _ rfl
  · refine iff_of_true ⟨fun h => absurd h hexp, ?_⟩ fun h => absurd h hexp
    rw [process_idle hexp]
    exact nofun

/-- A `set`, its expiry, and another `set`: the second handler is called. -/
theorem second_handler_called :
    ∃ tr t, (step (H := Nat)).Run new tr t ∧ t.process.1 = some (.user 2 true) := by
  have h := Machine.run_of_exec (step (H := Nat)) new
    [.set 50 false (some 1), .expire, .process, .setMilliseconds 50 true (some 2), .expire] rfl
  refine ⟨_, _, h, ?_⟩
  have hanswers := (latest_handler_called_iff h).mpr fun _ x hx => ?_
  · exact hanswers.1 ⟨_, rfl, by decide⟩
  · obtain rfl := Option.some.inj hx
    decide

/-- An empty handler is called when the timer expires. -/
theorem empty_handler_invoked : ¬ ∀ tr t, (step (H := Nat)).Run new tr t → Answers tr t := by
  intro h
  have hrun := Machine.run_of_exec (step (H := Nat)) new [.set 50 false none, .expire] rfl
  exact (h _ _ hrun).2 rfl

end Timer

end Libhbk
