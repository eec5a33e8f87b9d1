import Libhbk.Sys.Timer

/-!
# The event loop against a user of the timer

`process` reads the timerfd and calls the stored handler, `set` stores a handler and sets the timerfd, `cancel`
clears the handler and resets the timerfd, each in steps that no lock holds together. The model numbers the
calls of `set`; an expiration belongs to the `set` that armed the timerfd.
-/

namespace Libhbk

open Machine

variable {H : Type}

/-- Where the user's thread is: in no call; in `set`, with the handler stored; in `cancel`, with the handler
cleared; in `cancel`, before the timerfd is reset. -/
inductive Race.User (H : Type) where
  | idle
  | stored (timespec : Itimerspec)
  | cleared (originalEventHandler : Option (Cb H))
  | called
  deriving DecidableEq, Repr

/-- A timer between two threads. `loop` is the number of the `set` whose expiration `process` has read, if it has
not called the handler yet; `handlerOf` and `armedBy` are the numbers of the calls that stored the handler and
that set the timerfd. -/
structure Race (H : Type) where
  timer : Timer H
  user : Race.User H
  loop : Option Nat
  handlerOf : Nat
  armedBy : Nat
  deriving DecidableEq, Repr

namespace Race

/-- The constructor. -/
def new : Race H := ⟨.new, .idle, none, 0, 0⟩

inductive Act (H : Type) where
  | store (periodMs : UInt32) (repeated : Bool) (eventHandler : Option H)
  | settime
  | clear
  | gettime
  | disarm
  | expire
  | read
  | invoke
  deriving DecidableEq, Repr

/-- What is called in a step. -/
def called (s : Race H) : Act H → Option (Invoked H)
  | .invoke => s.loop.map fun _ => invoke s.timer.eventHandler true
  | .gettime =>
    match s.user, s.timer.fd with
    | .cleared (some cb), some fd => if fd.spec.itValue ≠ .zero then some (invoke (some cb) false) else none
    | _, _ => none
  | _ => none

def step : Machine (Race H) (Act H)
  | s, .store periodMs repeated eventHandler =>
    match s.user with
    | .idle =>
      if periodMs = 0 then some s
      else
        some { s with
          timer.eventHandler := Timer.stored s.timer.eventHandler eventHandler
          user := .stored (Timer.timespecOf periodMs repeated)
          handlerOf := s.handlerOf + 1 }
    | _ => none
  | s, .settime =>
    match s.user with
    | .stored timespec => some { s with timer := (s.timer.settime timespec).2, user := .idle, armedBy := s.handlerOf }
    | _ => none
  | s, .clear =>
    match s.user with
    | .idle => some { s with timer.eventHandler := some .nop, user := .cleared s.timer.eventHandler }
    | _ => none
  | s, .gettime =>
    match s.user with
    | .cleared _ => some { s with user := if s.timer.fd.isSome then .called else .idle }
    | _ => none
  | s, .disarm =>
    match s.user with
    | .called => some { s with timer := (s.timer.settime ⟨.zero, .zero⟩).2, user := .idle }
    | _ => none
  | s, .expire => (s.timer.fd.bind (·.expire)).map fun fd => { s with timer.fd := some fd }
  | s, .read =>
    match s.loop, s.timer.fd with
    | none, some fd =>
      some { s with timer.fd := some fd.read.2, loop := if fd.read.1 = 8 then some s.armedBy else none }
    | _, _ => none
  | s, .invoke => if s.loop.isSome then some { s with loop := none } else none

/-- The handler that is called now, if it is a user's, was stored by the `set` whose expiration was read. -/
def Own (s : Race H) : Prop :=
  ∀ h, s.called .invoke = some (.user h true) → s.loop = some s.handlerOf

/-- A handler has been stored since the expiration was read, or shortly before and the timerfd not yet set for
it; and it has not been cleared. -/
def Overtaken : List (Race H × Act H) → Prop
  | [] => False
  | (_, .store periodMs _ _) :: tr => periodMs ≠ 0 ∨ Overtaken tr
  | (_, .clear) :: _ => False
  | (s, .read) :: _ => ∃ timespec, s.user = .stored timespec
  | (_, .settime) :: tr => Overtaken tr
  | (_, .gettime) :: tr => Overtaken tr
  | (_, .disarm) :: tr => Overtaken tr
  | (_, .expire) :: tr => Overtaken tr
  | (_, .invoke) :: tr => Overtaken tr

variable {tr : List (Race H × Act H)} {s s' : Race H} {a : Act H}

/-- A user's handler is stored. -/
def Stored (s : Race H) : Prop := ∃ h, s.timer.eventHandler = some (.user h)

/-- The numbers, and whose expiration has been read. -/
structure Inv (tr : List (Race H × Act H)) (s : Race H) : Prop where
  armed_le : s.armedBy ≤ s.handlerOf
  idle : s.user = .idle → s.Stored → s.armedBy = s.handlerOf
  stored : ∀ timespec, s.user = .stored timespec → s.armedBy < s.handlerOf
  cleared : ∀ cb, s.user = .cleared cb → ¬ s.Stored
  called : s.user = .called → ¬ s.Stored
  read_le : ∀ n, s.loop = some n → n ≤ s.armedBy
  overtaken : ∀ n, s.loop = some n → s.Stored → Overtaken tr → n < s.handlerOf
  own : ∀ n, s.loop = some n → s.Stored → ¬ Overtaken tr → n = s.handlerOf

theorem not_stored_nop (h : s.timer.eventHandler = some .nop) : ¬ s.Stored := by
  rintro ⟨h', he⟩
  rw [h] at he
  exact nomatch he

theorem settime_eventHandler (t : Timer H) (timespec : Itimerspec) :
    (t.settime timespec).2.eventHandler = t.eventHandler := by
  unfold Timer.settime
  split <;> rfl

theorem stored_congr (h : s'.timer.eventHandler = s.timer.eventHandler) : s'.Stored ↔ s.Stored := by
  unfold Stored
  rw [h]

theorem Inv.congr {tr' : List (Race H × Act H)} (h : Inv tr s) (htr : Overtaken tr' ↔ Overtaken tr)
    (hhandler : s'.timer.eventHandler = s.timer.eventHandler) (huser : s'.user = s.user)
    (hloop : s'.loop = s.loop ∨ s'.loop = none) (hof : s'.handlerOf = s.handlerOf) (hby : s'.armedBy = s.armedBy) :
    Inv tr' s' := by
  have hstored := stored_congr hhandler
  have hread {n : Nat} (hn : s'.loop = some n) : s.loop = some n := by
    rcases hloop with he | he
    · exact he ▸ hn
    · exact nomatch hn.symm.trans he
  constructor
  · rw [hof, hby]
    exact h.armed_le
  · rw [huser, hof, hby, hstored]
    exact h.idle
  · rw [huser, hof, hby]
    exact h.stored
  · rw [huser, hstored]
    exact h.cleared
  · rw [huser, hstored]
    exact h.called
  · rw [hby]
    exact fun n hn => h.read_le n (hread hn)
  · rw [hof, htr, hstored]
    exact fun n hn => h.overtaken n (hread hn)
  · rw [hof, htr, hstored]
    exact fun n hn => h.own n (hread hn)

theorem store_inv {periodMs : UInt32} {repeated : Bool} {new : Option H} (h : Inv tr s)
    (hstep : step s (.store periodMs repeated new) = some s') :
    Inv ((s, .store periodMs repeated new) :: tr) s' := by
  simp only [step] at hstep
  split at hstep
  · split at hstep
    · next hp =>
      obtain rfl := Option.some.inj hstep
      have htr : Overtaken ((s, .store periodMs repeated new) :: tr) ↔ Overtaken tr :=
        or_iff_right (not_not.mpr hp)
      exact h.congr htr rfl rfl (Or.inl rfl) rfl rfl
    · next hp =>
      obtain rfl := Option.some.inj hstep
      have hlt : s.armedBy < s.handlerOf + 1 := Nat.lt_succ_of_le h.armed_le
      refine ⟨Nat.le_of_lt hlt, nofun, fun _ _ => hlt, nofun, nofun, h.read_le, ?_, ?_⟩
      · exact fun n hn _ _ => Nat.lt_of_le_of_lt (h.read_le n hn) hlt
      · exact fun _ _ _ hno => absurd (Or.inl hp) hno
  · exact nomatch hstep

theorem settime_inv (h : Inv tr s) (hstep : step s .settime = some s') : Inv ((s, .settime) :: tr) s' := by
  simp only [step] at hstep
  split at hstep
  · next timespec huser =>
    obtain rfl := Option.some.inj hstep
    have hhandler := settime_eventHandler s.timer timespec
    refine ⟨Nat.le_refl _, fun _ _ => rfl, nofun, nofun, nofun, ?_, ?_, ?_⟩
    · exact fun n hn => Nat.le_trans (h.read_le n hn) h.armed_le
    · exact fun n hn hst => h.overtaken n hn ((stored_congr hhandler).mp hst)
    · exact fun n hn hst => h.own n hn ((stored_congr hhandler).mp hst)
  · exact nomatch hstep

theorem cancel_inv (h : Inv tr s) (ha : a = .clear ∨ a = .gettime ∨ a = .disarm) (hstep : step s a = some s') :
    Inv ((s, a) :: tr) s' := by
  -- no handler of a user is stored until the next `set`
  have hquiet (hnot : ¬ s'.Stored) (hof : s'.handlerOf = s.handlerOf) (hby : s'.armedBy = s.armedBy)
      (hloop : s'.loop = s.loop) (hst : ∀ timespec, s'.user ≠ .stored timespec) : Inv ((s, a) :: tr) s' := by
    refine ⟨?_, fun _ hs => absurd hs hnot, fun _ he => absurd he (hst _), fun _ _ => hnot, fun _ => hnot, ?_,
      fun _ _ hs => absurd hs hnot, fun _ _ hs => absurd hs hnot⟩
    · rw [hof, hby]
      exact h.armed_le
    · rw [hby, hloop]
      exact h.read_le
  rcases ha with rfl | rfl | rfl
  · simp only [step] at hstep
    split at hstep
    · obtain rfl := Option.some.inj hstep
      exact hquiet (not_stored_nop rfl) rfl rfl rfl nofun
    · exact nomatch hstep
  · simp only [step] at hstep
    split at hstep
    · next cb huser =>
      obtain rfl := Option.some.inj hstep
      refine hquiet (h.cleared cb huser) rfl rfl rfl ?_
      intro timespec
      dsimp only
      split <;> exact nofun
    · exact nomatch hstep
  · simp only [step] at hstep
    split at hstep
    · next huser =>
      obtain rfl := Option.some.inj hstep
      refine hquiet ?_ rfl rfl rfl nofun
      exact fun hst => h.called huser ((stored_congr (settime_eventHandler s.timer _)).mp hst)
    · exact nomatch hstep

theorem read_inv (h : Inv tr s) (hstep : step s .read = some s') : Inv ((s, .read) :: tr) s' := by
  simp only [step] at hstep
  split at hstep
  · next fd hloop hfd =>
    obtain rfl := Option.some.inj hstep
    have hread {n : Nat} (hn : (if fd.read.1 = 8 then some s.armedBy else none) = some n) : n = s.armedBy := by
      split at hn
      · exact (Option.some.inj hn).symm
      · exact nomatch hn
    refine ⟨h.armed_le, h.idle, h.stored, h.cleared, h.called, ?_, ?_, ?_⟩
    · exact fun n hn => Nat.le_of_eq (hread hn)
    · rintro n hn _ ⟨timespec, huser⟩
      rw [hread hn]
      exact h.stored timespec huser
    · intro n hn hst hno
      rw [hread hn]
      -- with a handler stored the user's thread is in no call
      cases huser : s.user with
      | idle => exact h.idle huser hst
      | stored timespec => exact absurd ⟨timespec, huser⟩ hno
      | cleared cb => exact absurd hst (h.cleared cb huser)
      | called => exact absurd hst (h.called huser)
  · exact nomatch hstep

/-- **Step rule.** -/
theorem step_inv (h : Inv tr s) (hstep : step s a = some s') : Inv ((s, a) :: tr) s' := by
  cases a with
  | store periodMs repeated new => exact store_inv h hstep
  | settime => exact settime_inv h hstep
  | clear => exact cancel_inv h (Or.inl rfl) hstep
  | gettime => exact cancel_inv h (Or.inr (Or.inl rfl)) hstep
  | disarm => exact cancel_inv h (Or.inr (Or.inr rfl)) hstep
  | expire =>
    simp only [step, Option.map_eq_some_iff] at hstep
    obtain ⟨fd, _, rfl⟩ := hstep
    exact h.congr Iff.rfl rfl rfl (Or.inl rfl) rfl rfl
  | read => exact read_inv h hstep
  | invoke =>
    simp only [step, Option.ite_none_right_eq_some] at hstep
    obtain ⟨_, hstep⟩ := hstep
    obtain rfl := Option.some.inj hstep
    exact h.congr Iff.rfl rfl rfl (Or.inr rfl) rfl rfl

theorem run_inv (h : (step (H := H)).Run new tr s) : Inv tr s := by
  refine h.trace_induction ?_ (fun _ _ _ _ _ => step_inv)
  refine ⟨Nat.le_refl _, fun _ _ => rfl, nofun, nofun, nofun, nofun, nofun, nofun⟩

/-- **A callback belongs to its own arming.** When the loop calls a handler, it is the handler of the `set` whose
expiration it read exactly if, where a handler of a user is stored, it has not overtaken the expiration. -/
theorem own_expiration_iff (h : (step (H := H)).Run new ((s, .invoke) :: tr) s') :
    Own s ↔ (s.Stored → ¬ Overtaken tr) := by
  cases h with
  | snoc hrun hstep =>
  have hinv := run_inv hrun
  simp only [step, Option.ite_none_right_eq_some, Option.isSome_iff_exists] at hstep
  obtain ⟨⟨n, hn⟩, _⟩ := hstep
  have hcalled (h' : H) : s.called .invoke = some (.user h' true) ↔ s.timer.eventHandler = some (.user h') := by
    simp only [called, hn, Option.map_some, Option.some_inj]
    rcases s.timer.eventHandler with _ | _ | h'' <;> simp [invoke]
  have hown : Own s ↔ (s.Stored → n = s.handlerOf) := by
    simp only [Own, hcalled, Stored, hn, Option.some_inj, forall_exists_index]
  rw [hown]
  refine forall_congr' fun hst => ⟨fun he hover => ?_, hinv.own n hn hst⟩
  exact absurd he (Nat.ne_of_lt (hinv.overtaken n hn hst hover))

/-- A `set` replaces another one before its time; then the second expires. -/
theorem own_expiration_replaced :
    ∃ tr s s', (step (H := Nat)).Run new ((s, .invoke) :: tr) s' ∧
      s.called .invoke = some (.user 2 true) ∧ Own s := by
  have h := run_of_exec (step (H := Nat)) new
    [.store 50 false (some 1), .settime, .store 100 false (some 2), .settime, .expire, .read, .invoke] rfl
  refine ⟨_, _, _, h, rfl, (own_expiration_iff h).mpr fun _ hover => ?_⟩
  obtain ⟨_, huser⟩ := hover
  exact nomatch huser

/-- The first `set` has expired, and the second one has stored its handler when the loop reads. -/
theorem second_handler_gets_first_expiration :
    ¬ ∀ tr s s', (step (H := Nat)).Run new ((s, .invoke) :: tr) s' → Own s := by
  intro h
  have hrun := run_of_exec (step (H := Nat)) new
    [.store 50 false (some 1), .settime, .expire, .store 100 false (some 2), .read, .invoke] rfl
  exact absurd (h _ _ _ hrun 2 rfl) (by decide)

end Race

end Libhbk
