import Libhbk.Sys.Timer

/-!
# One-shot timers

A one-shot `set` is to be answered once: by the event loop when its period has elapsed, or by `cancel`. It goes
from armed over elapsed to answered, and `cancel` calls the handler only while the timerfd is armed.
-/

namespace Libhbk

open Machine

variable {H : Type}

namespace Timer

/-- What a call of one of the two `set`s asks for: period, repetition and handler. -/
def Act.setting : Act H → Option (UInt32 × Bool × Option H)
  | .set periodMs repeated eventHandler => some (periodMs, repeated, eventHandler)
  | .setMilliseconds count repeated eventHandler => some (UInt32.ofInt count, repeated, eventHandler)
  | _ => none

/-- All callbacks called, the latest first. -/
def calls (tr : List (Timer H × Act H)) : List (H × Bool) := tr.filterMap fun x => x.1.called x.2

/-- The handler given is not empty. -/
def Act.NonEmpty (a : Act H) : Prop :=
  ∀ periodMs repeated h, a.setting = some (periodMs, repeated, h) → h ≠ none

/-- If this is a `set`, it fails. -/
def Act.Fails (a : Act H) : Prop :=
  ∀ periodMs repeated h, a.setting = some (periodMs, repeated, h) → periodMs = 0

/-- The loop has dispatched the expiration, or `cancel` has been called. -/
def Answered (tr : List (Timer H × Act H)) : Prop :=
  ∃ x ∈ tr, x.2 = .cancel ∨ x.2 = .process ∧ x.1.Expired

/-- No `cancel` is called while an expiration waits to be read. -/
def NoneWaiting (tr : List (Timer H × Act H)) : Prop := ∀ x ∈ tr, x.2 = .cancel → ¬ x.1.Expired

variable {t t' : Timer H} {tr : List (Timer H × Act H)} {a : Act H} {h : H}

theorem step_setting {periodMs : UInt32} {repeated : Bool} {new : Option H}
    (ha : a.setting = some (periodMs, repeated, new)) : step t a = some (t.set periodMs repeated new).2 := by
  cases a <;> cases ha <;> rfl

theorem called_setting {periodMs : UInt32} {repeated : Bool} {new : Option H}
    (ha : a.setting = some (periodMs, repeated, new)) : t.called a = none := by
  cases a <;> cases ha <;> rfl

theorem calls_cons (x : Timer H × Act H) (tr : List (Timer H × Act H)) :
    calls (x :: tr) = (x.1.called x.2).toList ++ calls tr := by
  rw [calls, List.filterMap_cons]
  cases x.1.called x.2 <;> rfl

/-! ### The handler is never empty -/

theorem step_isSome (hstep : step t a = some t')
    (hne : a.NonEmpty) (hfd : t.fd ≠ none) (hsome : t.eventHandler ≠ none) : t'.fd ≠ none ∧ t'.eventHandler ≠ none := by
  obtain ⟨fd, hfd'⟩ := Option.ne_none_iff_exists'.mp hfd
  cases hs : a.setting with
  | some x =>
    obtain ⟨periodMs, repeated, new⟩ := x
    rw [step_setting hs, Option.some_inj] at hstep
    subst hstep
    by_cases hp : periodMs = 0
    · subst hp
      exact ⟨hfd, hsome⟩
    · rw [set_eq hfd' hp]
      refine ⟨Option.some_ne_none _, ?_⟩
      have hnew := hne _ _ _ hs
      cases new with
      | none => exact absurd rfl hnew
      | some h' =>
        unfold stored
        split <;> exact Option.some_ne_none _
  | none =>
    cases a with
    | set | setMilliseconds => cases hs
    | cancel =>
      obtain rfl := Option.some.inj hstep
      rw [cancel_timer hfd']
      exact ⟨Option.some_ne_none _, Option.some_ne_none _⟩
    | expire =>
      simp only [step, Option.map_eq_some_iff] at hstep
      obtain ⟨fd', _, rfl⟩ := hstep
      exact ⟨Option.some_ne_none _, hsome⟩
    | process =>
      obtain rfl := Option.some.inj hstep
      rw [process_eq hfd']
      split
      · exact ⟨hfd, hsome⟩
      · exact ⟨Option.some_ne_none _, hsome⟩

theorem run_isSome (hrun : (step (H := H)).Run new tr t) (hne : ∀ x ∈ tr, x.2.NonEmpty) :
    t.fd ≠ none ∧ t.eventHandler ≠ none := by
  refine hrun.guarded (P := fun t => t.fd ≠ none ∧ t.eventHandler ≠ none)
    (G := fun _ a => a.NonEmpty)
    ⟨Option.some_ne_none _, Option.some_ne_none _⟩ ?_ hne
  intro t a t' hsome hg hstep
  exact step_isSome hstep hg hsome.1 hsome.2

/-! ### From `set` to the answer -/

/-- How far a one-shot `set` with the handler `h` has come, given what has happened since. -/
inductive Phase (h : H) (tr : List (Timer H × Act H)) (t : Timer H) : Prop where
  | armed (fd : Timerfd) (hfd : t.fd = some fd) (hvalue : fd.spec.itValue ≠ .zero)
      (hinterval : fd.spec.itInterval = .zero) (hnone : fd.expirations = 0)
      (hhandler : t.eventHandler = some (.user h)) (hcalls : calls tr = []) (hopen : ¬ Answered tr)
  | elapsed (fd : Timerfd) (hfd : t.fd = some fd) (hvalue : fd.spec.itValue = .zero) (hwaiting : 0 < fd.expirations)
      (hhandler : t.eventHandler = some (.user h)) (hcalls : calls tr = []) (hopen : ¬ Answered tr)
  | answered (fd : Timerfd) (hfd : t.fd = some fd) (hvalue : fd.spec.itValue = .zero) (hnone : fd.expirations = 0)
      (hcalls : (∃ fired, calls tr = [(h, fired)]) ↔ NoneWaiting tr)

theorem answered_cons (x : Timer H × Act H) (tr : List (Timer H × Act H)) :
    Answered (x :: tr) ↔ (x.2 = .cancel ∨ x.2 = .process ∧ x.1.Expired) ∨ Answered tr :=
  List.exists_mem_cons_iff _ _ _

theorem noneWaiting_cons (x : Timer H × Act H) (tr : List (Timer H × Act H)) :
    NoneWaiting (x :: tr) ↔ (x.2 = .cancel → ¬ x.1.Expired) ∧ NoneWaiting tr :=
  List.forall_mem_cons

theorem expired_iff {fd : Timerfd} (hfd : t.fd = some fd) : t.Expired ↔ 0 < fd.expirations := by
  simp [Expired, hfd]

theorem noneWaiting_of_open (hopen : ¬ Answered tr) : NoneWaiting tr :=
  fun x hx hc => absurd ⟨x, hx, Or.inl hc⟩ hopen

theorem Phase.idle (hp : Phase h tr t) (hcalled : t.called a = none) (hcancel : a ≠ .cancel)
    (hprocess : a = .process → ¬ t.Expired) : Phase h ((t, a) :: tr) t := by
  have hcalls : calls ((t, a) :: tr) = calls tr := by
    rw [calls_cons, hcalled]
    rfl
  have hopen : Answered ((t, a) :: tr) ↔ Answered tr := by
    rw [answered_cons]
    exact or_iff_right (fun he => he.elim hcancel fun he => hprocess he.1 he.2)
  have hwaiting : NoneWaiting ((t, a) :: tr) ↔ NoneWaiting tr := by
    rw [noneWaiting_cons]
    exact and_iff_right fun he => absurd he hcancel
  cases hp with
  | armed fd hfd hvalue hinterval hnone hhandler hc ho =>
    exact .armed fd hfd hvalue hinterval hnone hhandler (hcalls.trans hc) (hopen.not.mpr ho)
  | elapsed fd hfd hvalue hw hhandler hc ho =>
    exact .elapsed fd hfd hvalue hw hhandler (hcalls.trans hc) (hopen.not.mpr ho)
  | answered fd hfd hvalue hnone hc =>
    refine .answered fd hfd hvalue hnone ?_
    rw [hcalls, hwaiting]
    exact hc

/-- **Step rule.** -/
theorem step_phase (hp : Phase h tr t) (hfails : a.Fails) (hstep : step t a = some t') :
    Phase h ((t, a) :: tr) t' := by
  cases hs : a.setting with
  | some x =>
    -- a `set` that fails
    obtain ⟨periodMs, repeated, new⟩ := x
    obtain rfl := hfails _ _ _ hs
    rw [step_setting hs, set_zero, Option.some_inj] at hstep
    subst hstep
    refine hp.idle (called_setting hs) (fun he => ?_) (fun he => ?_) <;> subst he <;> cases hs
  | none =>
    cases a with
    | set | setMilliseconds => cases hs
    | cancel =>
      obtain rfl := Option.some.inj hstep
      have hcalls {fd : Timerfd} (hfd : t.fd = some fd) : calls ((t, .cancel) :: tr) =
          (Invoked.callback (if fd.spec.itValue = .zero then none else
            t.eventHandler.map fun cb => invoke (some cb) false)).toList ++ calls tr := by
        rw [calls_cons, called, cancel_called hfd]
      cases hp with
      | armed fd hfd hvalue hinterval hnone hhandler hc hopen =>
        rw [cancel_timer hfd]
        refine .answered _ rfl rfl rfl (iff_of_true ⟨false, ?_⟩ ?_)
        · rw [hcalls hfd, if_neg hvalue, hhandler, hc]
          rfl
        · rw [noneWaiting_cons, expired_iff hfd, hnone]
          exact ⟨fun _ => Nat.lt_irrefl 0, noneWaiting_of_open hopen⟩
      | elapsed fd hfd hvalue hwaiting hhandler hc hopen =>
        -- the expiration is dropped
        rw [cancel_timer hfd]
        refine .answered _ rfl rfl rfl (iff_of_false ?_ ?_)
        · rw [hcalls hfd, if_pos hvalue, hc]
          rintro ⟨_, ⟨⟩⟩
        · rw [noneWaiting_cons, expired_iff hfd]
          exact fun he => he.1 rfl hwaiting
      | answered fd hfd hvalue hnone hc =>
        rw [cancel_timer hfd]
        refine .answered _ rfl rfl rfl ?_
        rw [hcalls hfd, if_pos hvalue, noneWaiting_cons, expired_iff hfd, hnone,
          and_iff_right (fun _ => Nat.lt_irrefl 0)]
        exact hc
    | expire =>
      simp only [step, Option.map_eq_some_iff, Option.bind_eq_some_iff, Timerfd.expire,
        Option.ite_none_left_eq_some] at hstep
      obtain ⟨fd', ⟨fd, hfd, hrunning, hfd'⟩, rfl⟩ := hstep
      obtain rfl := Option.some.inj hfd'
      cases hp with
      | armed fd₁ hfd₁ hvalue hinterval hnone hhandler hc hopen =>
        obtain rfl := Option.some.inj (hfd.symm.trans hfd₁)
        refine .elapsed _ rfl hinterval (Nat.succ_pos _) hhandler ?_ ?_
        · rw [calls_cons, hc]
          rfl
        · rw [answered_cons]
          rintro ((⟨⟨⟩⟩ | ⟨⟨⟩, _⟩) | he)
          exact hopen he
      | elapsed fd₁ hfd₁ hvalue =>
        obtain rfl := Option.some.inj (hfd.symm.trans hfd₁)
        exact absurd hvalue hrunning
      | answered fd₁ hfd₁ hvalue =>
        obtain rfl := Option.some.inj (hfd.symm.trans hfd₁)
        exact absurd hvalue hrunning
    | process =>
      obtain rfl := Option.some.inj hstep
      have hquiet {fd : Timerfd} (hfd : t.fd = some fd) (hnone : fd.expirations = 0) :
          Phase h ((t, .process) :: tr) t.process.2 := by
        have heq : t.process = (none, t) := by rw [process_eq hfd, if_pos hnone]
        rw [heq]
        refine hp.idle ?_ (by rintro ⟨⟩) (fun _ => ?_)
        · rw [called, heq]
          rfl
        · rw [expired_iff hfd, hnone]
          exact Nat.lt_irrefl 0
      cases hp with
      | armed fd hfd hvalue hinterval hnone hhandler hc hopen => exact hquiet hfd hnone
      | elapsed fd hfd hvalue hwaiting hhandler hc hopen =>
        have heq := process_eq hfd
        rw [if_neg (Nat.ne_of_gt hwaiting)] at heq
        rw [heq]
        refine .answered _ rfl hvalue rfl (iff_of_true ⟨true, ?_⟩ ?_)
        · rw [calls_cons, called, heq, hhandler, hc]
          rfl
        · rw [noneWaiting_cons]
          exact ⟨by rintro ⟨⟩, noneWaiting_of_open hopen⟩
      | answered fd hfd hvalue hnone hc => exact hquiet hfd hnone

theorem set_phase {periodMs : UInt32} (hp : periodMs ≠ 0) (hfd : t.fd ≠ none) (hsome : t.eventHandler ≠ none) :
    Phase h [] (t.set periodMs false (some h)).2 := by
  obtain ⟨fd, hfd'⟩ := Option.ne_none_iff_exists'.mp hfd
  obtain ⟨cb, hcb⟩ := Option.ne_none_iff_exists'.mp hsome
  rw [set_eq hfd' hp]
  refine .armed _ rfl (timespecOf_ne_zero hp false) rfl rfl ?_ rfl ?_
  · simp only [stored, hcb]
    rfl
  · rintro ⟨x, hx, _⟩
    exact List.not_mem_nil hx

/-- **Every one-shot `set` is answered once.** Once its expiration has been dispatched or `cancel` has been called
after it, and no other `set` has superseded it, its handler has been called once exactly if no `cancel` was called
while the expiration waited to be read. -/
theorem answered_once_iff {tr₁ tr₂ : List (Timer H × Act H)} {periodMs : UInt32}
    (hrun : (step (H := H)).Run new (tr₂ ++ (t, a) :: tr₁) t') (hne : ∀ x ∈ tr₁, x.2.NonEmpty)
    (ha : a.setting = some (periodMs, false, some h)) (hp : periodMs ≠ 0) (hlast : ∀ x ∈ tr₂, x.2.Fails)
    (hans : Answered tr₂) : (∃ fired, calls tr₂ = [(h, fired)]) ↔ NoneWaiting tr₂ := by
  obtain ⟨t₁, hbefore, hset, hafter⟩ := hrun.split
  obtain ⟨hfd, hsome⟩ := run_isSome hbefore hne
  rw [step_setting ha, Option.some_inj] at hset
  have hphase : (∀ x ∈ tr₂, x.2.Fails) → Phase h tr₂ t' := by
    refine hafter.trace_induction (P := fun tr t => (∀ x ∈ tr, x.2.Fails) → Phase h tr t) ?_ ?_
    · intro _
      rw [← hset]
      exact set_phase hp hfd hsome
    · intro tr t a t' _ ih hstep hfails
      obtain ⟨ha, htr⟩ := List.forall_mem_cons.mp hfails
      exact step_phase (ih htr) ha hstep
  cases hphase hlast with
  | armed fd hfd hvalue hinterval hnone hhandler hc hopen => exact absurd hans hopen
  | elapsed fd hfd hvalue hwaiting hhandler hc hopen => exact absurd hans hopen
  | answered fd hfd hvalue hnone hc => exact hc

/-- Dispatched in time, and cancelled twice afterwards. -/
theorem answered_once_dispatched :
    ∃ tr₂ t t', (step (H := Nat)).Run new (tr₂ ++ [(t, .set 50 false (some 1))]) t' ∧
      ∃ fired, calls tr₂ = [(1, fired)] := by
  have h := run_of_exec (step (H := Nat)) new [.set 50 false (some 1), .expire, .process, .cancel, .cancel] rfl
  have hlater : step.Run new ([(_, .cancel), (_, .cancel), (_, .process), (_, .expire)] ++
      (_, .set 50 false (some 1)) :: []) _ := h
  refine ⟨_, _, _, h, (answered_once_iff hlater (List.forall_mem_nil _) rfl (by decide) ?_
    ⟨_, List.mem_cons_self, Or.inl rfl⟩).mpr ?_⟩
  · simp only [List.forall_mem_cons]
    exact ⟨nofun, nofun, nofun, nofun, List.forall_mem_nil _⟩
  · simp only [noneWaiting_cons]
    refine ⟨fun _ => ?_, fun _ => ?_, nofun, nofun, List.forall_mem_nil _⟩
    · exact mt (expired_iff rfl).mp (by decide)
    · exact mt (expired_iff rfl).mp (by decide)

/-- The period elapses, and `cancel` comes before the event loop: nothing is called. -/
theorem cancel_drops_expiration :
    ¬ ∀ tr₁ tr₂ t t' h, (step (H := Nat)).Run new (tr₂ ++ (t, .set 50 false (some h)) :: tr₁) t' →
      (∀ x ∈ tr₁, x.2.NonEmpty) → (∀ x ∈ tr₂, x.2.Fails) → Answered tr₂ → ∃ fired, calls tr₂ = [(h, fired)] := by
  intro h
  have hrun := run_of_exec (step (H := Nat)) new [.set 50 false (some 1), .expire, .cancel] rfl
  obtain ⟨fired, hcalls⟩ := h [] [(_, .cancel), (_, .expire)] _ _ 1 hrun (List.forall_mem_nil _) (by
    simp only [List.forall_mem_cons]
    exact ⟨nofun, nofun, List.forall_mem_nil _⟩) ⟨_, List.mem_cons_self, Or.inl rfl⟩
  exact nomatch hcalls

end Timer

end Libhbk
