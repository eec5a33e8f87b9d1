import Libhbk.Sys.EventLoop.Diligent
import Libhbk.Sys.Timer

/-!
# Timers in the event loop

The timerfd of a timer is one descriptor among others of an edge triggered loop. `process` reads it once and returns 0,
which tells the loop not to come back; what has expired meanwhile must not be left behind. The handlers may set and cancel
timers in the middle of a call: that is a step of its own behind the read, and `process` does nothing after it.
-/

namespace Libhbk.Timer.Dispatch

open Source (ended)

variable {C H : Type}

inductive Outside (C : Type) where
  | set (periodMs : UInt32) (repeated : Bool) (eventHandler : Option C)
  | setMilliseconds (count : Int) (repeated : Bool) (eventHandler : Option C)
  | cancel
  | expire

def Outside.act : Outside C → Act C
  | .set periodMs repeated eventHandler => .set periodMs repeated eventHandler
  | .setMilliseconds count repeated eventHandler => .setMilliseconds count repeated eventHandler
  | .cancel => .cancel
  | .expire => .expire

/-- Does a call throw, where the user's callback does or does not? -/
def raises (throws : Bool) : Option (Invoked C) → Bool
  | some .badFunctionCall => true
  | some (.user _ _) => throws
  | _ => false

/-- The timerfd becomes readable when it expires. -/
def source : Source (Timer C) (Outside C) Bool where
  outside e t := step t e.act
  signalled
    | .expire => true
    | _ => false
  handle throws t := some (if raises throws t.process.1 then none else some 0, t.process.2)

/-! ### What a run calls -/

/-- A step beside the event loop, with the state it is made in. -/
abbrev Entry (C H : Type) := Source.State H (Timer C) × Source.Act H (Outside C) Bool

/-- The steps of the timer. -/
def steps : List (Entry C H) → List (Timer C × Act C)
  | [] => []
  | (s, .outside e) :: tr => (s.items, e.act) :: steps tr
  | (_, .loop _) :: tr => steps tr
  | (s, _) :: tr => (s.items, .process) :: steps tr

/-- What `process` calls. -/
def calls (y : Entry C H) : Option (Invoked C) := (ended y.2).bind fun _ => y.1.items.process.1

/-- A set, or a cancel. -/
def resets (y : Entry C H) : Bool :=
  match y.2 with
  | .outside (.set periodMs repeated eventHandler) => (y.1.items.set periodMs repeated eventHandler).1 = 0
  | .outside (.setMilliseconds count repeated eventHandler) =>
    (y.1.items.setMilliseconds count repeated eventHandler).1 = 0
  | .outside .cancel => true
  | _ => false

def expires (y : Entry C H) : Bool :=
  match y.2 with
  | .outside .expire => true
  | _ => false

/-- No empty handler is set. -/
def handled (y : Entry C H) : Bool :=
  match y.2 with
  | .outside (.set _ _ eventHandler) => eventHandler.isSome
  | .outside (.setMilliseconds _ _ eventHandler) => eventHandler.isSome
  | _ => true

/-- What is stored answers for the latest `set`. -/
structure Stored (tr : List (Timer C × Act C)) (t : Timer C) : Prop where
  fd : t.fd ≠ none
  eventHandler : t.eventHandler ≠ none
  answers : invoke t.eventHandler true = wanted tr

variable {tr : List (Timer C × Act C)} {t : Timer C} {s : Source.State H (Timer C)}

/-! ### One step of the timer -/

theorem not_expired_zero (spec : Itimerspec) (eventHandler : Option (Cb C)) :
    ¬ (⟨some ⟨spec, 0⟩, eventHandler⟩ : Timer C).Expired := by
  intro hexpired
  obtain ⟨fd, hfd, hpos⟩ := hexpired
  obtain rfl := Option.some.inj hfd
  exact Nat.lt_irrefl 0 hpos

theorem process_not_expired (t : Timer C) : ¬ t.process.2.Expired := by
  cases hfd : t.fd with
  | none =>
    intro hexpired
    obtain ⟨fd', hfd', _⟩ := hexpired
    rw [process, hfd] at hfd'
    simp [hfd] at hfd'
  | some fd =>
    rw [process_eq hfd]
    by_cases hzero : fd.expirations = 0
    · intro hexpired
      obtain ⟨fd', hfd', hpos⟩ := hexpired
      rw [if_pos hzero, hfd] at hfd'
      obtain rfl := Option.some.inj hfd'
      omega
    · rw [if_neg hzero]
      exact not_expired_zero _ _

theorem settime_expired {cb : Option (Cb C)} {timespec : Itimerspec}
    (h : ((⟨t.fd, cb⟩ : Timer C).settime timespec).2.Expired) : t.Expired := by
  cases hbind : t.fd.bind fun fd => fd.settime timespec with
  | none =>
    rw [settime, hbind] at h
    exact h
  | some fd =>
    rw [settime, hbind] at h
    simp only [Option.bind_eq_some_iff, Timerfd.settime, Option.ite_none_right_eq_some, Option.some.injEq] at hbind
    obtain ⟨_, _, _, rfl⟩ := hbind
    exact absurd h (not_expired_zero _ _)

theorem set_expired {periodMs : UInt32} {repeated : Bool} {eventHandler : Option C}
    (h : (t.set periodMs repeated eventHandler).2.Expired) : t.Expired := by
  unfold Timer.set at h
  split at h
  · exact h
  · exact settime_expired h

theorem cancel_expired (h : t.cancel.2.2.Expired) : t.Expired := by
  unfold Timer.cancel at h
  dsimp only at h
  split at h
  · exact h
  · split at h
    · exact settime_expired h
    · exact settime_expired h

theorem outside_expired {e : Outside C} {t' : Timer C} (hs : step t e.act = some t')
    (hsignalled : (source (C := C)).signalled e = false) (h : t'.Expired) : t.Expired := by
  cases e with
  | set periodMs repeated eventHandler =>
    obtain rfl := Option.some.inj hs
    exact set_expired h
  | setMilliseconds count repeated eventHandler =>
    obtain rfl := Option.some.inj hs
    exact set_expired h
  | cancel =>
    obtain rfl := Option.some.inj hs
    exact cancel_expired h
  | expire => simp [source] at hsignalled

theorem Stored.process (h : Stored tr t) : Stored ((t, .process) :: tr) t.process.2 := by
  obtain ⟨fd, hfd⟩ := Option.ne_none_iff_exists'.mp h.fd
  rw [process_eq hfd]
  split
  · exact ⟨h.fd, h.eventHandler, h.answers⟩
  · exact ⟨Option.some_ne_none _, h.eventHandler, h.answers⟩

/-! ### Runs -/

/-- What has expired before a step from outside and after it. -/
structure Outcome (tr : List (Timer C × Act C)) (t : Timer C) (e : Outside C) (reset : Bool) (t' : Timer C) : Prop where
  stored : Stored ((t, e.act) :: tr) t'
  expired : t'.Expired → t.Expired ∨ e = .expire
  expires : e = .expire → t'.Expired
  kept : reset = false → t.Expired → t'.Expired ∧ latest ((t, e.act) :: tr) = latest tr

theorem Stored.outcome_set (h : Stored tr t) {e : Outside C} {periodMs : UInt32} {repeated : Bool}
    {eventHandler : Option C} (hsome : eventHandler.isSome = true) (he : e ≠ .expire) (ha : latest ((t, e.act) :: tr) =
      if (t.set periodMs repeated eventHandler).1 = 0 then some (t, eventHandler) else latest tr) :
    Outcome tr t e ((t.set periodMs repeated eventHandler).1 = 0) (t.set periodMs repeated eventHandler).2 := by
  obtain ⟨fd, hfd⟩ := Option.ne_none_iff_exists'.mp h.fd
  obtain ⟨eventHandler, rfl⟩ := Option.isSome_iff_exists.mp hsome
  obtain ⟨cb, hcb⟩ := Option.ne_none_iff_exists'.mp h.eventHandler
  by_cases hperiod : periodMs = 0
  · subst hperiod
    rw [set_zero] at ha ⊢
    rw [if_neg (show ¬ (-1 : Int) = 0 by decide)] at ha
    refine ⟨⟨h.fd, h.eventHandler, ?_⟩, Or.inl, fun h => absurd h he, fun _ hexpired => ⟨hexpired, ha⟩⟩
    rw [wanted, ha]
    exact h.answers
  · rw [set_eq hfd hperiod, stored, hcb] at ha ⊢
    refine ⟨⟨Option.some_ne_none _, Option.some_ne_none _, ?_⟩, fun hexpired => ?_, fun h => absurd h he,
      fun hreset => absurd hreset (by simp)⟩
    · rw [wanted, ha]
      rfl
    · exact absurd hexpired (not_expired_zero _ _)

theorem Stored.outcome_cancel (h : Stored tr t) : Outcome tr t .cancel true t.cancel.2.2 := by
  obtain ⟨fd, hfd⟩ := Option.ne_none_iff_exists'.mp h.fd
  rw [cancel_timer hfd]
  exact ⟨⟨Option.some_ne_none _, Option.some_ne_none _, rfl⟩, fun hexpired => absurd hexpired (not_expired_zero _ _),
    fun h => absurd h (by simp), fun h => absurd h (by simp)⟩

theorem Stored.outcome_expire (h : Stored tr t) {t' : Timer C} (hs : step t .expire = some t') :
    Outcome tr t .expire false t' := by
  simp only [step, Option.map_eq_some_iff, Option.bind_eq_some_iff] at hs
  obtain ⟨fd', ⟨fd, _, hexpire⟩, rfl⟩ := hs
  simp only [Timerfd.expire, Option.ite_none_left_eq_some, Option.some.injEq] at hexpire
  obtain ⟨_, rfl⟩ := hexpire
  have hexpired : (⟨some ⟨⟨fd.spec.itInterval, fd.spec.itInterval⟩, fd.expirations + 1⟩, t.eventHandler⟩ :
      Timer C).Expired := ⟨_, rfl, Nat.succ_pos _⟩
  exact ⟨⟨Option.some_ne_none _, h.eventHandler, h.answers⟩, fun _ => Or.inr rfl, fun _ => hexpired,
    fun _ _ => ⟨hexpired, rfl⟩⟩

theorem Stored.outcome (h : Stored tr s.items) {e : Outside C} {t' : Timer C}
    (hhandled : handled ((s, .outside e) : Entry C H) = true) (hs : step s.items e.act = some t') :
    Outcome tr s.items e (resets ((s, .outside e) : Entry C H)) t' := by
  cases e with
  | set periodMs repeated eventHandler =>
    obtain rfl := Option.some.inj hs
    exact h.outcome_set hhandled (by simp) rfl
  | setMilliseconds count repeated eventHandler =>
    obtain rfl := Option.some.inj hs
    exact h.outcome_set (e := .setMilliseconds count repeated eventHandler) hhandled (by simp) rfl
  | cancel =>
    obtain rfl := Option.some.inj hs
    exact h.outcome_cancel
  | expire => exact h.outcome_expire hs

/-- What answers an expiry: a set or a cancel, or a call for the set that was the latest then. -/
def Answers (older : List (Entry C H)) (y : Entry C H) : Prop :=
  resets y = true ∨ calls y = some (wanted (steps older))

/-- What a run keeps: what is stored, how often it was called, and for each expiry that nothing has answered yet that the
timer has expired, with nothing set since. -/
structure Due (tr : List (Entry C H)) (t : Timer C) : Prop where
  stored : Stored (steps tr) t
  count : tr.countP (fun y => (calls y).isSome) ≤ tr.countP expires
  lt : t.Expired → tr.countP (fun y => (calls y).isSome) < tr.countP expires
  due : ∀ newer x older, tr = newer ++ x :: older → expires x = true →
    (∃ y ∈ newer, Answers older y) ∨ t.Expired ∧ latest (steps tr) = latest (steps older)

theorem Due.start : Due ([] : List (Entry C H)) .new :=
  ⟨⟨Option.some_ne_none _, Option.some_ne_none _, rfl⟩, Nat.le_refl _,
    fun hexpired => absurd hexpired (not_expired_zero _ _), fun newer x older heq => by simp at heq⟩

theorem Due.loop {older : List (Entry C H)} (h : Due older t) (s : Source.State H (Timer C)) (b : Libhbk.Act H) :
    Due ((s, .loop b) :: older) t := by
  refine ⟨h.stored, ?_, fun hexpired => ?_, fun newer x rest heq hx => ?_⟩
  · rw [List.countP_cons_of_neg (by simp [calls, ended]), List.countP_cons_of_neg (by simp [expires])]
    exact h.count
  · rw [List.countP_cons_of_neg (by simp [calls, ended]), List.countP_cons_of_neg (by simp [expires])]
    exact h.lt hexpired
  · cases newer with
    | nil =>
      obtain ⟨rfl, _⟩ := List.cons.inj heq
      simp [expires] at hx
    | cons y newer =>
      obtain ⟨rfl, htail⟩ := List.cons.inj heq
      refine (h.due newer x rest htail hx).imp ?_ id
      intro hanswered
      obtain ⟨y, hy, hanswers⟩ := hanswered
      exact ⟨y, List.mem_cons_of_mem _ hy, hanswers⟩

theorem Due.outside {older : List (Entry C H)} (h : Due older s.items) {e : Outside C} {t' : Timer C}
    (hhandled : handled ((s, .outside e) : Entry C H) = true) (hs : step s.items e.act = some t') :
    Due ((s, .outside e) :: older) t' := by
  have hout := h.stored.outcome hhandled hs
  have hexpires : expires ((s, .outside e) : Entry C H) = true ↔ e = .expire := by
    cases e <;> simp [expires]
  have hcalls := List.countP_cons_of_neg (p := fun y : Entry C H => (calls y).isSome) (a := (s, .outside e)) (l := older)
    (by simp [calls, ended])
  have hcount := List.countP_cons (p := expires) (a := ((s, .outside e) : Entry C H)) (l := older)
  refine ⟨hout.stored, ?_, fun hexpired => ?_, fun newer x rest heq hx => ?_⟩
  · rw [hcalls, hcount]
    exact h.count.trans (Nat.le_add_right _ _)
  · rw [hcalls, hcount]
    rcases hout.expired hexpired with hbefore | he
    · exact (h.lt hbefore).trans_le (Nat.le_add_right _ _)
    · rw [if_pos (hexpires.mpr he)]
      exact Nat.lt_succ_of_le h.count
  · cases newer with
    | nil =>
      obtain ⟨rfl, rfl⟩ := List.cons.inj heq
      obtain rfl := hexpires.mp hx
      exact Or.inr ⟨hout.expires rfl, rfl⟩
    | cons y newer =>
      obtain ⟨rfl, htail⟩ := List.cons.inj heq
      rcases h.due newer x rest htail hx with ⟨y, hy, hanswers⟩ | ⟨hexpired, hlatest⟩
      · exact Or.inl ⟨y, List.mem_cons_of_mem _ hy, hanswers⟩
      · cases hresets : resets ((s, .outside e) : Entry C H) with
        | true => exact Or.inl ⟨_, List.mem_cons_self, Or.inl hresets⟩
        | false =>
          obtain ⟨hkept, hlatest'⟩ := hout.kept hresets hexpired
          exact Or.inr ⟨hkept, hlatest'.trans hlatest⟩

theorem Due.process {older : List (Entry C H)} (h : Due older s.items) {a : Source.Act H (Outside C) Bool} {throws : Bool}
    (hended : ended a = some throws) : Due ((s, a) :: older) s.items.process.2 := by
  have hcall : calls ((s, a) : Entry C H) = s.items.process.1 := by
    rw [calls, hended]
    rfl
  have hsteps : steps (((s, a) : Entry C H) :: older) = (s.items, .process) :: steps older := by
    cases a with
    | loop b => simp [ended] at hended
    | outside e => simp [ended] at hended
    | process x => rfl
    | drain x => rfl
  have hexpires : ¬ expires ((s, a) : Entry C H) = true := by
    cases a with
    | outside e => simp [ended] at hended
    | _ => simp [expires]
  have hcount := List.countP_cons (p := fun y : Entry C H => (calls y).isSome) (a := (s, a)) (l := older)
  obtain ⟨fd, hfd⟩ := Option.ne_none_iff_exists'.mp h.stored.fd
  refine ⟨hsteps ▸ h.stored.process, ?_, fun hexpired => absurd hexpired (process_not_expired _),
    fun newer x rest heq hx => ?_⟩
  · rw [hcount, List.countP_cons_of_neg hexpires, hcall]
    by_cases hexpired : s.items.Expired
    · have hlt := h.lt hexpired
      split_ifs <;> omega
    · rw [process_idle hexpired]
      exact h.count
  · cases newer with
    | nil =>
      obtain ⟨rfl, _⟩ := List.cons.inj heq
      exact absurd hx hexpires
    | cons y newer =>
      obtain ⟨rfl, htail⟩ := List.cons.inj heq
      rcases h.due newer x rest htail hx with ⟨y, hy, hanswers⟩ | ⟨⟨fd', hfd', hpos⟩, hlatest⟩
      · exact Or.inl ⟨y, List.mem_cons_of_mem _ hy, hanswers⟩
      · refine Or.inl ⟨_, List.mem_cons_self, Or.inr ?_⟩
        rw [hcall, process_expired hfd' hpos, h.stored.answers, wanted, wanted, hlatest]

variable [DecidableEq H] {fd stopFd : Fd} {p : Addr} {process : H} {sys : Sys H}

/-- **Every expiry is answered.** Whatever else the event loop does: where `execute` waits with nothing to report for the
timerfd, each expiry has been followed by a call of the handler that was set then, or by a set or a cancel; and there
are no more calls than expiries. -/
theorem expiries_answered (hreg : sys.Registered fd stopFd p process) {tr : List (Entry C H)}
    {s : Source.State H (Timer C)} (hrun : (source.step fd stopFd p process).Run (Source.start sys .new) tr s)
    (hhandled : ∀ y ∈ tr, handled y = true) :
    tr.countP (fun y => (calls y).isSome) ≤ tr.countP expires ∧
      (s.draining = false → s.sys.pc = .wait → s.sys.loop.kernel.wait [fd] = none → ∀ newer x older,
        tr = newer ++ x :: older → expires x = true → ∃ y ∈ newer, Answers older y) := by
  have hdue : (∀ y ∈ tr, handled y = true) → Due tr s.items := by
    refine Source.items_induction (P := fun tr (t : Timer C) => (∀ y ∈ tr, handled y = true) → Due tr t) ?_ ?_ ?_ ?_ hrun
    · intro _
      exact .start
    · intro tr s b h hhandled
      exact (h fun y hy => hhandled y (List.mem_cons_of_mem _ hy)).loop s b
    · intro tr s e t' h hout hhandled
      exact (h fun y hy => hhandled y (List.mem_cons_of_mem _ hy)).outside (hhandled _ List.mem_cons_self) hout
    · intro tr s a throws o t' h hended hh hhandled
      obtain ⟨_, rfl⟩ := Prod.mk.inj (Option.some.inj hh)
      exact (h fun y hy => hhandled y (List.mem_cons_of_mem _ hy)).process hended
  refine ⟨(hdue hhandled).count, fun hdraining hpc hnothing newer x older heq hx => ?_⟩
  have hidle : ¬ s.items.Expired := by
    refine Source.nothing_stranded (fun t : Timer C => ¬ t.Expired) ?_ hreg hrun ?_ hdraining hpc hnothing
    · intro e t t' hs hsignalled hidle hexpired
      exact hidle (outside_expired hs hsignalled hexpired)
    · intro y _ throws o t' _ hh
      obtain ⟨_, rfl⟩ := Prod.mk.inj (Option.some.inj hh)
      exact Or.inr (process_not_expired _)
  exact ((hdue hhandled).due newer x older heq hx).resolve_right fun h => hidle h.1

/-- A timer is set and expires once; `process` is called for it, and a second time for nothing. -/
theorem expiries_answered_once :
    ∃ (tr : List (Entry Nat Nat)) (s : Source.State Nat (Timer Nat)),
      (source.step 5 3 0 10).Run (Source.start (Sys.serving 5 3 0 10 []) .new) tr s ∧ s.sys.pc = .wait ∧
      tr.filterMap calls = [.user 7 true] ∧ tr.countP expires = 1 ∧
      ∀ newer x older, tr = newer ++ x :: older → expires x = true → ∃ y ∈ newer, Answers older y := by
  have hexec : ((source.step 5 3 0 10).exec [] (Source.start (Sys.serving 5 3 0 10 []) .new)
      [.drain false, .outside (.set 10 false (some 7)), .outside .expire, .loop (.wait [5]), .loop .assign, .loop .lock,
        .loop .step, .loop .step, .process false, .loop .step, .loop .step]).map (fun x =>
          (x.1.all handled, (x.1.filterMap calls, x.1.countP expires), (x.2.draining, x.2.sys.pc),
            (x.2.sys.loop.kernel.wait [5]).isNone)) =
      some (true, ([.user 7 true], 1), (false, .wait), true) := by
    decide +kernel
  obtain ⟨⟨tr, s⟩, hrun, hend⟩ := Option.map_eq_some_iff.mp hexec
  simp only [Prod.mk.injEq, List.all_eq_true, Option.isNone_iff_eq_none] at hend
  obtain ⟨hhandled, ⟨hcalls, hexpires⟩, ⟨hdraining, hpc⟩, hnothing⟩ := hend
  have hrun := Machine.run_of_exec _ _ _ hrun
  have hall := expiries_answered (.first [] (by decide) (by decide)) hrun hhandled
  exact ⟨tr, s, hrun, hpc, hcalls, hexpires, hall.2 hdraining hpc hnothing⟩

end Libhbk.Timer.Dispatch
