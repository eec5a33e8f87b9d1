import Libhbk.Sys.EventLoop.Batch

/-!
# Draining a new registration

`addEvent` and `addOutEvent` call the handler until nothing is left, after they have released the lock.
By then the registration is visible to `execute`, so the handler may be called a second time while it
runs, by the dispatch or by another add. `Threads` adds the drains in progress to the machine of
`execute`: a thread that drains goes on with its own work after the drain, and the handler it drains may
call operations and drain others in turn.
-/

namespace Libhbk

variable {H : Type}

/-- An `addEvent` that has registered the handler and calls it; `busy` while the handler runs. -/
structure Drain (H : Type) where
  caller : Caller
  fd : Fd
  d : Dir
  handler : H
  busy : Bool
  deriving DecidableEq, Repr

/-- The machine of `execute` with the drains of all threads, the innermost of a thread first. -/
structure Threads (H : Type) where
  sys : Sys H
  drains : List (Drain H)

inductive ThreadAct (H : Type) where
  | sys (a : Act H)
  /-- The innermost drain of a thread calls its handler. -/
  | call (c : Caller)
  | ret (c : Caller) (r : Int)
  | throw (c : Caller)

/-- The drain that an operation starts: an add that succeeds. -/
def drainOf (c : Caller) (o : Op H) (r : OpResult Kernel H) : Option (Drain H) :=
  match o with
  | .add d fd (some h) _ _ => if r.ret = 0 then some ⟨c, fd, d, h, false⟩ else none
  | _ => none

/-- Change the innermost drain of a thread, or end it. -/
def onInnermost (c : Caller) (f : Drain H → Option (Drain H)) : List (Drain H) → List (Drain H)
  | [] => []
  | x :: xs => if x.caller = c then (f x).toList ++ xs else x :: onInnermost c f xs

/-- The dispatch runs the handler of this direction of this descriptor. -/
def Pc.runs (pc : Pc H) (fd : Fd) (d : Dir) : Bool :=
  match pc with
  | .running _ _ d' _ fd' _ => fd' = fd && d' = d
  | _ => false

/-- The actions of the thread in `execute`. -/
def Act.ofLoop : Act H → Bool
  | .call (.user _) _ => false
  | .edge .. => false
  | .close .. => false
  | _ => true

namespace Threads

def innermost (s : Threads H) (c : Caller) : Option (Drain H) := s.drains.find? fun f => f.caller = c

def start (stopFd : Fd) (events : List EpollEvent) : Threads H := ⟨.start stopFd events, []⟩

/-- The machine. A thread calls an operation from its own code or from a handler that it runs, and goes on in
`execute` when its drains are over. -/
def step : Machine (Threads H) (ThreadAct H) := fun s a =>
  match a with
  | .sys (.call c o) =>
    if c.admitted s.sys.pc && (s.innermost c).all Drain.busy then
      (s.sys.loop.apply o).map fun r => ⟨{ s.sys with loop := r.loop }, (drainOf c o r).toList ++ s.drains⟩
    else none
  | .sys a =>
    if a.ofLoop && (s.innermost .loop).isSome then none else (s.sys.exec a).map fun sys => { s with sys := sys }
  | .call c =>
    if (s.innermost c).any fun f => !f.busy then
      some { s with drains := onInnermost c (fun f => some { f with busy := true }) s.drains }
    else none
  | .ret c r =>
    if (s.innermost c).any Drain.busy then
      some { s with drains := onInnermost c (fun f => if 0 < r then some { f with busy := false } else none) s.drains }
    else none
  | .throw c =>
    if (s.innermost c).any Drain.busy then some { s with drains := onInnermost c (fun _ => none) s.drains } else none

/-- The drains of a handler that are not over. -/
def draining (s : Threads H) (fd : Fd) (d : Dir) : Nat := s.drains.countP fun f => f.fd = fd && f.d = d

/-- The invocations of a handler that are in progress. -/
def invocations (s : Threads H) (fd : Fd) (d : Dir) : Nat :=
  (s.drains.countP fun f => (f.fd = fd && f.d = d) && f.busy) + if s.sys.pc.runs fd d then 1 else 0

/-- An add finds the handler neither running nor draining, and the dispatch calls no handler that is draining. -/
def Exclusive (s : Threads H) : ThreadAct H → Prop
  | .sys (.call _ (.add d fd ..)) => s.draining fd d = 0 ∧ s.sys.pc.runs fd d = false
  | .sys a => ∀ fd d h, Sys.Invokes (s.sys, a) fd d h → s.draining fd d = 0
  | _ => True

/-! ### Exclusive runs -/

theorem countP_onInnermost_le (c : Caller) {f : Drain H → Option (Drain H)} {q : Drain H → Bool}
    (hf : ∀ x y, f x = some y → q y = true → q x = true) (xs : List (Drain H)) :
    (onInnermost c f xs).countP q ≤ xs.countP q := by
  induction xs with
  | nil => exact Nat.le_refl _
  | cons x xs ih =>
    rw [onInnermost]
    split
    · rw [List.countP_append, List.countP_cons, Nat.add_comm]
      refine Nat.add_le_add_left ?_ _
      rcases hx : f x with _ | y
      · exact Nat.zero_le _
      · by_cases hq : q y = true
        · simp [hq, hf x y hx hq]
        · simp [hq]
    · rw [List.countP_cons, List.countP_cons]
      exact Nat.add_le_add_right ih _

theorem runs_iff {pc : Pc H} {fd : Fd} {d : Dir} :
    pc.runs fd d = true ↔ ∃ n p left hd, pc = .running n p d left fd hd := by
  constructor
  · intro h
    unfold Pc.runs at h
    split at h
    · next n p d' left fd' hd =>
      simp only [Bool.and_eq_true, decide_eq_true_eq] at h
      obtain ⟨rfl, rfl⟩ := h
      exact ⟨n, p, left, hd, rfl⟩
    · simp at h
  · rintro ⟨n, p, left, hd, rfl⟩
    simp [Pc.runs]

theorem runs_step {s s' : Sys H} {a : Act H} (hs : s.Step a s') {fd : Fd} {d : Dir} (h : s'.pc.runs fd d = true) :
    s.pc.runs fd d = true ∨ ∃ hd, Sys.Invokes (s, a) fd d hd := by
  obtain ⟨n, p, left, hd, hrun⟩ := runs_iff.mp h
  rcases (hs.running hrun).2 with hold | ⟨rfl, htest, hinv, _⟩
  · exact Or.inl (runs_iff.mpr ⟨n, p, left, hd, hold⟩)
  · exact Or.inr ⟨hd, rfl, n, p, left, htest, hinv⟩

/-- A handler runs in the dispatch or is being drained once, not both. -/
def Single (s : Threads H) : Prop := ∀ fd d, s.draining fd d + (if s.sys.pc.runs fd d then 1 else 0) ≤ 1

theorem single_of_drains {s s' : Threads H} (h : Single s) (hsys : s'.sys = s.sys)
    (hle : ∀ fd d, s'.draining fd d ≤ s.draining fd d) : Single s' := by
  intro fd d
  rw [hsys]
  have := h fd d
  have := hle fd d
  omega

theorem step_sys {s s' : Threads H} {a : Act H} (hcall : ∀ c o, a ≠ .call c o) (hs : step s (.sys a) = some s') :
    ∃ sys, s.sys.exec a = some sys ∧ s' = { s with sys := sys } := by
  rcases a with _ | fds | eintr | _ | _ | _ | r | _ | ⟨c, o⟩ | ⟨fd, bits⟩ | fd
  case call => exact absurd rfl (hcall c o)
  all_goals
    simp only [step, Option.ite_none_left_eq_some, Option.map_eq_some_iff] at hs
    obtain ⟨_, sys, hexec, rfl⟩ := hs
    exact ⟨sys, hexec, rfl⟩

theorem exclusive_sys {s : Threads H} {a : Act H} (hcall : ∀ c o, a ≠ .call c o) (hx : s.Exclusive (.sys a))
    (fd : Fd) (d : Dir) (h : H) (hinv : Sys.Invokes (s.sys, a) fd d h) : s.draining fd d = 0 := by
  rcases a with _ | fds | eintr | _ | _ | _ | r | _ | ⟨c, o⟩ | ⟨fd', bits⟩ | fd'
  case call => exact absurd rfl (hcall c o)
  all_goals exact hx fd d h hinv

theorem step_drain {s s' : Threads H} {a : ThreadAct H} (hno : ∀ b, a ≠ .sys b) (hs : step s a = some s') :
    ∃ c f, (∀ x y : Drain H, f x = some y → y.fd = x.fd ∧ y.d = x.d) ∧
      s' = { s with drains := onInnermost c f s.drains } := by
  cases a with
  | sys b => exact absurd rfl (hno b)
  | call c =>
    simp only [step, Option.ite_none_right_eq_some, Option.some.injEq] at hs
    obtain ⟨_, rfl⟩ := hs
    refine ⟨c, _, fun x y hxy => ?_, rfl⟩
    obtain rfl := Option.some.inj hxy
    exact ⟨rfl, rfl⟩
  | ret c r =>
    simp only [step, Option.ite_none_right_eq_some, Option.some.injEq] at hs
    obtain ⟨_, rfl⟩ := hs
    refine ⟨c, _, fun x y hxy => ?_, rfl⟩
    simp only [Option.ite_none_right_eq_some, Option.some.injEq] at hxy
    obtain ⟨_, rfl⟩ := hxy
    exact ⟨rfl, rfl⟩
  | throw c =>
    simp only [step, Option.ite_none_right_eq_some, Option.some.injEq] at hs
    obtain ⟨_, rfl⟩ := hs
    exact ⟨c, _, fun x y hxy => by simp at hxy, rfl⟩

/-- An add of a handler that is neither running nor draining. -/
theorem single_add {s : Threads H} {c : Caller} {o : Op H} {r : OpResult Kernel H} (h : Single s)
    (hx : s.Exclusive (.sys (.call c o))) :
    Single ⟨{ s.sys with loop := r.loop }, (drainOf c o r).toList ++ s.drains⟩ := by
  intro fd d
  have hold := h fd d
  show ((drainOf c o r).toList ++ s.drains).countP _ + _ ≤ 1
  rw [List.countP_append]
  rcases hdrain : drainOf c o r with _ | f
  · simpa [draining] using hold
  · rcases o with ⟨d', fd', eh, p, grant⟩ | ⟨d', fd'⟩
    · rcases eh with _ | hd
      · simp [drainOf] at hdrain
      · simp only [drainOf, Option.ite_none_right_eq_some, Option.some.injEq] at hdrain
        obtain ⟨_, rfl⟩ := hdrain
        by_cases hsame : fd' = fd ∧ d' = d
        · obtain ⟨rfl, rfl⟩ := hsame
          have hzero : (s.drains.countP fun f => f.fd = fd' && f.d = d') = 0 := hx.1
          simp [hzero, hx.2]
        · have hno : (decide (fd' = fd) && decide (d' = d)) = false := by simpa using hsame
          simpa [draining, hno] using hold
    · simp [drainOf] at hdrain

theorem step_single {s s' : Threads H} {a : ThreadAct H} (h : Single s) (hx : s.Exclusive a)
    (hs : step s a = some s') : Single s' := by
  by_cases hsys : ∃ b, a = .sys b
  · obtain ⟨a, rfl⟩ := hsys
    by_cases hcall : ∃ c o, a = .call c o
    · obtain ⟨c, o, rfl⟩ := hcall
      simp only [step, Option.ite_none_right_eq_some, Option.map_eq_some_iff] at hs
      obtain ⟨_, r, _, rfl⟩ := hs
      exact single_add h hx
    · have hcall : ∀ c o, a ≠ .call c o := fun c o ha => hcall ⟨c, o, ha⟩
      obtain ⟨sys, hexec, rfl⟩ := step_sys hcall hs
      intro fd d
      have hold := h fd d
      show s.draining fd d + (if sys.pc.runs fd d then 1 else 0) ≤ 1
      by_cases hruns : sys.pc.runs fd d = true
      · rcases runs_step (Sys.exec_step hexec) hruns with hruns' | ⟨hd, hinv⟩
        · rw [if_pos hruns'] at hold
          rwa [if_pos hruns]
        · rw [exclusive_sys hcall hx fd d hd hinv, if_pos hruns]
      · rw [if_neg hruns]
        omega
  · obtain ⟨c, f, hf, rfl⟩ := step_drain (fun b hb => hsys ⟨b, hb⟩) hs
    refine single_of_drains h rfl fun fd d => countP_onInnermost_le c (fun x y hxy hy => ?_) s.drains
    rw [← (hf x y hxy).1, ← (hf x y hxy).2]
    exact hy

/-- In a run whose adds find their handler neither running nor draining, and whose dispatch calls no handler that
is draining, no handler ever has two invocations in progress. -/
theorem no_overlapping_invocations (stopFd : Fd) (events : List EpollEvent) (tr : List (Threads H × ThreadAct H))
    (s : Threads H) (hrun : step.Run (start stopFd events) tr s) (hx : ∀ x ∈ tr, x.1.Exclusive x.2) (fd : Fd)
    (d : Dir) : s.invocations fd d ≤ 1 := by
  have hsingle : Single s := by
    refine hrun.guarded (G := fun s a => s.Exclusive a) (fun fd d => ?_) (fun _ _ _ h hg hs => step_single h hg hs) hx
    simp [draining, start, Sys.start, Pc.runs]
  have hmono : (s.drains.countP fun f => (f.fd = fd && f.d = d) && f.busy) ≤ s.draining fd d :=
    List.countP_mono_left fun f _ hf => (Bool.and_eq_true _ _ ▸ hf).1
  have := hsingle fd d
  unfold invocations
  omega

/-- An add whose drain is over before the edge comes. -/
theorem no_overlapping_invocations_drained :
    ∃ (tr : List (Threads Nat × ThreadAct Nat)) (s : Threads Nat), step.Run (start 3 []) tr s ∧
      s.sys.pc = .running 0 0 .inp 0 5 10 ∧ s.invocations 5 .inp ≤ 1 := by
  have hrun := Machine.run_of_exec step (start 3 [] : Threads Nat)
    [.sys .execute, .sys (.call (.user 0) (.add .inp 5 (some 10) 0 true)), .call (.user 0), .ret (.user 0) 1,
      .call (.user 0), .ret (.user 0) 0, .sys (.edge 5 EPOLLIN), .sys (.wait [5]), .sys .assign, .sys .lock, .sys .step,
      .sys .step] rfl
  refine ⟨_, _, hrun, rfl, no_overlapping_invocations 3 [] _ _ hrun ?_ 5 .inp⟩
  repeat (first
    | exact List.forall_mem_nil _
    | refine List.forall_mem_cons.mpr ⟨trivial, ?_⟩
    | refine List.forall_mem_cons.mpr ⟨⟨rfl, rfl⟩, ?_⟩
    | refine List.forall_mem_cons.mpr ⟨fun _ _ _ _ => rfl, ?_⟩)

/-- The edge comes while a new registration is being drained: the dispatch calls the handler a second time. -/
theorem drain_overlaps_dispatch :
    ∃ (tr : List (Threads Nat × ThreadAct Nat)) (s : Threads Nat), step.Run (start 3 []) tr s ∧
      s.drains = [⟨.user 0, 5, .inp, 10, true⟩] ∧ s.sys.pc = .running 0 0 .inp 0 5 10 ∧ s.invocations 5 .inp = 2 :=
  ⟨_, _, Machine.run_of_exec _ _ [.sys .execute, .sys (.call (.user 0) (.add .inp 5 (some 10) 0 true)), .call (.user 0),
    .sys (.edge 5 EPOLLIN), .sys (.wait [5]), .sys .assign, .sys .lock, .sys .step, .sys .step] rfl, rfl, rfl, rfl⟩

/-! ### Calls by `execute` and by adds -/

/-- The step of the machine of `execute` in an entry of a trace. -/
def sysOf? (x : Threads H × ThreadAct H) : Option (Sys H × Act H) :=
  match x.2 with
  | .sys a => some (x.1.sys, a)
  | _ => none

/-- The trace of the machine of `execute`. -/
def sysTrace (tr : List (Threads H × ThreadAct H)) : List (Sys H × Act H) := tr.filterMap sysOf?

variable {s s' s₀ : Threads H} {tr : List (Threads H × ThreadAct H)}

theorem mem_sysTrace {y : Sys H × Act H} (h : y ∈ sysTrace tr) : ∃ x ∈ tr, x.1.sys = y.1 ∧ x.2 = .sys y.2 := by
  obtain ⟨⟨s, a⟩, hx, hy⟩ := List.mem_filterMap.mp h
  cases a with
  | sys a =>
    obtain rfl := Option.some.inj hy
    exact ⟨_, hx, rfl, rfl⟩
  | call c => simp [sysOf?] at hy
  | ret c r => simp [sysOf?] at hy
  | throw c => simp [sysOf?] at hy

theorem exec_of_step {a : Act H} (hs : step s (.sys a) = some s') : s.sys.exec a = some s'.sys := by
  by_cases hcall : ∃ c o, a = .call c o
  · obtain ⟨c, o, rfl⟩ := hcall
    simp only [step, Option.ite_none_right_eq_some, Bool.and_eq_true, Option.map_eq_some_iff] at hs
    obtain ⟨⟨hadmitted, _⟩, r, hr, rfl⟩ := hs
    rw [Sys.exec, if_pos hadmitted, hr]
    rfl
  · obtain ⟨sys, hexec, rfl⟩ := step_sys (fun c o ha => hcall ⟨c, o, ha⟩) hs
    exact hexec

theorem sys_of_step {a : ThreadAct H} (hs : step s a = some s') :
    (∃ b, a = .sys b) ∨ (sysOf? (s, a) = none ∧ s'.sys = s.sys) := by
  by_cases hsys : ∃ b, a = .sys b
  · exact Or.inl hsys
  · obtain ⟨c, f, _, rfl⟩ := step_drain (fun b hb => hsys ⟨b, hb⟩) hs
    refine Or.inr ⟨?_, rfl⟩
    cases a with
    | sys b => exact absurd ⟨b, rfl⟩ hsys
    | call c => rfl
    | ret c r => rfl
    | throw c => rfl

theorem run_sys (h : step.Run s₀ tr s) : Sys.exec.Run s₀.sys (sysTrace tr) s.sys := by
  induction h with
  | nil => exact .nil
  | @snoc tr s a s' _ hs ih =>
    rcases sys_of_step hs with ⟨b, rfl⟩ | ⟨hnone, hsame⟩
    · exact ih.snoc (exec_of_step hs)
    · rw [sysTrace, List.filterMap_cons_none hnone, hsame]
      exact ih

/-- The call of the handler for the event `d` of slot `i` that `execute` ends. -/
def executed? (i : Nat) (d : Dir) (x : Threads H × ThreadAct H) : Option (Option Int) :=
  ((sysOf? x).bind Sys.outcome?).bind fun c => if c.1 = i ∧ c.2.1 = d then some c.2.2 else none

variable [DecidableEq H]

/-- The innermost drain of the thread calls the handler that is registered for this direction of this descriptor. -/
def drainsHandler (s : Threads H) (c : Caller) (fd : Fd) (d : Dir) : Bool :=
  (s.innermost c).any fun f => f.fd = fd && f.d = d && s.sys.loop.handlerOf fd d = some f.handler

/-- The call of the registered handler that an add ends: the value returned, or `none` if the handler threw. -/
def drained? (fd : Fd) (d : Dir) (x : Threads H × ThreadAct H) : Option (Option Int) :=
  match x.2 with
  | .ret c r => if x.1.drainsHandler c fd d then some (some r) else none
  | .throw c => if x.1.drainsHandler c fd d then some none else none
  | _ => none

/-- The call of the handler of an event that ends, by `execute` or by an add. -/
def ended? (i : Nat) (fd : Fd) (d : Dir) (x : Threads H × ThreadAct H) : Option (Option Int) :=
  (drained? fd d x).or (executed? i d x)

/-- What the last call of the handler of an event came to. -/
def lastEnded (i : Nat) (fd : Fd) (d : Dir) (tr : List (Threads H × ThreadAct H)) : Option (Option Int) :=
  tr.findSome? (ended? i fd d)

/-- What the last call by an add came to, if it has ended behind the last call by `execute`. -/
def drainedSince (i : Nat) (fd : Fd) (d : Dir) (tr : List (Threads H × ThreadAct H)) : Option (Option Int) :=
  (tr.takeWhile fun x => (executed? i d x).isNone).findSome? (drained? fd d)

theorem sys_of_executed {i : Nat} {fd : Fd} {d : Dir} {x : Threads H × ThreadAct H} (h : executed? i d x ≠ none) :
    drained? fd d x = none := by
  obtain ⟨s, a⟩ := x
  cases a with
  | sys a => rfl
  | call c => rfl
  | ret c r => exact absurd rfl h
  | throw c => exact absurd rfl h

theorem lastEnded_eq (i : Nat) (fd : Fd) (d : Dir) (tr : List (Threads H × ThreadAct H)) :
    lastEnded i fd d tr = (drainedSince i fd d tr).or (Sys.lastOutcome i d (sysTrace tr)) := by
  induction tr with
  | nil => rfl
  | cons x tr ih =>
    have hlast : Sys.lastOutcome i d (sysTrace (x :: tr)) =
        (executed? i d x).or (Sys.lastOutcome i d (sysTrace tr)) := by
      rw [sysTrace, List.filterMap_cons]
      cases hx : sysOf? x with
      | none => simp [executed?, hx, sysTrace]
      | some y =>
        simp only [executed?, hx, Option.bind_some, Sys.lastOutcome, List.findSome?_cons]
        cases (Sys.outcome? y).bind fun c => if c.1 = i ∧ c.2.1 = d then some c.2.2 else none <;> rfl
    rw [lastEnded, List.findSome?_cons, ended?, hlast, drainedSince, List.takeWhile_cons]
    cases hexecuted : executed? i d x with
    | some o =>
      rw [sys_of_executed (by rw [hexecuted]; simp)]
      rfl
    | none =>
      rw [Option.or_none, Option.isNone_none, if_pos rfl, List.findSome?_cons, Option.none_or]
      cases drained? fd d x with
      | some o => rfl
      | none => exact ih

end Threads

end Libhbk
