import Libhbk.Communication.SocketNonblocking
import Libhbk.Communication.TcpServer

/-!
# Stopping more than once

`TcpServer::stop` and `Netlink::stop` erase the event of the stored number and close it, and keep the number; the next
`stop`, at the latest the destructor's, does so again. Meanwhile the number may belong to someone else, and the path of a
unix domain socket has been unlinked.
-/

namespace Libhbk

/-- The number is neither open for someone else nor has the input handler of someone else. -/
def Unclaimed {H : Type} (own : H → Bool) (l : EventLoop Files H) (fd : Fd) : Prop :=
  (∀ n, l.kernel.file fd ≠ some (.other n)) ∧ ∀ h, l.handlerOf fd .inp = some h → own h = true

/-! ### The TCP server -/

namespace TcpServer

variable {C H : Type}

/-- The path that a call binds. -/
def bound : Act C H → Option String
  | .startPath _ k path useAbstractNamespace _ =>
    if k.socket = true ∧ 0 ≤ k.setsockopt ∧ k.bind ≠ -1 then (if useAbstractNamespace then none else some path) else none
  | _ => none

/-- A `stop` has unlinked the path, and no `start` has bound it since. -/
def Unlinked (path : String) : List (TcpServer C H × Act C H) → Prop
  | [] => False
  | (s, .stop) :: tr => s.stop.1 = some path ∨ Unlinked path tr
  | (_, a) :: tr => bound a ≠ some path ∧ Unlinked path tr

/-- A `start` has bound a path since the last `stop`. -/
def BoundAgain : List (TcpServer C H × Act C H) → Prop
  | [] => False
  | (_, .stop) :: _ => False
  | (_, a) :: tr => bound a ≠ none ∨ BoundAgain tr

variable {s s' : TcpServer C H} {a : Act C H} {tr : List (TcpServer C H × Act C H)}

theorem stopped_of_unlinked {path : String} (h : Unlinked path tr) : ∃ x ∈ tr, x.2 = .stop := by
  induction tr with
  | nil => exact absurd h id
  | cons x tr ih =>
    obtain ⟨s, a⟩ := x
    cases a with
    | stop => exact ⟨_, List.mem_cons_self, rfl⟩
    | _ =>
      obtain ⟨x, hx, hstop⟩ := ih h.2
      exact ⟨x, List.mem_cons_of_mem _ hx, hstop⟩

variable [DecidableEq H] {process : H}

theorem step_path (hs : step process s a = some s') :
    s'.unixDomainSocketPath = (bound a).getD s.unixDomainSocketPath := by
  cases a with
  | start σ k acceptCb =>
    obtain ⟨⟨ret, s₁⟩, hstart, rfl⟩ := Option.map_eq_some_iff.mp hs
    rcases start_cases hstart with rfl | ⟨_, hlisten⟩
    · rfl
    · rw [listenOn_path hlisten]
      exact ite_self _
  | startPath σ k path useAbstractNamespace acceptCb =>
    obtain ⟨⟨ret, s₁⟩, hstart, rfl⟩ := Option.map_eq_some_iff.mp hs
    rw [listenOn_path hstart, bound]
    split <;> rfl
  | stop =>
    obtain rfl := Option.some.inj hs
    rfl
  | other o =>
    obtain ⟨l, _, rfl⟩ := Option.map_eq_some_iff.mp hs
    rfl

theorem unlinked_iff {l : EventLoop Files H} (hrun : (step process).Run (.new l) tr s)
    (hpath : s.unixDomainSocketPath ≠ "") : Unlinked s.unixDomainSocketPath tr ↔ ¬ BoundAgain tr := by
  refine hrun.trace_induction (P := fun tr s => s.unixDomainSocketPath ≠ "" →
    (Unlinked s.unixDomainSocketPath tr ↔ ¬ BoundAgain tr)) (fun hpath => absurd rfl hpath)
    (fun tr s a s' _ ih hs hpath => ?_) hpath
  have hstep := step_path hs
  rw [hstep] at hpath ⊢
  cases a with
  | stop =>
    refine iff_of_true (Or.inl ?_) id
    exact if_neg hpath
  | start σ k acceptCb => simpa [Unlinked, BoundAgain, bound] using ih hpath
  | other o => simpa [Unlinked, BoundAgain, bound] using ih hpath
  | startPath σ k path useAbstractNamespace acceptCb =>
    rcases hbound : bound (.startPath σ k path useAbstractNamespace acceptCb : Act C H) with _ | p
    · rw [hbound] at hpath
      simpa [Unlinked, BoundAgain, hbound] using ih hpath
    · simp [Unlinked, BoundAgain, hbound]

theorem listenOn_owning {σ : Nat} {k : Listening} {path : Option String} {acceptCb : Option C} {ret : Int}
    (h : Owning (fun h => h = process) s.eventLoop s.listeningEvent)
    (hs : s.listenOn process σ k path acceptCb = some (ret, s')) :
    Owning (fun h => h = process) s'.eventLoop s'.listeningEvent := by
  rcases listenOn_cases hs with ⟨hevent, hloop⟩ | ⟨hevent, hloop⟩
  · rw [hevent, hloop]
    exact h.reset
  · have hopen := h.openFile σ
    rw [← hevent] at hopen
    rcases hloop with hloop | ⟨fresh, hloop⟩
    · rw [hloop]
      exact hopen
    · rw [hloop]
      exact hopen.addHandler ((Files.file_openFile _ _ _).trans (if_pos hevent)) (decide_eq_true rfl)

theorem step_owning (h : Owning (fun h => h = process) s.eventLoop s.listeningEvent) (ha : a ≠ .stop)
    (hs : step process s a = some s') : Owning (fun h => h = process) s'.eventLoop s'.listeningEvent := by
  cases a with
  | start σ k acceptCb =>
    obtain ⟨⟨ret, s₁⟩, hstart, rfl⟩ := Option.map_eq_some_iff.mp hs
    rcases start_cases hstart with rfl | ⟨_, hlisten⟩
    · exact h
    · exact listenOn_owning h hlisten
  | startPath σ k path useAbstractNamespace acceptCb =>
    obtain ⟨⟨ret, s₁⟩, hstart, rfl⟩ := Option.map_eq_some_iff.mp hs
    exact listenOn_owning h hstart
  | stop => exact absurd rfl ha
  | other o =>
    obtain ⟨l, ho, rfl⟩ := Option.map_eq_some_iff.mp hs
    exact h.other ho

end TcpServer

/-! ### The netlink object -/

/-- What the system answers to the constructor. -/
structure Binding where
  socket : Bool
  setsockopt : Int
  bind : Int

structure Netlink (C H : Type) where
  event : Fd
  eventLoop : EventLoop Files H
  interfaceAddressEventHandler : Option C

namespace Netlink

variable {C H : Type}

/-- The constructor; `none` where it throws. -/
def new (eventLoop : EventLoop Files H) (σ : Nat) (k : Binding) : Option (Netlink C H) :=
  if k.socket = false then none
  else if k.setsockopt < 0 then none
  else if k.bind < 0 then none
  else some ⟨FdTable.lowestFree eventLoop.kernel.table,
    { eventLoop with kernel := eventLoop.kernel.openFile (.socket σ) }, none⟩

/-- `start(interfaceAddressEventHandler)`; `none` if the memory given for a new entry of the event loop is in use. -/
def start (process : H) (s : Netlink C H) (interfaceAddressEventHandler : Option C) (a : Addr) (grant : Bool) :
    Option (Int × Netlink C H) :=
  if ha : s.eventLoop.eventInfos.live a = false then
    some (0, { s with
      interfaceAddressEventHandler := interfaceAddressEventHandler
      eventLoop := (s.eventLoop.addEvent (Files.ctl grant) ⟨a, ha⟩ s.event (some process)).loop })
  else none

/-- `stop` with the result of `::close`. -/
def stop (s : Netlink C H) : Int × Netlink C H :=
  (if (s.eventLoop.kernel.file s.event).isSome then 0 else -1, { s with eventLoop := s.eventLoop.shut s.event })

inductive Call (C H : Type) where
  | start (interfaceAddressEventHandler : Option C) (a : Addr) (grant : Bool)
  /-- Also by the destructor. -/
  | stop
  | other (o : Other H)

variable [DecidableEq H]

/-- The object among other users of the event loop. -/
def step (process : H) : Machine (Netlink C H) (Call C H) := fun s a =>
  match a with
  | .start interfaceAddressEventHandler a grant =>
    (s.start process interfaceAddressEventHandler a grant).map Prod.snd
  | .stop => some s.stop.2
  | .other o => (o.step (fun h => h = process) s.eventLoop).map fun l => { s with eventLoop := l }

variable {process : H} {s s' : Netlink C H} {a : Call C H}

theorem new_owning {l : EventLoop Files H} (h : Owning (fun h => h = process) l (-1)) {σ : Nat} {k : Binding}
    (hs : new l σ k = some s) :
    Owning (fun h => h = process) s.eventLoop s.event ∧ s.eventLoop.kernel.file s.event = some (.socket σ) := by
  unfold new at hs
  split_ifs at hs
  obtain rfl := Option.some.inj hs
  exact ⟨h.openFile σ, (Files.file_openFile _ _ _).trans (if_pos rfl)⟩

theorem step_owning {σ : Nat} (h : Owning (fun h => h = process) s.eventLoop s.event)
    (hfile : s.eventLoop.kernel.file s.event = some (.socket σ)) (ha : a ≠ .stop) (hs : step process s a = some s') :
    Owning (fun h => h = process) s'.eventLoop s'.event ∧ s'.eventLoop.kernel.file s'.event = some (.socket σ) := by
  cases a with
  | start interfaceAddressEventHandler a grant =>
    obtain ⟨⟨ret, s₁⟩, hstart, rfl⟩ := Option.map_eq_some_iff.mp hs
    simp only [start, Option.dite_none_right_eq_some, Option.some.injEq, Prod.mk.injEq] at hstart
    obtain ⟨_, _, rfl⟩ := hstart
    exact ⟨h.addHandler hfile (decide_eq_true rfl), (EventLoop.addHandler_file _ _ _ _ _ _ _).trans hfile⟩
  | stop => exact absurd rfl ha
  | other o =>
    obtain ⟨l, ho, rfl⟩ := Option.map_eq_some_iff.mp hs
    exact ⟨h.other ho, (Other.file_socket ho _ σ).mpr hfile⟩

end Netlink

/-! ### Runs -/

variable {C H : Type} [DecidableEq H]

/-- **Stopping again.** A `stop` leaves descriptors, handlers and registrations of the others alone, and unlinks no path a
second time, exactly if it is the first one, or the kept number is unclaimed and no path is kept that was not bound again
since the last `stop`. -/
theorem stop_harmless_iff (process : H) (l : EventLoop Files H) (hattached : l.Attached)
    (hfresh : ∀ fd σ, l.kernel.file fd ≠ some (.socket σ)) :
    (∀ tr (s : TcpServer C H), (TcpServer.step process).Run (.new l) tr s →
      ((Kept (fun h => h = process) s.eventLoop s.stop.2.eventLoop ∧
          ∀ path, s.stop.1 = some path → ¬ TcpServer.Unlinked path tr) ↔
        ((∃ x ∈ tr, x.2 = .stop) → Unclaimed (fun h => h = process) s.eventLoop s.listeningEvent ∧
          (s.unixDomainSocketPath = "" ∨ TcpServer.BoundAgain tr)))) ∧
    (∀ σ k (s₀ : Netlink C H), Netlink.new l σ k = some s₀ → ∀ tr s, (Netlink.step process).Run s₀ tr s →
      (Kept (fun h => h = process) s.eventLoop s.stop.2.eventLoop ↔
        ((∃ x ∈ tr, x.2 = .stop) → Unclaimed (fun h => h = process) s.eventLoop s.event))) := by
  have howning : Owning (fun h => h = process) l (-1) :=
    ⟨hattached, fun fd σ d h hfile => absurd hfile (hfresh fd σ), Or.inl rfl⟩
  refine ⟨fun tr s hrun => ?_, fun σ k s₀ hnew tr s hrun => ?_⟩
  · by_cases hstopped : ∃ x ∈ tr, x.2 = .stop
    · rw [imp_iff_right hstopped]
      refine and_congr shut_kept_iff ?_
      by_cases hpath : s.unixDomainSocketPath = ""
      · simp [TcpServer.stop, hpath]
      · simp [TcpServer.stop, hpath, TcpServer.unlinked_iff hrun hpath]
    · refine iff_of_true ⟨?_, fun path _ hunlinked => hstopped (TcpServer.stopped_of_unlinked hunlinked)⟩
        fun h => absurd h hstopped
      refine Owning.shut_kept (hrun.guarded (G := fun _ a => a ≠ .stop) (P := fun s =>
        Owning (fun h => h = process) s.eventLoop s.listeningEvent) howning
        (fun _ _ _ h ha hs => TcpServer.step_owning h ha hs) ?_)
      exact fun x hx hstop => hstopped ⟨x, hx, hstop⟩
  · by_cases hstopped : ∃ x ∈ tr, x.2 = .stop
    · rw [imp_iff_right hstopped]
      exact shut_kept_iff
    · refine iff_of_true ?_ fun h => absurd h hstopped
      refine Owning.shut_kept (hrun.guarded (G := fun _ a => a ≠ .stop) (P := fun s =>
        Owning (fun h => h = process) s.eventLoop s.event ∧ s.eventLoop.kernel.file s.event = some (.socket σ))
        (Netlink.new_owning howning hnew) (fun _ _ _ h ha hs => Netlink.step_owning h.1 h.2 ha hs) ?_).1
      exact fun x hx hstop => hstopped ⟨x, hx, hstop⟩

/-- A server that was stopped and started again is stopped, with a file of another object at its first number. -/
theorem stop_harmless_restarted :
    ∃ (tr : List (TcpServer Nat Nat × TcpServer.Act Nat Nat)) (s : TcpServer Nat Nat),
      (TcpServer.step 10).Run (.new Session.idleLoop) tr s ∧ (∃ x ∈ tr, x.2 = .stop) ∧
      s.eventLoop.kernel.file 1 = some (.other 7) ∧ Kept (fun h => h = 10) s.eventLoop s.stop.2.eventLoop := by
  have hrun := Machine.run_of_exec (TcpServer.step 10) (.new Session.idleLoop : TcpServer Nat Nat)
    [.start 0 ⟨true, 0, 0, 0, 0, true⟩ (some 0), .stop, .other (.opens 7),
      .start 1 ⟨true, 0, 0, 0, 0, true⟩ (some 0)] rfl
  have hiff := (stop_harmless_iff (C := Nat) 10 Session.idleLoop (fun _ _ _ => rfl) ?_).1 _ _ hrun
  · refine ⟨_, _, hrun, ⟨_, List.mem_cons_of_mem _ (List.mem_cons_of_mem _ List.mem_cons_self), rfl⟩, rfl,
      (hiff.mpr fun _ => ⟨⟨fun n hfile => ?_, fun h hh => ?_⟩, Or.inl rfl⟩).1⟩
    · exact absurd (Option.some.inj hfile) (by simp)
    · exact decide_eq_true (Option.some.inj hh).symm
  · intro fd σ hfile
    simpa [Session.idleLoop] using (FdTable.mem_iff _ _).mpr ⟨fd, hfile⟩

/-- A server is stopped twice; in between another object has got its number and has registered a handler. The second
`stop` closes that descriptor and erases the handler. -/
theorem stop_again_closes_other :
    ∃ (tr : List (TcpServer Nat Nat × TcpServer.Act Nat Nat)) (s : TcpServer Nat Nat),
      (TcpServer.step 10).Run (.new Session.idleLoop) tr s ∧ (∃ x ∈ tr, x.2 = .stop) ∧
      s.eventLoop.kernel.file 1 = some (.other 7) ∧ s.stop.2.eventLoop.kernel.file 1 = none ∧
      s.eventLoop.handlerOf 1 .inp = some 20 ∧ s.stop.2.eventLoop.handlerOf 1 .inp = none ∧
      ¬ Kept (fun h => h = 10) s.eventLoop s.stop.2.eventLoop := by
  refine ⟨_, _, Machine.run_of_exec (TcpServer.step 10) (.new Session.idleLoop : TcpServer Nat Nat)
    [.start 0 ⟨true, 0, 0, 0, 0, true⟩ (some 0), .stop, .other (.opens 7), .other (.adds 1 .inp 20 0 true)] rfl,
    ⟨_, List.mem_cons_of_mem _ (List.mem_cons_of_mem _ List.mem_cons_self), rfl⟩, rfl, rfl, rfl, rfl, fun hkept => ?_⟩
  have hclosed : none = some (File.other 7) := hkept.files 1 7 rfl
  simp at hclosed

end Libhbk
