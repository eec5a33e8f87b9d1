import Libhbk.Sys.EventLoop.Sharing

/-!
# The Linux TCP server

`TcpServer` listens on a port or on a unix domain socket. Both `start` functions store the descriptor first and return
early where a later call fails; `stop` closes the descriptor and keeps its number and the path. The port and the backlog
do not matter here, and what a client gets is the subject of the accept queue.
-/

namespace Libhbk

/-- What the system answers to one `start`, and what the registration of `process` needs. -/
structure Listening where
  socket : Bool
  setsockopt : Int
  bind : Int
  listen : Int
  node : Addr
  grant : Bool

structure TcpServer (C H : Type) where
  listeningEvent : Fd
  unixDomainSocketPath : String
  acceptCb : Option C
  eventLoop : EventLoop Files H

namespace TcpServer

variable {C H : Type}

/-- The constructor. -/
def new (eventLoop : EventLoop Files H) : TcpServer C H := ⟨-1, "", none, eventLoop⟩

/-- `start` from its `socket` call on, which creates the socket `σ`; `path` is stored when the socket is bound. `none` if
the memory given for a new entry of the event loop is in use. -/
def listenOn (process : H) (s : TcpServer C H) (σ : Nat) (k : Listening) (path : Option String) (acceptCb : Option C) :
    Option (Int × TcpServer C H) :=
  if k.socket = false then some (-1, { s with listeningEvent := -1 })
  else
    let s := { s with
      listeningEvent := FdTable.lowestFree s.eventLoop.kernel.table
      eventLoop := { s.eventLoop with kernel := s.eventLoop.kernel.openFile (.socket σ) } }
    if k.setsockopt < 0 then some (-1, s)
    else if k.bind = -1 then some (-1, s)
    else
      let s := { s with unixDomainSocketPath := path.getD s.unixDomainSocketPath }
      if k.listen = -1 then some (-1, s)
      else if ha : s.eventLoop.eventInfos.live k.node = false then
        some (0, { s with
          acceptCb := acceptCb
          eventLoop := (s.eventLoop.addEvent (Files.ctl k.grant) ⟨k.node, ha⟩ s.listeningEvent (some process)).loop })
      else none

/-- `start(port, backlog, acceptCb)`. -/
def start (process : H) (s : TcpServer C H) (σ : Nat) (k : Listening) (acceptCb : Option C) :
    Option (Int × TcpServer C H) :=
  if acceptCb.isNone then some (-1, s) else s.listenOn process σ k none acceptCb

/-- `start(path, useAbstractNamespace, backlog, acceptCb)`. -/
def startPath (process : H) (s : TcpServer C H) (σ : Nat) (k : Listening) (path : String) (useAbstractNamespace : Bool)
    (acceptCb : Option C) : Option (Int × TcpServer C H) :=
  s.listenOn process σ k (if useAbstractNamespace then none else some path) acceptCb

/-- `stop`, with the path that it unlinks. -/
def stop (s : TcpServer C H) : Option String × TcpServer C H :=
  (if s.unixDomainSocketPath = "" then none else some s.unixDomainSocketPath,
    { s with eventLoop := s.eventLoop.shut s.listeningEvent, acceptCb := none })

inductive Act (C H : Type) where
  | start (σ : Nat) (k : Listening) (acceptCb : Option C)
  | startPath (σ : Nat) (k : Listening) (path : String) (useAbstractNamespace : Bool) (acceptCb : Option C)
  /-- Also by the destructor. -/
  | stop
  | other (o : Other H)

/-- A server among other users of the event loop. -/
def step [DecidableEq H] (process : H) : Machine (TcpServer C H) (Act C H) := fun s a =>
  match a with
  | .start σ k acceptCb => (s.start process σ k acceptCb).map Prod.snd
  | .startPath σ k path useAbstractNamespace acceptCb =>
    (s.startPath process σ k path useAbstractNamespace acceptCb).map Prod.snd
  | .stop => some s.stop.2
  | .other o => (o.step (fun h => h = process) s.eventLoop).map fun l => { s with eventLoop := l }

variable {process : H} {s s' : TcpServer C H} {σ : Nat} {k : Listening} {path : Option String} {acceptCb : Option C}
  {ret : Int}

/-! ### What the functions do -/

/-- `listenOn` has no socket, or has opened one and has registered `process` for it or nothing. -/
theorem listenOn_cases (h : s.listenOn process σ k path acceptCb = some (ret, s')) :
    (s'.listeningEvent = -1 ∧ s'.eventLoop = s.eventLoop) ∨
    (s'.listeningEvent = FdTable.lowestFree s.eventLoop.kernel.table ∧
      let l := { s.eventLoop with kernel := s.eventLoop.kernel.openFile (.socket σ) }
      (s'.eventLoop = l ∨ ∃ fresh : l.Free,
        s'.eventLoop = (l.addEvent (Files.ctl k.grant) fresh s'.listeningEvent (some process)).loop)) := by
  unfold listenOn at h
  split_ifs at h
  · obtain ⟨_, rfl⟩ := Prod.mk.inj (Option.some.inj h)
    exact Or.inl ⟨rfl, rfl⟩
  · obtain ⟨_, rfl⟩ := Prod.mk.inj (Option.some.inj h)
    exact Or.inr ⟨rfl, Or.inl rfl⟩
  · obtain ⟨_, rfl⟩ := Prod.mk.inj (Option.some.inj h)
    exact Or.inr ⟨rfl, Or.inl rfl⟩
  · obtain ⟨_, rfl⟩ := Prod.mk.inj (Option.some.inj h)
    exact Or.inr ⟨rfl, Or.inl rfl⟩
  · simp only [Option.dite_none_right_eq_some, Option.some.injEq, Prod.mk.injEq] at h
    obtain ⟨ha, _, rfl⟩ := h
    exact Or.inr ⟨rfl, Or.inr ⟨⟨k.node, ha⟩, rfl⟩⟩

theorem listenOn_path (h : s.listenOn process σ k path acceptCb = some (ret, s')) :
    s'.unixDomainSocketPath = if k.socket = true ∧ 0 ≤ k.setsockopt ∧ k.bind ≠ -1 then path.getD s.unixDomainSocketPath
      else s.unixDomainSocketPath := by
  unfold listenOn at h
  split_ifs at h with hsocket hopt hbind
  · obtain ⟨_, rfl⟩ := Prod.mk.inj (Option.some.inj h)
    exact (if_neg (by simp [hsocket])).symm
  · obtain ⟨_, rfl⟩ := Prod.mk.inj (Option.some.inj h)
    exact (if_neg fun hb => by omega).symm
  · obtain ⟨_, rfl⟩ := Prod.mk.inj (Option.some.inj h)
    exact (if_neg fun hb => hb.2.2 hbind).symm
  · obtain ⟨_, rfl⟩ := Prod.mk.inj (Option.some.inj h)
    exact (if_pos ⟨by simpa using hsocket, by omega, hbind⟩).symm
  · simp only [Option.dite_none_right_eq_some, Option.some.injEq, Prod.mk.injEq] at h
    obtain ⟨_, _, rfl⟩ := h
    exact (if_pos ⟨by simpa using hsocket, by omega, hbind⟩).symm

theorem start_cases (h : s.start process σ k acceptCb = some (ret, s')) :
    s' = s ∨ acceptCb ≠ none ∧ s.listenOn process σ k none acceptCb = some (ret, s') := by
  unfold start at h
  split at h
  · obtain ⟨_, rfl⟩ := Prod.mk.inj (Option.some.inj h)
    exact Or.inl rfl
  · next hcb => exact Or.inr ⟨fun hnone => hcb (by rw [hnone]; rfl), h⟩

/-! ### The descriptor -/

variable [DecidableEq H]

/-- The server has its descriptor in `m_listeningEvent` and `process` registered for it. -/
def Inv (process : H) (s : TcpServer C H) : Prop :=
  Holding (fun h => h = process) s.eventLoop (fun fd => fd = s.listeningEvent)
    fun fd d => fd = s.listeningEvent ∧ d = .inp

/-- A `start` that gets as far as its `socket` call finds the stored number not open for the server. -/
def Unused (s : TcpServer C H) : Act C H → Prop
  | .start _ _ acceptCb => acceptCb ≠ none → ∀ σ, s.eventLoop.kernel.file s.listeningEvent ≠ some (.socket σ)
  | .startPath .. => ∀ σ, s.eventLoop.kernel.file s.listeningEvent ≠ some (.socket σ)
  | _ => True

theorem listenOn_inv (h : Released (fun h => h = process) s.eventLoop)
    (hs : s.listenOn process σ k path acceptCb = some (ret, s')) : Inv process s' := by
  rcases listenOn_cases hs with ⟨_, hloop⟩ | ⟨hevent, hloop⟩
  · rw [Inv, hloop]
    exact h.holding
  · have hopen : Holding (fun h => h = process)
        { s.eventLoop with kernel := s.eventLoop.kernel.openFile (.socket σ) } (fun fd => fd = s'.listeningEvent)
        fun fd d => fd = s'.listeningEvent ∧ d = .inp := by
      rw [hevent]
      exact .openFirst h σ
    rcases hloop with hloop | ⟨fresh, hloop⟩
    · rw [Inv, hloop]
      exact hopen
    · have hfile : (s.eventLoop.kernel.openFile (.socket σ)).file s'.listeningEvent = some (.socket σ) :=
        (Files.file_openFile _ _ _).trans (if_pos hevent)
      rw [Inv, hloop]
      exact hopen.addHandler hfile ⟨rfl, rfl⟩

theorem Inv.released (h : Inv process s) (hno : ∀ σ, s.eventLoop.kernel.file s.listeningEvent ≠ some (.socket σ)) :
    Released (fun h => h = process) s.eventLoop := by
  refine Holding.released h ?_
  rintro fd rfl
  exact hno

theorem Inv.stop_released (h : Inv process s) : Released (fun h => h = process) s.stop.2.eventLoop := by
  refine Holding.drop h (fun fd σ hfile => ?_) fun fd d cb hcb => ?_
  · change (s.eventLoop.shut s.listeningEvent).kernel.file fd = _ at hfile
    rw [EventLoop.shut_file] at hfile
    split at hfile
    · simp at hfile
    · next hfd => exact ⟨hfile, hfd⟩
  · change (s.eventLoop.shut s.listeningEvent).handlerOf fd d = _ at hcb
    rw [EventLoop.shut_handlerOf] at hcb
    split at hcb
    · simp at hcb
    · next hfd => exact ⟨hcb, hfd⟩

theorem Inv.step (h : Inv process s) {a : Act C H} (hu : s.Unused a) (hs : TcpServer.step process s a = some s') :
    Inv process s' := by
  cases a with
  | start σ k acceptCb =>
    obtain ⟨⟨ret, s₁⟩, hstart, rfl⟩ := Option.map_eq_some_iff.mp hs
    rcases start_cases hstart with rfl | ⟨hcb, hlisten⟩
    · exact h
    · exact listenOn_inv (h.released (hu hcb)) hlisten
  | startPath σ k path useAbstractNamespace acceptCb =>
    obtain ⟨⟨ret, s₁⟩, hstart, rfl⟩ := Option.map_eq_some_iff.mp hs
    exact listenOn_inv (h.released hu) hstart
  | stop =>
    obtain rfl := Option.some.inj hs
    exact (h.stop_released).holding
  | other o =>
    obtain ⟨l, ho, rfl⟩ := Option.map_eq_some_iff.mp hs
    exact Holding.other h ho

end TcpServer

end Libhbk
