import Libhbk.Sys.EventLoop.Sharing

/-!
# The Linux multicast server

`MulticastServer` has a socket to send and one to receive. `start` opens both, one after the other, with early returns in
between; `stop` closes both and resets the members. Group, port and interfaces do not matter here.
-/

namespace Libhbk

/-- What the system answers to one `start`, and what the registration of `process` needs. -/
structure Joining where
  sendSocket : Bool
  getaddrinfo : Int
  receiveSocket : Bool
  soRcvbuf : Int
  soReuseaddr : Int
  ipPktinfo : Int
  bind : Int
  node : Addr
  grant : Bool

structure MulticastServer (C H : Type) where
  receiveEvent : Fd
  sendEvent : Fd
  eventLoop : EventLoop Files H
  dataHandler : Option C

namespace MulticastServer

variable {C H : Type}

/-- The constructor. -/
def new (eventLoop : EventLoop Files H) : MulticastServer C H := ⟨-1, -1, eventLoop, none⟩

/-- The result of `setMulticastLoop` is ignored. -/
def setupSendSocket (s : MulticastServer C H) (σ : Nat) (k : Joining) : Int × MulticastServer C H :=
  if k.sendSocket = false then (-1, { s with sendEvent := -1 })
  else (0, { s with
    sendEvent := FdTable.lowestFree s.eventLoop.kernel.table
    eventLoop := { s.eventLoop with kernel := s.eventLoop.kernel.openFile (.socket σ) } })

def setupReceiveSocket (s : MulticastServer C H) (σ : Nat) (k : Joining) : Int × MulticastServer C H :=
  if k.getaddrinfo ≠ 0 then (-1, s)
  else if k.receiveSocket = false then (-1, { s with receiveEvent := -1 })
  else
    let s := { s with
      receiveEvent := FdTable.lowestFree s.eventLoop.kernel.table
      eventLoop := { s.eventLoop with kernel := s.eventLoop.kernel.openFile (.socket σ) } }
    if k.soRcvbuf < 0 then (-1, s)
    else if k.soReuseaddr < 0 then (-1, s)
    else if k.ipPktinfo ≠ 0 then (-1, s)
    else if k.bind < 0 then (-1, s)
    else (0, s)

/-- `start(multicastGroup, port, dataHandler)`, with the sockets `σ` and `τ`; `none` if the memory given for a new entry
of the event loop is in use. -/
def start (process : H) (s : MulticastServer C H) (σ τ : Nat) (k : Joining) (dataHandler : Option C) :
    Option (Int × MulticastServer C H) :=
  let (err, s) := s.setupSendSocket σ k
  if err < 0 then some (err, s)
  else
    let (err, s) := s.setupReceiveSocket τ k
    if err < 0 then some (err, s)
    else
      let s := { s with dataHandler := dataHandler }
      if dataHandler.isNone then some (0, s)
      else if ha : s.eventLoop.eventInfos.live k.node = false then
        some (0, { s with
          eventLoop := (s.eventLoop.addEvent (Files.ctl k.grant) ⟨k.node, ha⟩ s.receiveEvent (some process)).loop })
      else none

def stop (s : MulticastServer C H) : MulticastServer C H :=
  let l := (s.eventLoop.eraseEvent (Files.ctl true) s.receiveEvent).loop
  let l := if s.sendEvent ≠ -1 then { l with kernel := l.kernel.close s.sendEvent } else l
  let l := if s.receiveEvent ≠ -1 then { l with kernel := l.kernel.close s.receiveEvent } else l
  { s with eventLoop := l, sendEvent := -1, receiveEvent := -1 }

inductive Act (C H : Type) where
  | start (σ τ : Nat) (k : Joining) (dataHandler : Option C)
  /-- Also by the destructor. -/
  | stop
  | other (o : Other H)

/-- A server among other users of the event loop. -/
def step [DecidableEq H] (process : H) : Machine (MulticastServer C H) (Act C H) := fun s a =>
  match a with
  | .start σ τ k dataHandler => (s.start process σ τ k dataHandler).map Prod.snd
  | .stop => some s.stop
  | .other o => (o.step (fun h => h = process) s.eventLoop).map fun l => { s with eventLoop := l }

variable {process : H} {s s' : MulticastServer C H} {σ τ : Nat} {k : Joining} {dataHandler : Option C} {ret : Int}

/-! ### What the functions do -/

theorem stop_file (s : MulticastServer C H) {fd : Fd} {f : File} (h : s.stop.eventLoop.kernel.file fd = some f) :
    s.eventLoop.kernel.file fd = some f ∧ fd ≠ s.sendEvent ∧ fd ≠ s.receiveEvent := by
  have hclose : ∀ (l : EventLoop Files H) (e : Fd),
      (if e ≠ -1 then { l with kernel := l.kernel.close e } else l).kernel.file fd = some f →
        l.kernel.file fd = some f ∧ fd ≠ e := by
    intro l e hfile
    split at hfile
    · change (l.kernel.close e).file fd = some f at hfile
      rw [Files.file_close] at hfile
      split at hfile
      · simp at hfile
      · next hne => exact ⟨hfile, hne⟩
    · next he =>
      refine ⟨hfile, ?_⟩
      rw [not_not.mp he]
      exact Files.ne_of_file hfile
  obtain ⟨hreceive, hr⟩ := hclose _ _ h
  obtain ⟨hsend, hs⟩ := hclose _ _ hreceive
  rw [EventLoop.eraseEvent, EventLoop.eraseHandler_file] at hsend
  exact ⟨hsend, hs, hr⟩

theorem stop_handlerOf (s : MulticastServer C H) (fd : Fd) (d : Dir) :
    s.stop.eventLoop.handlerOf fd d = if fd = s.receiveEvent ∧ d = .inp then none else s.eventLoop.handlerOf fd d := by
  rw [← s.eventLoop.handlerOf_eraseHandler (Files.ctl true)]
  have hclose : ∀ (l : EventLoop Files H) (e : Fd),
      (if e ≠ -1 then { l with kernel := l.kernel.close e } else l).handlerOf fd d = l.handlerOf fd d := by
    intro l e
    split <;> rfl
  exact (hclose _ _).trans (hclose _ _)

/-! ### The descriptors -/

theorem setupSendSocket_holding {own : H → Bool} (h : Released own s.eventLoop)
    (hs : s.setupSendSocket σ k = (ret, s')) :
    Holding own s'.eventLoop (fun fd => fd = s'.sendEvent) fun _ _ => False := by
  unfold setupSendSocket at hs
  split at hs
  · obtain ⟨_, rfl⟩ := Prod.mk.inj hs
    exact h.holding
  · obtain ⟨_, rfl⟩ := Prod.mk.inj hs
    exact .openFirst h σ

theorem setupReceiveSocket_holding {own : H → Bool}
    (h : Holding own s.eventLoop (fun fd => fd = s.sendEvent) fun _ _ => False)
    (hs : s.setupReceiveSocket τ k = (ret, s')) :
    Holding own s'.eventLoop (fun fd => fd = s'.sendEvent ∨ fd = s'.receiveEvent) (fun _ _ => False) ∧
      (¬ ret < 0 → s'.eventLoop.kernel.file s'.receiveEvent = some (.socket τ)) := by
  have hkeep : ∀ e : Fd, Holding own s.eventLoop (fun fd => fd = s.sendEvent ∨ fd = e) fun _ _ => False := fun e =>
    h.mono (fun _ hfd => Or.inl hfd) fun _ _ => id
  have hopen : Holding own { s.eventLoop with kernel := s.eventLoop.kernel.openFile (.socket τ) }
      (fun fd => fd = s.sendEvent ∨ fd = FdTable.lowestFree s.eventLoop.kernel.table) fun _ _ => False :=
    (h.openFile τ).mono (fun _ hfd => hfd.symm) fun _ _ => id
  have hfile := (Files.file_openFile s.eventLoop.kernel (.socket τ) _).trans (if_pos rfl)
  unfold setupReceiveSocket at hs
  split_ifs at hs
  · obtain ⟨rfl, rfl⟩ := Prod.mk.inj hs
    exact ⟨hkeep _, fun hret => absurd (by decide) hret⟩
  · obtain ⟨rfl, rfl⟩ := Prod.mk.inj hs
    exact ⟨hkeep _, fun hret => absurd (by decide) hret⟩
  all_goals
    obtain ⟨rfl, rfl⟩ := Prod.mk.inj hs
    exact ⟨hopen, fun _ => hfile⟩

variable [DecidableEq H]

/-- The server has its descriptors in the two members and `process` registered for the one that receives. -/
def Inv (process : H) (s : MulticastServer C H) : Prop :=
  Holding (fun h => h = process) s.eventLoop (fun fd => fd = s.sendEvent ∨ fd = s.receiveEvent)
    fun fd d => fd = s.receiveEvent ∧ d = .inp

/-- `start` finds both members reset. -/
def Unused (s : MulticastServer C H) : Act C H → Prop
  | .start .. => s.sendEvent = -1 ∧ s.receiveEvent = -1
  | _ => True

theorem start_inv (h : Released (fun h => h = process) s.eventLoop)
    (hs : s.start process σ τ k dataHandler = some (ret, s')) : Inv process s' := by
  unfold start at hs
  generalize hsend : s.setupSendSocket σ k = send at hs
  obtain ⟨err, s₁⟩ := send
  have hone := setupSendSocket_holding h hsend
  simp only at hs
  split at hs
  · obtain ⟨_, rfl⟩ := Prod.mk.inj (Option.some.inj hs)
    exact hone.mono (fun _ hfd => Or.inl hfd) fun _ _ => False.elim
  · generalize hreceive : s₁.setupReceiveSocket τ k = receive at hs
    obtain ⟨err', s₂⟩ := receive
    obtain ⟨hboth, hfile⟩ := setupReceiveSocket_holding hone hreceive
    have hinv : Inv process s₂ := hboth.mono (fun _ => id) fun _ _ => False.elim
    simp only at hs
    split at hs
    · obtain ⟨_, rfl⟩ := Prod.mk.inj (Option.some.inj hs)
      exact hinv
    · next hret =>
      split at hs
      · obtain ⟨_, rfl⟩ := Prod.mk.inj (Option.some.inj hs)
        exact hinv
      · simp only [Option.dite_none_right_eq_some, Option.some.injEq, Prod.mk.injEq] at hs
        obtain ⟨_, _, rfl⟩ := hs
        exact Holding.addHandler hinv (hfile hret) ⟨rfl, rfl⟩

theorem Inv.stop_released (h : Inv process s) : Released (fun h => h = process) s.stop.eventLoop := by
  refine Holding.drop h (fun fd σ hfile => ?_) fun fd d cb hcb => ?_
  · obtain ⟨hold, hsend, hreceive⟩ := s.stop_file hfile
    exact ⟨hold, fun hfd => hfd.elim hsend hreceive⟩
  · rw [stop_handlerOf] at hcb
    split at hcb
    · simp at hcb
    · next hfd => exact ⟨hcb, hfd⟩

theorem Inv.step (h : Inv process s) {a : Act C H} (hu : s.Unused a) (hs : MulticastServer.step process s a = some s') :
    Inv process s' := by
  cases a with
  | start σ τ k dataHandler =>
    obtain ⟨⟨ret, s₁⟩, hstart, rfl⟩ := Option.map_eq_some_iff.mp hs
    have hreleased : Released (fun h => h = process) s.eventLoop := by
      refine Holding.released h fun fd hfd σ hfile => Files.ne_of_file hfile ?_
      exact hfd.elim (fun hsend => hsend.trans hu.1) fun hreceive => hreceive.trans hu.2
    exact start_inv hreleased hstart
  | stop =>
    obtain rfl := Option.some.inj hs
    exact (h.stop_released).holding
  | other o =>
    obtain ⟨l, ho, rfl⟩ := Option.map_eq_some_iff.mp hs
    exact Holding.other h ho

end MulticastServer

end Libhbk
