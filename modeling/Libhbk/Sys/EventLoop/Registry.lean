import Libhbk.Sys.Epoll

/-!
# The registry of the Linux event loop

The data of `EventLoop` and its four registry operations. `addEvent` and `addOutEvent` are one function
of the direction, and so are `eraseEvent` and `eraseOutEvent`. Each takes the lock and makes at most one
`epoll_ctl` call; what the kernel does with it is the parameter `ctl`. Calling the handler until nothing
is left, which an add does after it has released the lock, is not part of the operation here.

`eventInfos` is the unordered map with its nodes: `data.ptr` of a registration is the address of its
node. An erase turns the removed events off in the first slot below `m_eventCount` that points to it.
-/

namespace Libhbk

/-- `EventsHandlers_t`; an empty `std::function` is `none`. -/
structure EventsHandlers (H : Type) where
  inEvent : Option H
  outEvent : Option H
  deriving DecidableEq, Repr

namespace EventsHandlers

variable {H : Type}

def empty : EventsHandlers H := ⟨none, none⟩

def handler (e : EventsHandlers H) : Dir → Option H
  | .inp => e.inEvent
  | .out => e.outEvent

def set (e : EventsHandlers H) (d : Dir) (h : Option H) : EventsHandlers H :=
  match d with
  | .inp => { e with inEvent := h }
  | .out => { e with outEvent := h }

@[simp] theorem handler_empty (d : Dir) : (empty : EventsHandlers H).handler d = none := by
  cases d <;> rfl

@[simp] theorem handler_set (e : EventsHandlers H) (d d' : Dir) (h : Option H) :
    (e.set d h).handler d' = if d' = d then h else e.handler d' := by
  cases d <;> cases d' <;> rfl

theorem ext_handler {e e' : EventsHandlers H} (h : ∀ d, e.handler d = e'.handler d) : e = e' := by
  have hin := h .inp
  have hout := h .out
  cases e
  cases e'
  simp only [handler] at hin hout
  rw [hin, hout]

theorem set_handler {e : EventsHandlers H} {d : Dir} {h : Option H} (he : e.handler d = h) : e.set d h = e := by
  refine ext_handler fun d' => ?_
  rw [handler_set]
  split
  · next hd => rw [hd, he]
  · rfl

end EventsHandlers

/-- The mask of a registration: `EPOLLET`, and the bit of each direction that has a handler. -/
def maskOf (hs : EventsHandlers H) : BitVec 32 :=
  EPOLLET ||| (if (hs.handler .inp).isSome then EPOLLIN else 0) |||
    (if (hs.handler .out).isSome then EPOLLOUT else 0)

@[simp] theorem signals_maskOf (hs : EventsHandlers H) (d : Dir) :
    signals (maskOf hs) d = (hs.handler d).isSome := by
  cases d <;> rcases hi : hs.handler .inp <;> rcases ho : hs.handler .out <;> simp [maskOf, hi, ho]

theorem mask_add (hs : EventsHandlers H) (d : Dir) (h : H) :
    (if (hs.handler d.other).isSome then d.bit ||| EPOLLET ||| d.other.bit else d.bit ||| EPOLLET) =
      maskOf (hs.set d (some h)) := by
  rcases ho : hs.handler d.other <;> cases d <;> simp only [Dir.other] at ho <;> simp [maskOf, ho, Dir.other] <;> rfl

theorem mask_erase {hs : EventsHandlers H} {d : Dir} {h : H} (ho : hs.handler d.other = some h) :
    d.other.bit ||| EPOLLET = maskOf (hs.set d none) := by
  cases d <;> simp only [Dir.other] at ho <;> simp [maskOf, ho, Dir.other] <;> rfl

/-- The data of the event loop. `kernel` is what `m_epollfd` stands for. -/
structure EventLoop (K H : Type) where
  eventInfos : NodeMap Fd (EventsHandlers H)
  events : List EpollEvent
  eventCount : Int
  kernel : K

/-- Result of a registry operation: the return value, the event loop, and the `epoll_ctl` call if there
was one, with its success. -/
structure OpResult (K H : Type) where
  ret : Int
  loop : EventLoop K H
  ctl : Option (CtlOp × Bool)

/-- Turn `removed` off in the first of the first `n` slots that points to `p`. -/
def clearPending (p : Addr) (removed : BitVec 32) : Nat → List EpollEvent → List EpollEvent
  | 0, evs => evs
  | _ + 1, [] => []
  | n + 1, ev :: evs =>
    if ev.ptr = some p then { ev with events := ev.events &&& ~~~removed } :: evs
    else ev :: clearPending p removed n evs

namespace EventLoop

variable {K H : Type}

/-- The address of a node that does not belong to the map. -/
abbrev Free (l : EventLoop K H) := { a : Addr // l.eventInfos.live a = false }

/-- The handlers that the storage at an address holds. -/
def handlersAt (l : EventLoop K H) (a : Addr) : EventsHandlers H := (l.eventInfos.deref a).getD .empty

/-- The handler that is registered for one direction of a descriptor. -/
def handlerOf (l : EventLoop K H) (fd : Fd) (d : Dir) : Option H := (l.eventInfos.get? fd).bind (·.handler d)

/-- The `epoll_ctl` call of an operation, whose result is the operation's. -/
def control (ctl : EpollCtl K) (l : EventLoop K H) (op : CtlOp) (fd : Fd) : OpResult K H :=
  match ctl l.kernel op fd with
  | none => ⟨-1, l, some (op, false)⟩
  | some k => ⟨0, { l with kernel := k }, some (op, true)⟩

/-- The locked part of `addEvent` (`d = inp`) and `addOutEvent` (`d = out`). A new entry gets the node
at `fresh`. -/
def addHandler (ctl : EpollCtl K) (d : Dir) (l : EventLoop K H) (fresh : l.Free) (fd : Fd)
    (eventHandler : Option H) : OpResult K H :=
  match eventHandler with
  | none => ⟨-1, l, none⟩
  | some h =>
    if fd = -1 then ⟨-1, l, none⟩
    else match l.eventInfos.index fd with
      | none =>
        control ctl { l with eventInfos := l.eventInfos.emplace fd (.set .empty d (some h)) fresh.1 fresh.2 }
          (.add ⟨d.bit ||| EPOLLET, some fresh.1⟩) fd
      | some a =>
        -- the other event might be registered already for this fd
        let events :=
          if ((l.handlersAt a).handler d.other).isSome then d.bit ||| EPOLLET ||| d.other.bit
          else d.bit ||| EPOLLET
        control ctl { l with eventInfos := l.eventInfos.modifyAt a (·.set d (some h)) }
          (.mod ⟨events, some a⟩) fd

def addEvent (ctl : EpollCtl K) (l : EventLoop K H) (fresh : l.Free) (fd : Fd)
    (eventHandler : Option H) : OpResult K H := addHandler ctl .inp l fresh fd eventHandler

def addOutEvent (ctl : EpollCtl K) (l : EventLoop K H) (fresh : l.Free) (fd : Fd)
    (eventHandler : Option H) : OpResult K H := addHandler ctl .out l fresh fd eventHandler

/-- Turn the removed events off so that no handler is called for pending ones. -/
def clearEvents (l : EventLoop K H) (p : Addr) (removed : BitVec 32) : EventLoop K H :=
  { l with events := clearPending p removed l.eventCount.toNat l.events }

/-- `eraseEvent` (`d = inp`) and `eraseOutEvent` (`d = out`). -/
def eraseHandler (ctl : EpollCtl K) (d : Dir) (l : EventLoop K H) (fd : Fd) : OpResult K H :=
  match l.eventInfos.index fd with
  | none => ⟨-1, l, none⟩
  | some a =>
    if (l.handlersAt a).handler d = none then ⟨-1, l, none⟩
    else if ((l.handlersAt a).handler d.other).isSome then
      -- keep the existing event of the other direction
      let r := control ctl { l with eventInfos := l.eventInfos.modifyAt a (·.set d none) }
        (.mod ⟨d.other.bit ||| EPOLLET, some a⟩) fd
      { r with loop := r.loop.clearEvents a d.bit }
    else
      let r := control ctl l .del fd
      let l' : EventLoop K H := { r.loop with eventInfos := r.loop.eventInfos.erase fd }
      { r with loop := l'.clearEvents a (EPOLLIN ||| EPOLLOUT) }

def eraseEvent (ctl : EpollCtl K) (l : EventLoop K H) (fd : Fd) : OpResult K H := eraseHandler ctl .inp l fd

def eraseOutEvent (ctl : EpollCtl K) (l : EventLoop K H) (fd : Fd) : OpResult K H := eraseHandler ctl .out l fd

/-! ### The operations against the kernel -/

/-- The constructor: the loop's own event `stopFd` is registered with the null pointer. The array of
events is not initialised. -/
def new (stopFd : Fd) (events : List EpollEvent) : EventLoop Kernel H where
  eventInfos := .empty
  events := events
  eventCount := 0
  kernel := ⟨fun fd => if fd = stopFd then some ⟨EPOLLIN ||| EPOLLET, none⟩ else none, fun _ => 0⟩

end EventLoop

/-- A call of a registry operation: an add with the address its node gets if the entry is new and the
kernel's answer to an `EPOLL_CTL_ADD`, or an erase. -/
inductive Op (H : Type) where
  | add (d : Dir) (fd : Fd) (eventHandler : Option H) (a : Addr) (grant : Bool)
  | erase (d : Dir) (fd : Fd)

namespace Op

variable {H : Type}

def dir : Op H → Dir
  | add d .. => d
  | erase d _ => d

def fd : Op H → Fd
  | add _ fd .. => fd
  | erase _ fd => fd

end Op

namespace EventLoop

variable {K H : Type}

/-- Run an operation; `none` if the address given is in use. -/
def apply (l : EventLoop Kernel H) : Op H → Option (OpResult Kernel H)
  | .add d fd eh a grant =>
    if ha : l.eventInfos.live a = false then some (addHandler (Kernel.ctl grant) d l ⟨a, ha⟩ fd eh) else none
  | .erase d fd => some (eraseHandler (Kernel.ctl true) d l fd)

/-! ### What each operation can do -/

theorem handlersAt_of_index (l : EventLoop K H) {fd : Fd} {a : Addr} (h : l.eventInfos.index fd = some a) :
    l.eventInfos.get? fd = some (l.handlersAt a) := by
  obtain ⟨hs, hstorage, hget⟩ := l.eventInfos.storage_of_index h
  rw [hget, handlersAt, NodeMap.deref, hstorage]
  rfl

theorem handlerOf_of_index (l : EventLoop K H) {fd : Fd} {a : Addr} (h : l.eventInfos.index fd = some a) (d : Dir) :
    l.handlerOf fd d = (l.handlersAt a).handler d := by
  rw [handlerOf, l.handlersAt_of_index h, Option.bind_some]

theorem handlerOf_eq_none (l : EventLoop K H) {fd : Fd} (h : l.eventInfos.index fd = none) (d : Dir) :
    l.handlerOf fd d = none := by
  rw [handlerOf, (l.eventInfos.get?_eq_none fd).mpr h, Option.bind_none]

theorem control_eq (ctl : EpollCtl K) (l : EventLoop K H) (op : CtlOp) (fd : Fd) :
    (ctl l.kernel op fd = none ∧ control ctl l op fd = ⟨-1, l, some (op, false)⟩) ∨
      ∃ k, ctl l.kernel op fd = some k ∧ control ctl l op fd = ⟨0, { l with kernel := k }, some (op, true)⟩ := by
  unfold control
  rcases h : ctl l.kernel op fd with _ | k
  · exact Or.inl ⟨rfl, rfl⟩
  · exact Or.inr ⟨k, rfl, rfl⟩

theorem control_of_ret {ctl : EpollCtl K} {l : EventLoop K H} {op : CtlOp} {fd : Fd}
    (h : (control ctl l op fd).ret = 0) : ctl l.kernel op fd = some (control ctl l op fd).loop.kernel := by
  rcases control_eq ctl l op fd with ⟨_, hc⟩ | ⟨k, hk, hc⟩
  · rw [hc] at h
    simp at h
  · rw [hc]
    exact hk

@[simp] theorem control_eventInfos (ctl : EpollCtl K) (l : EventLoop K H) (op : CtlOp) (fd : Fd) :
    (control ctl l op fd).loop.eventInfos = l.eventInfos := by
  unfold control
  split <;> rfl

@[simp] theorem control_events (ctl : EpollCtl K) (l : EventLoop K H) (op : CtlOp) (fd : Fd) :
    (control ctl l op fd).loop.events = l.events := by
  unfold control
  split <;> rfl

@[simp] theorem control_eventCount (ctl : EpollCtl K) (l : EventLoop K H) (op : CtlOp) (fd : Fd) :
    (control ctl l op fd).loop.eventCount = l.eventCount := by
  unfold control
  split <;> rfl

/-- An add is refused, makes a new entry, or sets the handler of an entry that exists. -/
theorem addHandler_cases (ctl : EpollCtl K) (d : Dir) (l : EventLoop K H) (fresh : l.Free) (fd : Fd)
    (eh : Option H) :
    ((eh = none ∨ fd = -1) ∧ addHandler ctl d l fresh fd eh = ⟨-1, l, none⟩) ∨
    (∃ h, eh = some h ∧ fd ≠ -1 ∧ l.eventInfos.index fd = none ∧ addHandler ctl d l fresh fd eh =
      control ctl { l with eventInfos := l.eventInfos.emplace fd (.set .empty d (some h)) fresh.1 fresh.2 }
        (.add ⟨d.bit ||| EPOLLET, some fresh.1⟩) fd) ∨
    (∃ h a, eh = some h ∧ fd ≠ -1 ∧ l.eventInfos.index fd = some a ∧ addHandler ctl d l fresh fd eh =
      control ctl { l with eventInfos := l.eventInfos.modifyAt a (·.set d (some h)) }
        (.mod ⟨if ((l.handlersAt a).handler d.other).isSome then d.bit ||| EPOLLET ||| d.other.bit
          else d.bit ||| EPOLLET, some a⟩) fd) := by
  unfold addHandler
  rcases eh with _ | h
  · exact Or.inl ⟨Or.inl rfl, rfl⟩
  · by_cases hfd : fd = -1
    · exact Or.inl ⟨Or.inr hfd, by simp [hfd]⟩
    · rcases hidx : l.eventInfos.index fd with _ | a
      · exact Or.inr (Or.inl ⟨h, rfl, hfd, rfl, by simp [hfd]⟩)
      · exact Or.inr (Or.inr ⟨h, a, rfl, hfd, rfl, by simp [hfd]⟩)

/-- An erase finds no handler, keeps the entry for the other direction, or removes it. -/
theorem eraseHandler_cases (ctl : EpollCtl K) (d : Dir) (l : EventLoop K H) (fd : Fd) :
    (l.handlerOf fd d = none ∧ eraseHandler ctl d l fd = ⟨-1, l, none⟩) ∨
    (∃ a h h', l.eventInfos.index fd = some a ∧ (l.handlersAt a).handler d = some h ∧
      (l.handlersAt a).handler d.other = some h' ∧
      let r := control ctl { l with eventInfos := l.eventInfos.modifyAt a (·.set d none) }
        (.mod ⟨d.other.bit ||| EPOLLET, some a⟩) fd
      eraseHandler ctl d l fd = { r with loop := r.loop.clearEvents a d.bit }) ∨
    (∃ a h, l.eventInfos.index fd = some a ∧ (l.handlersAt a).handler d = some h ∧
      (l.handlersAt a).handler d.other = none ∧
      let r := control ctl l .del fd
      let l' : EventLoop K H := { r.loop with eventInfos := r.loop.eventInfos.erase fd }
      eraseHandler ctl d l fd = { r with loop := l'.clearEvents a (EPOLLIN ||| EPOLLOUT) }) := by
  unfold eraseHandler
  rcases hidx : l.eventInfos.index fd with _ | a
  · exact Or.inl ⟨l.handlerOf_eq_none hidx d, rfl⟩
  · rcases hd : (l.handlersAt a).handler d with _ | h
    · exact Or.inl ⟨by rw [l.handlerOf_of_index hidx, hd], by simp [hd]⟩
    · rcases ho : (l.handlersAt a).handler d.other with _ | h'
      · exact Or.inr (Or.inr ⟨a, h, rfl, hd, ho, by simp [hd, ho]⟩)
      · exact Or.inr (Or.inl ⟨a, h, h', rfl, hd, ho, by simp [hd, ho]⟩)

end EventLoop

end Libhbk
