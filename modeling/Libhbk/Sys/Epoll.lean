import Mathlib.Logic.Function.Basic
import Mathlib.Data.List.Nodup
import Mathlib.Data.BitVec
import Libhbk.Base.NodeMap

/-!
# epoll, edge triggered

The part of the kernel behind `m_epollfd`. `interest` is the interest set with the mask and the
`data.ptr` of every registration; `edges` are the readiness changes signalled since they were last
reported. `epoll_wait` reports each of them once. An `EPOLL_CTL_ADD` may be refused (`grant`: the
descriptor is open and can be polled, and there is memory); modifying or deleting a registration that
exists succeeds.
-/

namespace Libhbk

abbrev Fd := Int

def EPOLLIN : BitVec 32 := 0x001
def EPOLLOUT : BitVec 32 := 0x004
def EPOLLERR : BitVec 32 := 0x008
def EPOLLHUP : BitVec 32 := 0x010
def EPOLLET : BitVec 32 := 0x80000000

/-- Maximum number of events that may be queued with `epoll_wait`. -/
def MAXEVENTS : Nat := 16

/-- The two directions a handler is registered for. -/
inductive Dir where
  | inp
  | out
  deriving DecidableEq, Repr

namespace Dir

def bit : Dir → BitVec 32
  | inp => EPOLLIN
  | out => EPOLLOUT

def other : Dir → Dir
  | inp => out
  | out => inp

theorem other_ne (d : Dir) : d.other ≠ d := by cases d <;> decide

theorem eq_or_eq_other (d e : Dir) : e = d ∨ e = d.other := by cases d <;> cases e <;> decide

end Dir

/-- `struct epoll_event`; `none` is the null pointer. -/
structure EpollEvent where
  events : BitVec 32
  ptr : Option Addr
  deriving DecidableEq, Repr

/-- Is the bit of this direction set in a mask? -/
def signals (events : BitVec 32) (d : Dir) : Bool := events &&& d.bit != 0

/-- The position of a direction's bit. -/
def Dir.index : Dir → Nat
  | inp => 0
  | out => 2

theorem Dir.bit_eq (d : Dir) : d.bit = BitVec.twoPow 32 d.index := by cases d <;> rfl

theorem signals_eq (events : BitVec 32) (d : Dir) : signals events d = events.getLsbD d.index := by
  have hne : BitVec.twoPow 32 d.index ≠ 0 := by cases d <;> decide
  rw [signals, d.bit_eq, BitVec.and_twoPow]
  split <;> simp_all

@[simp] theorem signals_or (x y : BitVec 32) (d : Dir) :
    signals (x ||| y) d = (signals x d || signals y d) := by
  simp [signals_eq]

@[simp] theorem signals_and (x y : BitVec 32) (d : Dir) :
    signals (x &&& y) d = (signals x d && signals y d) := by
  simp [signals_eq]

@[simp] theorem signals_not (x : BitVec 32) (d : Dir) : signals (~~~x) d = !signals x d := by
  have : d.index < 32 := by cases d <;> decide
  simp [signals_eq, this]

@[simp] theorem signals_bit (d e : Dir) : signals d.bit e = decide (d = e) := by
  cases d <;> cases e <;> decide

@[simp] theorem signals_EPOLLIN (d : Dir) : signals EPOLLIN d = decide (d = .inp) := by cases d <;> decide
@[simp] theorem signals_EPOLLOUT (d : Dir) : signals EPOLLOUT d = decide (d = .out) := by cases d <;> decide
@[simp] theorem signals_EPOLLET (d : Dir) : signals EPOLLET d = false := by cases d <;> decide
@[simp] theorem signals_EPOLLERR (d : Dir) : signals EPOLLERR d = false := by cases d <;> decide
@[simp] theorem signals_EPOLLHUP (d : Dir) : signals EPOLLHUP d = false := by cases d <;> decide

/-- The operation of an `epoll_ctl` call with its event; deleting takes none. -/
inductive CtlOp where
  | add (ev : EpollEvent)
  | mod (ev : EpollEvent)
  | del
  deriving DecidableEq, Repr

/-- What one `epoll_ctl(m_epollfd, op, fd, ev)` does to a kernel state of type `K`; `none` if it
returns -1. -/
abbrev EpollCtl (K : Type) := K → CtlOp → Fd → Option K

structure Kernel where
  interest : Fd → Option EpollEvent
  edges : Fd → BitVec 32

namespace Kernel

/-- The registration of a descriptor goes, with what was signalled for it. -/
def drop (k : Kernel) (fd : Fd) : Kernel := ⟨Function.update k.interest fd none, Function.update k.edges fd 0⟩

/-- `epoll_ctl`. -/
def ctl (grant : Bool) : EpollCtl Kernel := fun k op fd =>
  match op, k.interest fd with
  | .add ev, none => if grant then some { k with interest := Function.update k.interest fd (some ev) } else none
  | .mod ev, some _ => some { k with interest := Function.update k.interest fd (some ev) }
  | .del, some _ => some (k.drop fd)
  | _, _ => none

/-- A readiness change. -/
def signal (k : Kernel) (fd : Fd) (bits : BitVec 32) : Kernel :=
  { k with edges := Function.update k.edges fd (k.edges fd ||| bits) }

theorem ctl_add {grant : Bool} {k k' : Kernel} {ev : EpollEvent} {fd : Fd} (h : ctl grant k (.add ev) fd = some k') :
    k.interest fd = none ∧ k'.interest = Function.update k.interest fd (some ev) ∧ k'.edges = k.edges := by
  rcases hi : k.interest fd with _ | ev'
  · simp only [ctl, hi] at h
    split at h
    · obtain rfl := Option.some.inj h
      exact ⟨rfl, rfl, rfl⟩
    · simp at h
  · simp [ctl, hi] at h

theorem ctl_mod {grant : Bool} {k k' : Kernel} {ev : EpollEvent} {fd : Fd} (h : ctl grant k (.mod ev) fd = some k') :
    (∃ ev', k.interest fd = some ev') ∧ k'.interest = Function.update k.interest fd (some ev) ∧
      k'.edges = k.edges := by
  rcases hi : k.interest fd with _ | ev'
  · simp [ctl, hi] at h
  · simp only [ctl, hi, Option.some.injEq] at h
    subst h
    exact ⟨⟨ev', rfl⟩, rfl, rfl⟩

theorem ctl_del {grant : Bool} {k k' : Kernel} {fd : Fd} (h : ctl grant k .del fd = some k') :
    (∃ ev', k.interest fd = some ev') ∧ k'.interest = Function.update k.interest fd none ∧
      k'.edges = Function.update k.edges fd 0 := by
  rcases hi : k.interest fd with _ | ev'
  · simp [ctl, hi] at h
  · simp only [ctl, hi, Option.some.injEq] at h
    subst h
    exact ⟨⟨ev', rfl⟩, rfl, rfl⟩

theorem ctl_eq_none {grant : Bool} {k : Kernel} {op : CtlOp} {fd : Fd} (h : ctl grant k op fd = none)
    (hop : ∀ ev, op ≠ .add ev) : k.interest fd = none := by
  rcases hi : k.interest fd with _ | ev'
  · rfl
  · cases op with
    | add ev => exact absurd rfl (hop ev)
    | mod ev => simp [ctl, hi] at h
    | del => simp [ctl, hi] at h

theorem ctl_of_ne {grant : Bool} {k k' : Kernel} {op : CtlOp} {fd fd' : Fd} (h : ctl grant k op fd = some k')
    (hne : fd' ≠ fd) : k'.interest fd' = k.interest fd' ∧ k'.edges fd' = k.edges fd' := by
  cases op with
  | add ev =>
    obtain ⟨_, hi, he⟩ := ctl_add h
    rw [hi, he, Function.update_of_ne hne]
    exact ⟨rfl, rfl⟩
  | mod ev =>
    obtain ⟨_, hi, he⟩ := ctl_mod h
    rw [hi, he, Function.update_of_ne hne]
    exact ⟨rfl, rfl⟩
  | del =>
    obtain ⟨_, hi, he⟩ := ctl_del h
    rw [hi, he, Function.update_of_ne hne, Function.update_of_ne hne]
    exact ⟨rfl, rfl⟩

/-- The event `epoll_wait` returns for a registration. -/
def report (k : Kernel) (fd : Fd) : EpollEvent :=
  match k.interest fd with
  | none => ⟨0, none⟩
  | some ev => ⟨k.edges fd &&& (ev.events ||| EPOLLERR ||| EPOLLHUP), ev.ptr⟩

/-- `epoll_wait` returns the events of the descriptors `fds`, in this order, and counts their edges as
reported. -/
def wait (k : Kernel) (fds : List Fd) : Option (List EpollEvent × Kernel) :=
  if fds ≠ [] ∧ fds.length ≤ MAXEVENTS ∧ fds.Nodup ∧ ∀ fd ∈ fds, (k.report fd).events ≠ 0 then
    some (fds.map k.report, { k with edges := fun fd => if fd ∈ fds then 0 else k.edges fd })
  else none

/-- What one `epoll_wait` reports and leaves. -/
structure Waited (k : Kernel) (fds : List Fd) (evs : List EpollEvent) (k' : Kernel) : Prop where
  evs : evs = fds.map k.report
  nonempty : fds ≠ []
  nodup : fds.Nodup
  ready : ∀ fd ∈ fds, (k.report fd).events ≠ 0
  interest : k'.interest = k.interest
  edges : ∀ fd, k'.edges fd = if fd ∈ fds then 0 else k.edges fd

theorem wait_eq {k k' : Kernel} {fds : List Fd} {evs : List EpollEvent} (h : k.wait fds = some (evs, k')) :
    Waited k fds evs k' := by
  simp only [wait, Option.ite_none_right_eq_some, Option.some.injEq, Prod.mk.injEq] at h
  obtain ⟨⟨hne, _, hnodup, hready⟩, rfl, rfl⟩ := h
  exact ⟨rfl, hne, hnodup, hready, rfl, fun _ => rfl⟩

/-- A report comes from a registration, and has only events of its mask besides errors. -/
theorem report_eq {k : Kernel} {fd : Fd} (h : (k.report fd).events ≠ 0) :
    ∃ ev, k.interest fd = some ev ∧ (k.report fd).ptr = ev.ptr ∧
      ∀ d, signals (k.report fd).events d = (signals (k.edges fd) d && signals ev.events d) := by
  unfold report at h ⊢
  rcases hi : k.interest fd with _ | ev
  · simp [hi] at h
  · refine ⟨ev, rfl, rfl, fun d => ?_⟩
    simp

end Kernel

end Libhbk
