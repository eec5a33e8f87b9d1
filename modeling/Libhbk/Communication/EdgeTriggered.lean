import Libhbk.Communication.Accept
import Libhbk.Communication.Netlink.Bounds

/-!
# Handlers that have drained their source

The event loop is edge triggered: a handler that returns `≤ 0` says that nothing is left behind its descriptor, since
it is not called again before a new edge. `TcpServer::process` and `Netlink::process` return `-1` for every error of
`accept` and `recvmsg`, also for those that leave the queue as it is.
-/

namespace Libhbk

/-! ### The accept queue -/

namespace Listener

/-- What a call of `process` that returns `≤ 0` leaves: nothing after `EAGAIN`; after an aborted connection, the
others; after any other error, everything. -/
def Emptied (x : Option AcceptError × Client) (l : Listener) : Prop :=
  match x.1 with
  | some .again => True
  | some .connaborted => l.queue.length ≤ 1
  | some .intr => l.queue = []
  | some .mfile => l.queue = []
  | none => False

theorem emptied_iff {x : Option AcceptError × Client} {l l' : Listener} {r : Int}
    (h : process x l = some (some r, l')) (hr : r ≤ 0) : l'.queue = [] ↔ Emptied x l := by
  obtain ⟨⟨fd, l₁⟩, haccept, h⟩ := Option.map_eq_some_iff.mp h
  rcases accept_cases haccept with ⟨he, rfl, _, _⟩ | ⟨_, rfl, σ, _, _⟩
  · simp only [if_true, Prod.mk.injEq] at h
    obtain ⟨_, rfl⟩ := h
    obtain ⟨x, c⟩ := x
    rcases x with _ | _ | _ | _ | _
    · exact absurd rfl he
    · simp only [accept, Option.ite_none_right_eq_some, Option.some.injEq, Prod.mk.injEq] at haccept
      obtain ⟨hq, _, rfl⟩ := haccept
      exact iff_of_true hq trivial
    · obtain ⟨_, rfl⟩ := Prod.mk.inj (Option.some.inj haccept)
      rfl
    · simp only [accept] at haccept
      split at haccept
      · simp at haccept
      · next σ rest hq =>
        obtain ⟨_, rfl⟩ := Prod.mk.inj (Option.some.inj haccept)
        simp [Emptied, hq]
    · obtain ⟨_, rfl⟩ := Prod.mk.inj (Option.some.inj haccept)
      rfl
  · -- an accepted connection ends in 1 or in an exception
    have hfd : ((FdTable.lowestFree l.table : Nat) : Int) ≠ -1 := by omega
    simp only [if_neg hfd] at h
    split at h
    · simp at h
    · obtain ⟨hone, _⟩ := Prod.mk.inj h
      split at hone
      · simp at hone
      · have := Option.some.inj hone
        omega

end Listener

/-! ### The netlink socket -/

namespace Netlink

/-- What `recvmsg` gives. -/
inductive Recvmsg where
  | data
  /-- `EAGAIN` or `EWOULDBLOCK` -/
  | again
  | intr
  | nobufs
  deriving DecidableEq, Repr

/-- `receive` on the datagrams that are queued; what does not fit into the buffer is lost. -/
def receive (bufferSize : Nat) (queue : List (List UInt8)) : Recvmsg → Option (Int × List (List UInt8))
  | .data =>
    match queue with
    | [] => none
    | datagram :: rest => some (min datagram.length bufferSize, rest)
  | .again => if queue = [] then some (-1, queue) else none
  | .intr => some (-1, queue)
  -- datagrams were dropped, not those in the queue
  | .nobufs => some (-1, queue)

/-- `Netlink::process`; `none` for an exception, which only `processNetlinkTelegram` throws. -/
def process (x : Recvmsg × Bool) (queue : List (List UInt8)) : Option (Option Int × List (List UInt8)) :=
  (receive maxDatagramSize queue x.1).map fun (nBytes, queue) =>
    (if 0 < nBytes ∧ x.2 = true then none else some nBytes, queue)

def source : Source (List (List UInt8)) (List UInt8) (Recvmsg × Bool) where
  outside datagram queue := some (queue ++ [datagram])
  signalled _ := true
  handle := process

/-- What a call of `process` that returns `≤ 0` leaves: nothing after `EAGAIN`; after an empty datagram, the others;
after any other error, everything. -/
def Emptied (x : Recvmsg × Bool) (queue : List (List UInt8)) : Prop :=
  match x.1 with
  | .data => queue.length ≤ 1
  | .again => True
  | .intr => queue = []
  | .nobufs => queue = []

theorem emptied_iff {x : Recvmsg × Bool} {queue queue' : List (List UInt8)} {o : Option Int}
    (h : process x queue = some (o, queue')) : queue' = [] ↔ Emptied x queue := by
  obtain ⟨⟨nBytes, queue₁⟩, hreceive, h⟩ := Option.map_eq_some_iff.mp h
  obtain ⟨_, rfl⟩ := Prod.mk.inj h
  obtain ⟨x, b⟩ := x
  cases x with
  | data =>
    simp only [receive] at hreceive
    split at hreceive
    · simp at hreceive
    · obtain ⟨_, rfl⟩ := Prod.mk.inj (Option.some.inj hreceive)
      simp [Emptied]
  | again =>
    simp only [receive, Option.ite_none_right_eq_some, Option.some.injEq, Prod.mk.injEq] at hreceive
    obtain ⟨hq, _, rfl⟩ := hreceive
    exact iff_of_true hq trivial
  | intr =>
    obtain ⟨_, rfl⟩ := Prod.mk.inj (Option.some.inj hreceive)
    rfl
  | nobufs =>
    obtain ⟨_, rfl⟩ := Prod.mk.inj (Option.some.inj hreceive)
    rfl

end Netlink

/-! ### Handlers in the event loop -/

namespace Source

variable {H : Type} [DecidableEq H] {fd stopFd : Fd} {p : Addr} {process : H}

/-- Whenever `TcpServer::process` or `Netlink::process` returns `≤ 0`, its queue is empty or it is called again without
a new edge, exactly if the answer it got empties the queue, or an edge or an event of the batch is pending already. -/
theorem returned_drained_iff (sys : Sys H) (hreg : sys.Registered fd stopFd p process) :
    (∀ l tr s, (Listener.source.step fd stopFd p process).Run (start sys l) tr s → ∀ x s' r,
      Listener.process x s.items = some (some r, s'.items) → r ≤ 0 →
        (Listener.source.step fd stopFd p process s (.process x) = some s' →
          ((s'.items.queue = [] ∨ s'.sys.Recalled fd stopFd p) ↔
            Listener.Emptied x s.items ∨ signals (s.sys.loop.kernel.edges fd) .inp = true)) ∧
        (Listener.source.step fd stopFd p process s (.drain x) = some s' →
          ((s'.items.queue = [] ∨ s'.sys.Recalled fd stopFd p) ↔
            Listener.Emptied x s.items ∨ s.sys.Pending fd p))) ∧
    (∀ queue tr s, (Netlink.source.step fd stopFd p process).Run (start sys queue) tr s → ∀ x s' r,
      Netlink.process x s.items = some (some r, s'.items) → r ≤ 0 →
        (Netlink.source.step fd stopFd p process s (.process x) = some s' →
          ((s'.items = [] ∨ s'.sys.Recalled fd stopFd p) ↔
            Netlink.Emptied x s.items ∨ signals (s.sys.loop.kernel.edges fd) .inp = true)) ∧
        (Netlink.source.step fd stopFd p process s (.drain x) = some s' →
          ((s'.items = [] ∨ s'.sys.Recalled fd stopFd p) ↔
            Netlink.Emptied x s.items ∨ s.sys.Pending fd p))) := by
  refine ⟨fun l tr s hrun x s' r hh hr => ?_, fun queue tr s hrun x s' r hh hr => ?_⟩
  · have hinv := run_inv hreg hrun
    have hemptied := Listener.emptied_iff hh hr
    refine ⟨fun hs => ?_, fun hs => ?_⟩
    · exact or_congr hemptied (recalled_returned_iff hinv hs hh hr)
    · exact or_congr hemptied (recalled_drained_iff hinv hs hh).2
  · have hinv := run_inv hreg hrun
    have hemptied := Netlink.emptied_iff hh
    refine ⟨fun hs => ?_, fun hs => ?_⟩
    · exact or_congr hemptied (recalled_returned_iff hinv hs hh hr)
    · exact or_congr hemptied (recalled_drained_iff hinv hs hh).2

/-- A client is accepted, then `accept` says `EAGAIN`: nothing is left. A datagram is received, and the
next call is interrupted while an edge for a second one is pending: `process` is called again. -/
theorem returned_drained_again :
    (∃ (sys : Sys Nat) (l : Listener)
      (tr : List (State Nat Listener × Act Nat Listener.Outside (Option AcceptError × Client)))
      (s s' : State Nat Listener),
      (Listener.source.step 5 3 0 10).Run (start sys l) tr s ∧ s'.items.sockets = [6] ∧
      (s'.items.queue = [] ∨ s'.sys.Recalled 5 3 0)) ∧
    (∃ (sys : Sys Nat) (tr : List (State Nat (List (List UInt8)) × Act Nat (List UInt8) (Netlink.Recvmsg × Bool)))
      (s s' : State Nat (List (List UInt8))),
      (Netlink.source.step 5 3 0 10).Run (start sys []) tr s ∧ s'.items = [[2]] ∧
      (s'.items = [] ∨ s'.sys.Recalled 5 3 0)) := by
  have hreg : Sys.Registered 5 3 0 (10 : Nat) (.serving 5 3 0 10 []) := .first [] (by decide) (by decide)
  constructor
  · have hall := Machine.run_of_exec (Listener.source.step 5 3 0 10)
      (start (Sys.serving 5 3 0 10 [])
        ⟨[], List.replicate 6 (some (.other 0)), []⟩)
      [.outside (.connects 1), .loop (.wait [5]), .loop .assign, .loop .lock, .loop .step, .loop .step,
        .process (none, ⟨0, ⟨0, true, 0, 0, 0, 0, 0⟩, true, false⟩), .loop .step, .loop .step, .loop .step, .loop .step,
        .process (some .again, ⟨0, ⟨0, true, 0, 0, 0, 0, 0⟩, true, false⟩)] rfl
    cases hall with
    | snoc hrun hstep =>
      exact ⟨_, _, _, _, _, hrun, rfl,
        (((returned_drained_iff _ hreg).1 _ _ _ hrun _ _ _ rfl (by decide)).1 hstep).mpr (Or.inl trivial)⟩
  · have hall := Machine.run_of_exec (Netlink.source.step 5 3 0 10)
      (start (Sys.serving 5 3 0 10 []) [])
      [.outside [1], .loop (.wait [5]), .loop .assign, .loop .lock, .loop .step, .loop .step, .outside [2],
        .process (.data, false), .loop .step, .loop .step, .loop .step, .loop .step, .process (.intr, false)] rfl
    cases hall with
    | snoc hrun hstep =>
      exact ⟨_, _, _, _, hrun, rfl,
        (((returned_drained_iff _ hreg).2 _ _ _ hrun _ _ _ rfl (by decide)).1 hstep).mpr (Or.inr rfl)⟩

/-- `accept` fails with `EMFILE` while a connection is queued: `process` is not called again before another client
connects. -/
theorem mfile_leaves_connection :
    ∃ (sys : Sys Nat) (l : Listener)
      (tr : List (State Nat Listener × Act Nat Listener.Outside (Option AcceptError × Client)))
      (s s' : State Nat Listener) (c : Client),
      sys.Registered 5 3 0 10 ∧ (Listener.source.step 5 3 0 10).Run (start sys l) tr s ∧
      Listener.source.step 5 3 0 10 s (.process (some .mfile, c)) = some s' ∧
      Listener.process (some .mfile, c) s.items = some (some (-1), s'.items) ∧
      ¬ (s'.items.queue = [] ∨ s'.sys.Recalled 5 3 0) := by
  have hreg : Sys.Registered 5 3 0 (10 : Nat) (.serving 5 3 0 10 []) := .first [] (by decide) (by decide)
  have hall := Machine.run_of_exec (Listener.source.step 5 3 0 10)
    (start (Sys.serving 5 3 0 10 [])
      ⟨[], List.replicate 6 (some (.other 0)), []⟩)
    [.outside (.connects 1), .loop (.wait [5]), .loop .assign, .loop .lock, .loop .step, .loop .step,
      .process (some .mfile, ⟨0, ⟨0, true, 0, 0, 0, 0, 0⟩, true, false⟩)] rfl
  cases hall with
  | snoc hrun hstep =>
    refine ⟨_, _, _, _, _, _, hreg, hrun, hstep, rfl, ?_⟩
    rintro (hq | hrecalled)
    · exact absurd hq (by decide)
    · have hiff := recalled_returned_iff (run_inv hreg hrun) hstep rfl (by decide)
      exact absurd (hiff.mp hrecalled) (by decide)

end Source

end Libhbk
