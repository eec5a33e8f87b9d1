import Libhbk.Communication.Windows.BufferedReader

/-!
# Receives of no bytes on Windows

The event loop is woken by the completion of a receive of no bytes. `setDataCb` orders one, `connect` does so by
calling it, and `BufferedReader::recv` does after `WSAEWOULDBLOCK`, all of them with the one `OVERLAPPED` in
`m_event`. Only `recv` looks whether one is pending.
-/

namespace Libhbk.Windows

open Machine

variable {α H : Type}

/-- What becomes of the receive of no bytes: it succeeds at once, and the completion port hears of it or not; it is
pending; it fails, with anything in `Internal`. -/
inductive Signal where
  | completed (queued : Bool)
  | pending
  | failed (internal : Bool)
  deriving DecidableEq, Repr

def Signal.succeeds : Signal → Bool
  | .completed _ => true
  | _ => false

/-- How `connect` ends: no address or no socket, `-1` later, or with a connection. -/
inductive Connecting where
  | noAddress
  | noSocket
  | failed (fileHandle : Nat)
  | connected (fileHandle : Nat)
  deriving DecidableEq, Repr

/-- `m_bufferedReader`, `m_event.fileHandle`, whether `m_event.overlapped.Internal` is `STATUS_PENDING`,
`m_inDataHandler`, whether the event loop has `process`; the receives of no bytes that are outstanding, and their
completions in the port. -/
structure SocketNonblocking (α H : Type) where
  bufferedReader : Libhbk.BufferedReader α
  fileHandle : Option Nat
  pending : Bool
  inDataHandler : Option H
  registered : Bool
  outstanding : Nat
  queued : Nat

/-- `recv` gets to its receive of no bytes. -/
def BufferedReader.orders (r : Libhbk.BufferedReader α) (buf : List α) (k : Receives α) : Bool :=
  match k.first with
  | .wouldBlock => decide (r.bytesLeft < buf.length) && decide (r.bytesLeft = 0) && !k.pending
  | _ => false

namespace SocketNonblocking

/-- The constructors, without a socket or with one that was accepted. -/
def new (mem : List α) (hmem : mem.length = bufferSize) (fileHandle : Option Nat) : SocketNonblocking α H :=
  ⟨.new mem hmem, fileHandle, false, none, false, 0, 0⟩

/-- `WSARecv` of no bytes with `m_event.overlapped`. Without a socket it fails. -/
def order (s : SocketNonblocking α H) : Signal → Option (SocketNonblocking α H)
  | .completed queued =>
    if s.fileHandle.isSome then
      some { s with pending := false, queued := if queued then s.queued + 1 else s.queued }
    else none
  | .pending =>
    if s.fileHandle.isSome then some { s with pending := true, outstanding := s.outstanding + 1 } else none
  | .failed internal => some { s with pending := internal }

/-- `setDataCb(dataCb)`. -/
def setDataCb (s : SocketNonblocking α H) (dataCb : Option H) (x : Signal) : Option (SocketNonblocking α H) :=
  { s with inDataHandler := dataCb, registered := true }.order x

/-- `connect`, with what becomes of the receive that `setDataCb` orders. -/
def connect (s : SocketNonblocking α H) (k : Connecting) (x : Signal) : Option (SocketNonblocking α H) :=
  match k with
  | .noAddress => some s
  | .noSocket => some { s with fileHandle := none }
  | .failed fileHandle => some { s with fileHandle := some fileHandle }
  | .connected fileHandle => { s with fileHandle := some fileHandle }.setDataCb s.inDataHandler x

/-- `receive(pBlock, size)`. -/
def receive (s : SocketNonblocking α H) (buf : List α) (first : WsaRecv α) (x : Signal) (last : WsaRecv α)
    (numberOfBytesRecvd : UInt32) : Option (SocketNonblocking α H) :=
  let k : Receives α := ⟨s.pending, first, x.succeeds, last, numberOfBytesRecvd⟩
  let s' := { s with bufferedReader := (BufferedReader.recv s.bufferedReader buf k).reader }
  if BufferedReader.orders s.bufferedReader buf k then s'.order x else some s'

inductive Act (α H : Type) where
  | connect (k : Connecting) (x : Signal)
  | setDataCb (dataCb : Option H) (x : Signal)
  | receive (buf : List α) (first : WsaRecv α) (x : Signal) (last : WsaRecv α) (numberOfBytesRecvd : UInt32)
  | clearDataCb
  | disconnect
  | complete
  | dispatch

/-- What the data handler does when a completion is dispatched are other steps. -/
def step : Machine (SocketNonblocking α H) (Act α H)
  | s, .connect k x => s.connect k x
  | s, .setDataCb dataCb x => s.setDataCb dataCb x
  | s, .receive buf first x last numberOfBytesRecvd => s.receive buf first x last numberOfBytesRecvd
  | s, .clearDataCb => some { s with inDataHandler := none, registered := false }
  | s, .disconnect => some { s with registered := false, fileHandle := none }
  | s, .complete =>
    if 0 < s.outstanding then
      some { s with outstanding := s.outstanding - 1, pending := false, queued := s.queued + 1 }
    else none
  | s, .dispatch => if 0 < s.queued then some { s with queued := s.queued - 1 } else none

/-- `setDataCb`, also in `connect`, finds no receive outstanding. -/
def Unused (s : SocketNonblocking α H) : Act α H → Prop
  | .setDataCb _ _ => s.outstanding = 0
  | .connect (.connected _) _ => s.outstanding = 0
  | _ => True

variable {s s' : SocketNonblocking α H} {a : Act α H} {x : Signal} {tr : List (SocketNonblocking α H × Act α H)}

/-- At most one receive is outstanding, and `Internal` tells. -/
structure Inv (s : SocketNonblocking α H) : Prop where
  outstanding_le : s.outstanding ≤ 1
  pending : s.outstanding = 1 → s.pending = true

theorem Inv.of_zero (h : s.outstanding = 0) : Inv s := by
  constructor
  · rw [h]
    exact Nat.zero_le 1
  · exact fun hone => nomatch h.symm.trans hone

theorem Inv.congr (h : Inv s) (hout : s'.outstanding = s.outstanding) (hpending : s'.pending = s.pending) : Inv s' := by
  obtain ⟨hle, hp⟩ := h
  constructor
  · rw [hout]
    exact hle
  · rw [hout, hpending]
    exact hp

theorem order_inv (hzero : s.outstanding = 0) (h : s.order x = some s') : Inv s' := by
  cases x with
  | completed queued =>
    obtain ⟨_, h⟩ := Option.ite_none_right_eq_some.mp h
    obtain rfl := Option.some.inj h
    exact .of_zero hzero
  | pending =>
    obtain ⟨_, h⟩ := Option.ite_none_right_eq_some.mp h
    obtain rfl := Option.some.inj h
    exact ⟨Nat.le_of_eq (congrArg Nat.succ hzero), fun _ => rfl⟩
  | failed internal =>
    obtain rfl := Option.some.inj h
    exact .of_zero hzero

/-- **Step rule.** -/
theorem step_inv (h : Inv s) (hunused : s.Unused a) (hstep : step s a = some s') : Inv s' := by
  cases a with
  | connect k x =>
    cases k with
    | noAddress =>
      obtain rfl := Option.some.inj hstep
      exact h
    | noSocket =>
      obtain rfl := Option.some.inj hstep
      exact h.congr rfl rfl
    | failed fileHandle =>
      obtain rfl := Option.some.inj hstep
      exact h.congr rfl rfl
    | connected fileHandle =>
      simp only [step, connect, setDataCb] at hstep
      refine order_inv ?_ hstep
      exact hunused
  | setDataCb dataCb x =>
    simp only [step, setDataCb] at hstep
    refine order_inv ?_ hstep
    exact hunused
  | receive buf first x last n =>
    simp only [step, receive] at hstep
    split at hstep
    · next horders =>
      -- `recv` has looked at `Internal`
      have hpending : s.pending = false := by
        simp only [BufferedReader.orders] at horders
        split at horders
        · simpa using (Bool.and_eq_true_iff.mp horders).2
        · exact nomatch horders
      have hzero : s.outstanding = 0 := by
        by_contra hne
        have hle := h.outstanding_le
        have htrue := h.pending (by omega)
        exact nomatch hpending.symm.trans htrue
      refine order_inv ?_ hstep
      exact hzero
    · obtain rfl := Option.some.inj hstep
      exact h.congr rfl rfl
  | clearDataCb =>
    obtain rfl := Option.some.inj hstep
    exact h.congr rfl rfl
  | disconnect =>
    obtain rfl := Option.some.inj hstep
    exact h.congr rfl rfl
  | complete =>
    obtain ⟨hpos, hstep⟩ := Option.ite_none_right_eq_some.mp hstep
    obtain rfl := Option.some.inj hstep
    have hle := h.outstanding_le
    have hzero : s.outstanding - 1 = 0 := by omega
    exact .of_zero hzero
  | dispatch =>
    obtain ⟨_, hstep⟩ := Option.ite_none_right_eq_some.mp hstep
    obtain rfl := Option.some.inj hstep
    exact h.congr rfl rfl

/-- **One receive at a time.** In every run in which `setDataCb`, called by the user or by `connect`, finds no receive
outstanding, at most one is outstanding. -/
theorem one_outstanding {mem : List α} {hmem : mem.length = bufferSize} {fileHandle : Option Nat}
    (h : step.Run (new (H := H) mem hmem fileHandle) tr s) (hunused : ∀ x ∈ tr, x.1.Unused x.2) : s.outstanding ≤ 1 := by
  have hinv : Inv s := by
    refine h.guarded (.of_zero rfl) ?_ hunused
    intro s a s' hs hg hstep
    exact step_inv hs hg hstep
  exact hinv.outstanding_le

/-- The first receive completes and is dispatched, then the callback is set again. -/
theorem one_outstanding_again :
    ∃ tr s, step.Run (new (H := Nat) (List.replicate bufferSize (0 : UInt8)) List.length_replicate none) tr s ∧
      (∀ x ∈ tr, x.1.Unused x.2) ∧ s.pending = true ∧ s.outstanding ≤ 1 := by
  have h := run_of_exec step (new (H := Nat) (List.replicate bufferSize (0 : UInt8)) List.length_replicate none)
    [.setDataCb (some 1) (.failed false), .connect (.connected 5) .pending, .complete, .dispatch,
      .setDataCb (some 2) .pending] rfl
  refine ⟨_, _, h, ?_, rfl, one_outstanding h ?_⟩ <;> simp only [List.forall_mem_cons]
  · exact ⟨rfl, trivial, trivial, rfl, rfl, List.forall_mem_nil _⟩
  · exact ⟨rfl, trivial, trivial, rfl, rfl, List.forall_mem_nil _⟩

/-- `setDataCb` after `connect`: two receives are outstanding. -/
theorem callback_after_connect :
    ¬ ∀ tr s, step.Run (new (H := Nat) (List.replicate bufferSize (0 : UInt8)) List.length_replicate none) tr s →
      s.outstanding ≤ 1 := by
  intro h
  have hrun := run_of_exec step (new (H := Nat) (List.replicate bufferSize (0 : UInt8)) List.length_replicate none)
    [.connect (.connected 5) .pending, .setDataCb (some 1) .pending] rfl
  exact absurd (h _ _ hrun) (by decide)

end SocketNonblocking

end Libhbk.Windows
