import Libhbk.Base.Machine

/-!
# The Windows multicast server

A receive is ordered with `WSARecvMsg` when the server starts and whenever `receiveTelegram` has fetched a message.
Between its completion and the fetch `InternalHigh` of the `OVERLAPPED` holds the number of bytes, and 0 says that
there is no message. The receives are numbered, and a completion belongs to its receive.
-/

namespace Libhbk.Windows

open Machine

/-- A control message of a datagram, as far as `receiveTelegram` looks at it. -/
inductive Cmsg where
  | pktinfo (ifindex : UInt32)
  | ttl (ttl : Int)
  | other
  deriving DecidableEq, Repr

/-- A datagram. UDP has 16 bits for its length, and `m_recvBuffer` has 65536 bytes. -/
structure Datagram where
  data : List UInt8
  control : List Cmsg
  length_lt : data.length < 65536
  deriving DecidableEq

/-- `m_receiveEvent.overlapped.InternalHigh`, `m_recvBuffer` and the control messages behind `m_msg`. -/
structure MulticastServer where
  internalHigh : Nat
  recvBuffer : List UInt8
  control : List Cmsg
  deriving DecidableEq

namespace MulticastServer

/-- What `receiveTelegram` gives: the return value, what it wrote to `msgBuf`, `adapterIndex` and `ttl`. -/
structure Telegram where
  nbytes : Int
  msgBuf : List UInt8
  adapterIndex : UInt32
  ttl : Int
  deriving DecidableEq

/-- One turn of the loop over the control messages. -/
def Telegram.cmsg (t : Telegram) : Cmsg → Telegram
  | .pktinfo ifindex => { t with adapterIndex := ifindex }
  | .ttl ttl => { t with ttl := ttl }
  | .other => t

/-- `receiveTelegram(msgBuf, msgBufSize, adapterIndex, ttl)`, and whether it has called `orderNextMessage`. -/
def receiveTelegram (s : MulticastServer) (msgBufSize : Nat) (adapterIndex : UInt32) :
    Telegram × Bool × MulticastServer :=
  if s.internalHigh = 0 then (⟨-1, [], adapterIndex, 1⟩, false, s)
  else
    let size := if msgBufSize < s.internalHigh then msgBufSize else s.internalHigh
    let telegram := s.control.foldl Telegram.cmsg ⟨size, s.recvBuffer.take size, adapterIndex, 1⟩
    (telegram, true, { s with internalHigh := 0 })

/-- The overloads for a `Netadapter` and for its name, with what they look up for an interface. -/
def receiveTelegramFrom {A : Type} (s : MulticastServer) (msgBufSize : Nat)
    (getAdapterByInterfaceIndex : UInt32 → Option A) : Telegram × Option A × Bool × MulticastServer :=
  let (telegram, ordered, s) := s.receiveTelegram msgBufSize 0
  if 0 < telegram.nbytes then
    match getAdapterByInterfaceIndex telegram.adapterIndex with
    | some adapter => (telegram, some adapter, ordered, s)
    | none => ({ telegram with nbytes := -1 }, none, ordered, s)
  else (telegram, none, ordered, s)

/-- The system completes a receive. -/
def fill (s : MulticastServer) (d : Datagram) : MulticastServer :=
  ⟨d.data.length, d.data ++ s.recvBuffer.drop d.data.length, d.control⟩

end MulticastServer

/-- The completion of a receive in the completion port. -/
structure Completion where
  receive : Nat
  length : Nat
  deriving DecidableEq, Repr

/-- Where the event loop is: not with this server; in the data handler; there, after a negative value. -/
inductive Listening.Loop where
  | idle
  | handling
  | negative
  deriving DecidableEq, Repr

/-- A started server: the datagrams that have arrived, the number of receives ordered, those that are outstanding,
and the completions in the port. -/
structure Listening where
  server : MulticastServer
  arrived : List Datagram
  ordered : Nat
  outstanding : List Nat
  queue : List Completion
  loop : Listening.Loop
  deriving DecidableEq

namespace Listening

/-- After `start(address, port, dataHandler)`, with anything in the buffers. -/
def start (recvBuffer : List UInt8) (control : List Cmsg) : Listening :=
  ⟨⟨0, recvBuffer, control⟩, [], 1, [1], [], .idle⟩

/-- `orderNextMessage()`, accepted by the system. -/
def orderNextMessage (w : Listening) : Listening :=
  { w with ordered := w.ordered + 1, outstanding := w.outstanding ++ [w.ordered + 1] }

/-- A call of `receiveTelegram` from the data handler is over. -/
def received (w : Listening) (nbytes : Int) (ordered : Bool) (server : MulticastServer) : Listening :=
  let w := { w with server := server, loop := if nbytes < 0 then .negative else .handling }
  if ordered then w.orderNextMessage else w

inductive Act (A : Type) where
  | arrive (d : Datagram)
  | complete
  | dispatch
  | receiveTelegram (msgBufSize : Nat) (adapterIndex : UInt32)
  | receiveTelegramFrom (msgBufSize : Nat) (getAdapterByInterfaceIndex : UInt32 → Option A)
  | ret (retVal : Int)

variable {A : Type}

/-- The data handler calls `receiveTelegram` until it gets a negative value. -/
def step : Machine Listening (Act A)
  | w, .arrive d => some { w with arrived := w.arrived ++ [d] }
  | w, .complete =>
    match w.outstanding, w.arrived with
    | n :: outstanding, d :: arrived =>
      some { w with
        server := w.server.fill d
        arrived := arrived
        outstanding := outstanding
        queue := w.queue ++ [⟨n, d.data.length⟩] }
    | _, _ => none
  | w, .dispatch =>
    match w.loop, w.queue with
    | .idle, _ :: queue => some { w with queue := queue, loop := .handling }
    | _, _ => none
  | w, .receiveTelegram msgBufSize adapterIndex =>
    if w.loop = .handling then
      let (telegram, ordered, server) := w.server.receiveTelegram msgBufSize adapterIndex
      some (w.received telegram.nbytes ordered server)
    else none
  | w, .receiveTelegramFrom msgBufSize getAdapterByInterfaceIndex =>
    if w.loop = .handling then
      let (telegram, _, ordered, server) := w.server.receiveTelegramFrom msgBufSize getAdapterByInterfaceIndex
      some (w.received telegram.nbytes ordered server)
    else none
  | w, .ret retVal =>
    -- `execute` calls the data handler again for a positive value
    if w.loop = .negative then some { w with loop := if 0 < retVal then .handling else .idle } else none

/-- A receive is outstanding, or the latest one completed with its completion still in the port. -/
def Armed (w : Listening) : Prop := w.outstanding ≠ [] ∨ ∃ c ∈ w.queue, c.receive = w.ordered

/-- The completion of an empty datagram is dispatched. -/
def EmptyDispatch (w : Listening) : Act A → Prop
  | .dispatch => w.queue.head?.map (·.length) = some 0
  | _ => False

instance (w : Listening) : (a : Act A) → Decidable (EmptyDispatch w a)
  | .dispatch => inferInstanceAs (Decidable (_ = _))
  | .arrive _ | .complete | .receiveTelegram _ _ | .receiveTelegramFrom _ _ | .ret _ =>
    inferInstanceAs (Decidable False)

def EmptyDispatched (tr : List (Listening × Act A)) : Prop := ∃ x ∈ tr, EmptyDispatch x.1 x.2

instance (tr : List (Listening × Act A)) : Decidable (EmptyDispatched tr) := List.decidableBEx _ _

variable {tr : List (Listening × Act A)} {w w' : Listening} {a : Act A}

/-! ### What a call of `receiveTelegram` does -/

theorem receiveTelegram_cases (s : MulticastServer) (msgBufSize : Nat) (adapterIndex : UInt32) :
    s.internalHigh = 0 ∧ (s.receiveTelegram msgBufSize adapterIndex).1.nbytes = -1 ∧
        (s.receiveTelegram msgBufSize adapterIndex).2 = (false, s) ∨
      s.internalHigh ≠ 0 ∧ (s.receiveTelegram msgBufSize adapterIndex).2 = (true, { s with internalHigh := 0 }) := by
  rw [MulticastServer.receiveTelegram]
  by_cases h : s.internalHigh = 0
  · rw [if_pos h]
    exact Or.inl ⟨h, rfl, rfl⟩
  · rw [if_neg h]
    exact Or.inr ⟨h, rfl⟩

theorem receiveTelegramFrom_cases (s : MulticastServer) (msgBufSize : Nat) (adapters : UInt32 → Option A) :
    s.internalHigh = 0 ∧ (s.receiveTelegramFrom msgBufSize adapters).1.nbytes = -1 ∧
        (s.receiveTelegramFrom msgBufSize adapters).2.2 = (false, s) ∨
      s.internalHigh ≠ 0 ∧
        (s.receiveTelegramFrom msgBufSize adapters).2.2 = (true, { s with internalHigh := 0 }) := by
  have hordered : (s.receiveTelegramFrom msgBufSize adapters).2.2 = (s.receiveTelegram msgBufSize 0).2 := by
    simp only [MulticastServer.receiveTelegramFrom]
    split
    · split <;> rfl
    · rfl
  rw [hordered]
  refine (receiveTelegram_cases s msgBufSize 0).imp_left ?_
  rintro ⟨hzero, hnbytes, hs⟩
  refine ⟨hzero, ?_, hs⟩
  simp only [MulticastServer.receiveTelegramFrom]
  rw [if_neg (by omega)]
  exact hnbytes

theorem handler_cases (ha : (∃ msgBufSize adapterIndex, a = .receiveTelegram msgBufSize adapterIndex) ∨
      ∃ msgBufSize adapters, a = .receiveTelegramFrom msgBufSize adapters) (hstep : step w a = some w') :
    w.loop = .handling ∧
      (w.server.internalHigh = 0 ∧ w' = { w with loop := .negative } ∨
        w.server.internalHigh ≠ 0 ∧ ∃ loop,
          w' = { w with server.internalHigh := 0, loop := loop }.orderNextMessage) := by
  have hcases {nbytes : Int} {ordered : Bool} {server : MulticastServer}
      (h : w.server.internalHigh = 0 ∧ nbytes = -1 ∧ (ordered, server) = (false, w.server) ∨
        w.server.internalHigh ≠ 0 ∧ (ordered, server) = (true, { w.server with internalHigh := 0 }))
      (hw : w.received nbytes ordered server = w') :
      w.server.internalHigh = 0 ∧ w' = { w with loop := .negative } ∨
        w.server.internalHigh ≠ 0 ∧ ∃ loop,
          w' = { w with server.internalHigh := 0, loop := loop }.orderNextMessage := by
    rcases h with ⟨hzero, rfl, he⟩ | ⟨hne, he⟩
    · obtain ⟨rfl, rfl⟩ := Prod.mk.inj he
      exact Or.inl ⟨hzero, hw.symm⟩
    · obtain ⟨rfl, rfl⟩ := Prod.mk.inj he
      exact Or.inr ⟨hne, _, hw.symm⟩
  rcases ha with ⟨msgBufSize, adapterIndex, rfl⟩ | ⟨msgBufSize, adapters, rfl⟩
  · obtain ⟨hloop, hstep⟩ := Option.ite_none_right_eq_some.mp hstep
    exact ⟨hloop, hcases (receiveTelegram_cases _ _ _) (Option.some.inj hstep)⟩
  · obtain ⟨hloop, hstep⟩ := Option.ite_none_right_eq_some.mp hstep
    exact ⟨hloop, hcases (receiveTelegramFrom_cases _ _ _) (Option.some.inj hstep)⟩

/-! ### From receive to receive -/

/-- Completions of receives before the latest; their messages have been fetched, so they were not empty. -/
def Fetched (w : Listening) (queue : List Completion) : Prop := ∀ c ∈ queue, c.receive < w.ordered ∧ c.length ≠ 0

/-- The latest receive is outstanding; its completion is in the port; the data handler is about to fetch its message;
or it was empty. -/
inductive Phase (tr : List (Listening × Act A)) (w : Listening) : Prop where
  | outstanding (hout : w.outstanding = [w.ordered]) (hhigh : w.server.internalHigh = 0)
      (hqueue : w.Fetched w.queue) (hempty : ¬ EmptyDispatched tr)
  | queued (queue : List Completion) (hout : w.outstanding = [])
      (hqueue : w.queue = queue ++ [⟨w.ordered, w.server.internalHigh⟩]) (hfetched : w.Fetched queue)
      (hempty : ¬ EmptyDispatched tr)
  | fetching (hout : w.outstanding = []) (hqueue : w.queue = []) (hhigh : w.server.internalHigh ≠ 0)
      (hloop : w.loop = .handling) (hempty : ¬ EmptyDispatched tr)
  | deaf (hout : w.outstanding = []) (hqueue : w.queue = []) (hhigh : w.server.internalHigh = 0)
      (hempty : EmptyDispatched tr)

theorem emptyDispatched_cons : EmptyDispatched ((w, a) :: tr) ↔ EmptyDispatch w a ∨ EmptyDispatched tr :=
  List.exists_mem_cons_iff _ _ _

theorem emptyDispatched_cons_of_ne (ha : a ≠ .dispatch) : EmptyDispatched ((w, a) :: tr) ↔ EmptyDispatched tr := by
  refine emptyDispatched_cons.trans (or_iff_right ?_)
  cases a with
  | dispatch => exact absurd rfl ha
  | _ => exact id

theorem Phase.congr (h : Phase tr w) (ha : a ≠ .dispatch) (hout : w'.outstanding = w.outstanding)
    (hordered : w'.ordered = w.ordered) (hqueue : w'.queue = w.queue) (hserver : w'.server = w.server)
    (hloop : w'.loop = w.loop ∨ w.loop = .negative ∨ w.server.internalHigh = 0) : Phase ((w, a) :: tr) w' := by
  have hempty : EmptyDispatched ((w, a) :: tr) ↔ EmptyDispatched tr := emptyDispatched_cons_of_ne ha
  have hfetched {queue : List Completion} (hf : w.Fetched queue) : w'.Fetched queue := by
    unfold Fetched
    rw [hordered]
    exact hf
  cases h with
  | outstanding ho hhigh hf he =>
    exact .outstanding (by rw [hout, hordered, ho]) (by rw [hserver, hhigh]) (hqueue ▸ hfetched hf) (hempty.not.mpr he)
  | queued queue ho hq hf he =>
    exact .queued queue (hout.trans ho) (by rw [hqueue, hordered, hserver, hq]) (hfetched hf) (hempty.not.mpr he)
  | fetching ho hq hhigh hl he =>
    refine .fetching (hout.trans ho) (hqueue.trans hq) (hserver ▸ hhigh) ?_ (hempty.not.mpr he)
    rcases hloop with hloop | hloop | hzero
    · exact hloop.trans hl
    · exact nomatch hl.symm.trans hloop
    · exact absurd hzero hhigh
  | deaf ho hq hhigh he =>
    exact .deaf (hout.trans ho) (hqueue.trans hq) (hserver ▸ hhigh) (hempty.mpr he)

theorem Phase.fetch (h : Phase tr w) (ha : a ≠ .dispatch) (hhigh : w.server.internalHigh ≠ 0) (loop : Loop) :
    Phase ((w, a) :: tr) { w with server.internalHigh := 0, loop := loop }.orderNextMessage := by
  have hempty : EmptyDispatched ((w, a) :: tr) ↔ EmptyDispatched tr := emptyDispatched_cons_of_ne ha
  cases h with
  | outstanding ho hzero => exact absurd hzero hhigh
  | queued queue ho hq hf he =>
    refine .outstanding (by rw [orderNextMessage, ho]; rfl) rfl ?_ (hempty.not.mpr he)
    intro c hc
    change c ∈ w.queue at hc
    rw [hq] at hc
    rcases List.mem_append.mp hc with hc | hc
    · exact ⟨Nat.lt_succ_of_lt (hf c hc).1, (hf c hc).2⟩
    · obtain rfl := List.mem_singleton.mp hc
      exact ⟨Nat.lt_succ_self _, hhigh⟩
  | fetching ho hq hne hl he =>
    refine .outstanding (by rw [orderNextMessage, ho]; rfl) rfl ?_ (hempty.not.mpr he)
    intro c hc
    change c ∈ w.queue at hc
    rw [hq] at hc
    exact absurd hc List.not_mem_nil
  | deaf ho hq hzero => exact absurd hzero hhigh

/-- **Step rule.** -/
theorem step_phase (h : Phase tr w) (hstep : step w a = some w') : Phase ((w, a) :: tr) w' := by
  cases a with
  | arrive d =>
    obtain rfl := Option.some.inj hstep
    exact h.congr nofun rfl rfl rfl rfl (Or.inl rfl)
  | complete =>
    simp only [step] at hstep
    split at hstep
    · next n outstanding d arrived hout harrived =>
      obtain rfl := Option.some.inj hstep
      cases h with
      | outstanding ho hhigh hf he =>
        obtain ⟨rfl, rfl⟩ := List.cons.inj (hout.symm.trans ho)
        exact .queued w.queue rfl rfl hf ((emptyDispatched_cons_of_ne (a := .complete) nofun).not.mpr he)
      | queued queue ho => exact nomatch hout.symm.trans ho
      | fetching ho => exact nomatch hout.symm.trans ho
      | deaf ho => exact nomatch hout.symm.trans ho
    · exact nomatch hstep
  | dispatch =>
    simp only [step] at hstep
    split at hstep
    · next c queue hloop hqueue =>
      obtain rfl := Option.some.inj hstep
      -- only the completion of the latest receive can be that of an empty datagram
      have hdispatch : EmptyDispatch w (A := A) .dispatch ↔ c.length = 0 := by
        simp only [EmptyDispatch, hqueue, List.head?_cons, Option.map_some, Option.some_inj]
      have hold (hc : c.length ≠ 0) (he : ¬ EmptyDispatched tr) : ¬ EmptyDispatched ((w, .dispatch) :: tr) := by
        rw [emptyDispatched_cons, hdispatch]
        exact not_or.mpr ⟨hc, he⟩
      cases h with
      | outstanding ho hhigh hf he =>
        rw [hqueue] at hf
        obtain ⟨hc, hf⟩ := List.forall_mem_cons.mp hf
        exact .outstanding ho hhigh hf (hold hc.2 he)
      | queued older ho hq hf he =>
        rw [hqueue] at hq
        cases older with
        | nil =>
          obtain ⟨rfl, rfl⟩ := List.cons.inj hq
          by_cases hzero : w.server.internalHigh = 0
          · exact .deaf ho rfl hzero (emptyDispatched_cons.mpr (Or.inl (hdispatch.mpr hzero)))
          · exact .fetching ho rfl hzero rfl (hold hzero he)
        | cons c' older =>
          obtain ⟨rfl, rfl⟩ := List.cons.inj hq
          obtain ⟨hc, hf⟩ := List.forall_mem_cons.mp hf
          exact .queued older ho rfl hf (hold hc.2 he)
      | fetching ho hq => exact nomatch hqueue.symm.trans hq
      | deaf ho hq => exact nomatch hqueue.symm.trans hq
    · exact nomatch hstep
  | receiveTelegram msgBufSize adapterIndex =>
    obtain ⟨_, ⟨hzero, rfl⟩ | ⟨hne, loop, rfl⟩⟩ := handler_cases (Or.inl ⟨_, _, rfl⟩) hstep
    · exact h.congr nofun rfl rfl rfl rfl (Or.inr (Or.inr hzero))
    · exact h.fetch (a := .receiveTelegram msgBufSize adapterIndex) nofun hne loop
  | receiveTelegramFrom msgBufSize adapters =>
    obtain ⟨_, ⟨hzero, rfl⟩ | ⟨hne, loop, rfl⟩⟩ := handler_cases (Or.inr ⟨_, _, rfl⟩) hstep
    · exact h.congr nofun rfl rfl rfl rfl (Or.inr (Or.inr hzero))
    · exact h.fetch (a := .receiveTelegramFrom msgBufSize adapters) nofun hne loop
  | ret retVal =>
    obtain ⟨hloop, hstep⟩ := Option.ite_none_right_eq_some.mp hstep
    obtain rfl := Option.some.inj hstep
    exact h.congr nofun rfl rfl rfl rfl (Or.inr (Or.inl hloop))

theorem run_phase {recvBuffer : List UInt8} {control : List Cmsg}
    (h : (step (A := A)).Run (start recvBuffer control) tr w) : Phase tr w := by
  refine h.trace_induction ?_ fun _ _ _ _ _ => step_phase
  refine .outstanding rfl rfl (List.forall_mem_nil _) ?_
  rintro ⟨x, hx, _⟩
  exact List.not_mem_nil hx

/-- **The server is not deaf** after a dispatch exactly if no completion of an empty datagram has been dispatched. -/
theorem armed_iff {recvBuffer : List UInt8} {control : List Cmsg}
    (h : (step (A := A)).Run (start recvBuffer control) tr w) (hidle : w.loop = .idle) :
    w.Armed ↔ ¬ EmptyDispatched tr := by
  cases run_phase h with
  | outstanding ho hhigh hf he => exact iff_of_true (Or.inl (ho ▸ List.cons_ne_nil _ _)) he
  | queued queue ho hq hf he =>
    refine iff_of_true (Or.inr ⟨⟨w.ordered, w.server.internalHigh⟩, ?_, rfl⟩) he
    rw [hq]
    exact List.mem_append_right _ (List.mem_singleton_self _)
  | fetching ho hq hhigh hl he => exact nomatch hl.symm.trans hidle
  | deaf ho hq hhigh he =>
    refine iff_of_false ?_ (not_not.mpr he)
    rintro (hne | ⟨c, hc, _⟩)
    · exact hne ho
    · rw [hq] at hc
      exact List.not_mem_nil hc

/-- Two datagrams, the second one fetched before its own completion is dispatched. -/
theorem armed_two :
    ∃ tr w, (step (A := Nat)).Run (start [] []) tr w ∧ w.loop = .idle ∧ w.ordered = 3 ∧ w.Armed := by
  have h := run_of_exec (step (A := Nat)) (start [] [])
    [.arrive ⟨[1, 2], [.ttl 4], by decide⟩, .arrive ⟨[3], [.pktinfo 7], by decide⟩, .complete, .dispatch,
      .receiveTelegram 10 0, .complete, .receiveTelegramFrom 10 (fun _ => none), .ret 0, .dispatch,
      .receiveTelegram 10 0, .ret 0] rfl
  exact ⟨_, _, h, rfl, rfl, (armed_iff h rfl).mpr (by decide +kernel)⟩

/-- After an empty datagram no receive is ordered. -/
theorem empty_datagram_deaf :
    ¬ ∀ tr w, (step (A := Nat)).Run (start [] []) tr w → w.loop = .idle → w.Armed := by
  intro h
  have hrun := run_of_exec (step (A := Nat)) (start [] [])
    [.arrive ⟨[], [.ttl 4], by decide⟩, .complete, .dispatch, .receiveTelegram 1024 0, .ret 0] rfl
  rcases h _ _ hrun rfl with hout | ⟨c, hc, _⟩
  · exact hout rfl
  · exact List.not_mem_nil hc

end Listening

end Libhbk.Windows
