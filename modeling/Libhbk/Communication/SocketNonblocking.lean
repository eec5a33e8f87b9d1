import Libhbk.Base.Machine
import Libhbk.Communication.BufferedReader
import Libhbk.Communication.ReceiveComplete
import Libhbk.Sys.EventLoop.Descriptors

/-!
# The Linux socket over its connections

`SocketNonblocking` keeps one `BufferedReader` for its whole life, over any number of `connect` and
`disconnect` calls. A byte carries the file it was read from, so that one can say whose bytes a call
delivers. What `addEvent` does besides registering, the calls of the new handler, is left out.
-/

namespace Libhbk

/-- A byte and the open file it was read from. -/
structure Sent (β : Type) where
  origin : File
  value : β
  deriving DecidableEq, Repr

/-- What the system answers to one `connect`: whether `socket` succeeds, the results of `setSocketOptions`,
`::connect` (with `errno` being `EINPROGRESS`) and `waitForWritable`, `SO_ERROR`, and what the registrations
of the handlers need. -/
structure Connecting where
  socket : Bool
  setSocketOptions : Int
  connect : Int
  inProgress : Bool
  waitForWritable : Int
  soError : Int
  inNode : Addr
  outNode : Addr
  grant : Bool

namespace Connecting

/-- The return value of `connect` once it has a socket and its callbacks are registered. -/
def result (c : Connecting) : Int :=
  if c.setSocketOptions < 0 then -1
  else if c.connect = -1 then
    -- success if errno equals EINPROGRESS
    if c.inProgress = false then -1
    else if c.waitForWritable ≠ 1 then -1
    else if c.soError ≠ 0 then -1
    else 0
  else 0

/-- The answers with which `connect` returns 0. -/
def Succeeds (c : Connecting) : Prop :=
  c.socket = true ∧ 0 ≤ c.setSocketOptions ∧
    (c.connect = -1 → c.inProgress = true ∧ c.waitForWritable = 1 ∧ c.soError = 0)

theorem result_eq_zero (c : Connecting) :
    c.result = 0 ↔ 0 ≤ c.setSocketOptions ∧
      (c.connect = -1 → c.inProgress = true ∧ c.waitForWritable = 1 ∧ c.soError = 0) := by
  unfold result
  by_cases hoptions : c.setSocketOptions < 0
  · simp [hoptions]
  · by_cases hconnect : c.connect = -1
    · rw [if_neg hoptions, if_pos hconnect]
      split_ifs <;> simp_all
    · simp [hoptions, hconnect, Int.not_lt.mp hoptions]

end Connecting

/-- `recv` as `receiveComplete` sees it. -/
def BufferedReader.received {α : Type} (r : BufferedReader α) (buf : List α) (k : Readv α) :
    Received (BufferedReader α) α :=
  let o := r.recv buf k
  ⟨o.ret, o.buf, o.reader, k.again⟩

structure SocketNonblocking (α H : Type) where
  event : Fd
  bufferedReader : BufferedReader α
  inDataHandler : Option H
  outDataHandler : Option H
  eventLoop : EventLoop Files H

namespace SocketNonblocking

variable {α β H : Type}

/-- The constructor. -/
def new (mem : List α) (h : mem.length = bufferSize) (eventLoop : EventLoop Files H) : SocketNonblocking α H where
  event := -1
  bufferedReader := .new mem h
  inDataHandler := none
  outDataHandler := none
  eventLoop := eventLoop

/-- The constructor for a descriptor that was accepted, which the object owns from then on. -/
def accepted (mem : List α) (h : mem.length = bufferSize) (eventLoop : EventLoop Files H) (σ : Nat) :
    SocketNonblocking α H where
  event := FdTable.lowestFree eventLoop.kernel.table
  bufferedReader := .new mem h
  inDataHandler := none
  outDataHandler := none
  eventLoop := { eventLoop with kernel := eventLoop.kernel.openFile (.socket σ) }

/-- Register a callback that might have been set before the descriptor was created; `none` if the memory given
for a new entry is in use. -/
def register (d : Dir) (s : SocketNonblocking α H) (dataCb : Option H) (a : Addr) (grant : Bool) :
    Option (SocketNonblocking α H) :=
  match dataCb with
  | none => some s
  | some h =>
    if ha : s.eventLoop.eventInfos.live a = false then
      some { s with eventLoop := (s.eventLoop.addHandler (Files.ctl grant) d ⟨a, ha⟩ s.event (some h)).loop }
    else none

/-- `connect` with the address given; `σ` names the socket it creates. -/
def connect (s : SocketNonblocking α H) (σ : Nat) (c : Connecting) : Option (Int × SocketNonblocking α H) :=
  if c.socket = false then some (-1, { s with event := -1 })
  else
    let s := { s with
      event := FdTable.lowestFree s.eventLoop.kernel.table
      eventLoop := { s.eventLoop with kernel := s.eventLoop.kernel.openFile (.socket σ) } }
    (s.register .inp s.inDataHandler c.inNode c.grant).bind fun s =>
      (s.register .out s.outDataHandler c.outNode c.grant).bind fun s => some (c.result, s)

def receive (s : SocketNonblocking α H) (block : List α) (k : Readv α) : RecvResult α × SocketNonblocking α H :=
  let o := s.bufferedReader.recv block k
  (o, { s with bufferedReader := o.reader })

def receiveComplete (s : SocketNonblocking α H) (block : List α) (turns : List (Turn (Readv α))) :
    Option (ReceivedBlock (BufferedReader α) α × SocketNonblocking α H) :=
  (Libhbk.receiveComplete BufferedReader.received turns s.bufferedReader block).map fun o =>
    (o, { s with bufferedReader := o.reader })

def disconnect (s : SocketNonblocking α H) : SocketNonblocking α H :=
  if s.event ≠ -1 then
    let l := { s.eventLoop with kernel := s.eventLoop.kernel.close s.event }
    let l := (l.eraseEvent (Files.ctl true) s.event).loop
    let l := (l.eraseOutEvent (Files.ctl true) s.event).loop
    { s with event := -1, eventLoop := l }
  else { s with event := -1 }

/-! ### What the calls do -/

theorem register_eq {d : Dir} {s s' : SocketNonblocking α H} {dataCb : Option H} {a : Addr} {grant : Bool}
    (h : s.register d dataCb a grant = some s') :
    s'.bufferedReader = s.bufferedReader ∧ s'.event = s.event ∧
      ∀ fd, s'.eventLoop.kernel.file fd = s.eventLoop.kernel.file fd := by
  rcases dataCb with _ | cb
  · obtain rfl := Option.some.inj h
    exact ⟨rfl, rfl, fun _ => rfl⟩
  · simp only [register, Option.dite_none_right_eq_some, Option.some.injEq] at h
    obtain ⟨ha, rfl⟩ := h
    exact ⟨rfl, rfl, s.eventLoop.addHandler_file grant d ⟨a, ha⟩ s.event (some cb)⟩

/-- `connect` leaves the reader alone; if it succeeds, the object has the socket it created. -/
theorem connect_eq {s s' : SocketNonblocking α H} {σ : Nat} {c : Connecting} {ret : Int}
    (h : s.connect σ c = some (ret, s')) :
    s'.bufferedReader = s.bufferedReader ∧
      (ret = 0 → c.Succeeds ∧ s'.eventLoop.kernel.file s'.event = some (.socket σ)) := by
  unfold connect at h
  by_cases hsocket : c.socket = false
  · simp only [hsocket, if_true, Option.some.injEq, Prod.mk.injEq] at h
    obtain ⟨rfl, rfl⟩ := h
    exact ⟨rfl, fun h => by simp at h⟩
  · rw [if_neg hsocket] at h
    simp only [Option.bind_eq_some_iff] at h
    obtain ⟨s₁, h₁, s₂, h₂, h⟩ := h
    obtain ⟨rfl, rfl⟩ := Prod.mk.inj (Option.some.inj h)
    obtain ⟨hreader₁, hevent₁, hfile₁⟩ := register_eq h₁
    obtain ⟨hreader₂, hevent₂, hfile₂⟩ := register_eq h₂
    rw [hreader₂, hreader₁, hevent₂, hevent₁, hfile₂, hfile₁, c.result_eq_zero]
    refine ⟨rfl, fun hresult => ⟨⟨by simpa using hsocket, hresult⟩, ?_⟩⟩
    exact (FdTable.file_allocate _ _ _).trans (if_pos rfl)

theorem disconnect_reader (s : SocketNonblocking α H) : s.disconnect.bufferedReader = s.bufferedReader := by
  unfold disconnect
  split <;> rfl

theorem receiveComplete_all {P : α → Prop} {s s' : SocketNonblocking α H} (hw : s.bufferedReader.Wf)
    (hr : ∀ b ∈ s.bufferedReader.buffered, P b) {block : List α} {turns : List (Turn (Readv α))}
    (hk : ∀ t ∈ turns, ∀ avail, t.answer = .data avail → ∀ b ∈ avail, P b)
    {o : ReceivedBlock (BufferedReader α) α} (h : s.receiveComplete block turns = some (o, s')) :
    (∀ b ∈ o.block.take o.ret.toNat, P b) ∧ s'.bufferedReader.Wf ∧ ∀ b ∈ s'.bufferedReader.buffered, P b := by
  obtain ⟨o', ho, he⟩ := Option.map_eq_some_iff.mp h
  obtain ⟨rfl, rfl⟩ := Prod.mk.inj he
  obtain ⟨⟨hwf, hbuffered, hgot⟩, hret⟩ :=
    receiveLoop_invariant (I := fun r got => r.Wf ∧ (∀ b ∈ r.buffered, P b) ∧ ∀ b ∈ got, P b)
      (fun t ht r got rest hi => by
        obtain ⟨hwf, hbuffered, hgot⟩ := hi
        obtain ⟨hhanded, hkept⟩ := r.recv_all hwf hbuffered rest (hk t ht)
        refine ⟨r.recv_wf hwf rest t.answer, hkept, fun b hb => ?_⟩
        exact (List.mem_append.mp hb).elim (hgot b) (hhanded b))
      ⟨hw, hr, List.forall_mem_nil _⟩ ho
  refine ⟨fun b hb => hgot b ?_, hwf, hbuffered⟩
  exact List.mem_of_mem_take (i := o'.ret.toNat) (by rwa [List.take_take, Nat.min_eq_left (by omega)])

end SocketNonblocking

/-! ### One object over several connections -/

/-- The object, the sockets it has created, and the connection it has: the last socket created, if `connect`
returned success and `disconnect` was not called since. -/
structure Session (β H : Type) where
  socket : SocketNonblocking (Sent β) H
  created : Nat
  current : Option Nat

inductive SessionAct (β : Type) where
  | connect (c : Connecting)
  | receive (block : List (Sent β)) (k : Readv β)
  | receiveComplete (block : List (Sent β)) (turns : List (Turn (Readv β)))
  | disconnect

namespace Session

variable {β H : Type}

/-- What `readv` finds: the bytes come from the file behind the descriptor. -/
def readv (s : Session β H) (k : Readv β) : Readv (Sent β) :=
  match s.socket.eventLoop.kernel.file s.socket.event with
  | none => .error false
  | some f => k.map (⟨f, ·⟩)

def turns (s : Session β H) (ts : List (Turn (Readv β))) : List (Turn (Readv (Sent β))) :=
  ts.map fun t => ⟨s.readv t.answer, t.nfds⟩

/-- The machine. -/
def step : Machine (Session β H) (SessionAct β) := fun s a =>
  match a with
  | .connect c => (s.socket.connect s.created c).map fun (ret, socket) =>
      { socket := socket, created := s.created + 1, current := if ret = 0 then some s.created else none }
  | .receive block k => some { s with socket := (s.socket.receive block (s.readv k)).2 }
  | .receiveComplete block ts =>
    (s.socket.receiveComplete block (s.turns ts)).map fun (_, socket) => { s with socket := socket }
  | .disconnect => some { s with socket := s.socket.disconnect, current := none }

/-- The bytes that a call delivers. -/
def delivered (s : Session β H) : SessionAct β → List (Sent β)
  | .receive block k => (s.socket.receive block (s.readv k)).1.handed
  | .receiveComplete block ts =>
    match s.socket.receiveComplete block (s.turns ts) with
    | none => []
    | some (o, _) => o.block.take o.ret.toNat
  | _ => []

/-- A connect that succeeds finds nothing left in the reader. -/
def Clean (s : Session β H) : SessionAct β → Prop
  | .connect c => c.Succeeds → s.socket.bufferedReader.buffered = []
  | _ => True

/-- The descriptor is the one of the connection, and so are all bytes read ahead. -/
structure Inv (s : Session β H) : Prop where
  wf : s.socket.bufferedReader.Wf
  file : ∀ c, s.current = some c → s.socket.eventLoop.kernel.file s.socket.event = some (.socket c)
  origin : ∀ c, s.current = some c → ∀ b ∈ s.socket.bufferedReader.buffered, b.origin = .socket c

theorem readv_origin {s : Session β H} {f : File} (hf : s.socket.eventLoop.kernel.file s.socket.event = some f)
    (k : Readv β) : ∀ avail, s.readv k = .data avail → ∀ b ∈ avail, b.origin = f := by
  intro avail h b hb
  simp only [readv, hf] at h
  rcases k with again | bs
  · simp [Readv.map] at h
  · obtain rfl := Readv.data.inj h
    obtain ⟨v, _, rfl⟩ := List.mem_map.mp hb
    rfl

/-- One step of a clean run: it keeps the invariant and delivers bytes of the connection. -/
theorem step_inv {s s' : Session β H} {a : SessionAct β} (h : Inv s) (hc : s.Clean a) (hs : step s a = some s') :
    Inv s' ∧ ∀ c, s.current = some c → ∀ b ∈ s.delivered a, b.origin = .socket c := by
  rcases a with c | ⟨block, k⟩ | ⟨block, ts⟩ | _
  · obtain ⟨⟨ret, socket⟩, hconnect, rfl⟩ := Option.map_eq_some_iff.mp hs
    obtain ⟨hreader, hok⟩ := SocketNonblocking.connect_eq hconnect
    refine ⟨⟨?_, fun c' hc' => ?_, fun c' hc' => ?_⟩, fun _ _ => List.forall_mem_nil _⟩
    · show socket.bufferedReader.Wf
      rw [hreader]
      exact h.wf
    · simp only [Option.ite_none_right_eq_some, Option.some.injEq] at hc'
      obtain ⟨h0, rfl⟩ := hc'
      exact (hok h0).2
    · simp only [Option.ite_none_right_eq_some, Option.some.injEq] at hc'
      obtain ⟨h0, rfl⟩ := hc'
      show ∀ b ∈ socket.bufferedReader.buffered, _
      rw [hreader, hc (hok h0).1]
      exact List.forall_mem_nil _
  · obtain rfl := Option.some.inj hs
    have hrecv : ∀ c, s.current = some c → _ := fun c hcur =>
      BufferedReader.recv_all (P := fun b => b.origin = .socket c) _ h.wf (h.origin c hcur) block
        (readv_origin (h.file c hcur) k)
    exact ⟨⟨BufferedReader.recv_wf _ h.wf _ _, h.file, fun c hcur => (hrecv c hcur).2⟩, fun c hcur => (hrecv c hcur).1⟩
  · obtain ⟨⟨o, socket⟩, hreceive, rfl⟩ := Option.map_eq_some_iff.mp hs
    have hturns : ∀ c, s.current = some c → ∀ t ∈ s.turns ts, ∀ avail, t.answer = .data avail →
        ∀ b ∈ avail, b.origin = .socket c := by
      intro c hcur t ht
      obtain ⟨t', _, rfl⟩ := List.mem_map.mp ht
      exact readv_origin (h.file c hcur) t'.answer
    have hall := fun c hcur => SocketNonblocking.receiveComplete_all (P := fun b => b.origin = .socket c) h.wf
      (h.origin c hcur) (hturns c hcur) hreceive
    have hwf := SocketNonblocking.receiveComplete_all (P := fun _ => True) h.wf (fun _ _ => trivial)
      (fun _ _ _ _ _ _ => trivial) hreceive
    obtain ⟨o', _, he⟩ := Option.map_eq_some_iff.mp hreceive
    obtain ⟨rfl, rfl⟩ := Prod.mk.inj he
    refine ⟨⟨hwf.2.1, h.file, fun c hcur => (hall c hcur).2.2⟩, fun c hcur => ?_⟩
    simp only [delivered, hreceive]
    exact (hall c hcur).1
  · obtain rfl := Option.some.inj hs
    refine ⟨⟨?_, fun c hc => by simp at hc, fun c hc => by simp at hc⟩, fun _ _ => List.forall_mem_nil _⟩
    show s.socket.disconnect.bufferedReader.Wf
    rw [SocketNonblocking.disconnect_reader]
    exact h.wf

/-- A new object, with the callbacks that are set before it connects. -/
def start (mem : List (Sent β)) (h : mem.length = bufferSize) (dataCb outDataCb : Option H)
    (eventLoop : EventLoop Files H) : Session β H where
  socket := { SocketNonblocking.new mem h eventLoop with inDataHandler := dataCb, outDataHandler := outDataCb }
  created := 0
  current := none

theorem start_inv (mem : List (Sent β)) (h : mem.length = bufferSize) (dataCb outDataCb : Option H)
    (eventLoop : EventLoop Files H) : Inv (start mem h dataCb outDataCb eventLoop) :=
  ⟨⟨Nat.le_refl _, Nat.zero_le _⟩, fun c hc => by simp [start] at hc, fun c hc => by simp [start] at hc⟩

/-- An object for a connection that was accepted, to the socket 0. -/
def accepted (mem : List (Sent β)) (h : mem.length = bufferSize) (eventLoop : EventLoop Files H) : Session β H where
  socket := .accepted mem h eventLoop 0
  created := 1
  current := some 0

theorem accepted_inv (mem : List (Sent β)) (h : mem.length = bufferSize) (eventLoop : EventLoop Files H) :
    Inv (accepted mem h eventLoop) := by
  refine ⟨⟨Nat.le_refl _, Nat.zero_le _⟩, fun c hc => ?_, fun c _ => List.forall_mem_nil _⟩
  obtain rfl := Option.some.inj hc
  exact (FdTable.file_allocate _ _ _).trans (if_pos rfl)

/-- **Connections are separate.** In a run whose successful connects find nothing left in the reader, every byte
that a call delivers while the object is connected comes from the peer of this connection. -/
theorem delivers_own_connection (mem : List (Sent β)) (hmem : mem.length = bufferSize) (dataCb outDataCb : Option H)
    (eventLoop : EventLoop Files H) {s₀ : Session β H}
    (hstart : s₀ = start mem hmem dataCb outDataCb eventLoop ∨ s₀ = accepted mem hmem eventLoop)
    {tr : List (Session β H × SessionAct β)} {s : Session β H} (h : step.Run s₀ tr s)
    (hclean : ∀ x ∈ tr, x.1.Clean x.2) :
    ∀ x ∈ tr, ∀ c, x.1.current = some c → ∀ b ∈ x.1.delivered x.2, b.origin = .socket c := by
  have hfirst : Inv s₀ := by
    rcases hstart with rfl | rfl
    · exact start_inv mem hmem dataCb outDataCb eventLoop
    · exact accepted_inv mem hmem eventLoop
  intro x hx
  obtain ⟨tr₂, tr₁, rfl⟩ := List.append_of_mem hx
  obtain ⟨s', h₁, hs, _⟩ := h.split
  have hbefore : ∀ y ∈ tr₁, y.1.Clean y.2 := fun y hy =>
    hclean y (List.mem_append_right _ (List.mem_cons_of_mem _ hy))
  have hinv := h₁.guarded (G := Clean) hfirst (fun _ _ _ hi hc hs => (step_inv hi hc hs).1) hbefore
  exact (step_inv hinv (hclean x hx) hs).2

/-- An event loop of a process that has one other file open. -/
def idleLoop : EventLoop Files Nat where
  eventInfos := .empty
  events := []
  eventCount := 0
  kernel := { table := [some (.other 0)], children := [], interest := fun _ _ => none }

/-- All answers of a `connect` that goes through. -/
def connecting : Connecting := ⟨true, 0, 0, false, 1, 0, 0, 1, true⟩

/-- Everything of the first connection is received, with one wait, before the second; the first one may have been
accepted. -/
theorem delivers_own_connection_twice :
    let mem := List.replicate bufferSize (⟨.other 0, 0⟩ : Sent UInt8)
    let again : Turn (Readv UInt8) := ⟨.error true, 1⟩
    (∃ (tr : List (Session UInt8 Nat × SessionAct UInt8)) (s₁ s : Session UInt8 Nat),
      step.Run (start mem List.length_replicate none none idleLoop)
        ((s₁, .receive [⟨.other 0, 0⟩] (.data [3])) :: tr) s ∧
      s₁.delivered (.receive [⟨.other 0, 0⟩] (.data [3])) = [⟨.socket 1, 3⟩] ∧ s₁.current = some 1 ∧
      tr.map Prod.snd = [.connect connecting, .disconnect,
        .receiveComplete [⟨.other 0, 0⟩, ⟨.other 0, 0⟩] [again, ⟨.data [1, 2], 0⟩], .connect connecting] ∧
      ∀ b ∈ s₁.delivered (.receive [⟨.other 0, 0⟩] (.data [3])), b.origin = .socket 1) ∧
    ∃ (tr : List (Session UInt8 Nat × SessionAct UInt8)) (s₁ s : Session UInt8 Nat),
      step.Run (accepted mem List.length_replicate idleLoop) ((s₁, .receive [⟨.other 0, 0⟩] (.data [3])) :: tr) s ∧
      s₁.delivered (.receive [⟨.other 0, 0⟩] (.data [3])) = [⟨.socket 1, 3⟩] ∧ s₁.current = some 1 ∧
      tr.map Prod.snd = [.connect connecting, .disconnect, .receive [⟨.other 0, 0⟩] (.data [1])] ∧
      ∀ b ∈ s₁.delivered (.receive [⟨.other 0, 0⟩] (.data [3])), b.origin = .socket 1 := by
  have hrun := Machine.run_of_exec step
    (start (List.replicate bufferSize (⟨.other 0, 0⟩ : Sent UInt8)) List.length_replicate none none idleLoop)
    [.connect connecting, .receiveComplete [⟨.other 0, 0⟩, ⟨.other 0, 0⟩] [⟨.error true, 1⟩, ⟨.data [1, 2], 0⟩],
      .disconnect, .connect connecting, .receive [⟨.other 0, 0⟩] (.data [3])] rfl
  have hrun' := Machine.run_of_exec step
    (accepted (List.replicate bufferSize (⟨.other 0, 0⟩ : Sent UInt8)) List.length_replicate idleLoop)
    [.receive [⟨.other 0, 0⟩] (.data [1]), .disconnect, .connect connecting, .receive [⟨.other 0, 0⟩] (.data [3])] rfl
  refine ⟨⟨_, _, _, hrun, rfl, rfl, rfl,
      delivers_own_connection _ _ none none idleLoop (.inl rfl) hrun ?_ _ List.mem_cons_self 1 rfl⟩,
    _, _, _, hrun', rfl, rfl, rfl,
    delivers_own_connection _ _ none none idleLoop (.inr rfl) hrun' ?_ _ List.mem_cons_self 1 rfl⟩
  all_goals
    repeat (first
      | exact List.forall_mem_nil _
      | refine List.forall_mem_cons.mpr ⟨trivial, ?_⟩
      | refine List.forall_mem_cons.mpr ⟨fun _ => rfl, ?_⟩)

/-- Two bytes arrive on the first connection and one is received; the other one is delivered on the second. -/
theorem delivers_rest_of_earlier :
    let mem := List.replicate bufferSize (⟨.other 0, 0⟩ : Sent UInt8)
    ∃ (tr : List (Session UInt8 Nat × SessionAct UInt8)) (s₁ s : Session UInt8 Nat),
      step.Run (start mem List.length_replicate none none idleLoop)
        ((s₁, .receive [⟨.other 0, 0⟩] (.data [3])) :: tr) s ∧
      s₁.current = some 1 ∧ s₁.delivered (.receive [⟨.other 0, 0⟩] (.data [3])) = [⟨.socket 0, 2⟩] :=
  ⟨_, _, _, Machine.run_of_exec _ _ [.connect connecting, .receive [⟨.other 0, 0⟩] (.data [1, 2]), .disconnect,
    .connect connecting, .receive [⟨.other 0, 0⟩] (.data [3])] rfl, rfl, rfl⟩

end Session

end Libhbk
