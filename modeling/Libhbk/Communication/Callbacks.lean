import Libhbk.Communication.SocketNonblocking

/-!
# The callbacks of a socket

A socket keeps the two callbacks that were set, so that a `connect` can register them, and registers them with
the event loop as long as it has a descriptor. The registration and the stored callback of one direction are
both to be the last callback set and not cleared.

A handler in the event loop is a callback bound to the socket by `std::bind`; what that makes of an empty
callback is the parameter `unset`, a function that is not empty itself.
-/

namespace Libhbk

namespace SocketNonblocking

variable {α H : Type}

/-! ### The functions -/

/-- `setDataCb(dataCb)`; a new entry of the event loop gets the node at `a`, with `grant` for the kernel's
answer. `none` if that memory is in use. -/
def setDataCb (unset : H) (s : SocketNonblocking α H) (dataCb : Option H) (a : Addr) (grant : Bool) :
    Option (SocketNonblocking α H) :=
  { s with inDataHandler := dataCb }.register .inp (some (dataCb.getD unset)) a grant

def clearDataCb (s : SocketNonblocking α H) : SocketNonblocking α H :=
  { s with inDataHandler := none, eventLoop := (s.eventLoop.eraseEvent (Files.ctl true) s.event).loop }

/-- `setOutDataCb(dataCb)`. -/
def setOutDataCb (unset : H) (s : SocketNonblocking α H) (dataCb : Option H) (a : Addr) (grant : Bool) :
    Option (SocketNonblocking α H) :=
  { s with outDataHandler := dataCb }.register .out (some (dataCb.getD unset)) a grant

/-- Clears `m_inDataHandler`, like `clearDataCb`, and erases the other event. -/
def clearOutDataCb (s : SocketNonblocking α H) : SocketNonblocking α H :=
  { s with inDataHandler := none, eventLoop := (s.eventLoop.eraseOutEvent (Files.ctl true) s.event).loop }

/-- The stored callback of a direction. -/
def dataHandler (s : SocketNonblocking α H) : Dir → Option H
  | .inp => s.inDataHandler
  | .out => s.outDataHandler

/-- The handler that is registered for the descriptor. -/
def registered (s : SocketNonblocking α H) (d : Dir) : Option H := s.eventLoop.handlerOf s.event d

/-! ### What the functions do -/

variable {s s' : SocketNonblocking α H} {d : Dir} {dataCb : Option H} {a : Addr} {grant : Bool}

theorem register_dataHandler (h : s.register d dataCb a grant = some s') (d' : Dir) :
    s'.dataHandler d' = s.dataHandler d' := by
  rcases dataCb with _ | cb
  · obtain rfl := Option.some.inj h
    rfl
  · simp only [register, Option.dite_none_right_eq_some, Option.some.injEq] at h
    obtain ⟨_, rfl⟩ := h
    cases d' <;> rfl

theorem register_idle (h : s.register d dataCb a grant = some s') (hevent : s.event = -1) : s' = s := by
  rcases dataCb with _ | cb
  · exact (Option.some.inj h).symm
  · simp only [register, Option.dite_none_right_eq_some, Option.some.injEq] at h
    obtain ⟨ha, rfl⟩ := h
    have hrefused : s.eventLoop.addHandler (Files.ctl grant) d ⟨a, ha⟩ s.event (some cb) = ⟨-1, s.eventLoop, none⟩ :=
      if_pos hevent
    rw [hrefused]

theorem register_handlerOf (h : s.register d dataCb a grant = some s') (hevent : s.event ≠ -1) (fd : Fd) (d' : Dir) :
    s'.eventLoop.handlerOf fd d' =
      if fd = s.event ∧ d' = d then dataCb.or (s.eventLoop.handlerOf fd d') else s.eventLoop.handlerOf fd d' := by
  rcases dataCb with _ | cb
  · obtain rfl := Option.some.inj h
    rw [Option.none_or, ite_self]
  · simp only [register, Option.dite_none_right_eq_some, Option.some.injEq] at h
    obtain ⟨ha, rfl⟩ := h
    exact s.eventLoop.handlerOf_addHandler (Files.ctl grant) d ⟨a, ha⟩ cb hevent fd d'

theorem register_attached (h : s.register d dataCb a grant = some s') (hopen : s.eventLoop.kernel.file s.event ≠ none)
    (hattached : s.eventLoop.Attached) : s'.eventLoop.Attached := by
  rcases dataCb with _ | cb
  · obtain rfl := Option.some.inj h
    exact hattached
  · simp only [register, Option.dite_none_right_eq_some, Option.some.injEq] at h
    obtain ⟨_, rfl⟩ := h
    exact hattached.addHandler hopen

theorem register_some {cb : H} (h : s.register d (some cb) a grant = some s')
    (hopen : s.event ≠ -1 → s.eventLoop.kernel.file s.event ≠ none) (hattached : s.eventLoop.Attached) :
    (s.event ≠ -1 → ∀ d', s'.registered d' = if d' = d then some cb else s.registered d') ∧
      s'.eventLoop.Attached := by
  by_cases hevent : s.event = -1
  · rw [register_idle h hevent]
    exact ⟨fun hne => absurd hevent hne, hattached⟩
  · refine ⟨fun _ d' => ?_, register_attached h (hopen hevent) hattached⟩
    rw [registered, (register_eq h).2.1, register_handlerOf h hevent]
    simp only [true_and, Option.some_or]
    rfl

end SocketNonblocking

/-! ### Runs -/

/-- The socket, and for each direction the last callback set and not cleared. -/
structure Callbacks (α H : Type) where
  socket : SocketNonblocking α H
  slot : Dir → Option H

/-- A call; `σ` names the socket that a `connect` creates. -/
inductive CallbackAct (H : Type) where
  | setDataCb (dataCb : Option H) (a : Addr) (grant : Bool)
  | clearDataCb
  | setOutDataCb (dataCb : Option H) (a : Addr) (grant : Bool)
  | clearOutDataCb
  | connect (σ : Nat) (c : Connecting)
  | disconnect

namespace Callbacks

variable {α H : Type}

def step (unset : H) : Machine (Callbacks α H) (CallbackAct H) := fun s a =>
  match a with
  | .setDataCb dataCb a grant => (s.socket.setDataCb unset dataCb a grant).map fun socket =>
      ⟨socket, Function.update s.slot .inp dataCb⟩
  | .clearDataCb => some ⟨s.socket.clearDataCb, Function.update s.slot .inp none⟩
  | .setOutDataCb dataCb a grant => (s.socket.setOutDataCb unset dataCb a grant).map fun socket =>
      ⟨socket, Function.update s.slot .out dataCb⟩
  | .clearOutDataCb => some ⟨s.socket.clearOutDataCb, Function.update s.slot .out none⟩
  | .connect σ c => (s.socket.connect σ c).map fun (_, socket) => ⟨socket, s.slot⟩
  | .disconnect => some ⟨s.socket.disconnect, s.slot⟩

/-- A new object. -/
def start (mem : List α) (h : mem.length = bufferSize) (eventLoop : EventLoop Files H) : Callbacks α H :=
  ⟨.new mem h eventLoop, fun _ => none⟩

/-- The stored callbacks are the slots, and with a descriptor so are the registered handlers. -/
def InStep (s : Callbacks α H) : Prop :=
  (∀ d, s.socket.dataHandler d = s.slot d) ∧ (s.socket.event ≠ -1 → ∀ d, s.socket.registered d = s.slot d)

/-- No empty callback is set while there is a descriptor, and `clearOutDataCb` finds no callback at all. -/
def Regular (s : Callbacks α H) : CallbackAct H → Prop
  | .setDataCb dataCb _ _ => dataCb = none → s.socket.event = -1
  | .setOutDataCb dataCb _ _ => dataCb = none → s.socket.event = -1
  | .clearOutDataCb => ∀ d, s.socket.dataHandler d = none
  | _ => True

structure Inv (s : Callbacks α H) : Prop where
  inStep : InStep s
  opened : s.socket.event ≠ -1 → s.socket.eventLoop.kernel.file s.socket.event ≠ none
  attached : s.socket.eventLoop.Attached

/-! ### What one call keeps -/

variable {unset : H} {s s' : Callbacks α H}

theorem start_inv (mem : List α) (h : mem.length = bufferSize) {eventLoop : EventLoop Files H}
    (hattached : eventLoop.Attached) : Inv (start mem h eventLoop) := by
  refine ⟨⟨fun d => ?_, fun hevent => absurd rfl hevent⟩, fun hevent => absurd rfl hevent, hattached⟩
  cases d <;> rfl

/-- A callback is stored for one direction and registered for the descriptor if there is one. -/
theorem set_inv (h : Inv s) {socket socket' : SocketNonblocking α H} {d : Dir} {dataCb : Option H} {a : Addr}
    {grant : Bool} (hset : socket.register d (some (dataCb.getD unset)) a grant = some socket')
    (hevent : socket.event = s.socket.event) (hloop : socket.eventLoop = s.socket.eventLoop)
    (hstored : ∀ d', socket.dataHandler d' = if d' = d then dataCb else s.socket.dataHandler d')
    (hempty : dataCb = none → s.socket.event = -1) :
    Inv ⟨socket', Function.update s.slot d dataCb⟩ := by
  obtain ⟨hreg, hattached⟩ := SocketNonblocking.register_some hset (by rw [hevent, hloop]; exact h.opened)
    (by rw [hloop]; exact h.attached)
  obtain ⟨_, hevent', hfile⟩ := SocketNonblocking.register_eq hset
  refine ⟨⟨fun d' => ?_, fun hne d' => ?_⟩, fun hne => ?_, hattached⟩
  · show socket'.dataHandler d' = Function.update s.slot d dataCb d'
    rw [SocketNonblocking.register_dataHandler hset, hstored, Function.update_apply, h.inStep.1]
  · change socket'.event ≠ -1 at hne
    rw [hevent', hevent] at hne
    show socket'.registered d' = Function.update s.slot d dataCb d'
    rw [hreg (by rwa [hevent]), Function.update_apply]
    split
    · obtain ⟨cb, rfl⟩ := Option.ne_none_iff_exists'.mp fun he => hne (hempty he)
      rfl
    · rw [SocketNonblocking.registered, hevent, hloop]
      exact h.inStep.2 hne d'
  · change socket'.event ≠ -1 at hne
    show socket'.eventLoop.kernel.file socket'.event ≠ none
    rw [hevent', hevent] at hne
    rw [hfile, hevent', hevent, hloop]
    exact h.opened hne

theorem clear_inv (h : Inv s) {d : Dir} {socket : SocketNonblocking α H} (hevent : socket.event = s.socket.event)
    (hloop : socket.eventLoop = (s.socket.eventLoop.eraseHandler (Files.ctl true) d s.socket.event).loop)
    (hstored : ∀ d', socket.dataHandler d' = if d' = d then none else s.socket.dataHandler d') :
    Inv ⟨socket, Function.update s.slot d none⟩ := by
  have hattached : socket.eventLoop.Attached := by
    rw [hloop]
    exact h.attached.eraseHandler
  refine ⟨⟨fun d' => ?_, fun hne d' => ?_⟩, fun hne => ?_, hattached⟩
  · show socket.dataHandler d' = Function.update s.slot d none d'
    rw [hstored, Function.update_apply, h.inStep.1]
  · show socket.registered d' = Function.update s.slot d none d'
    change socket.event ≠ -1 at hne
    rw [hevent] at hne
    rw [SocketNonblocking.registered, hevent, hloop, EventLoop.handlerOf_eraseHandler, Function.update_apply]
    have hold := h.inStep.2 hne d'
    rw [SocketNonblocking.registered] at hold
    simp only [true_and, hold]
  · show socket.eventLoop.kernel.file socket.event ≠ none
    change socket.event ≠ -1 at hne
    rw [hevent] at hne
    rw [hevent, hloop, EventLoop.eraseHandler_file]
    exact h.opened hne

/-- The number of a new socket has no handler; both registrations are made where a callback is stored. -/
theorem connect_inv (h : Inv s) {σ : Nat} {c : Connecting} {ret : Int} {socket : SocketNonblocking α H}
    (hconnect : s.socket.connect σ c = some (ret, socket)) : Inv ⟨socket, s.slot⟩ := by
  unfold SocketNonblocking.connect at hconnect
  split at hconnect
  · obtain ⟨_, rfl⟩ := Prod.mk.inj (Option.some.inj hconnect)
    refine ⟨⟨fun d => ?_, fun hne => absurd rfl hne⟩, fun hne => absurd rfl hne, h.attached⟩
    rw [← h.inStep.1 d]
    cases d <;> rfl
  · simp only [Option.bind_eq_some_iff] at hconnect
    obtain ⟨s₁, h₁, s₂, h₂, he⟩ := hconnect
    obtain ⟨_, rfl⟩ := Prod.mk.inj (Option.some.inj he)
    have hattached := h.attached.openFile (.socket σ)
    have hnext := h.attached _ s.socket.eventLoop.kernel.file_next
    have hfile := s.socket.eventLoop.kernel.file_openFile (.socket σ) (FdTable.lowestFree s.socket.eventLoop.kernel.table)
    rw [if_pos rfl] at hfile
    have hevent : (FdTable.lowestFree s.socket.eventLoop.kernel.table : Int) ≠ -1 := by omega
    obtain ⟨_, hevent₁, hfile₁⟩ := SocketNonblocking.register_eq h₁
    obtain ⟨_, hevent₂, hfile₂⟩ := SocketNonblocking.register_eq h₂
    simp only at hevent₁ hfile₁
    have hopen₁ : s₁.eventLoop.kernel.file s₁.event ≠ none := by
      rw [hevent₁, hfile₁, hfile]
      exact Option.some_ne_none _
    have hattached₁ := SocketNonblocking.register_attached h₁ (by rw [hfile]; exact Option.some_ne_none _) hattached
    have hstored₁ := SocketNonblocking.register_dataHandler h₁
    refine ⟨⟨fun d => ?_, fun _ d => ?_⟩, fun _ => ?_, SocketNonblocking.register_attached h₂ hopen₁ hattached₁⟩
    · show s₂.dataHandler d = s.slot d
      rw [SocketNonblocking.register_dataHandler h₂, hstored₁, ← h.inStep.1 d]
      cases d <;> rfl
    · show s₂.eventLoop.handlerOf s₂.event d = s.slot d
      rw [hevent₂, SocketNonblocking.register_handlerOf h₂ (by rw [hevent₁]; exact hevent), hevent₁]
      rw [SocketNonblocking.register_handlerOf h₁ hevent]
      rw [show s₁.outDataHandler = s.socket.outDataHandler from hstored₁ .out, ← h.inStep.1 d]
      have hnone := hnext d
      rw [EventLoop.handlerOf] at hnone
      simp only [EventLoop.handlerOf, hnone, Option.or_none]
      cases d <;> simp [SocketNonblocking.dataHandler]
    · show s₂.eventLoop.kernel.file s₂.event ≠ none
      rw [hevent₂, hfile₂]
      exact hopen₁

theorem disconnect_inv (h : Inv s) : Inv ⟨s.socket.disconnect, s.slot⟩ := by
  have hstored : ∀ d, s.socket.disconnect.dataHandler d = s.slot d := by
    intro d
    rw [← h.inStep.1 d, SocketNonblocking.disconnect]
    split <;> cases d <;> rfl
  have hevent : s.socket.disconnect.event = -1 := by
    rw [SocketNonblocking.disconnect]
    split <;> rfl
  refine ⟨⟨hstored, fun hne => absurd hevent hne⟩, fun hne => absurd hevent hne, ?_⟩
  show s.socket.disconnect.eventLoop.Attached
  rw [SocketNonblocking.disconnect]
  split
  · -- the handlers go with the descriptor
    intro fd hfile d
    simp only [EventLoop.eraseEvent, EventLoop.eraseOutEvent] at hfile ⊢
    rw [EventLoop.eraseHandler_file, EventLoop.eraseHandler_file] at hfile
    change (s.socket.eventLoop.kernel.close s.socket.event).file fd = none at hfile
    rw [Files.file_close] at hfile
    rw [EventLoop.handlerOf_eraseHandler, EventLoop.handlerOf_eraseHandler]
    by_cases he : fd = s.socket.event
    · cases d <;> simp [he]
    · rw [if_neg he] at hfile
      rw [if_neg fun hsame => he hsame.1, if_neg fun hsame => he hsame.1]
      exact h.attached fd hfile d
  · exact h.attached

/-- **Step rule.** -/
theorem step_inv {a : CallbackAct H} (h : Inv s) (hreg : s.Regular a) (hs : step unset s a = some s') : Inv s' := by
  cases a with
  | setDataCb dataCb a grant =>
    obtain ⟨socket, hset, rfl⟩ := Option.map_eq_some_iff.mp hs
    rw [SocketNonblocking.setDataCb] at hset
    exact set_inv h hset rfl rfl (fun d => by cases d <;> rfl) hreg
  | clearDataCb =>
    obtain rfl := Option.some.inj hs
    exact clear_inv h rfl rfl fun d => by cases d <;> rfl
  | setOutDataCb dataCb a grant =>
    obtain ⟨socket, hset, rfl⟩ := Option.map_eq_some_iff.mp hs
    rw [SocketNonblocking.setOutDataCb] at hset
    exact set_inv h hset rfl rfl (fun d => by cases d <;> rfl) hreg
  | clearOutDataCb =>
    obtain rfl := Option.some.inj hs
    -- there was no callback to clear
    refine clear_inv h rfl rfl fun d => ?_
    cases d
    · exact (hreg .inp).symm
    · exact hreg .out
  | connect σ c =>
    obtain ⟨⟨ret, socket⟩, hconnect, rfl⟩ := Option.map_eq_some_iff.mp hs
    exact connect_inv h hconnect
  | disconnect =>
    obtain rfl := Option.some.inj hs
    exact disconnect_inv h

/-- **Callbacks and registrations stay in step.** In a run of regular calls the stored callbacks are the slots, and
with a descriptor the registered handlers are the slots too. -/
theorem callbacks_in_step (unset : H) (mem : List α) (hmem : mem.length = bufferSize) {eventLoop : EventLoop Files H}
    (hattached : eventLoop.Attached) {tr : List (Callbacks α H × CallbackAct H)} {s : Callbacks α H}
    (h : (step unset).Run (start mem hmem eventLoop) tr s) (hreg : ∀ x ∈ tr, x.1.Regular x.2) :
    s.InStep ∧ (s.socket.event ≠ -1 → ∀ d, ((s.socket.registered d).isSome ↔ (s.slot d).isSome)) := by
  have hinv := h.guarded (G := Regular) (start_inv mem hmem hattached) (fun _ _ _ hi hr hs => step_inv hi hr hs) hreg
  refine ⟨hinv.inStep, fun hevent d => ?_⟩
  rw [hinv.inStep.2 hevent d]

/-- Both callbacks are set, one is replaced after a `clearDataCb`, and the socket connects again. -/
theorem callbacks_in_step_reconnected :
    let mem := List.replicate bufferSize (0 : UInt8)
    ∃ (tr : List (Callbacks UInt8 Nat × CallbackAct Nat)) (s : Callbacks UInt8 Nat),
      (step 0).Run (start mem List.length_replicate Session.idleLoop) tr s ∧ s.InStep ∧
      s.socket.registered .inp = some 3 ∧ s.socket.registered .out = some 2 := by
  have h := Machine.run_of_exec (step 0)
    (start (List.replicate bufferSize (0 : UInt8)) List.length_replicate Session.idleLoop)
    [.setDataCb (some 1) 0 true, .setOutDataCb (some 2) 0 true, .connect 0 Session.connecting, .clearDataCb,
      .setDataCb (some 3) 5 true, .disconnect, .connect 1 Session.connecting] rfl
  have hstep := callbacks_in_step 0 _ _ (fun _ _ _ => rfl) h (by
    repeat (first
      | exact List.forall_mem_nil _
      | refine List.forall_mem_cons.mpr ⟨trivial, ?_⟩
      | refine List.forall_mem_cons.mpr ⟨fun he => by simp at he, ?_⟩))
  exact ⟨_, _, h, hstep.1, rfl, rfl⟩

/-- After a `clearOutDataCb` the next `connect` does not register the input callback, which was not cleared. -/
theorem clearOutDataCb_clears_input :
    ¬ ∀ (tr : List (Callbacks UInt8 Nat × CallbackAct Nat)) (s : Callbacks UInt8 Nat),
      (step 0).Run (start (List.replicate bufferSize 0) List.length_replicate Session.idleLoop) tr s →
      s.socket.event ≠ -1 → ∀ d, ((s.socket.registered d).isSome ↔ (s.slot d).isSome) := by
  intro h
  have hrun := Machine.run_of_exec (step 0)
    (start (List.replicate bufferSize (0 : UInt8)) List.length_replicate Session.idleLoop)
    [.setDataCb (some 1) 0 true, .connect 0 Session.connecting, .clearOutDataCb, .disconnect,
      .connect 1 Session.connecting] rfl
  have hin := (h _ _ hrun (by decide) .inp).mpr rfl
  exact absurd hin (by decide)

end Callbacks

end Libhbk
