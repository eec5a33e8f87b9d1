import Libhbk.Communication.Callbacks
import Libhbk.Communication.MulticastServer
import Libhbk.Communication.TcpServer

/-!
# Owners of descriptors

`SocketNonblocking`, `TcpServer` and `MulticastServer` store the descriptors that they open. Each overwrites its members
when it connects or starts again, without closing what they held.
-/

namespace Libhbk

namespace SocketNonblocking

variable {α H : Type}

/-- `connect(address, port)`; `none` where `getaddrinfo` fails. -/
def connectAddress (s : SocketNonblocking α H) (σ : Nat) (c : Option Connecting) :
    Option (Int × SocketNonblocking α H) :=
  match c with
  | none => some (-1, s)
  | some c => s.connect σ c

inductive Act (H : Type) where
  | connect (σ : Nat) (c : Option Connecting)
  /-- Also by the destructor. -/
  | disconnect
  | setDataCb (dataCb : Option H) (a : Addr) (grant : Bool)
  | clearDataCb
  | setOutDataCb (dataCb : Option H) (a : Addr) (grant : Bool)
  | clearOutDataCb
  | other (o : Other H)

/-- A socket among other users of the event loop; the handlers with `own` are not theirs. -/
def step (own : H → Bool) (unset : H) : Machine (SocketNonblocking α H) (Act H) := fun s a =>
  match a with
  | .connect σ c => (s.connectAddress σ c).map Prod.snd
  | .disconnect => some s.disconnect
  | .setDataCb dataCb a grant => s.setDataCb unset dataCb a grant
  | .clearDataCb => some s.clearDataCb
  | .setOutDataCb dataCb a grant => s.setOutDataCb unset dataCb a grant
  | .clearOutDataCb => some s.clearOutDataCb
  | .other o => (o.step own s.eventLoop).map fun l => { s with eventLoop := l }

/-- The socket has its descriptor, which is open, in `m_event`, and handlers for it only. -/
structure Inv (own : H → Bool) (s : SocketNonblocking α H) : Prop where
  holding : Holding own s.eventLoop (fun fd => fd = s.event) fun fd _ => fd = s.event
  opened : s.event ≠ -1 → ∃ σ, s.eventLoop.kernel.file s.event = some (.socket σ)

/-- A `connect` that gets as far as its `socket` call finds no descriptor. -/
def Unused (s : SocketNonblocking α H) : Act H → Prop
  | .connect _ c => c ≠ none → s.event = -1
  | _ => True

variable {own : H → Bool} {unset : H} {s s' : SocketNonblocking α H}

theorem new_inv (mem : List α) (hmem : mem.length = bufferSize) {l : EventLoop Files H} (h : Released own l) :
    Inv own (new mem hmem l) := ⟨h.holding, fun hevent => absurd rfl hevent⟩

theorem accepted_inv (mem : List α) (hmem : mem.length = bufferSize) {l : EventLoop Files H} (h : Released own l)
    (σ : Nat) : Inv own (accepted mem hmem l σ) :=
  ⟨Holding.openFirst h σ, fun _ => ⟨σ, (Files.file_openFile _ _ _).trans (if_pos rfl)⟩⟩

theorem Inv.register (h : Inv own s) {d : Dir} {dataCb : Option H} {a : Addr} {grant : Bool}
    (hs : s.register d dataCb a grant = some s') : Inv own s' := by
  by_cases hevent : s.event = -1
  · rw [register_idle hs hevent]
    exact h
  · obtain ⟨σ, hfile⟩ := h.opened hevent
    rcases dataCb with _ | cb
    · obtain rfl := Option.some.inj hs
      exact h
    · simp only [SocketNonblocking.register, Option.dite_none_right_eq_some, Option.some.injEq] at hs
      obtain ⟨_, rfl⟩ := hs
      refine ⟨h.holding.addHandler hfile rfl, fun _ => ⟨σ, ?_⟩⟩
      exact (EventLoop.addHandler_file _ _ _ _ _ _ _).trans hfile

theorem Inv.erase (h : Inv own s) (d : Dir) (dataCb : Option H) :
    Inv own { s with
      inDataHandler := dataCb
      eventLoop := (s.eventLoop.eraseHandler (Files.ctl true) d s.event).loop } := by
  refine ⟨h.holding.eraseHandler d s.event, fun hevent => ?_⟩
  obtain ⟨σ, hfile⟩ := h.opened hevent
  exact ⟨σ, (EventLoop.eraseHandler_file _ _ _ _).trans hfile⟩

theorem connect_inv (h : Released own s.eventLoop) {σ : Nat} {c : Connecting} {ret : Int}
    (hs : s.connect σ c = some (ret, s')) : Inv own s' := by
  unfold connect at hs
  split at hs
  · obtain ⟨_, rfl⟩ := Prod.mk.inj (Option.some.inj hs)
    exact ⟨h.holding, fun hevent => absurd rfl hevent⟩
  · simp only [Option.bind_eq_some_iff] at hs
    obtain ⟨s₁, h₁, s₂, h₂, hs⟩ := hs
    obtain ⟨_, rfl⟩ := Prod.mk.inj (Option.some.inj hs)
    have hfile := (Files.file_openFile s.eventLoop.kernel (.socket σ) _).trans (if_pos rfl)
    exact (Inv.register ⟨Holding.openFirst h σ, fun _ => ⟨σ, hfile⟩⟩ h₁).register h₂

theorem Inv.released (h : Inv own s) (hevent : s.event = -1) : Released own s.eventLoop := by
  refine h.holding.released ?_
  rintro fd rfl σ hfile
  exact Files.ne_of_file hfile hevent

theorem Inv.disconnect_released (h : Inv own s) : Released own s.disconnect.eventLoop := by
  by_cases hevent : s.event = -1
  · rw [disconnect, if_neg (not_not.mpr hevent)]
    exact h.released hevent
  · rw [show s.disconnect.eventLoop = s.eventLoop.disconnect s.event by rw [disconnect, if_pos hevent]; rfl]
    refine h.holding.drop (fun fd σ hfile => ?_) fun fd d cb hcb => ?_
    · rw [EventLoop.disconnect_file, Option.ite_none_left_eq_some] at hfile
      exact ⟨hfile.2, hfile.1⟩
    · rw [EventLoop.disconnect_handlerOf, Option.ite_none_left_eq_some] at hcb
      exact ⟨hcb.2, hcb.1⟩

theorem Inv.step (h : Inv own s) {a : Act H} (hu : s.Unused a) (hs : SocketNonblocking.step own unset s a = some s') :
    Inv own s' := by
  cases a with
  | connect σ c =>
    obtain ⟨⟨ret, s₁⟩, hconnect, rfl⟩ := Option.map_eq_some_iff.mp hs
    cases c with
    | none =>
      obtain ⟨_, rfl⟩ := Prod.mk.inj (Option.some.inj hconnect)
      exact h
    | some c => exact connect_inv (h.released (hu (by simp))) hconnect
  | disconnect =>
    obtain rfl := Option.some.inj hs
    have hevent : s.disconnect.event = -1 := by
      unfold SocketNonblocking.disconnect
      split <;> rfl
    exact ⟨h.disconnect_released.holding, fun hne => absurd hevent hne⟩
  | setDataCb dataCb a grant =>
    change SocketNonblocking.setDataCb unset s dataCb a grant = some s' at hs
    have hinv : Inv own { s with inDataHandler := dataCb } := ⟨h.holding, h.opened⟩
    exact hinv.register hs
  | clearDataCb =>
    obtain rfl := Option.some.inj hs
    exact h.erase .inp none
  | setOutDataCb dataCb a grant =>
    change SocketNonblocking.setOutDataCb unset s dataCb a grant = some s' at hs
    have hinv : Inv own { s with outDataHandler := dataCb } := ⟨h.holding, h.opened⟩
    exact hinv.register hs
  | clearOutDataCb =>
    obtain rfl := Option.some.inj hs
    exact h.erase .out none
  | other o =>
    obtain ⟨l, ho, rfl⟩ := Option.map_eq_some_iff.mp hs
    refine ⟨h.holding.other ho, fun hevent => ?_⟩
    obtain ⟨σ, hfile⟩ := h.opened hevent
    exact ⟨σ, (Other.file_socket ho _ σ).mpr hfile⟩

end SocketNonblocking

/-! ### Runs -/

variable {α C H : Type} [DecidableEq H]

/-- **Owners of descriptors.** In every run whose connects and starts find no open descriptor in the members, each
descriptor that is open on behalf of the object is stored in a member, and after a disconnect or stop none is open and no
handler is bound to the object. -/
theorem descriptors_stored_and_released :
    (∀ (own : H → Bool) (unset : H) (mem : List α) (hmem : mem.length = bufferSize) (l : EventLoop Files H),
      Released own l → ∀ s₀, s₀ = .new mem hmem l ∨ (∃ σ, s₀ = .accepted mem hmem l σ) →
        ∀ tr s, (SocketNonblocking.step own unset).Run s₀ tr s → (∀ x ∈ tr, x.1.Unused x.2) →
          Stored s.eventLoop [s.event] ∧ Released own s.disconnect.eventLoop) ∧
    (∀ (process : H) (l : EventLoop Files H), Released (fun h => h = process) l →
      ∀ tr (s : TcpServer C H), (TcpServer.step process).Run (.new l) tr s → (∀ x ∈ tr, x.1.Unused x.2) →
        Stored s.eventLoop [s.listeningEvent] ∧ Released (fun h => h = process) s.stop.2.eventLoop) ∧
    (∀ (process : H) (l : EventLoop Files H), Released (fun h => h = process) l →
      ∀ tr (s : MulticastServer C H), (MulticastServer.step process).Run (.new l) tr s → (∀ x ∈ tr, x.1.Unused x.2) →
        Stored s.eventLoop [s.sendEvent, s.receiveEvent] ∧ Released (fun h => h = process) s.stop.eventLoop) := by
  refine ⟨fun own unset mem hmem l hl s₀ hs₀ tr s hrun hunused => ?_, fun process l hl tr s hrun hunused => ?_,
    fun process l hl tr s hrun hunused => ?_⟩
  · have hstart : SocketNonblocking.Inv own s₀ := by
      rcases hs₀ with rfl | ⟨σ, rfl⟩
      · exact SocketNonblocking.new_inv mem hmem hl
      · exact SocketNonblocking.accepted_inv mem hmem hl σ
    have hinv := hrun.guarded (G := SocketNonblocking.Unused) hstart
      (fun _ _ _ h hu hs => SocketNonblocking.Inv.step h hu hs) hunused
    exact ⟨fun fd σ hfile => List.mem_singleton.mpr (hinv.holding.files fd σ hfile), hinv.disconnect_released⟩
  · have hinv := hrun.guarded (G := TcpServer.Unused) hl.holding
      (fun _ _ _ h hu hs => TcpServer.Inv.step h hu hs) hunused
    exact ⟨fun fd σ hfile => List.mem_singleton.mpr (hinv.files fd σ hfile), hinv.stop_released⟩
  · have hinv := hrun.guarded (G := MulticastServer.Unused) hl.holding
      (fun _ _ _ h hu hs => MulticastServer.Inv.step h hu hs) hunused
    exact ⟨fun fd σ hfile => by simpa using hinv.files fd σ hfile, hinv.stop_released⟩

/-- The answers of a `start` whose `bind` fails, or goes through. -/
def listening (bind : Int) : Listening := ⟨true, 0, bind, 0, 0, true⟩

theorem idleLoop_released (own : Nat → Bool) : Released own Session.idleLoop := by
  refine ⟨fun fd σ hfile => ?_, fun fd d h hh => ?_⟩
  · simpa [Session.idleLoop] using (FdTable.mem_iff _ _).mpr ⟨fd, hfile⟩
  · change none = some h at hh
    simp at hh

/-- The answers of a `start` of a multicast server whose `bind` fails, or goes through. -/
def joining (bind : Int) : Joining := ⟨true, 0, true, 0, 0, 0, bind, 0, true⟩

/-- Objects of the three classes are disconnected or stopped after a `connect` or `start` that failed, try again and are
disconnected or stopped. -/
theorem descriptors_released_failed_start :
    (∃ (tr : List (SocketNonblocking UInt8 Nat × SocketNonblocking.Act Nat)) (s : SocketNonblocking UInt8 Nat),
      (SocketNonblocking.step (fun h => h == 20) 0).Run
        (.new (List.replicate bufferSize 0) List.length_replicate Session.idleLoop) tr s ∧
      tr.length = 4 ∧ s.eventLoop.handlerOf 1 .inp = some 20 ∧
      Stored s.eventLoop [s.event] ∧ Released (fun h => h == 20) s.disconnect.eventLoop) ∧
    (∃ (tr : List (TcpServer Nat Nat × TcpServer.Act Nat Nat)) (s : TcpServer Nat Nat),
      (TcpServer.step 10).Run (.new Session.idleLoop) tr s ∧ s.eventLoop.handlerOf 1 .inp = some 10 ∧
      Stored s.eventLoop [s.listeningEvent] ∧ Released (fun h => h = 10) s.stop.2.eventLoop) ∧
    ∃ (tr : List (MulticastServer Nat Nat × MulticastServer.Act Nat Nat)) (s : MulticastServer Nat Nat),
      (MulticastServer.step 10).Run (.new Session.idleLoop) tr s ∧ s.eventLoop.handlerOf 2 .inp = some 10 ∧
      Stored s.eventLoop [s.sendEvent, s.receiveEvent] ∧ Released (fun h => h = 10) s.stop.eventLoop := by
  have hspec := descriptors_stored_and_released (α := UInt8) (C := Nat) (H := Nat)
  refine ⟨?_, ?_, ?_⟩
  · have hrun := Machine.run_of_exec (SocketNonblocking.step (fun h => h == 20) 0)
      (.new (List.replicate bufferSize (0 : UInt8)) List.length_replicate Session.idleLoop : SocketNonblocking UInt8 Nat)
      [.setDataCb (some 20) 0 true, .connect 0 (some { Session.connecting with setSocketOptions := -1 }), .disconnect,
        .connect 1 (some Session.connecting)] rfl
    refine ⟨_, _, hrun, rfl, rfl, hspec.1 _ 0 _ List.length_replicate _ (idleLoop_released _) _ (Or.inl rfl) _ _ hrun ?_⟩
    exact List.forall_mem_cons.mpr ⟨fun _ => rfl, List.forall_mem_cons.mpr ⟨trivial,
      List.forall_mem_cons.mpr ⟨fun _ => rfl, List.forall_mem_cons.mpr ⟨trivial, List.forall_mem_nil _⟩⟩⟩⟩
  · have hrun := Machine.run_of_exec (TcpServer.step 10) (.new Session.idleLoop : TcpServer Nat Nat)
      [.start 0 (listening (-1)) (some 0), .stop, .start 1 (listening 0) (some 0)] rfl
    refine ⟨_, _, hrun, rfl, hspec.2.1 10 Session.idleLoop (idleLoop_released _) _ _ hrun ?_⟩
    refine List.forall_mem_cons.mpr ⟨fun _ σ hfile => ?_, List.forall_mem_cons.mpr ⟨trivial,
      List.forall_mem_cons.mpr ⟨fun _ σ hfile => ?_, List.forall_mem_nil _⟩⟩⟩
    · change none = some _ at hfile
      simp at hfile
    · exact Files.ne_of_file hfile rfl
  · have hrun := Machine.run_of_exec (MulticastServer.step 10) (.new Session.idleLoop : MulticastServer Nat Nat)
      [.start 0 1 (joining (-1)) (some 0), .stop, .start 2 3 (joining 0) (some 0)] rfl
    refine ⟨_, _, hrun, rfl, hspec.2.2 10 Session.idleLoop (idleLoop_released _) _ _ hrun ?_⟩
    exact List.forall_mem_cons.mpr ⟨⟨rfl, rfl⟩, List.forall_mem_cons.mpr ⟨trivial,
      List.forall_mem_cons.mpr ⟨⟨rfl, rfl⟩, List.forall_mem_nil _⟩⟩⟩

/-- A server starts again after a `start` that failed: its first socket stays open when it is stopped. -/
theorem start_again_leaks :
    ∃ (tr : List (TcpServer Nat Nat × TcpServer.Act Nat Nat)) (s : TcpServer Nat Nat),
      Released (fun h => h = 10) Session.idleLoop ∧ (TcpServer.step 10).Run (.new Session.idleLoop) tr s ∧
      tr.map Prod.snd = [.start 1 (listening 0) (some 0), .start 0 (listening (-1)) (some 0)] ∧
      ¬ Stored s.eventLoop [s.listeningEvent] ∧ ¬ Released (fun h => h = 10) s.stop.2.eventLoop := by
  refine ⟨_, _, idleLoop_released _, Machine.run_of_exec (TcpServer.step 10) (.new Session.idleLoop : TcpServer Nat Nat)
    [.start 0 (listening (-1)) (some 0), .start 1 (listening 0) (some 0)] rfl, rfl, fun h => ?_, fun h => ?_⟩
  · exact absurd (h 1 0 rfl) (by decide)
  · exact h.1 1 0 rfl

end Libhbk
