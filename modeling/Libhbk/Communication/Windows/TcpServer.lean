import Libhbk.Sys.Windows.Overlapped

/-!
# Accepting clients on Windows

`AcceptEx` takes one client for the socket that `prepareAccept` has made, the others wait in the backlog. `process`
hands the socket to the accept callback and prepares the next accept. Nothing looks at what `prepareAccept` returns, and
an exception of the constructor or of the callback leaves `process` before it: then nobody is accepted any more.
-/

namespace Libhbk.Windows

open Machine Port Operation

/-- The clients that wait in the backlog, and the one that `m_acceptSocket` is connected to. A client that gives up while
it waits is not in the model. -/
structure TcpServer where
  backlog : List Nat
  acceptSocket : Option Nat
  deriving DecidableEq, Repr

namespace TcpServer

inductive Outside where
  | connects (client : Nat)

/-- In a call of `process`: whether `setSocketOptions` succeeds for the socket, and whether the accept callback throws. -/
structure Process where
  options : Bool
  throws : Bool

/-- The constructor of `SocketNonblocking` throws, or the callback does. -/
def Process.fails (x : Process) : Bool := !x.options || x.throws

/-- `TcpServer::process`. An accept that is ordered ends when there is a client. -/
def operation : Operation TcpServer Outside Process where
  outside
    | .connects client, s => some { s with backlog := s.backlog ++ [client] }
  completes s :=
    match s.backlog with
    | [] => none
    | client :: backlog => some ⟨backlog, some client⟩
  work x s := some (x.fails, { s with acceptSocket := none })
  orders s := { s with acceptSocket := none }
  ret _ := 0
  ret_nonpos _ := Int.le_refl 0

/-- Listening, after `start`. -/
def start : TcpServer := ⟨[], none⟩

variable {H : Type}

/-- A step, with the state it is made in. -/
abbrev Entry (H : Type) := State H TcpServer × Operation.Act H Outside Process

def connects : Entry H → List Nat
  | (_, .outside (.connects client)) => [client]
  | _ => []

/-- The client whose socket `process` is called for, and whether there is a worker that the accept callback can get. -/
def takes : Entry H → List (Nat × Bool)
  | (s, .work x) => s.items.acceptSocket.toList.map fun client => (client, x.options)
  | _ => []

/-- The clients that have connected, in order. The newest step comes first. -/
def connected (tr : List (Entry H)) : List Nat := tr.reverse.flatMap connects

def accepted (tr : List (Entry H)) : List (Nat × Bool) := tr.reverse.flatMap takes

theorem connected_cons (y : Entry H) (tr : List (Entry H)) : connected (y :: tr) = connected tr ++ connects y := by
  rw [connected, List.reverse_cons, List.flatMap_append, List.flatMap_singleton]
  rfl

theorem accepted_cons (y : Entry H) (tr : List (Entry H)) : accepted (y :: tr) = accepted tr ++ takes y := by
  rw [accepted, List.reverse_cons, List.flatMap_append, List.flatMap_singleton]
  rfl

theorem takes_work (s : State H TcpServer) (x : Process) :
    (takes (s, .work x)).map Prod.fst = s.items.acceptSocket.toList := by
  rw [takes, List.map_map]
  exact List.map_id _

theorem accepted_append {later : List (Entry H)} (h : ∀ y ∈ later, works y.2 = false) (earlier : List (Entry H)) :
    accepted (later ++ earlier) = accepted earlier := by
  induction later with
  | nil => rfl
  | cons y later ih =>
    have htakes : takes y = [] := by
      obtain ⟨s, a⟩ := y
      have hno := h _ List.mem_cons_self
      cases a with
      | work x => simp [works] at hno
      | _ => rfl
    rw [List.cons_append, accepted_cons, htakes, List.append_nil]
    exact ih fun z hz => h z (List.mem_cons_of_mem _ hz)

/-- Where the clients are. -/
structure Accounted (key : Nat) (tr : List (Entry H)) (s : State H TcpServer) : Prop where
  clients : (accepted tr).map Prod.fst ++ s.items.acceptSocket.toList ++ s.items.backlog = connected tr
  pending : s.pending = true → s.items.acceptSocket = none
  working : s.working = true → s.items.acceptSocket = none

variable {key : Nat} {tr : List (Entry H)} {s s' : State H TcpServer} {a : Operation.Act H Outside Process}

theorem Accounted.keep (h : Accounted key tr s) {y : Entry H} (hitems : s'.items = s.items)
    (hpending : s'.pending = s.pending) (hworking : s'.working = s.working) (hconnects : connects y = [])
    (htakes : takes y = []) : Accounted key (y :: tr) s' := by
  refine ⟨?_, fun hyes => ?_, fun hyes => ?_⟩
  · rw [connected_cons, accepted_cons, hconnects, htakes, hitems, List.append_nil, List.append_nil]
    exact h.clients
  · rw [hitems]
    exact h.pending (hpending ▸ hyes)
  · rw [hitems]
    exact h.working (hworking ▸ hyes)

theorem Accounted.step (h : Accounted key tr s) (hinv : Operation.Inv operation key tr s)
    (hs : Operation.Step operation key s a s') : Accounted key ((s, a) :: tr) s' := by
  cases hs with
  | dequeue hport => exact h.keep rfl rfl rfl rfl rfl
  | aside hne haside => exact h.keep rfl rfl rfl rfl rfl
  | @outside e q hout =>
    cases e with
    | connects client =>
      obtain rfl := Option.some.inj hout
      refine ⟨?_, h.pending, h.working⟩
      rw [connected_cons, accepted_cons, ← h.clients]
      dsimp only [connects, takes]
      rw [List.append_nil, List.append_assoc _ s.items.backlog]
  | complete hpending hq =>
    cases hbacklog : s.items.backlog with
    | nil => simp [operation, hbacklog] at hq
    | cons client backlog =>
      simp only [operation, hbacklog, Option.some.injEq] at hq
      obtain rfl := hq
      have hclients := h.clients
      rw [h.pending hpending, hbacklog] at hclients
      refine ⟨?_, fun hno => by simp at hno, fun hworking => ?_⟩
      · rw [connected_cons, accepted_cons, ← hclients]
        simp [connects, takes]
      · have halone := (hinv.alone (hinv.working hworking)).1
        rw [hpending] at halone
        simp at halone
  | fail hpending =>
    refine ⟨?_, fun hno => by simp at hno, h.working⟩
    rw [connected_cons, accepted_cons]
    dsimp only [connects, takes]
    rw [List.append_nil, List.append_nil]
    exact h.clients
  | @work x throws q loop hprocessing hworking hwork hloop =>
    obtain ⟨_, rfl⟩ := Prod.mk.inj (Option.some.inj hwork)
    refine ⟨?_, fun _ => rfl, fun _ => rfl⟩
    rw [connected_cons, accepted_cons, List.map_append, takes_work, ← h.clients]
    dsimp only [connects]
    rw [Option.toList_none, List.append_nil, List.append_nil]
  | @finish ordered loop hworking hloop =>
    have hnone := h.working hworking
    have hitems : (if ordered = true then operation.orders s.items else s.items) = s.items := by
      cases ordered with
      | true =>
        have hsame : ({ s.items with acceptSocket := none } : TcpServer) = s.items := by
          rw [← hnone]
        exact hsame
      | false => rfl
    rw [hitems]
    refine ⟨?_, fun _ => hnone, fun hno => by simp at hno⟩
    rw [connected_cons, accepted_cons]
    dsimp only [connects, takes]
    rw [List.append_nil, List.append_nil]
    exact h.clients

theorem run_accounted (hkey : key ≠ 0) {eventInfos : Nat → Option H} {process : H}
    (h : (operation.step key).Run (Operation.start eventInfos key process start) tr s) : Accounted key tr s := by
  have hboth : Operation.Inv operation key tr s ∧ Accounted key tr s := by
    refine h.trace_induction (P := fun tr s => Operation.Inv operation key tr s ∧ Accounted key tr s) ?_ ?_
    · exact ⟨run_inv hkey .nil, rfl, fun _ => rfl, fun _ => rfl⟩
    · intro tr s a s' _ hboth hs
      have hcases := step_cases hkey hboth.1.serves hs
      exact ⟨hboth.1.step hcases, hboth.2.step hboth.1 hcases⟩
  exact hboth.2

/-- **Every client is accepted in its turn, until the accept is lost.** The clients are taken in the order in which they
have connected, each once. As long as no order was refused, nothing was thrown and no accept has failed but by the loss
of its connection, all of them have been taken where `execute` waits with nothing to process and nobody to accept. When
one of these has happened, nobody is taken any more. -/
theorem clients_accepted (hkey : key ≠ 0) (eventInfos : Nat → Option H) (process : H)
    (h : (operation.step key).Run (Operation.start eventInfos key process start) tr s) :
    (accepted tr).map Prod.fst ++ s.items.acceptSocket.toList ++ s.items.backlog = connected tr ∧
      (tr.any (loses operation key) = false → s.loop.pc = .wait → s.port.countP (ours key) = 0 →
        operation.completes s.items = none → (accepted tr).map Prod.fst = connected tr) ∧
      ∀ later y earlier, tr = later ++ y :: earlier → loses operation key y = true →
        accepted tr = accepted (y :: earlier) := by
  have hclients := (run_accounted hkey h).clients
  refine ⟨hclients, fun hkept hpc hport hnothing => ?_, ?_⟩
  · have hpending := ((run_inv hkey h).rests hkept hpc hport).1
    have hbacklog : s.items.backlog = [] := by
      cases hbacklog : s.items.backlog with
      | nil => rfl
      | cons client backlog => simp [operation, hbacklog] at hnothing
    rw [(run_accounted hkey h).pending hpending, hbacklog] at hclients
    simpa using hclients
  · rintro later y earlier rfl hloses
    exact accepted_append (not_works_of_loses hkey h hloses) _

/-- Two clients are taken one behind the other. The callback throws for the second of three: the third stays in the
backlog. -/
theorem clients_accepted_throws :
    (∃ (tr : List (Entry Nat)) (s : State Nat TcpServer),
      (operation.step 7).Run (Operation.start (fun _ => none) 7 10 start) tr s ∧ s.items = ⟨[], none⟩ ∧
      s.loop.pc = .wait ∧ connected tr = [1, 2] ∧ (accepted tr).map Prod.fst = connected tr) ∧
    ∃ (tr : List (Entry Nat)) (s : State Nat TcpServer),
      (operation.step 7).Run (Operation.start (fun _ => none) 7 10 start) tr s ∧ s.items = ⟨[3], none⟩ ∧
      s.port = [] ∧ accepted tr = [(1, true), (2, true)] ∧
      ∃ (y : Entry Nat) (earlier : List (Entry Nat)), loses operation 7 y = true ∧
        accepted tr = accepted (y :: earlier) := by
  constructor
  · have hexec : ((operation.step 7).exec [] (Operation.start (fun _ => none) 7 (10 : Nat) start)
        [.outside (.connects 1), .outside (.connects 2), .complete, .port .dequeue, .port (.loop .find),
          .work ⟨true, false⟩, .finish true, .complete, .port (.loop .test), .port .dequeue, .port (.loop .find),
          .work ⟨true, false⟩, .finish true, .port (.loop .test)]).map
            (fun x => ((x.1.any (loses operation 7), connected x.1), x.2.loop.pc, x.2.port, x.2.items)) =
        some ((false, [1, 2]), .wait, [], ⟨[], none⟩) := by
      decide +kernel
    obtain ⟨⟨tr, s⟩, hrun, hend⟩ := Option.map_eq_some_iff.mp hexec
    simp only [Prod.mk.injEq] at hend
    obtain ⟨⟨hkept, hconnected⟩, hpc, hport, hitems⟩ := hend
    have hrun := run_of_exec _ _ _ hrun
    refine ⟨tr, s, hrun, hitems, hpc, hconnected, ?_⟩
    exact (clients_accepted (by decide) _ _ hrun).2.1 hkept hpc (by rw [hport]; rfl) (by rw [hitems]; rfl)
  · have hexec : ((operation.step 7).exec [] (Operation.start (fun _ => none) 7 (10 : Nat) start)
        [.outside (.connects 1), .outside (.connects 2), .complete, .port .dequeue, .port (.loop .find),
          .work ⟨true, false⟩, .finish true, .complete, .port (.loop .test), .outside (.connects 3), .port .dequeue,
          .port (.loop .find), .work ⟨true, true⟩, .port .execute]).map
            (fun x => (x.2.items, x.2.port, x.1.any (loses operation 7), accepted x.1)) =
        some (⟨[3], none⟩, [], true, [(1, true), (2, true)]) := by
      decide +kernel
    obtain ⟨⟨tr, s⟩, hrun, hend⟩ := Option.map_eq_some_iff.mp hexec
    simp only [Prod.mk.injEq] at hend
    obtain ⟨hitems, hport, hlost, haccepted⟩ := hend
    have hrun := run_of_exec _ _ _ hrun
    obtain ⟨y, hy, hloses⟩ := List.any_eq_true.mp hlost
    obtain ⟨later, earlier, htr⟩ := List.append_of_mem hy
    refine ⟨tr, s, hrun, hitems, hport, haccepted, y, earlier, hloses, ?_⟩
    exact (clients_accepted (by decide) _ _ hrun).2.2 later y earlier htr hloses

end TcpServer

end Libhbk.Windows
