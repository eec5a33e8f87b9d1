import Libhbk.Sys.EventLoop.Source
import Libhbk.Sys.Files

/-!
# Accepting clients

`TcpServer::process` takes one connection from the queue of the listening socket, makes a `SocketNonblocking` of its
descriptor and hands it to the accept callback. The constructor of `SocketNonblocking` may throw, and so may the
callback. A descriptor returned by `accept` should be closed then, or belong to a live object.
-/

namespace Libhbk

/-! ### The socket of a client -/

/-- The results of the system calls of `setSocketOptions`; `ip` if the address family is `AF_INET` or `AF_INET6`. -/
structure SocketOptions where
  getsockname : Int
  ip : Bool
  tcpNodelay : Int
  tcpKeepidle : Int
  tcpKeepintvl : Int
  tcpKeepcnt : Int
  soKeepalive : Int
  deriving DecidableEq, Repr

def setSocketOptions (o : SocketOptions) : Int :=
  if o.getsockname < 0 then -1
  else if o.ip = true ∧ (o.tcpNodelay = -1 ∨ o.tcpKeepidle = -1 ∨ o.tcpKeepintvl = -1 ∨ o.tcpKeepcnt = -1) then -1
  else if o.soKeepalive = -1 then -1
  else 0

/-- What happens to a client that was accepted: the results of the system calls of the constructor
`SocketNonblocking(fd, eventLoop)`, and whether the accept callback keeps the socket and whether it throws. -/
structure Client where
  fcntl : Int
  options : SocketOptions
  keeps : Bool
  throws : Bool
  deriving DecidableEq, Repr

/-- The constructor does not throw. -/
def Client.Constructed (c : Client) (fd : Fd) : Prop := fd ≠ -1 ∧ c.fcntl ≠ -1 ∧ 0 ≤ setSocketOptions c.options

instance (c : Client) (fd : Fd) : Decidable (c.Constructed fd) := inferInstanceAs (Decidable (_ ∧ _))

/-- What `accept` fails with. -/
inductive AcceptError where
  /-- `EAGAIN` or `EWOULDBLOCK` -/
  | again
  | intr
  | connaborted
  | mfile
  deriving DecidableEq, Repr

/-- The listening socket with the connections that are completed and not accepted yet, the descriptors of the process,
and `m_event` of each live `SocketNonblocking` made for a client. -/
structure Listener where
  queue : List Nat
  table : FdTable
  sockets : List Fd
  deriving DecidableEq, Repr

namespace Listener

/-- `::accept(m_listeningEvent, nullptr, nullptr)`, where the system has an error for it or not. -/
def accept (l : Listener) : Option AcceptError → Option (Fd × Listener)
  | none =>
    match l.queue with
    | [] => none
    | σ :: rest => some (FdTable.lowestFree l.table, { l with queue := rest, table := l.table.allocate (.socket σ) })
  | some .again => if l.queue = [] then some (-1, l) else none
  | some .intr => some (-1, l)
  | some .connaborted =>
    -- the connection that was aborted leaves the queue
    match l.queue with
    | [] => none
    | _ :: rest => some (-1, { l with queue := rest })
  | some .mfile => some (-1, l)

/-- `TcpServer::process`; `none` for an exception. -/
def process (x : Option AcceptError × Client) (l : Listener) : Option (Option Int × Listener) :=
  (l.accept x.1).map fun (clientFd, l) =>
    if clientFd = -1 then (some (-1), l)
    -- the destructor of an object does not run whose constructor throws
    else if ¬ x.2.Constructed clientFd then (none, l)
    else
      (if x.2.throws then none else some 1,
        if x.2.keeps then { l with sockets := clientFd :: l.sockets }
        else { l with table := l.table.release clientFd })

/-- What happens besides. -/
inductive Outside where
  /-- A client connects. -/
  | connects (σ : Nat)
  /-- A live `SocketNonblocking` is disconnected or destroyed. -/
  | disconnects (fd : Fd)
  | opens (n : Nat)
  | closes (fd : Fd)
  deriving DecidableEq, Repr

def outside : Outside → Listener → Option Listener
  | .connects σ, l => some { l with queue := l.queue ++ [σ] }
  | .disconnects fd, l =>
    if fd ∈ l.sockets then some { l with table := l.table.release fd, sockets := l.sockets.erase fd } else none
  | .opens n, l => some { l with table := l.table.allocate (.other n) }
  | .closes fd, l =>
    match l.table.file fd with
    | some (.other _) => some { l with table := l.table.release fd }
    | _ => none

def source : Source Listener Outside (Option AcceptError × Client) where
  outside := outside
  signalled
    | .connects _ => true
    | _ => false
  handle := process

/-- No client has been accepted yet. -/
def Fresh (l : Listener) : Prop := l.sockets = [] ∧ ∀ fd σ, l.table.file fd ≠ some (.socket σ)

/-- A descriptor returned by `accept` that is open belongs to a live `SocketNonblocking`. -/
def Owned (l : Listener) : Prop := ∀ fd σ, l.table.file fd = some (.socket σ) → fd ∈ l.sockets

/-- The constructor of `SocketNonblocking` throws in this call of `process`. -/
def ConstructorThrows (x : Option AcceptError × Client) (l : Listener) : Prop :=
  x.1 = none ∧ ¬ x.2.Constructed (FdTable.lowestFree l.table)

instance (x : Option AcceptError × Client) (l : Listener) : Decidable (ConstructorThrows x l) :=
  inferInstanceAs (Decidable (_ ∧ _))

/-! ### Who owns a descriptor -/

/-- The live objects have different descriptors, which are open. -/
structure Wf (l : Listener) : Prop where
  nodup : l.sockets.Nodup
  opened : ∀ fd ∈ l.sockets, ∃ σ, l.table.file fd = some (.socket σ)

variable {l l' : Listener}

theorem Wf.next_not_mem (h : Wf l) : (FdTable.lowestFree l.table : Fd) ∉ l.sockets := by
  intro hmem
  obtain ⟨σ, hσ⟩ := h.opened _ hmem
  rw [FdTable.file_lowestFree] at hσ
  simp at hσ

theorem Fresh.wf (h : Fresh l) : Wf l := by
  refine ⟨by rw [h.1]; exact List.nodup_nil, fun fd hfd => ?_⟩
  rw [h.1] at hfd
  simp at hfd

theorem Fresh.owned (h : Fresh l) : Owned l := fun fd σ hfd => absurd hfd (h.2 fd σ)

theorem owned_congr (hwf : Wf l) (hsockets : l'.sockets = l.sockets)
    (hfile : ∀ fd σ, l'.table.file fd = some (.socket σ) ↔ l.table.file fd = some (.socket σ)) :
    Wf l' ∧ (Owned l' ↔ Owned l) := by
  refine ⟨⟨by rw [hsockets]; exact hwf.nodup, fun fd hfd => ?_⟩, ?_⟩
  · obtain ⟨σ, hσ⟩ := hwf.opened fd (hsockets ▸ hfd)
    exact ⟨σ, (hfile fd σ).mpr hσ⟩
  · unfold Owned
    rw [hsockets]
    exact forall₂_congr fun fd σ => imp_congr (hfile fd σ) Iff.rfl

theorem outside_owned {e : Outside} (hwf : Wf l) (h : outside e l = some l') : Wf l' ∧ (Owned l' ↔ Owned l) := by
  cases e with
  | connects σ =>
    obtain rfl := Option.some.inj h
    exact owned_congr hwf rfl fun _ _ => Iff.rfl
  | disconnects fd =>
    simp only [outside, Option.ite_none_right_eq_some, Option.some.injEq] at h
    obtain ⟨hmem, rfl⟩ := h
    refine ⟨⟨hwf.nodup.erase fd, fun fd' hfd' => ?_⟩, fun howned fd' σ hfile => ?_, fun howned fd' σ hfile => ?_⟩
    · obtain ⟨hne, hmem'⟩ := hwf.nodup.mem_erase_iff.mp hfd'
      obtain ⟨σ, hσ⟩ := hwf.opened fd' hmem'
      exact ⟨σ, by rw [FdTable.file_release, if_neg hne, hσ]⟩
    · by_cases hfd : fd' = fd
      · rw [hfd]
        exact hmem
      · refine List.mem_of_mem_erase (howned fd' σ ?_)
        rw [FdTable.file_release, if_neg hfd, hfile]
    · rw [FdTable.file_release] at hfile
      split at hfile
      · simp at hfile
      · next hfd => exact hwf.nodup.mem_erase_iff.mpr ⟨hfd, howned fd' σ hfile⟩
  | opens n =>
    obtain rfl := Option.some.inj h
    exact owned_congr hwf rfl (l.table.socket_allocate_other n)
  | closes fd =>
    simp only [outside] at h
    split at h
    · next n hother =>
      obtain rfl := Option.some.inj h
      exact owned_congr hwf rfl (FdTable.socket_release_other hother)
    · simp at h

theorem Wf.opened_allocate (h : Wf l) (f : File) : ∀ fd ∈ l.sockets, ∃ σ, (l.table.allocate f).file fd = some (.socket σ) := by
  intro fd hfd
  obtain ⟨σ, hσ⟩ := h.opened fd hfd
  refine ⟨σ, ?_⟩
  rw [FdTable.file_allocate, if_neg, hσ]
  rintro rfl
  exact h.next_not_mem hfd

theorem owned_of_kept {σ : Nat} (hwf : Wf l) (htable : l'.table = l.table.allocate (.socket σ))
    (hsockets : l'.sockets = (FdTable.lowestFree l.table : Fd) :: l.sockets) : Wf l' ∧ (Owned l' ↔ Owned l) := by
  refine ⟨⟨?_, fun fd hfd => ?_⟩, fun howned fd τ hfile => ?_, fun howned fd τ hfile => ?_⟩
  · rw [hsockets]
    exact List.nodup_cons.mpr ⟨hwf.next_not_mem, hwf.nodup⟩
  · rw [hsockets] at hfd
    rw [htable]
    rcases List.mem_cons.mp hfd with rfl | hfd
    · exact ⟨σ, by rw [FdTable.file_allocate, if_pos rfl]⟩
    · exact hwf.opened_allocate _ fd hfd
  · have hne : fd ≠ FdTable.lowestFree l.table := by
      rintro rfl
      simp [FdTable.file_lowestFree] at hfile
    have hmem := howned fd τ (by rw [htable, FdTable.file_allocate, if_neg hne, hfile])
    rw [hsockets] at hmem
    exact (List.mem_cons.mp hmem).resolve_left hne
  · rw [htable, FdTable.file_allocate] at hfile
    rw [hsockets]
    split at hfile
    · next hfd => exact List.mem_cons.mpr (Or.inl hfd)
    · exact List.mem_cons_of_mem _ (howned fd τ hfile)

theorem not_owned_of_leaked {σ : Nat} (hwf : Wf l) (htable : l'.table = l.table.allocate (.socket σ))
    (hsockets : l'.sockets = l.sockets) : Wf l' ∧ ¬ Owned l' := by
  refine ⟨⟨by rw [hsockets]; exact hwf.nodup, fun fd hfd => ?_⟩, fun howned => ?_⟩
  · rw [htable]
    exact hwf.opened_allocate _ fd (hsockets ▸ hfd)
  · have hmem := howned (FdTable.lowestFree l.table) σ (by rw [htable, FdTable.file_allocate, if_pos rfl])
    rw [hsockets] at hmem
    exact hwf.next_not_mem hmem

/-- What `accept` does: it fails and leaves descriptors and objects alone, or it opens a descriptor. -/
theorem accept_cases {e : Option AcceptError} {fd : Fd} (h : l.accept e = some (fd, l')) :
    (e ≠ none ∧ fd = -1 ∧ l'.table = l.table ∧ l'.sockets = l.sockets) ∨
    (e = none ∧ fd = FdTable.lowestFree l.table ∧ ∃ σ, l.queue = σ :: l'.queue ∧
      l' = { l with queue := l'.queue, table := l.table.allocate (.socket σ) }) := by
  rcases e with _ | _ | _ | _ | _
  · simp only [accept] at h
    split at h
    · simp at h
    · next σ rest hq =>
      obtain ⟨rfl, rfl⟩ := Prod.mk.inj (Option.some.inj h)
      exact Or.inr ⟨rfl, rfl, σ, hq, rfl⟩
  · simp only [accept, Option.ite_none_right_eq_some, Option.some.injEq, Prod.mk.injEq] at h
    obtain ⟨_, rfl, rfl⟩ := h
    exact Or.inl ⟨by simp, rfl, rfl, rfl⟩
  · obtain ⟨rfl, rfl⟩ := Prod.mk.inj (Option.some.inj h)
    exact Or.inl ⟨by simp, rfl, rfl, rfl⟩
  · simp only [accept] at h
    split at h
    · simp at h
    · obtain ⟨rfl, rfl⟩ := Prod.mk.inj (Option.some.inj h)
      exact Or.inl ⟨by simp, rfl, rfl, rfl⟩
  · obtain ⟨rfl, rfl⟩ := Prod.mk.inj (Option.some.inj h)
    exact Or.inl ⟨by simp, rfl, rfl, rfl⟩

/-- The outcomes of `process`: `accept` fails; the constructor throws, and the descriptor stays open; the callback
keeps the socket; the socket is closed when the callback has ended. -/
theorem process_cases {x : Option AcceptError × Client} {o : Option Int} (h : process x l = some (o, l')) :
    (x.1 ≠ none ∧ o = some (-1) ∧ l'.table = l.table ∧ l'.sockets = l.sockets) ∨
    (x.1 = none ∧ ∃ σ, l.queue = σ :: l'.queue ∧
      ((¬ x.2.Constructed (FdTable.lowestFree l.table) ∧ o = none ∧ l'.table = l.table.allocate (.socket σ) ∧
        l'.sockets = l.sockets) ∨
      (x.2.Constructed (FdTable.lowestFree l.table) ∧ o = (if x.2.throws then none else some 1) ∧
        ((l'.table = l.table.allocate (.socket σ) ∧ l'.sockets = (FdTable.lowestFree l.table : Fd) :: l.sockets) ∨
        (l'.table = (l.table.allocate (.socket σ)).release (FdTable.lowestFree l.table) ∧
          l'.sockets = l.sockets))))) := by
  obtain ⟨⟨fd, l₁⟩, haccept, h⟩ := Option.map_eq_some_iff.mp h
  rcases accept_cases haccept with ⟨he, rfl, htable, hsockets⟩ | ⟨he, rfl, σ, hq, hl₁⟩
  · simp only [if_true, Prod.mk.injEq] at h
    obtain ⟨rfl, rfl⟩ := h
    exact Or.inl ⟨he, rfl, htable, hsockets⟩
  · have hfd : ((FdTable.lowestFree l.table : Nat) : Int) ≠ -1 := by omega
    simp only [if_neg hfd] at h
    refine Or.inr ⟨he, σ, ?_⟩
    by_cases hc : x.2.Constructed (FdTable.lowestFree l.table)
    · rw [if_neg (not_not.mpr hc)] at h
      obtain ⟨ho, hl⟩ := Prod.mk.inj h
      cases hkeeps : x.2.keeps with
      | true =>
        rw [hkeeps, if_pos rfl] at hl
        rw [← hl, hl₁]
        exact ⟨hq, Or.inr ⟨hc, ho.symm, Or.inl ⟨rfl, rfl⟩⟩⟩
      | false =>
        rw [hkeeps, if_neg (by simp)] at hl
        rw [← hl, hl₁]
        exact ⟨hq, Or.inr ⟨hc, ho.symm, Or.inr ⟨rfl, rfl⟩⟩⟩
    · rw [if_pos hc] at h
      obtain ⟨ho, hl⟩ := Prod.mk.inj h
      rw [← hl, hl₁]
      exact ⟨hq, Or.inl ⟨hc, ho.symm, rfl, rfl⟩⟩

/-- Every descriptor has an owner afterwards if it had one before and the constructor has not thrown. -/
theorem process_owned {x : Option AcceptError × Client} {o : Option Int} (hwf : Wf l)
    (h : process x l = some (o, l')) : Wf l' ∧ (Owned l' ↔ Owned l ∧ ¬ ConstructorThrows x l) := by
  rcases process_cases h with ⟨he, _, htable, hsockets⟩ |
    ⟨he, σ, _, ⟨hc, _, htable, hsockets⟩ | ⟨hc, _, ⟨htable, hsockets⟩ | ⟨htable, hsockets⟩⟩⟩
  · rw [and_iff_left fun hthrows : ConstructorThrows x l => he hthrows.1]
    exact owned_congr hwf hsockets fun fd τ => by rw [htable]
  · obtain ⟨hwf', hno⟩ := not_owned_of_leaked hwf htable hsockets
    exact ⟨hwf', iff_of_false hno fun hboth => hboth.2 ⟨he, hc⟩⟩
  · rw [and_iff_left fun hthrows : ConstructorThrows x l => hthrows.2 hc]
    exact owned_of_kept hwf htable hsockets
  · rw [and_iff_left fun hthrows : ConstructorThrows x l => hthrows.2 hc]
    -- the descriptor is opened and closed again
    refine owned_congr hwf hsockets fun fd τ => ?_
    rw [htable, FdTable.file_release, FdTable.file_allocate]
    split
    · next hfd => simp [hfd, FdTable.file_lowestFree]
    · rfl

theorem queue_of_thrown {x : Option AcceptError × Client} (h : process x l = some (none, l')) :
    ∃ σ, l.queue = σ :: l'.queue := by
  rcases process_cases h with ⟨_, ho, _⟩ | ⟨_, σ, hq, _⟩
  · simp at ho
  · exact ⟨σ, hq⟩

/-! ### The server in the event loop -/

section Server

variable {H : Type} [DecidableEq H] {fd stopFd : Fd} {p : Addr} {handler : H}

/-- The step is a call of `process` whose constructor throws. -/
def Leaks (y : Source.State H Listener × Source.Act H Outside (Option AcceptError × Client)) : Prop :=
  match y.2 with
  | .process x => ConstructorThrows x y.1.items
  | .drain x => ConstructorThrows x y.1.items
  | _ => False

instance (y : Source.State H Listener × Source.Act H Outside (Option AcceptError × Client)) : Decidable (Leaks y) :=
  match y with
  | (s, .process x) => inferInstanceAs (Decidable (ConstructorThrows x s.items))
  | (s, .drain x) => inferInstanceAs (Decidable (ConstructorThrows x s.items))
  | (_, .loop _) => inferInstanceAs (Decidable False)
  | (_, .outside _) => inferInstanceAs (Decidable False)

theorem step_owned {s s' : Source.State H Listener} {a : Source.Act H Outside (Option AcceptError × Client)}
    (hwf : Wf s.items) (hs : source.step fd stopFd p handler s a = some s') :
    Wf s'.items ∧ (Owned s'.items ↔ Owned s.items ∧ ¬ Leaks (s, a)) := by
  cases a with
  | loop b =>
    simp only [Source.step, Option.ite_none_right_eq_some, Option.map_eq_some_iff] at hs
    obtain ⟨_, sys, _, rfl⟩ := hs
    exact ⟨hwf, by simp [Leaks]⟩
  | outside e =>
    simp only [Source.step, Option.map_eq_some_iff] at hs
    obtain ⟨l, hl, rfl⟩ := hs
    obtain ⟨hwf', howned⟩ := outside_owned hwf hl
    split <;> exact ⟨hwf', by simpa [Leaks] using howned⟩
  | process x =>
    simp only [Source.step, Option.ite_none_right_eq_some, Option.bind_eq_some_iff, Option.map_eq_some_iff] at hs
    obtain ⟨_, ⟨o, l⟩, hl, sys, _, rfl⟩ := hs
    simpa [Leaks] using process_owned hwf hl
  | drain x =>
    simp only [Source.step, Option.ite_none_right_eq_some, Option.map_eq_some_iff] at hs
    obtain ⟨_, ⟨o, l⟩, hl, rfl⟩ := hs
    simpa [Leaks] using process_owned hwf hl

/-- Each descriptor returned by `accept` is closed or owned exactly if no constructor has thrown. After an exception
that the event loop has caught, the connections still queued are accepted without a new one exactly if there are none,
or the kernel holds another edge, or a handler called before in the same pass wants to be called again. -/
theorem accept_exception_safe_iff (sys : Sys H) (l : Listener)
    (tr : List (Source.State H Listener × Source.Act H Outside (Option AcceptError × Client)))
    (s : Source.State H Listener) (hreg : sys.Registered fd stopFd p handler) (hfresh : l.Fresh)
    (hrun : (source.step fd stopFd p handler).Run (Source.start sys l) tr s) :
    (Owned s.items ↔ ∀ y ∈ tr, ¬ Leaks y) ∧
      ∀ x s', source.step fd stopFd p handler s (.process x) = some s' → process x s.items = some (none, s'.items) →
        ((s'.items.queue = [] ∨ s'.sys.Recalled fd stopFd p) ↔
          s.items.queue.length = 1 ∨ signals (s.sys.loop.kernel.edges fd) .inp = true ∨ 0 < s.sys.pc.left) := by
  constructor
  · have hinv : Wf s.items ∧ (Owned s.items ↔ ∀ y ∈ tr, ¬ Leaks y) := by
      refine hrun.trace_induction (P := fun tr s => Wf s.items ∧ (Owned s.items ↔ ∀ y ∈ tr, ¬ Leaks y))
        ⟨hfresh.wf, iff_of_true hfresh.owned (List.forall_mem_nil _)⟩ fun tr s a s' _ ⟨hwf, howned⟩ hs => ?_
      obtain ⟨hwf', howned'⟩ := step_owned hwf hs
      refine ⟨hwf', ?_⟩
      rw [howned', howned, List.forall_mem_cons, and_comm]
    exact hinv.2
  · intro x s' hs hthrows
    obtain ⟨σ, hq⟩ := queue_of_thrown hthrows
    rw [Source.recalled_thrown_iff (Source.run_inv hreg hrun) hs hthrows, hq]
    simp [List.length_eq_zero_iff]

end Server

/-- The callback throws for the first of two clients. Its socket is closed, the second one waits. -/
theorem accept_exception_safe_callback :
    ∃ (sys : Sys Nat) (tr : List (Source.State Nat Listener × Source.Act Nat Outside (Option AcceptError × Client)))
      (s : Source.State Nat Listener),
      (source.step 5 3 0 10).Run (Source.start sys ⟨[], List.replicate 6 (some (.other 0)), []⟩) tr s ∧
      s.items.queue = [2] ∧ s.items.table.file 6 = none ∧ Owned s.items := by
  have hreg : Sys.Registered 5 3 0 (10 : Nat) (.serving 5 3 0 10 []) := .first [] (by decide) (by decide)
  have hrun := Machine.run_of_exec (source.step 5 3 0 10)
    (Source.start (Sys.serving 5 3 0 10 [])
      ⟨[], List.replicate 6 (some (.other 0)), []⟩)
    [.drain (some .again, ⟨0, ⟨0, true, 0, 0, 0, 0, 0⟩, false, false⟩), .outside (.connects 1), .outside (.connects 2),
      .loop (.wait [5]), .loop .assign, .loop .lock, .loop .step, .loop .step,
      .process (none, ⟨0, ⟨0, true, 0, 0, 0, 0, 0⟩, false, true⟩)] rfl
  refine ⟨_, _, _, hrun, rfl, rfl, (accept_exception_safe_iff _ _ _ _ hreg ⟨rfl, fun fd σ hfile => ?_⟩ hrun).1.mpr ?_⟩
  · simpa using (FdTable.mem_iff _ _).mpr ⟨fd, hfile⟩
  · decide

/-- The constructor throws for the first of two clients: its descriptor stays open without an owner, and the second
client is not accepted before a third one connects. -/
theorem constructor_leaks :
    ∃ (sys : Sys Nat) (tr : List (Source.State Nat Listener × Source.Act Nat Outside (Option AcceptError × Client)))
      (s : Source.State Nat Listener),
      sys.Registered 5 3 0 10 ∧
      (source.step 5 3 0 10).Run (Source.start sys ⟨[], List.replicate 6 (some (.other 0)), []⟩) tr s ∧
      tr.filterMap (fun y => match y.2 with | .process x => some x | _ => none) =
        [(none, ⟨-1, ⟨0, true, 0, 0, 0, 0, 0⟩, true, false⟩)] ∧
      ¬ Owned s.items ∧ s.items.queue = [2] ∧ ¬ s.sys.Recalled 5 3 0 := by
  have hreg : Sys.Registered 5 3 0 (10 : Nat) (.serving 5 3 0 10 []) := .first [] (by decide) (by decide)
  have hbefore := Machine.run_of_exec (source.step 5 3 0 10)
    (Source.start (Sys.serving 5 3 0 10 [])
      ⟨[], List.replicate 6 (some (.other 0)), []⟩)
    [.drain (some .again, ⟨0, ⟨0, true, 0, 0, 0, 0, 0⟩, false, false⟩), .outside (.connects 1), .outside (.connects 2),
      .loop (.wait [5]), .loop .assign, .loop .lock, .loop .step, .loop .step] rfl
  have hrun : (source.step 5 3 0 10).Run _ ((_, .process (none, ⟨-1, ⟨0, true, 0, 0, 0, 0, 0⟩, true, false⟩)) :: _) _ :=
    hbefore.snoc rfl
  refine ⟨_, _, _, hreg, hrun, rfl, fun howned => ?_, rfl, fun hrecalled => ?_⟩
  · exact absurd (howned 6 1 rfl) (by decide)
  · cases hrun with
    | snoc _ hstep =>
      have hiff := Source.recalled_thrown_iff (Source.run_inv hreg hbefore) hstep rfl
      exact absurd (hiff.mp hrecalled) (by decide)

end Listener

end Libhbk
