import Libhbk.Communication.Connection
import Libhbk.Communication.EdgeTriggered
import Libhbk.Communication.ReceiveTelegram
import Libhbk.Sys.EventLoop.Diligent

/-!
# What callbacks get

The data callback of a `SocketNonblocking` receives in a loop, and returns a value `≤ 0` after a receive that found
nothing. In between the reader of the socket may have more in its buffer than the kernel, and nobody will signal that.
Here it is beside the event loop, with whatever else goes on there: what has arrived by the time the loop rests has been
handed out. `TcpServer::process` takes one client in each call, and is called again after each that is accepted: by the
time the loop rests none of them waits, unless a call has ended with an error or an exception while there were some.
-/

namespace Libhbk

variable {α H : Type}

/-- Where `recv` does not return a positive number, the reader is empty and there was nothing to read. -/
theorem BufferedReader.recv_finds_nothing (r : BufferedReader α) (buf : List α) (k : Readv α) (hbuf : 0 < buf.length)
    (hret : (r.recv buf k).ret ≤ 0) : (r.recv buf k).reader.buffered = [] ∧ ∀ b avail, k ≠ .data (b :: avail) := by
  unfold recv at hret ⊢
  by_cases hle : buf.length ≤ r.bytesLeft
  · rw [if_pos hle] at hret
    dsimp only at hret
    omega
  · rw [if_neg hle] at hret ⊢
    cases k with
    | error again => exact ⟨rfl, nofun⟩
    | data avail =>
      cases avail with
      | nil => exact ⟨by simp [buffered], nofun⟩
      | cons b avail =>
        simp only [List.length_take, List.length_cons] at hret
        split_ifs at hret with hlong
        · omega
        · omega

/-! ### The data callback of a socket -/

/-- What is received: the reader, what the kernel has for it, and whether the peer has closed the connection. -/
structure Receiving (α : Type) where
  reader : BufferedReader α
  queue : List α
  closed : Bool

namespace Receiving

inductive Outside (α : Type) where
  | arrives (bytes : List α)
  | closes

/-- A call of `receive`: the caller's buffer, and how many more bytes than one `readv` finds, or `none` where it fails
although there may be some. -/
structure Receive (α : Type) where
  buf : List α
  found : Option Nat

def readv (s : Receiving α) : Option Nat → Readv α
  | none => .error false
  | some n =>
    match s.queue with
    | [] => if s.closed then .data [] else .error true
    | b :: queue => .data (b :: queue.take n)

/-- `receive(pBlock, size)`. -/
def receive (s : Receiving α) (x : Receive α) : RecvResult α × Receiving α :=
  let o := s.reader.recv x.buf (s.readv x.found)
  (o, { s with reader := o.reader, queue := s.queue.drop o.taken.length })

/-- One call after another, and all that they hand out. -/
def receives (s : Receiving α) : List (Receive α) → List α × Receiving α
  | [] => ([], s)
  | x :: xs =>
    let rest := receives (s.receive x).2 xs
    ((s.receive x).1.handed ++ rest.1, rest.2)

/-- What the callback does in one call: it receives, and returns a value. -/
structure Callback (α : Type) where
  calls : List (Receive α)
  ret : Int

def source : Source (Receiving α) (Outside α) (Callback α) where
  outside
    | .arrives bytes, s => if s.closed then none else some { s with queue := s.queue ++ bytes }
    | .closes, s => some { s with closed := true }
  signalled _ := true
  handle callback s := some (some callback.ret, (s.receives callback.calls).2)

/-- The callback wants to be called again, or its last receive has found nothing. -/
def Attentive (s : Receiving α) (callback : Callback α) : Prop :=
  0 < callback.ret ∨ ∃ x ∈ callback.calls.getLast?, 0 < x.buf.length ∧ x.found.isSome ∧
    ((s.receives callback.calls.dropLast).2.receive x).1.ret ≤ 0

instance (s : Receiving α) (callback : Callback α) : Decidable (s.Attentive callback) :=
  inferInstanceAs (Decidable (_ ∨ _))

/-- No receive straddles what the reader has and what it has not. -/
def Smooth (s : Receiving α) : List (Receive α) → Prop
  | [] => True
  | x :: xs => ¬ s.reader.Straddles x.buf.length ∧ Smooth (s.receive x).2 xs

instance decidableSmooth (s : Receiving α) : (calls : List (Receive α)) → Decidable (Smooth s calls)
  | [] => inferInstanceAs (Decidable True)
  | x :: xs =>
    have := decidableSmooth (s.receive x).2 xs
    inferInstanceAs (Decidable (_ ∧ _))

def Empty (s : Receiving α) : Prop := s.reader.buffered = [] ∧ s.queue = []

/-- Everything between the peer and the callback. -/
def ahead (s : Receiving α) : List α := s.reader.buffered ++ s.queue

variable {s s' : Receiving α} {x : Receive α} {calls : List (Receive α)}

theorem taken_prefix_queue (s : Receiving α) (x : Receive α) : (s.receive x).1.taken <+: s.queue := by
  unfold receive readv
  dsimp only
  cases x.found with
  | none =>
    rw [BufferedReader.recv_error_taken]
    exact List.nil_prefix
  | some n =>
    cases hqueue : s.queue with
    | nil =>
      dsimp only
      split
      · exact BufferedReader.recv_taken_le_avail _ _ _
      · rw [BufferedReader.recv_error_taken]
    | cons b queue =>
      refine (BufferedReader.recv_taken_le_avail _ _ _).trans ?_
      exact List.cons_prefix_cons.mpr ⟨rfl, List.take_prefix _ _⟩

theorem receive_queue (s : Receiving α) (x : Receive α) :
    (s.receive x).1.taken ++ (s.receive x).2.queue = s.queue := by
  obtain ⟨rest, hrest⟩ := taken_prefix_queue s x
  have hdrop : (s.receive x).2.queue = s.queue.drop (s.receive x).1.taken.length := rfl
  rw [hdrop, ← hrest, List.drop_left]

theorem receive_wf (h : s.reader.Wf) (x : Receive α) : (s.receive x).2.reader.Wf := BufferedReader.recv_wf _ h _ _

theorem receive_sublist (h : s.reader.Wf) (x : Receive α) :
    ((s.receive x).1.handed ++ (s.receive x).2.ahead).Sublist s.ahead := by
  have hreader := BufferedReader.recv_sublist s.reader x.buf h (s.readv x.found)
  rw [ahead, ahead, ← receive_queue s x, ← List.append_assoc, ← List.append_assoc]
  exact hreader.append (List.Sublist.refl _)

theorem receive_smooth (h : s.reader.Wf) (hsmooth : ¬ s.reader.Straddles x.buf.length) :
    (s.receive x).1.handed ++ (s.receive x).2.ahead = s.ahead := by
  have hreader := BufferedReader.recv_conserves s.reader h x.buf (s.readv x.found) hsmooth
  rw [ahead, ahead, ← receive_queue s x, ← List.append_assoc, ← List.append_assoc]
  exact congrArg (· ++ (s.receive x).2.queue) hreader

theorem receives_ahead (h : s.reader.Wf) (calls : List (Receive α)) :
    (s.receives calls).2.reader.Wf ∧ ((s.receives calls).1 ++ (s.receives calls).2.ahead).Sublist s.ahead ∧
      (Smooth s calls → (s.receives calls).1 ++ (s.receives calls).2.ahead = s.ahead) := by
  induction calls generalizing s with
  | nil => exact ⟨h, List.Sublist.refl _, fun _ => rfl⟩
  | cons x xs ih =>
    obtain ⟨hwf, hsublist, heq⟩ := ih (receive_wf h x)
    rw [receives]
    dsimp only
    rw [List.append_assoc]
    refine ⟨hwf, ?_, fun hsmooth => ?_⟩
    · exact ((List.Sublist.refl _).append hsublist).trans (receive_sublist h x)
    · rw [heq hsmooth.2]
      exact receive_smooth h hsmooth.1

theorem receives_concat (s : Receiving α) (calls : List (Receive α)) (x : Receive α) :
    (s.receives (calls ++ [x])).2 = ((s.receives calls).2.receive x).2 := by
  induction calls generalizing s with
  | nil => rfl
  | cons y ys ih => exact ih (s.receive y).2

theorem receive_empties (hbuf : 0 < x.buf.length) (hfound : x.found.isSome) (hret : (s.receive x).1.ret ≤ 0) :
    (s.receive x).2.Empty := by
  obtain ⟨hbuffered, hnothing⟩ := BufferedReader.recv_finds_nothing s.reader x.buf (s.readv x.found) hbuf hret
  refine ⟨hbuffered, ?_⟩
  have hqueue : s.queue = [] := by
    unfold readv at hnothing
    split at hnothing
    · next hnone => simp [hnone] at hfound
    · split at hnothing
      · assumption
      · next b queue _ => exact absurd rfl (hnothing b _)
  change s.queue.drop _ = []
  rw [hqueue, List.drop_nil]

/-! ### Runs -/

open Source (ended)

/-- A step beside the event loop, with the state it is made in. -/
abbrev Entry (α H : Type) := Source.State H (Receiving α) × Source.Act H (Outside α) (Callback α)

variable [DecidableEq H] {fd stopFd : Fd} {p : Addr} {process : H} {sys : Sys H}

/-- What has arrived; the newest step comes first. -/
def arrived : List (Entry α H) → List α
  | [] => []
  | (_, .outside (.arrives bytes)) :: tr => arrived tr ++ bytes
  | _ :: tr => arrived tr

/-- What has been handed out to the callback. -/
def handed : List (Entry α H) → List α
  | [] => []
  | (s, a) :: tr =>
    match ended a with
    | some callback => handed tr ++ (s.items.receives callback.calls).1
    | none => handed tr

omit [DecidableEq H] in
theorem arrived_ended {s : Source.State H (Receiving α)} {a : Source.Act H (Outside α) (Callback α)}
    {callback : Callback α} (h : ended a = some callback) (tr : List (Entry α H)) :
    arrived ((s, a) :: tr) = arrived tr := by
  cases a with
  | outside e => simp [ended] at h
  | _ => rfl

/-- **The callback gets everything.** Whatever else the event loop does: what has been handed out, what the reader and
what the kernel has are a part of what has arrived, in its order, and all of it if no receive straddles. If every call of
the callback that returns a value `≤ 0` ends with a receive that finds nothing, then nothing is left where `execute`
waits with nothing to report for the descriptor, neither in the kernel nor in the reader. -/
theorem callback_gets_everything (hreg : sys.Registered fd stopFd p process) (mem : List α)
    (hmem : mem.length = bufferSize) {tr : List (Entry α H)} {s : Source.State H (Receiving α)}
    (hrun : (source.step fd stopFd p process).Run (Source.start sys ⟨.new mem hmem, [], false⟩) tr s) :
    (handed tr ++ s.items.ahead).Sublist (arrived tr) ∧
    ((∀ y ∈ tr, ∀ callback ∈ ended y.2, Smooth y.1.items callback.calls) →
      handed tr ++ s.items.ahead = arrived tr) ∧
    ((∀ y ∈ tr, ∀ callback ∈ ended y.2, Attentive y.1.items callback) → s.draining = false →
      s.sys.pc = .wait → s.sys.loop.kernel.wait [fd] = none → s.items.ahead = []) := by
  have hconserved : s.items.reader.Wf ∧ (handed tr ++ s.items.ahead).Sublist (arrived tr) ∧
      ((∀ y ∈ tr, ∀ callback ∈ ended y.2, Smooth y.1.items callback.calls) →
        handed tr ++ s.items.ahead = arrived tr) := by
    refine Source.items_induction (P := fun tr (q : Receiving α) => q.reader.Wf ∧
      (handed tr ++ q.ahead).Sublist (arrived tr) ∧
      ((∀ y ∈ tr, ∀ callback ∈ ended y.2, Smooth y.1.items callback.calls) → handed tr ++ q.ahead = arrived tr))
      ?_ ?_ ?_ ?_ hrun
    · exact ⟨⟨Nat.le_refl _, Nat.zero_le _⟩, List.nil_sublist _, fun _ => rfl⟩
    · intro tr s b ⟨hwf, hsublist, heq⟩
      exact ⟨hwf, hsublist, fun hsmooth => heq fun y hy => hsmooth y (List.mem_cons_of_mem _ hy)⟩
    · intro tr s e q ⟨hwf, hsublist, heq⟩ hout
      cases e with
      | arrives bytes =>
        simp only [source, Option.ite_none_left_eq_some, Option.some.injEq] at hout
        obtain ⟨_, rfl⟩ := hout
        have hahead : ahead { s.items with queue := s.items.queue ++ bytes } = s.items.ahead ++ bytes :=
          (List.append_assoc ..).symm
        rw [hahead, ← List.append_assoc]
        refine ⟨hwf, hsublist.append (List.Sublist.refl bytes), fun hsmooth => ?_⟩
        exact congrArg (· ++ bytes) (heq fun y hy => hsmooth y (List.mem_cons_of_mem _ hy))
      | closes =>
        obtain rfl := Option.some.inj hout
        exact ⟨hwf, hsublist, fun hsmooth => heq fun y hy => hsmooth y (List.mem_cons_of_mem _ hy)⟩
    · intro tr s a callback o q ⟨hwf, hsublist, heq⟩ hended hh
      obtain ⟨hwf', hpart, hall⟩ := receives_ahead hwf callback.calls
      obtain ⟨_, rfl⟩ := Prod.mk.inj (Option.some.inj hh)
      rw [arrived_ended hended, handed, hended]
      dsimp only
      rw [List.append_assoc]
      refine ⟨hwf', ((List.Sublist.refl _).append hpart).trans hsublist, fun hsmooth => ?_⟩
      rw [hall (hsmooth _ List.mem_cons_self callback hended)]
      exact heq fun y hy => hsmooth y (List.mem_cons_of_mem _ hy)
  refine ⟨hconserved.2.1, hconserved.2.2, fun hattentive hdraining hpc hnothing => ?_⟩
  have hempty : s.items.Empty := by
    refine Source.nothing_stranded Empty (fun _ _ _ _ hno => absurd hno (by simp [source])) hreg hrun ?_ hdraining hpc
      hnothing
    intro y hy callback o q hended hh
    obtain ⟨rfl, rfl⟩ := Prod.mk.inj (Option.some.inj hh)
    rcases hattentive y hy callback hended with hpos | ⟨x, hlast, hbuf, hfound, hret⟩
    · exact Or.inl ⟨_, rfl, hpos⟩
    · rw [← List.dropLast_append_getLast? x hlast, receives_concat]
      exact Or.inr (receive_empties hbuf hfound hret)
  rw [ahead, hempty.1, hempty.2]
  rfl

/-- Five bytes arrive. The first receive leaves three of them to the reader, and the callback goes on until nothing is
found. -/
theorem callback_gets_everything_five :
    ∃ (tr : List (Entry Nat Nat)) (s : Source.State Nat (Receiving Nat)),
      (source.step 5 3 0 10).Run (Source.start (Sys.serving 5 3 0 10 [])
        ⟨.new (List.replicate bufferSize 0) List.length_replicate, [], false⟩) tr s ∧
      s.sys.pc = .wait ∧ handed tr = [1, 2, 3, 4, 5] ∧ handed tr = arrived tr := by
  have hexec : ((source.step 5 3 0 10).exec [] (Source.start (Sys.serving 5 3 0 10 [])
      ⟨.new (List.replicate bufferSize 0) List.length_replicate, [], false⟩)
      [.drain ⟨[⟨[0, 0], some 9⟩], -1⟩, .outside (.arrives [1, 2, 3, 4, 5]), .loop (.wait [5]), .loop .assign,
        .loop .lock, .loop .step, .loop .step,
        .process ⟨[⟨[0, 0], some 9⟩, ⟨[0], some 9⟩, ⟨[0, 0], some 9⟩, ⟨[0], some 9⟩], -1⟩, .loop .step,
        .loop .step]).map (fun x => (x.1.all fun y => decide
          ((∀ callback ∈ ended y.2, Smooth y.1.items callback.calls) ∧
            ∀ callback ∈ ended y.2, Attentive y.1.items callback),
        handed x.1, (x.2.draining, x.2.sys.pc), (x.2.sys.loop.kernel.wait [5]).isNone)) =
      some (true, [1, 2, 3, 4, 5], (false, .wait), true) := by
    decide +kernel
  obtain ⟨⟨tr, s⟩, hrun, hend⟩ := Option.map_eq_some_iff.mp hexec
  simp only [Prod.mk.injEq, List.all_eq_true, decide_eq_true_eq, Option.isNone_iff_eq_none] at hend
  obtain ⟨hcalls, hhanded, ⟨hdraining, hpc⟩, hnothing⟩ := hend
  have hrun := Machine.run_of_exec _ _ _ hrun
  obtain ⟨_, hall, hrest⟩ := callback_gets_everything (.first [] (by decide) (by decide)) _ List.length_replicate hrun
  have hall := hall fun y hy => (hcalls y hy).1
  rw [hrest (fun y hy => (hcalls y hy).2) hdraining hpc hnothing, List.append_nil] at hall
  exact ⟨tr, s, hrun, hpc, hhanded, hall⟩

end Receiving

/-! ### The clients of a server -/

namespace Listener

open Source (ended)

/-- What becomes of a client. -/
inductive Fate where
  /-- The accept callback is called with its socket. -/
  | accepted
  | aborted
  /-- The constructor of the socket throws. -/
  | dropped
  deriving DecidableEq, Repr

/-- The client that a call of `process` takes. -/
def takes (x : Option AcceptError × Client) (l : Listener) : List (Nat × Fate) :=
  match x.1, l.queue with
  | none, σ :: _ => [(σ, if x.2.Constructed (FdTable.lowestFree l.table) then .accepted else .dropped)]
  | some .connaborted, σ :: _ => [(σ, .aborted)]
  | _, _ => []

/-- The call wants to be called again, or no client waits behind it. -/
def Settles (x : Option AcceptError × Client) (l : Listener) : Prop :=
  match x.1 with
  | none => x.2.Constructed (FdTable.lowestFree l.table) ∧ x.2.throws = false ∨ l.queue.length ≤ 1
  | some .again => True
  | some .connaborted => l.queue.length ≤ 1
  | some .intr => l.queue = []
  | some .mfile => l.queue = []

instance (x : Option AcceptError × Client) (l : Listener) : Decidable (Settles x l) :=
  match x with
  | (none, _) => inferInstanceAs (Decidable (_ ∨ _))
  | (some .again, _) => inferInstanceAs (Decidable True)
  | (some .connaborted, _) => inferInstanceAs (Decidable (l.queue.length ≤ 1))
  | (some .intr, _) => inferInstanceAs (Decidable (l.queue = []))
  | (some .mfile, _) => inferInstanceAs (Decidable (l.queue = []))

/-- The client that connects. -/
def Outside.client : Outside → List Nat
  | .connects σ => [σ]
  | _ => []

/-- The clients that have connected; the newest step comes first. -/
def connected : List (Source.State H Listener × Source.Act H Outside (Option AcceptError × Client)) → List Nat
  | [] => []
  | (_, .outside e) :: tr => connected tr ++ e.client
  | _ :: tr => connected tr

def taken : List (Source.State H Listener × Source.Act H Outside (Option AcceptError × Client)) → List (Nat × Fate)
  | [] => []
  | (s, a) :: tr =>
    match ended a with
    | some x => taken tr ++ takes x s.items
    | none => taken tr

variable {l l' : Listener} {x : Option AcceptError × Client} {o : Option Int}

theorem connected_ended {s : Source.State H Listener} {a : Source.Act H Outside (Option AcceptError × Client)}
    (h : ended a = some x) (tr : List (Source.State H Listener × Source.Act H Outside (Option AcceptError × Client))) :
    connected ((s, a) :: tr) = connected tr := by
  cases a with
  | outside e => simp [ended] at h
  | _ => rfl

theorem outside_queue {e : Outside} (h : outside e l = some l') : l'.queue = l.queue ++ e.client := by
  cases e with
  | connects σ =>
    obtain rfl := Option.some.inj h
    rfl
  | disconnects fd =>
    simp only [outside, Option.ite_none_right_eq_some, Option.some.injEq] at h
    obtain ⟨_, rfl⟩ := h
    exact (List.append_nil _).symm
  | opens n =>
    obtain rfl := Option.some.inj h
    exact (List.append_nil _).symm
  | closes fd =>
    simp only [outside] at h
    split at h
    · obtain rfl := Option.some.inj h
      exact (List.append_nil _).symm
    · simp at h

theorem process_queue (h : process x l = some (o, l')) : (takes x l).map Prod.fst ++ l'.queue = l.queue := by
  obtain ⟨e, c⟩ := x
  rcases process_cases h with ⟨he, _⟩ | ⟨he, σ, hq, _⟩
  · obtain ⟨⟨fd, l₁⟩, haccept, hl⟩ := Option.map_eq_some_iff.mp h
    rcases accept_cases haccept with ⟨_, rfl, _⟩ | ⟨hnone, _⟩
    · simp only [if_true, Prod.mk.injEq] at hl
      obtain ⟨_, rfl⟩ := hl
      rcases e with _ | _ | _ | _ | _
      · exact absurd rfl he
      all_goals simp only [accept] at haccept
      · simp only [Option.ite_none_right_eq_some, Option.some.injEq, Prod.mk.injEq] at haccept
        obtain ⟨_, _, rfl⟩ := haccept
        rfl
      · obtain ⟨_, rfl⟩ := Prod.mk.inj (Option.some.inj haccept)
        rfl
      · split at haccept
        · simp at haccept
        · next σ rest hq =>
          obtain ⟨_, rfl⟩ := Prod.mk.inj (Option.some.inj haccept)
          simp [takes, hq]
      · obtain ⟨_, rfl⟩ := Prod.mk.inj (Option.some.inj haccept)
        rfl
    · exact absurd hnone he
  · dsimp only at he
    rw [takes, he, hq]
    rfl

theorem settles_ended (h : process x l = some (o, l')) (hsettles : Settles x l) :
    (∃ r, o = some r ∧ 0 < r) ∨ l'.queue = [] := by
  obtain ⟨e, c⟩ := x
  rcases process_cases h with ⟨he, rfl, _⟩ | ⟨he, σ, hq, hrest⟩
  · refine Or.inr ((emptied_iff h (by decide)).mpr ?_)
    rcases e with _ | _ | _ | _ | _
    · exact absurd rfl he
    all_goals exact hsettles
  · dsimp only at he
    subst he
    rcases hsettles with ⟨hconstructed, hthrows⟩ | hlength
    · rcases hrest with ⟨hc, _⟩ | ⟨_, ho, _⟩
      · exact absurd hconstructed hc
      · dsimp only at ho
        rw [hthrows] at ho
        exact Or.inl ⟨1, ho, by decide⟩
    · rw [hq, List.length_cons] at hlength
      exact Or.inr (List.length_eq_zero_iff.mp (by omega))

variable [DecidableEq H] {fd stopFd : Fd} {p : Addr} {handler : H} {sys : Sys H}

/-- **Every client is served.** Whatever else the event loop does: the clients are taken in the order in which they have
connected, each once, and handed to the accept callback if they have not been aborted before and the constructor of the
socket does not throw. If no call of `process` that ends with an error or an exception leaves a client behind, none
waits where `execute` waits with nothing to report for the listening socket. -/
theorem every_client_served (hreg : sys.Registered fd stopFd p handler)
    {tr : List (Source.State H Listener × Source.Act H Outside (Option AcceptError × Client))}
    {s : Source.State H Listener}
    (hrun : (source.step fd stopFd p handler).Run (Source.start sys l) tr s) :
    (taken tr).map Prod.fst ++ s.items.queue = l.queue ++ connected tr ∧
    ((∀ y ∈ tr, ∀ x ∈ ended y.2, Settles x y.1.items) → s.draining = false → s.sys.pc = .wait →
      s.sys.loop.kernel.wait [fd] = none → (taken tr).map Prod.fst = l.queue ++ connected tr) := by
  have htaken : (taken tr).map Prod.fst ++ s.items.queue = l.queue ++ connected tr := by
    refine Source.items_induction
      (P := fun tr (l' : Listener) => (taken tr).map Prod.fst ++ l'.queue = l.queue ++ connected tr) ?_ ?_ ?_ ?_ hrun
    · exact (List.append_nil _).symm
    · intro tr s b h
      exact h
    · intro tr s e l' h hout
      rw [connected, outside_queue hout, ← List.append_assoc, ← List.append_assoc, ← h]
      rfl
    · intro tr s a x o l' h hended hh
      rw [connected_ended hended, taken, hended, ← h, ← process_queue hh]
      dsimp only
      rw [List.map_append, List.append_assoc]
  refine ⟨htaken, fun hsettles hdraining hpc hnothing => ?_⟩
  have hempty : s.items.queue = [] := by
    refine Source.nothing_stranded (fun l : Listener => l.queue = []) ?_ hreg hrun ?_ hdraining hpc hnothing
    · intro e l l' hout hsignalled hempty
      rw [outside_queue hout, hempty]
      cases e with
      | connects σ => simp [source] at hsignalled
      | _ => rfl
    · intro y hy x o l' hended hh
      exact settles_ended hh (hsettles y hy x hended)
  rw [← htaken, hempty, List.append_nil]

/-- Two clients connect, of which the first is aborted. -/
theorem every_client_served_two :
    ∃ (tr : List (Source.State Nat Listener × Source.Act Nat Outside (Option AcceptError × Client)))
      (s : Source.State Nat Listener),
      (source.step 5 3 0 10).Run (Source.start (Sys.serving 5 3 0 10 []) ⟨[], List.replicate 6 (some (.other 0)), []⟩)
        tr s ∧ s.sys.pc = .wait ∧ taken tr = [(1, .aborted), (2, .accepted)] ∧ connected tr = [1, 2] := by
  have hexec : ((source.step 5 3 0 10).exec []
      (Source.start (Sys.serving 5 3 0 10 []) ⟨[], List.replicate 6 (some (.other 0)), []⟩)
      [.outside (.connects 1), .drain (some .connaborted, ⟨0, ⟨0, true, 0, 0, 0, 0, 0⟩, true, false⟩),
        .outside (.connects 2), .loop (.wait [5]), .loop .assign, .loop .lock, .loop .step, .loop .step,
        .process (none, ⟨0, ⟨0, true, 0, 0, 0, 0, 0⟩, true, false⟩), .loop .step, .loop .step, .loop .step, .loop .step,
        .process (some .again, ⟨0, ⟨0, true, 0, 0, 0, 0, 0⟩, true, false⟩), .loop .step, .loop .step]).map (fun x =>
          (x.1.all fun y => decide (∀ a ∈ ended y.2, Settles a y.1.items), taken x.1, (x.2.draining, x.2.sys.pc),
            (x.2.sys.loop.kernel.wait [5]).isNone)) =
      some (true, [(1, .aborted), (2, .accepted)], (false, .wait), true) := by
    decide +kernel
  obtain ⟨⟨tr, s⟩, hrun, hend⟩ := Option.map_eq_some_iff.mp hexec
  simp only [Prod.mk.injEq, List.all_eq_true, decide_eq_true_eq, Option.isNone_iff_eq_none] at hend
  obtain ⟨hsettles, htaken, ⟨hdraining, hpc⟩, hnothing⟩ := hend
  have hrun := Machine.run_of_exec _ _ _ hrun
  have hall := (every_client_served (.first [] (by decide) (by decide)) hrun).2 hsettles hdraining hpc hnothing
  rw [htaken] at hall
  exact ⟨tr, s, hrun, hpc, htaken, hall.symm⟩

end Listener

end Libhbk
