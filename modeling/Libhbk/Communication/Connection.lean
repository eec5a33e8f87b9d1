import Libhbk.Base.Potential
import Libhbk.Communication.BufferedReader
import Libhbk.Communication.SendBlocks

/-!
# A connection from end to end

One program calls `sendBlocks`, again and again as long as the calls succeed; another one calls `receive`, with
whatever sizes it likes. In between the kernel keeps up to `capacity` bytes and hands them on in order. Both
programs and the kernel take turns in any order.

`flow` are all bytes that are on their way, from those handed out to those of calls not made yet. `conserves` says
what becomes of it in any run, and `everything_arrives` that it reaches its end.
-/

namespace Libhbk

open Machine

variable {β : Type}

/-! ### What an answer does to a call of `sendBlocks` -/

namespace SendBlocks

variable {mem : Nat → β} {blocks : List DataBlock} {s s' : SendBlocks β} {n : Nat}

/-- The bytes that `sendmsg` takes. -/
def Act.count : Act → Nat
  | .sendmsg (.count n) => n
  | _ => 0

theorem written_spec (htotal : (stream mem blocks).length < 2 ^ 63) (hcount : blocks.length < 2 ^ 64)
    (h : Sending mem blocks n s) : (s.written n).accepted = s.accepted ∧
      ((s.written n).pc = .poll ∨ (s.written n).pc = .returned (stream mem blocks).length) := by
  rcases written_cases htotal hcount h with ⟨_, hw⟩ | ⟨_, k, b, _, _, _, hw⟩
  · rw [hw]
    refine ⟨rfl, Or.inr ?_⟩
    change Pc.returned (castSsize s.totalLength) = _
    rw [h.totalLength, castSsize_of_lt htotal]
  · rw [hw]
    exact ⟨rfl, Or.inl rfl⟩

theorem Inv.offered (h : Inv mem blocks s) (hpc : s.pc = .sendmsg) :
    stream mem s.iov = (stream mem blocks).drop s.accepted.length := by
  have hs := h.sending (Or.inl hpc)
  rw [hs.iov_eq, ← hs.taken, List.drop_zero, List.drop_left]

theorem step_cases (htotal : (stream mem blocks).length < 2 ^ 63) (hcount : blocks.length < 2 ^ 64)
    (h : Inv mem blocks s) {a : Act} (hstep : step mem s a = some s') :
    (∃ n, a = .sendmsg (.count n) ∧ s.pc = .sendmsg ∧
      n ≤ ((stream mem blocks).drop s.accepted.length).length ∧
      s'.accepted = s.accepted ++ ((stream mem blocks).drop s.accepted.length).take n ∧
      (n = 0 ∧ s'.pc = .returned 0 ∨ 0 < n ∧ (s'.pc = .poll ∨ s'.pc = .returned (stream mem blocks).length))) ∨
    (∃ again, a = .sendmsg (.error again) ∧ s.pc = .sendmsg ∧ s'.accepted = s.accepted ∧
      (again = true ∧ (s'.pc = .poll ∨ s'.pc = .returned (stream mem blocks).length) ∨
        again = false ∧ s'.pc = .returned (-1))) ∨
    (∃ err intr, a = .poll err intr ∧ s.pc = .poll ∧ s'.accepted = s.accepted ∧
      ((err = -1 ∧ intr = true) ∧ s'.pc = .poll ∨
        err = 1 ∧ (s'.pc = .sendmsg ∨ s'.pc = .returned (stream mem blocks).length) ∨
        err ≠ 1 ∧ ¬ (err = -1 ∧ intr = true) ∧ s'.pc = .returned (-1))) := by
  rcases a with ⟨n | again⟩ | ⟨err, intr⟩
  · simp only [step, Option.ite_none_right_eq_some] at hstep
    obtain ⟨⟨hpc, hn⟩, hstep⟩ := hstep
    have hs := h.sending (Or.inl hpc)
    have hoffered := h.offered hpc
    rw [hoffered] at hn hstep
    refine Or.inl ⟨n, rfl, hpc, hn, ?_⟩
    split at hstep
    · next hzero =>
      obtain rfl := Option.some.inj hstep
      subst hzero
      exact ⟨by rw [List.take_zero, List.append_nil], Or.inl ⟨rfl, rfl⟩⟩
    · next hne =>
      obtain rfl := Option.some.inj hstep
      rw [hs.iov_eq] at hoffered
      rw [← hoffered] at hn ⊢
      obtain ⟨haccepted, hpc'⟩ := written_spec htotal hcount (hs.take hn)
      exact ⟨haccepted, Or.inr ⟨by omega, hpc'⟩⟩
  · simp only [step, Option.ite_none_right_eq_some] at hstep
    obtain ⟨hpc, hstep⟩ := hstep
    obtain rfl := Option.some.inj hstep
    obtain ⟨haccepted, hpc'⟩ := written_spec htotal hcount (h.sending (Or.inl hpc))
    refine Or.inr (Or.inl ⟨again, rfl, hpc, ?_⟩)
    cases again with
    | true =>
      rw [if_pos rfl]
      exact ⟨haccepted, Or.inl ⟨rfl, hpc'⟩⟩
    | false =>
      rw [if_neg Bool.false_ne_true]
      exact ⟨rfl, Or.inr ⟨rfl, rfl⟩⟩
  · simp only [step, Option.ite_none_right_eq_some] at hstep
    obtain ⟨hpc, hstep⟩ := hstep
    refine Or.inr (Or.inr ⟨err, intr, rfl, hpc, ?_⟩)
    split_ifs at hstep with hintr herr hleft <;> obtain rfl := Option.some.inj hstep
    · exact ⟨rfl, Or.inl ⟨hintr, hpc⟩⟩
    · exact ⟨rfl, Or.inr (Or.inr ⟨herr, hintr, rfl⟩)⟩
    · exact ⟨rfl, Or.inr (Or.inl ⟨not_not.mp herr, Or.inl rfl⟩)⟩
    · refine ⟨rfl, Or.inr (Or.inl ⟨not_not.mp herr, Or.inr ?_⟩)⟩
      change Pc.returned (castSsize s.totalLength) = _
      rw [(h.sending (Or.inr hpc)).totalLength, castSsize_of_lt htotal]

theorem exists_count_step (hpc : s.pc = .sendmsg) (hn : n ≤ (stream mem s.iov).length) :
    ∃ s', step mem s (.sendmsg (.count n)) = some s' := by
  simp only [step, if_pos (And.intro hpc hn)]
  split <;> exact ⟨_, rfl⟩

theorem exists_ready_step (mem : Nat → β) (hpc : s.pc = .poll) : ∃ s', step mem s (.poll 1 false) = some s' := by
  simp only [step, if_pos hpc]
  split_ifs <;> exact ⟨_, rfl⟩

end SendBlocks

/-! ### What a receive does to the stream -/

namespace BufferedReader

variable (r : BufferedReader β) (buf : List β)

theorem recv_taken_le_avail (avail : List β) : (r.recv buf (.data avail)).taken <+: avail := by
  unfold recv
  by_cases hle : buf.length ≤ r.bytesLeft
  · rw [if_pos hle]
    exact List.nil_prefix
  · rw [if_neg hle]
    exact List.take_prefix _ _

theorem recv_error_taken (again : Bool) : (r.recv buf (.error again)).taken = [] := by
  unfold recv
  by_cases hle : buf.length ≤ r.bytesLeft
  · rw [if_pos hle]
  · rw [if_neg hle]

theorem recv_sublist (h : r.Wf) (k : Readv β) :
    ((r.recv buf k).handed ++ (r.recv buf k).reader.buffered).Sublist (r.buffered ++ (r.recv buf k).taken) := by
  by_cases hs : r.Straddles buf.length
  · cases k with
    | error again =>
      obtain ⟨h1, h2, _⟩ := recv_error r buf again hs.2
      rw [h1, h2]
      exact List.nil_sublist _
    | data avail =>
      obtain ⟨h1, h2, h3⟩ := recv_data r h buf avail hs.2 _ rfl
      rw [h1, h2, h3]
      generalize avail.take (buf.length - r.bytesLeft + bufferSize) = got
      have hparts : r.buffered ++ got = (r.buffered ++ got.take (buf.length - r.bytesLeft)) ++
          got.drop (buf.length - r.bytesLeft) := by
        rw [List.append_assoc, List.take_append_drop]
      rw [hparts]
      exact (List.take_sublist _ _).append (List.take_sublist _ _)
  · rw [recv_conserves r h buf k hs]

theorem recv_account (h : r.Wf) (k : Readv β) :
    (r.recv buf k).handed.length + (r.recv buf k).reader.buffered.length +
        (if r.Straddles buf.length then r.bytesLeft else 0) = r.bytesLeft + (r.recv buf k).taken.length := by
  split
  · next hs =>
    rw [recv_loses r h buf k hs]
    exact Nat.add_comm _ _
  · next hs =>
    have hlen := congrArg List.length (recv_conserves r h buf k hs)
    rw [List.length_append, List.length_append, h.length_buffered] at hlen
    omega

end BufferedReader

/-! ### The two programs and the kernel -/

/-- A call of `sendBlocks`, with the memory it is made in. Objects fit `ssize_t`, and `sendmsg` takes up to `IOV_MAX`
blocks. -/
structure SendRequest (β : Type) where
  mem : Nat → β
  blocks : List DataBlock
  more : Bool
  total : (stream mem blocks).length < 2 ^ 63
  count : blocks.length ≤ iovMax

def SendRequest.bytes (r : SendRequest β) : List β := stream r.mem r.blocks

theorem SendRequest.count_lt (r : SendRequest β) : r.blocks.length < 2 ^ 64 := by
  have := r.count
  unfold iovMax at this
  omega

/-- The calls still to be made, the present one and its state; the bytes in the kernel; the reader of the other
side and what its program got. -/
structure Connection (β : Type) where
  todo : List (SendRequest β)
  request : SendRequest β
  call : SendBlocks β
  queue : List β
  reader : BufferedReader β
  handed : List β

/-- The next call of `sendBlocks`, an answer to the present one, or a `recv` that finds up to `n` bytes. -/
inductive Connection.Act (β : Type) where
  | next
  | send (a : SendBlocks.Act)
  | recv (buf : List β) (n : Nat)

namespace Connection

def start (first : SendRequest β) (todo : List (SendRequest β)) (buffer : List β)
    (h : buffer.length = bufferSize) : Connection β where
  todo := todo
  request := first
  call := .start first.blocks first.more
  queue := []
  reader := .new buffer h
  handed := []

/-- `sendmsg` takes no more than there is room for, and nothing only if nothing is offered; `poll` reports a
writable socket if there is room. -/
def Granted (capacity : Nat) (s : Connection β) : SendBlocks.Act → Prop
  | .sendmsg (.count n) => s.queue.length + n ≤ capacity ∧ (n = 0 → stream s.request.mem s.call.iov = [])
  | .sendmsg (.error _) => True
  | .poll err _ => err = 1 → s.queue.length < capacity

instance (s : Connection β) : (capacity : Nat) → (a : SendBlocks.Act) → Decidable (s.Granted capacity a)
  | _, .sendmsg (.count _) => inferInstanceAs (Decidable (_ ∧ (_ → _)))
  | _, .sendmsg (.error _) => inferInstanceAs (Decidable True)
  | _, .poll _ _ => inferInstanceAs (Decidable (_ → _))

/-- What `readv` finds. -/
def found (s : Connection β) (n : Nat) : Readv β :=
  if s.queue.isEmpty then .error true else .data (s.queue.take n)

def step (capacity : Nat) : Machine (Connection β) (Act β)
  | s, .next =>
    match s.todo with
    | [] => none
    | r :: todo =>
      if s.call.pc = .returned s.request.bytes.length then
        some { s with todo := todo, request := r, call := .start r.blocks r.more }
      else none
  | s, .send a =>
    if s.Granted capacity a then
      (SendBlocks.step s.request.mem s.call a).map fun call =>
        { s with call := call, queue := s.queue ++ call.accepted.drop s.call.accepted.length }
    else none
  | s, .recv buf n =>
    if 0 < buf.length ∧ 0 < n then
      let o := s.reader.recv buf (s.found n)
      some { s with queue := s.queue.drop o.taken.length, reader := o.reader, handed := s.handed ++ o.handed }
    else none

/-- What the present call has not got rid of. -/
def unsent (s : Connection β) : List β := s.request.bytes.drop s.call.accepted.length

/-- What has not reached the kernel. -/
def rest (s : Connection β) : List β := s.unsent ++ s.todo.flatMap SendRequest.bytes

def flow (s : Connection β) : List β := s.handed ++ s.reader.buffered ++ s.queue ++ s.rest

/-- What a straddling receive finds left over. -/
def lost (s : Connection β) : Act β → Nat
  | .recv buf _ => if s.reader.Straddles buf.length then s.reader.bytesLeft else 0
  | _ => 0

/-- The parts keep their invariants, and a call that has returned has sent everything or failed. -/
structure Inv (capacity : Nat) (s : Connection β) : Prop where
  call : SendBlocks.Inv s.request.mem s.request.blocks s.call
  reader : s.reader.Wf
  room : s.queue.length ≤ capacity

variable {capacity : Nat} {s s' : Connection β}

/-! ### Steps -/

theorem start_inv (first : SendRequest β) (todo : List (SendRequest β)) (buffer : List β)
    (h : buffer.length = bufferSize) : Inv capacity (start first todo buffer h) :=
  ⟨SendBlocks.start_inv first.more first.total, ⟨Nat.le_refl _, Nat.zero_le _⟩, Nat.zero_le _⟩

theorem Inv.unsent_nil (h : Inv capacity s) (hpc : s.call.pc = .returned s.request.bytes.length) : s.unsent = [] := by
  refine List.drop_of_length_le ?_
  rcases Nat.eq_zero_or_pos s.request.bytes.length with hzero | hpos
  · rw [hzero]
    exact Nat.zero_le _
  · rw [(h.call.returned _ hpc hpos).mp rfl]
    exact Nat.le_refl _

theorem next_cases (hstep : step capacity s .next = some s') :
    ∃ r todo, s.todo = r :: todo ∧ s.call.pc = .returned s.request.bytes.length ∧
      s' = { s with todo := todo, request := r, call := .start r.blocks r.more } := by
  simp only [step] at hstep
  split at hstep
  · cases hstep
  · next r todo htodo =>
    obtain ⟨hpc, hstep⟩ := Option.ite_none_right_eq_some.mp hstep
    exact ⟨r, todo, htodo, hpc, (Option.some.inj hstep).symm⟩

theorem send_cases {a : SendBlocks.Act} (hstep : step capacity s (.send a) = some s') :
    s.Granted capacity a ∧ ∃ call, SendBlocks.step s.request.mem s.call a = some call ∧
      s' = { s with call := call, queue := s.queue ++ call.accepted.drop s.call.accepted.length } := by
  simp only [step, Option.ite_none_right_eq_some] at hstep
  obtain ⟨hgranted, hstep⟩ := hstep
  obtain ⟨call, hcall, rfl⟩ := Option.map_eq_some_iff.mp hstep
  exact ⟨hgranted, call, hcall, rfl⟩

theorem step_send {a : SendBlocks.Act} {call : SendBlocks β} (hgranted : s.Granted capacity a)
    (hcall : SendBlocks.step s.request.mem s.call a = some call) : step capacity s (.send a) =
      some { s with call := call, queue := s.queue ++ call.accepted.drop s.call.accepted.length } := by
  simp only [step, if_pos hgranted, hcall, Option.map_some]

theorem recv_cases {buf : List β} {n : Nat} (hstep : step capacity s (.recv buf n) = some s') :
    0 < buf.length ∧ 0 < n ∧
      s' = { s with
        queue := s.queue.drop (s.reader.recv buf (s.found n)).taken.length
        reader := (s.reader.recv buf (s.found n)).reader
        handed := s.handed ++ (s.reader.recv buf (s.found n)).handed } := by
  simp only [step, Option.ite_none_right_eq_some] at hstep
  obtain ⟨⟨hbuf, hn⟩, hstep⟩ := hstep
  exact ⟨hbuf, hn, (Option.some.inj hstep).symm⟩

theorem step_next {r : SendRequest β} {todo : List (SendRequest β)} (htodo : s.todo = r :: todo)
    (hpc : s.call.pc = .returned s.request.bytes.length) :
    step capacity s .next = some { s with todo := todo, request := r, call := .start r.blocks r.more } := by
  simp only [step, htodo]
  exact if_pos hpc

theorem step_recv {buf : List β} {n : Nat} (hbuf : 0 < buf.length) (hn : 0 < n) :
    step capacity s (.recv buf n) = some { s with
      queue := s.queue.drop (s.reader.recv buf (s.found n)).taken.length
      reader := (s.reader.recv buf (s.found n)).reader
      handed := s.handed ++ (s.reader.recv buf (s.found n)).handed } := by
  simp only [step]
  exact if_pos ⟨hbuf, hn⟩

theorem Inv.accepted (h : Inv capacity s) {a : SendBlocks.Act} {call : SendBlocks β}
    (hstep : SendBlocks.step s.request.mem s.call a = some call) :
    call.accepted.drop s.call.accepted.length ++ s.request.bytes.drop call.accepted.length = s.unsent ∧
      (call.accepted.drop s.call.accepted.length).length = a.count := by
  have hbefore := h.call.accepted_prefix
  rcases SendBlocks.step_cases s.request.total s.request.count_lt h.call hstep with
    ⟨n, rfl, _, hn, haccepted, _⟩ | ⟨_, rfl, _, haccepted, _⟩ | ⟨_, _, rfl, _, haccepted, _⟩
  · have hlen : (s.unsent.take n).length = n := by
      rw [List.length_take]
      exact Nat.min_eq_left hn
    have hnew : call.accepted = s.call.accepted ++ s.unsent.take n := haccepted
    rw [hnew, List.drop_left, List.length_append, hlen, ← List.drop_drop]
    exact ⟨List.take_append_drop _ _, rfl⟩
  · rw [haccepted, List.drop_length]
    exact ⟨rfl, rfl⟩
  · rw [haccepted, List.drop_length]
    exact ⟨rfl, rfl⟩

theorem taken_le_queue (s : Connection β) (buf : List β) (n : Nat) :
    (s.reader.recv buf (s.found n)).taken <+: s.queue := by
  unfold found
  split
  · rw [BufferedReader.recv_error_taken]
    exact List.nil_prefix
  · exact (BufferedReader.recv_taken_le_avail _ _ _).trans (List.take_prefix _ _)

theorem step_inv {a : Act β} (h : Inv capacity s) (hstep : step capacity s a = some s') : Inv capacity s' := by
  cases a with
  | next =>
    obtain ⟨r, todo, _, _, rfl⟩ := next_cases hstep
    exact ⟨SendBlocks.start_inv r.more r.total, h.reader, h.room⟩
  | send a =>
    obtain ⟨hgranted, call, hcall, rfl⟩ := send_cases hstep
    refine ⟨SendBlocks.step_inv s.request.total s.request.count_lt h.call hcall, h.reader, ?_⟩
    have hroom := h.room
    have hlen := (h.accepted hcall).2
    change (s.queue ++ _).length ≤ capacity
    rw [List.length_append, hlen]
    rcases a with ⟨n | again⟩ | ⟨err, intr⟩
    · exact hgranted.1
    · exact hroom
    · exact hroom
  | recv buf n =>
    obtain ⟨_, _, rfl⟩ := recv_cases hstep
    refine ⟨h.call, BufferedReader.recv_wf _ h.reader _ _, ?_⟩
    have hroom := h.room
    change (s.queue.drop _).length ≤ capacity
    rw [List.length_drop]
    omega

/-- **Step rule.** Nothing gets out of order or twice into the flow, and what is missing afterwards is what a
straddling receive has lost. -/
theorem step_flow {a : Act β} (h : Inv capacity s) (hstep : step capacity s a = some s') :
    s'.flow.Sublist s.flow ∧ s'.flow.length + s.lost a = s.flow.length := by
  cases a with
  | next =>
    obtain ⟨r, todo, htodo, hpc, rfl⟩ := next_cases hstep
    have hsame : s.flow = s.handed ++ s.reader.buffered ++ s.queue ++ (r.bytes ++ todo.flatMap SendRequest.bytes) := by
      rw [flow, rest, h.unsent_nil hpc, htodo]
      rfl
    rw [hsame]
    exact ⟨List.Sublist.refl _, rfl⟩
  | send a =>
    obtain ⟨_, call, hcall, rfl⟩ := send_cases hstep
    have hsame : s.flow = s.handed ++ s.reader.buffered ++ (s.queue ++ call.accepted.drop s.call.accepted.length) ++
        (s.request.bytes.drop call.accepted.length ++ s.todo.flatMap SendRequest.bytes) := by
      rw [flow, rest, ← (h.accepted hcall).1]
      simp only [List.append_assoc]
    rw [hsame]
    exact ⟨List.Sublist.refl _, rfl⟩
  | recv buf n =>
    obtain ⟨_, _, rfl⟩ := recv_cases hstep
    have hsublist := BufferedReader.recv_sublist s.reader buf h.reader (s.found n)
    have haccount := BufferedReader.recv_account s.reader buf h.reader (s.found n)
    have hqueue := List.prefix_iff_eq_append.mp (s.taken_le_queue buf n)
    generalize s.reader.recv buf (s.found n) = o at hsublist haccount hqueue
    have hsame : s.flow = s.handed ++ (s.reader.buffered ++ o.taken) ++ (s.queue.drop o.taken.length ++ s.rest) := by
      rw [flow]
      nth_rewrite 1 [← hqueue]
      simp only [List.append_assoc]
    have hflow : flow { s with
        queue := s.queue.drop o.taken.length
        reader := o.reader
        handed := s.handed ++ o.handed } =
          s.handed ++ (o.handed ++ o.reader.buffered) ++ (s.queue.drop o.taken.length ++ s.rest) := by
      simp only [flow, List.append_assoc]
      rfl
    rw [hflow, hsame]
    refine ⟨(List.Sublist.append (List.Sublist.refl _) hsublist).append (List.Sublist.refl _), ?_⟩
    simp only [List.length_append, lost, h.reader.length_buffered]
    omega

/-- **Run rule.** -/
theorem flow_account (first : SendRequest β) (todo : List (SendRequest β)) (buffer : List β)
    (hbuffer : buffer.length = bufferSize) {tr : List (Connection β × Act β)}
    (h : (step capacity).Run (start first todo buffer hbuffer) tr s) :
    s.flow.Sublist ((first :: todo).flatMap SendRequest.bytes) ∧
      s.flow.length + (tr.map fun x => x.1.lost x.2).sum = ((first :: todo).flatMap SendRequest.bytes).length := by
  have hstart : (start first todo buffer hbuffer).flow = (first :: todo).flatMap SendRequest.bytes := by
    rfl
  have hinv : Inv capacity (start first todo buffer hbuffer) := start_inv first todo buffer hbuffer
  have hsublist : Inv capacity s ∧ s.flow.Sublist ((first :: todo).flatMap SendRequest.bytes) := by
    refine h.invariant (P := fun s => Inv capacity s ∧ s.flow.Sublist ((first :: todo).flatMap SendRequest.bytes))
      ⟨hinv, hstart ▸ List.Sublist.refl _⟩ ?_
    exact fun s a s' hs hstep => ⟨step_inv hs.1 hstep, (step_flow hs.1 hstep).1.trans hs.2⟩
  have hsum := h.sum_eq (fun s => s.flow.length) lost hinv (fun _ _ _ => step_inv)
    fun s a s' hs hstep => (step_flow hs hstep).2
  rw [hstart] at hsum
  exact ⟨hsublist.2, hsum⟩

/-- An error of the system, which ends a call of `sendBlocks`. -/
def Act.Fails : Act β → Prop
  | .send (.sendmsg (.error again)) => again = false
  | .send (.poll err intr) => err ≠ 1 ∧ ¬ (err = -1 ∧ intr = true)
  | _ => False

instance : (a : Act β) → Decidable a.Fails
  | .next => inferInstanceAs (Decidable False)
  | .send (.sendmsg (.count _)) => inferInstanceAs (Decidable False)
  | .send (.sendmsg (.error _)) => inferInstanceAs (Decidable (_ = _))
  | .send (.poll _ _) => inferInstanceAs (Decidable (_ ∧ _))
  | .recv _ _ => inferInstanceAs (Decidable False)

/-- `sendmsg` takes nothing although there is room. -/
def interrupted (capacity : Nat) (s : Connection β) : Act β → Bool
  | .send (.sendmsg (.error again)) => again && decide (s.queue.length < capacity)
  | _ => false

/-- Interrupted, or a receive where there is nothing. -/
def idle (capacity : Nat) (s : Connection β) : Act β → Bool
  | .send (.sendmsg (.error again)) => again && decide (s.queue.length < capacity)
  | .send (.poll err intr) => decide (err = -1) && intr
  | .recv _ _ => decide (s.reader.bytesLeft = 0) && s.queue.isEmpty
  | _ => false

/-- The answers a call still needs before a byte moves, with `queued` bytes in the kernel. -/
def turns (capacity : Nat) : SendBlocks.Pc → Nat → Nat
  | .sendmsg, queued => if queued < capacity then 1 else 2
  | .poll, queued => if queued < capacity then 2 else 1
  | _, _ => 0

/-- Every byte goes from the program to the kernel, from there to the reader and from there to the other program. -/
def potential (capacity : Nat) (s : Connection β) : Nat :=
  2 * (3 * s.rest.length + 2 * s.queue.length + s.reader.bytesLeft) + turns capacity s.call.pc s.queue.length +
    3 * s.todo.length

theorem turns_le (capacity : Nat) (pc : SendBlocks.Pc) (queued : Nat) : turns capacity pc queued ≤ 2 := by
  unfold turns
  split <;> (try split) <;> omega

theorem one_le_turns (capacity : Nat) {pc : SendBlocks.Pc} (hpc : pc = .sendmsg ∨ pc = .poll) (queued : Nat) :
    1 ≤ turns capacity pc queued := by
  rcases hpc with rfl | rfl <;> simp only [turns] <;> split <;> omega

theorem turns_le_succ (capacity : Nat) (pc : SendBlocks.Pc) (queued queued' : Nat) :
    turns capacity pc queued' ≤ turns capacity pc queued + 1 := by
  unfold turns
  split <;> (try split) <;> (try split) <;> omega

theorem recv_moves (h : s.reader.Wf) {buf : List β} {n : Nat} (hbuf : 0 < buf.length) (hn : 0 < n) :
    (s.reader.bytesLeft = 0 ∧ s.queue = []) ∨
      (s.reader.recv buf (s.found n)).reader.bytesLeft <
        s.reader.bytesLeft + 2 * (s.reader.recv buf (s.found n)).taken.length := by
  have haccount := BufferedReader.recv_account s.reader buf h (s.found n)
  rw [(BufferedReader.recv_wf _ h buf (s.found n)).length_buffered] at haccount
  by_cases hle : buf.length ≤ s.reader.bytesLeft
  · -- the request is covered
    right
    have hhanded := congrArg List.length (BufferedReader.recv_buffered s.reader h buf (s.found n) hle).1
    rw [List.length_take, h.length_buffered] at hhanded
    omega
  · rcases Nat.eq_zero_or_pos s.reader.bytesLeft with hzero | hpos
    · rcases hqueue : s.queue with _ | ⟨b, queue⟩
      · exact Or.inl ⟨hzero, rfl⟩
      · right
        have hfound : s.found n = .data (s.queue.take n) := by
          rw [found, hqueue]
          rfl
        have htaken := congrArg List.length
          (BufferedReader.recv_data s.reader h buf (s.queue.take n) (by omega) _ rfl).2.2
        rw [← hfound, List.length_take, List.length_take, hqueue, List.length_cons] at htaken
        omega
    · -- what was left is gone
      right
      rw [if_pos ⟨hpos, by omega⟩] at haccount
      omega

/-- **Step rule.** Every step lowers the potential, apart from idle ones, of which only interruptions raise it. -/
theorem step_potential {a : Act β} (h : Inv capacity s) (hstep : step capacity s a = some s') :
    s'.potential capacity < s.potential capacity ∨
      s.idle capacity a = true ∧ s'.potential capacity ≤ s.potential capacity + (s.interrupted capacity a).toNat := by
  have hturns' := turns_le capacity s'.call.pc s'.queue.length
  cases a with
  | next =>
    obtain ⟨r, todo, htodo, hpc, rfl⟩ := next_cases hstep
    have hrest : s.rest = r.bytes ++ todo.flatMap SendRequest.bytes := by
      rw [rest, h.unsent_nil hpc, htodo]
      rfl
    have hrest' : rest { s with todo := todo, request := r, call := .start r.blocks r.more } =
        r.bytes ++ todo.flatMap SendRequest.bytes := rfl
    left
    simp only [potential, hrest, hrest', htodo, List.length_cons] at hturns' ⊢
    omega
  | send a =>
    obtain ⟨hgranted, call, hcall, rfl⟩ := send_cases hstep
    obtain ⟨hbytes, hmoved⟩ := h.accepted hcall
    replace hbytes := congrArg List.length hbytes
    rw [List.length_append, hmoved, unsent] at hbytes
    simp only [potential, rest, unsent, List.length_append, hmoved] at hturns' ⊢
    rcases SendBlocks.step_cases s.request.total s.request.count_lt h.call hcall with
      ⟨n, rfl, hpc, _, _, hcase⟩ | ⟨again, rfl, hpc, _, hcase⟩ | ⟨err, intr, rfl, hpc, _, hcase⟩
    · -- a byte moves, or the call returns
      have hturns := one_le_turns capacity (Or.inl hpc) s.queue.length
      simp only [SendBlocks.Act.count] at hbytes hturns' ⊢
      left
      rcases hcase with ⟨rfl, hpc'⟩ | ⟨hn, _⟩
      · have hdone : turns capacity call.pc (s.queue.length + 0) = 0 := by rw [hpc']; rfl
        omega
      · omega
    · have hturns := one_le_turns capacity (Or.inl hpc) s.queue.length
      simp only [SendBlocks.Act.count, idle, interrupted, Nat.add_zero] at hbytes hturns' ⊢
      rcases hcase with ⟨rfl, hpc' | hpc'⟩ | ⟨rfl, hpc'⟩
      · by_cases hroom : s.queue.length < capacity
        · right
          simp only [hroom, decide_true, Bool.and_true, Bool.toNat_true, true_and]
          omega
        · -- the queue is full
          left
          simp only [hpc, hpc', turns, if_neg hroom]
          omega
      · have hdone : turns capacity call.pc s.queue.length = 0 := by rw [hpc']; rfl
        omega
      · have hdone : turns capacity call.pc s.queue.length = 0 := by rw [hpc']; rfl
        omega
    · have hturns := one_le_turns capacity (Or.inr hpc) s.queue.length
      simp only [SendBlocks.Act.count, idle, Nat.add_zero] at hbytes hturns' ⊢
      rcases hcase with ⟨⟨rfl, rfl⟩, hpc'⟩ | ⟨rfl, hpc' | hpc'⟩ | ⟨_, _, hpc'⟩
      · right
        rw [hpc, hpc']
        simp only [decide_true, Bool.and_true, true_and]
        omega
      · -- there is room again
        left
        simp only [hpc, hpc', turns, if_pos (hgranted rfl)]
        omega
      · have hdone : turns capacity call.pc s.queue.length = 0 := by rw [hpc']; rfl
        omega
      · have hdone : turns capacity call.pc s.queue.length = 0 := by rw [hpc']; rfl
        omega
  | recv buf n =>
    obtain ⟨hbuf, hn, rfl⟩ := recv_cases hstep
    have hmoves := recv_moves h.reader (s := s) hbuf hn
    have hqueue := (s.taken_le_queue buf n).length_le
    have haccount := BufferedReader.recv_account s.reader buf h.reader (s.found n)
    rw [(BufferedReader.recv_wf _ h.reader buf (s.found n)).length_buffered] at haccount
    have hturns := turns_le_succ capacity s.call.pc s.queue.length
      (s.queue.drop (s.reader.recv buf (s.found n)).taken.length).length
    have hrest : rest { s with
        queue := s.queue.drop (s.reader.recv buf (s.found n)).taken.length
        reader := (s.reader.recv buf (s.found n)).reader
        handed := s.handed ++ (s.reader.recv buf (s.found n)).handed } = s.rest := rfl
    simp only [potential, hrest]
    generalize s.reader.recv buf (s.found n) = o at *
    rcases hmoves with ⟨hleft, hnil⟩ | hmoves
    · right
      simp only [idle, hleft, hnil, decide_true, List.isEmpty_nil, Bool.and_true, true_and, List.drop_nil,
        List.length_nil] at hqueue haccount ⊢
      omega
    · left
      rw [List.length_drop] at hturns ⊢
      omega

/-- Without an error of the system a call that has returned has sent everything. -/
def Healthy (s : Connection β) : Prop := ∀ r, s.call.pc = .returned r → r = s.request.bytes.length

theorem step_healthy {a : Act β} (h : Inv capacity s) (hs : s.Healthy) (ha : ¬ a.Fails)
    (hstep : step capacity s a = some s') : s'.Healthy := by
  cases a with
  | next =>
    obtain ⟨_, _, _, _, rfl⟩ := next_cases hstep
    exact fun _ hpc => nomatch hpc
  | send a =>
    obtain ⟨hgranted, call, hcall, rfl⟩ := send_cases hstep
    intro r hpc
    change call.pc = .returned r at hpc
    have hsent : call.pc = .returned s.request.bytes.length → r = s.request.bytes.length := by
      intro hpc'
      rw [hpc] at hpc'
      exact SendBlocks.Pc.returned.inj hpc'
    rcases SendBlocks.step_cases s.request.total s.request.count_lt h.call hcall with
      ⟨n, rfl, hpc₀, _, _, ⟨hn, hpc'⟩ | ⟨_, hpc' | hpc'⟩⟩ | ⟨again, rfl, _, _, ⟨_, hpc' | hpc'⟩ | ⟨hagain, _⟩⟩ |
        ⟨err, intr, rfl, _, _, ⟨_, hpc'⟩ | ⟨_, hpc' | hpc'⟩ | ⟨herr, hintr, _⟩⟩
    · -- nothing was offered
      have hoffered := hgranted.2 hn
      have hs' := h.call.sending (Or.inl hpc₀)
      rw [hs'.iov_eq] at hoffered
      have hleft := hs'.remaining
      rw [hoffered, List.length_nil] at hleft
      have hempty : s.request.bytes.length = 0 := by
        by_contra hne
        have := h.call.unfinished (Or.inl hpc₀) (Nat.pos_of_ne_zero hne)
        omega
      rw [hpc] at hpc'
      rw [SendBlocks.Pc.returned.inj hpc', hempty]
      rfl
    · exact nomatch hpc.symm.trans hpc'
    · exact hsent hpc'
    · exact nomatch hpc.symm.trans hpc'
    · exact hsent hpc'
    · exact absurd hagain ha
    · exact nomatch hpc.symm.trans hpc'
    · exact nomatch hpc.symm.trans hpc'
    · exact hsent hpc'
    · exact absurd ⟨herr, hintr⟩ ha
  | recv buf n =>
    obtain ⟨_, _, rfl⟩ := recv_cases hstep
    exact hs

/-- All calls have returned, and nothing is left on the way. -/
def Done (s : Connection β) : Prop :=
  s.todo = [] ∧ s.call.pc = .returned s.request.bytes.length ∧ s.queue = [] ∧ s.reader.buffered = []

theorem exists_step (hcap : 0 < capacity) (h : Inv capacity s) (hs : s.Healthy) (hdone : ¬ s.Done) :
    ∃ a s', step capacity s a = some s' ∧ s.idle capacity a = false ∧ ¬ a.Fails := by
  by_cases hempty : s.reader.bytesLeft = 0 ∧ s.queue = []
  · obtain ⟨hleft, hqueue⟩ := hempty
    have hbuffered : s.reader.buffered = [] :=
      List.eq_nil_of_length_eq_zero (by rw [h.reader.length_buffered, hleft])
    cases hpc : s.call.pc with
    | sendmsg =>
      -- the kernel takes one byte, if one is offered
      by_cases hoffered : stream s.request.mem s.call.iov = []
      · obtain ⟨call, hcall⟩ := SendBlocks.exists_count_step hpc (Nat.zero_le (stream s.request.mem s.call.iov).length)
        have hgranted : s.Granted capacity (.sendmsg (.count 0)) := ⟨h.room, fun _ => hoffered⟩
        exact ⟨.send (.sendmsg (.count 0)), _, step_send hgranted hcall, rfl, id⟩
      · obtain ⟨call, hcall⟩ := SendBlocks.exists_count_step hpc (List.length_pos_iff.mpr hoffered)
        have hgranted : s.Granted capacity (.sendmsg (.count 1)) := by
          refine ⟨?_, fun hzero => absurd hzero Nat.one_ne_zero⟩
          rw [hqueue]
          exact (Nat.zero_add 1).trans_le hcap
        exact ⟨.send (.sendmsg (.count 1)), _, step_send hgranted hcall, rfl, id⟩
    | poll =>
      obtain ⟨call, hcall⟩ := SendBlocks.exists_ready_step s.request.mem hpc
      have hgranted : s.Granted capacity (.poll 1 false) := by
        intro _
        rw [hqueue]
        exact hcap
      exact ⟨.send (.poll 1 false), _, step_send hgranted hcall, rfl, fun hfails => hfails.1 rfl⟩
    | returned r =>
      rw [hs r hpc] at hpc
      rcases htodo : s.todo with _ | ⟨r, todo⟩
      · exact absurd ⟨htodo, hpc, hqueue, hbuffered⟩ hdone
      · exact ⟨.next, _, step_next htodo hpc, rfl, id⟩
    | stray => exact absurd hpc h.call.not_stray
  · -- the other program gets a byte
    have hbyte : ∃ b : β, True := by
      by_contra hnone
      refine hempty ⟨?_, ?_⟩
      · rw [← h.reader.length_buffered, List.length_eq_zero_iff, List.eq_nil_iff_forall_not_mem]
        exact fun b _ => hnone ⟨b, trivial⟩
      · rw [List.eq_nil_iff_forall_not_mem]
        exact fun b _ => hnone ⟨b, trivial⟩
    obtain ⟨b, _⟩ := hbyte
    refine ⟨.recv [b] 1, _, step_recv Nat.one_pos Nat.one_pos, ?_, id⟩
    rw [idle, Bool.and_eq_false_iff]
    by_cases hleft : s.reader.bytesLeft = 0
    · right
      rw [List.isEmpty_eq_false_iff]
      exact fun hqueue => hempty ⟨hleft, hqueue⟩
    · exact Or.inl (decide_eq_false hleft)

/-- **Everything arrives.** In every run without an error of the system the steps that are not idle are bounded by
the length of the stream, the number of calls and that of the interruptions; and until all calls have returned and
nothing is left on the way, such a step is possible. What was handed out then is the stream, but for what straddling
receives have lost. -/
theorem everything_arrives (hcap : 0 < capacity) (first : SendRequest β) (todo : List (SendRequest β))
    (buffer : List β) (hbuffer : buffer.length = bufferSize) {tr : List (Connection β × Act β)}
    (h : (step capacity).Run (start first todo buffer hbuffer) tr s) (hok : ∀ x ∈ tr, ¬ x.2.Fails) :
    tr.countP (fun x => !x.1.idle capacity x.2) ≤
        6 * ((first :: todo).flatMap SendRequest.bytes).length + 3 * todo.length + 2 +
          tr.countP (fun x => x.1.interrupted capacity x.2) ∧
      (¬ s.Done → ∃ a s', step capacity s a = some s' ∧ s.idle capacity a = false ∧ ¬ a.Fails) ∧
      (s.Done → s.handed.Sublist ((first :: todo).flatMap SendRequest.bytes) ∧
        s.handed.length + (tr.map fun x => x.1.lost x.2).sum = ((first :: todo).flatMap SendRequest.bytes).length) := by
  have hstart : Inv capacity (start first todo buffer hbuffer) := start_inv first todo buffer hbuffer
  have hgood : Inv capacity s ∧ s.Healthy := by
    refine h.guarded (P := fun s => Inv capacity s ∧ s.Healthy) (G := fun _ a => ¬ a.Fails)
      ⟨hstart, fun _ hpc => nomatch hpc⟩ ?_ hok
    exact fun s a s' hs ha hstep => ⟨step_inv hs.1 hstep, step_healthy hs.1 hs.2 ha hstep⟩
  refine ⟨?_, exists_step hcap hgood.1 hgood.2, fun hdone => ?_⟩
  · have hcount := h.countP_le (G := fun _ _ => True) (potential capacity) (fun s a => !s.idle capacity a)
      (interrupted capacity) hstart (fun _ _ _ hs _ => step_inv hs) ?_ fun _ _ => trivial
    · have hfirst : potential capacity (start first todo buffer hbuffer) ≤
          6 * ((first :: todo).flatMap SendRequest.bytes).length + 3 * todo.length + 2 := by
        have hturns := turns_le capacity (start first todo buffer hbuffer).call.pc
          (start first todo buffer hbuffer).queue.length
        have hrest : (start first todo buffer hbuffer).rest = (first :: todo).flatMap SendRequest.bytes := rfl
        have hqueue : (start first todo buffer hbuffer).queue.length = 0 := rfl
        have hleft : (start first todo buffer hbuffer).reader.bytesLeft = 0 := hstart.reader.bytesLeft
        have htodo : (start first todo buffer hbuffer).todo = todo := rfl
        rw [potential, hrest, hleft, htodo]
        omega
      omega
    · intro s a s' hs _ hstep
      rcases step_potential hs hstep with hlt | ⟨hidle, hle⟩
      · have hone := Bool.toNat_le (!s.idle capacity a)
        omega
      · rw [hidle]
        exact hle
  · have hflow : s.flow = s.handed := by
      obtain ⟨htodo, hpc, hqueue, hbuffered⟩ := hdone
      rw [flow, rest, hgood.1.unsent_nil hpc, htodo, hqueue, hbuffered]
      simp
    obtain ⟨hsublist, hsum⟩ := flow_account first todo buffer hbuffer h
    rw [hflow] at hsublist hsum
    exact ⟨hsublist, hsum⟩

/-- Two calls, of three bytes and of one, through a kernel that keeps two. -/
theorem everything_arrives_four :
    let first : SendRequest Nat := ⟨fun n => n, [⟨10, 1⟩, ⟨20, 2⟩], false, by decide, by decide⟩
    let second : SendRequest Nat := ⟨fun n => n, [⟨30, 1⟩], false, by decide, by decide⟩
    ∃ tr s, (step 2).Run (start first [second] (List.replicate bufferSize 0) List.length_replicate) tr s ∧ s.Done ∧
      s.handed = [10, 20, 21, 30] ∧ tr.countP (fun x => !x.1.idle 2 x.2) ≤ 29 := by
  intro first second
  have hexec : ((step 2).exec [] (start first [second] (List.replicate bufferSize 0) List.length_replicate)
      [.recv [0] 9, .send (.sendmsg (.count 2)), .recv [0] 9, .send (.poll 1 false), .send (.sendmsg (.count 1)), .next,
        .send (.sendmsg (.count 1)), .recv [0] 9, .recv [0, 0] 9]).map (fun x =>
          ((x.2.handed, x.2.todo.length, x.2.queue, x.2.reader.buffered), (x.2.call.pc, x.2.request.bytes.length),
            x.1.all (fun y => decide ¬ y.2.Fails), x.1.countP fun y => y.1.interrupted 2 y.2)) =
      some (([10, 20, 21, 30], 0, [], []), (.returned 1, 1), true, 0) := by
    decide +kernel
  obtain ⟨⟨tr, s⟩, hrun, hend⟩ := Option.map_eq_some_iff.mp hexec
  simp only [Prod.mk.injEq, List.all_eq_true, decide_eq_true_eq, List.length_eq_zero_iff] at hend
  obtain ⟨⟨hhanded, htodo, hqueue, hbuffered⟩, ⟨hpc, hrequest⟩, hok, hinterrupted⟩ := hend
  have hdone : s.Done := ⟨htodo, by rw [hpc, hrequest]; rfl, hqueue, hbuffered⟩
  have harrives := everything_arrives (by decide) first [second] _ List.length_replicate (run_of_exec _ _ _ hrun) hok
  have hcount := harrives.1
  rw [hinterrupted] at hcount
  exact ⟨tr, s, run_of_exec _ _ _ hrun, hdone, hhanded, hcount⟩

end Connection

end Libhbk
