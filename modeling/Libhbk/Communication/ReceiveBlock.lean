import Libhbk.Base.Arith
import Libhbk.Base.Bytes
import Libhbk.Base.Machine
import Libhbk.Communication.ReceiveComplete

/-!
# Receiving a whole block, call by call

`receiveComplete` stores what `recv` delivers at `pPos` and waits with `poll` where there is nothing yet. The
answers of the system are the actions of a machine; the bytes come from a stream, and the position in it is
that of the next `recv` on the socket, in this call or in a later one.
-/

namespace Libhbk

open Machine

variable {α : Type}

/-- What the peer sends; without a size it does not end. -/
structure ByteStream (α : Type) where
  byte : Nat → α
  size : Option Nat

/-- The stream has `n` bytes or more. -/
def ByteStream.Has (stream : ByteStream α) (n : Nat) : Prop := ∀ size, stream.size = some size → n ≤ size

/-- What `recv` returns: a number of bytes, 0 at the end of the stream; -1 with `EWOULDBLOCK` or `EAGAIN`, or with
another error. -/
inductive Recvd where
  | count (bytes : Nat)
  | wouldBlock
  | error
  deriving DecidableEq, Repr

/-- What waiting for one descriptor gives: it is ready; the time is over; -1 with `EINTR`, or with another error. -/
inductive Waited where
  | ready
  | timeout
  | intr
  | error
  deriving DecidableEq, Repr

/-- The return value of `poll` or `select`. -/
def Waited.ret : Waited → Int
  | ready => 1
  | timeout => 0
  | intr => -1
  | error => -1

inductive ReceiveAct where
  | recv (o : Recvd)
  | wait (w : Waited)
  deriving DecidableEq, Repr

/-- The next call, or the return value. -/
inductive ReceiveBlock.Pc where
  | recv
  | poll
  | returned (retVal : Int)
  deriving DecidableEq, Repr

/-- The return value, if it has returned. -/
def ReceiveBlock.Pc.ret : ReceiveBlock.Pc → Option Int
  | returned retVal => some retVal
  | _ => none

/-- The variables of `receiveComplete`, the memory, and how many bytes have been taken from the stream. -/
structure ReceiveBlock (α : Type) where
  pPos : Nat
  sizeLeft : Nat
  pc : ReceiveBlock.Pc
  mem : Nat → α
  taken : Nat

namespace ReceiveBlock

/-- The condition of the loop. -/
def loop (size : Nat) (s : ReceiveBlock α) : ReceiveBlock α :=
  if s.sizeLeft = 0 then { s with pc := .returned (castSsize size) } else { s with pc := .recv }

/-- `receiveComplete(pBlock, size, msTimeout)` up to the first `recv`. -/
def start (pBlock size : Nat) (mem : Nat → α) (taken : Nat) : ReceiveBlock α :=
  loop size ⟨pBlock, size, .recv, mem, taken⟩

/-- `recv` never returns more than it was asked for. -/
def step (size : Nat) (byte : Nat → α) : Machine (ReceiveBlock α) ReceiveAct
  | s, .recv o =>
    if s.pc = .recv then
      match o with
      | .count n =>
        if n ≤ s.sizeLeft then
          if 0 < n then
            some (loop size { s with
              pPos := s.pPos + n
              sizeLeft := s.sizeLeft - n
              mem := store s.mem s.pPos n fun i => byte (s.taken + i)
              taken := s.taken + n })
          else some { s with pc := .returned (castInt (size - s.sizeLeft)) }
        else none
      | .wouldBlock => some { s with pc := .poll }
      | .error => some { s with pc := .returned (-1) }
    else none
  | s, .wait w =>
    if s.pc = .poll then
      if w = .intr then some s
      else if w.ret ≠ 1 then some { s with pc := .returned (-1) }
      else some (loop size s)
    else none

/-- The standard `recv` on a stream: it returns bytes that are there, and 0 only at the end. -/
def OfStream (stream : ByteStream α) (s : ReceiveBlock α) : ReceiveAct → Prop
  | .recv (.count n) => stream.Has (s.taken + n) ∧ (n = 0 → stream.size = some s.taken)
  | _ => True

/-- What the call should do. -/
structure Delivers (stream : ByteStream α) (pBlock size : Nat) (mem : Nat → α) (taken : Nat) (s : ReceiveBlock α) :
    Prop where
  complete : s.pc = .returned size →
    stream.Has (taken + size) ∧ ∀ i < size, s.mem (pBlock + i) = stream.byte (taken + i)
  closed : ∀ r < size, s.pc = .returned r →
    stream.size = some (taken + r) ∧ ∀ i < r, s.mem (pBlock + i) = stream.byte (taken + i)
  failed : ∀ r : Int, s.pc = .returned r → r < 0 ∨ size < r → r = -1
  outside : ∀ a, a < pBlock ∨ pBlock + size ≤ a → s.mem a = mem a

variable {pBlock size taken : Nat} {mem byte : Nat → α} {s s' : ReceiveBlock α} {a : ReceiveAct}
  {stream : ByteStream α} {tr : List (ReceiveBlock α × ReceiveAct)}

/-! ### What is received -/

/-- The first bytes are in the block, and the rest is as it was. -/
structure Inv (byte : Nat → α) (pBlock size : Nat) (mem : Nat → α) (taken : Nat) (s : ReceiveBlock α) : Prop where
  left_le : s.sizeLeft ≤ size
  pPos_eq : s.pPos = pBlock + (size - s.sizeLeft)
  taken_eq : s.taken = taken + (size - s.sizeLeft)
  mem_eq : s.mem = store mem pBlock (size - s.sizeLeft) fun i => byte (taken + i)
  left_pos : s.pc.ret = none → 0 < s.sizeLeft

theorem Inv.congr (h : Inv byte pBlock size mem taken s) {pc : Pc} (hpc : pc.ret = none → s.pc.ret = none) :
    Inv byte pBlock size mem taken { s with pc := pc } :=
  ⟨h.left_le, h.pPos_eq, h.taken_eq, h.mem_eq, fun he => h.left_pos (hpc he)⟩

theorem Inv.count (h : Inv byte pBlock size mem taken s) {n : Nat} (hn : n ≤ s.sizeLeft) {pc : Pc}
    (hpc : pc.ret = none → n < s.sizeLeft) :
    Inv byte pBlock size mem taken
      ⟨s.pPos + n, s.sizeLeft - n, pc, store s.mem s.pPos n fun i => byte (s.taken + i), s.taken + n⟩ := by
  have hle := h.left_le
  have hmore : size - (s.sizeLeft - n) = size - s.sizeLeft + n := by omega
  refine ⟨Nat.le_trans (Nat.sub_le _ _) hle, ?_, ?_, ?_, fun he => Nat.sub_pos_of_lt (hpc he)⟩
  · rw [h.pPos_eq, hmore, Nat.add_assoc]
  · rw [h.taken_eq, hmore, Nat.add_assoc]
  · rw [h.mem_eq, h.pPos_eq, h.taken_eq, hmore, ← store_store]
    simp only [Nat.add_assoc]

theorem inv_of_start {pc : Pc} (hpc : pc.ret = none → 0 < size) :
    Inv byte pBlock size mem taken ⟨pBlock, size, pc, mem, taken⟩ := by
  refine ⟨Nat.le_refl _, ?_, ?_, ?_, hpc⟩
  · rw [Nat.sub_self, Nat.add_zero]
  · rw [Nat.sub_self, Nat.add_zero]
  · rw [Nat.sub_self, store_zero]

theorem start_inv : Inv byte pBlock size mem taken (start pBlock size mem taken) := by
  unfold start loop
  split
  · exact inv_of_start nofun
  · next hleft => exact inv_of_start fun _ => Nat.pos_of_ne_zero hleft

theorem loop_of_pos (hpos : 0 < s.sizeLeft) : s.loop size = { s with pc := .recv } := by
  rw [ReceiveBlock.loop, if_neg (Nat.ne_of_gt hpos)]

theorem step_inv (h : Inv byte pBlock size mem taken s) (hstep : step size byte s a = some s') :
    Inv byte pBlock size mem taken s' := by
  cases a with
  | recv o =>
    simp only [step, Option.ite_none_right_eq_some] at hstep
    obtain ⟨hpc, hstep⟩ := hstep
    have hrecv : s.pc.ret = none := by
      rw [hpc]
      rfl
    cases o with
    | count n =>
      obtain ⟨hn, hstep⟩ := Option.ite_none_right_eq_some.mp hstep
      split at hstep
      · obtain rfl := Option.some.inj hstep
        unfold loop
        split
        · exact h.count hn nofun
        · next hleft => exact h.count hn fun _ => Nat.lt_of_sub_ne_zero hleft
      · obtain rfl := Option.some.inj hstep
        exact h.congr fun _ => hrecv
    | wouldBlock =>
      obtain rfl := Option.some.inj hstep
      exact h.congr fun _ => hrecv
    | error =>
      obtain rfl := Option.some.inj hstep
      exact h.congr fun _ => hrecv
  | wait w =>
    simp only [step, Option.ite_none_right_eq_some] at hstep
    obtain ⟨hpc, hstep⟩ := hstep
    have hpoll : s.pc.ret = none := by
      rw [hpc]
      rfl
    split at hstep
    · obtain rfl := Option.some.inj hstep
      exact h
    · split at hstep
      · obtain rfl := Option.some.inj hstep
        exact h.congr fun _ => hpoll
      · obtain rfl := Option.some.inj hstep
        rw [loop_of_pos (h.left_pos hpoll)]
        exact h.congr fun _ => hpoll

theorem run_inv (h : (step size byte).Run (start pBlock size mem taken) tr s) : Inv byte pBlock size mem taken s :=
  h.invariant start_inv fun _ _ _ => step_inv

/-! ### What is returned -/

/-- Returned with everything, at the end of the stream, or with -1; and the stream has what was taken. -/
structure Returns (stream : ByteStream α) (size : Nat) (s : ReceiveBlock α) : Prop where
  has : stream.Has s.taken
  returned : ∀ r, s.pc = .returned r → r = size ∧ s.sizeLeft = 0 ∨
    r = (size - s.sizeLeft : Nat) ∧ 0 < s.sizeLeft ∧ stream.size = some s.taken ∨ r = -1

theorem Returns.loop (hsize : size < 2 ^ 63) (hhas : stream.Has s.taken) : Returns stream size (s.loop size) := by
  unfold ReceiveBlock.loop
  split
  · next hleft =>
    refine ⟨hhas, fun r hr => Or.inl ⟨?_, hleft⟩⟩
    rw [← castSsize_of_lt hsize]
    exact (Pc.returned.inj hr).symm
  · exact ⟨hhas, nofun⟩

theorem step_returns (hsize : size < 2 ^ 31) (hinv : Inv byte pBlock size mem taken s) (h : Returns stream size s)
    (hstream : s.OfStream stream a) (hstep : step size byte s a = some s') : Returns stream size s' := by
  have hsize' : size < 2 ^ 63 := Nat.lt_trans hsize (by decide)
  cases a with
  | recv o =>
    simp only [step, Option.ite_none_right_eq_some] at hstep
    obtain ⟨hpc, hstep⟩ := hstep
    cases o with
    | count n =>
      obtain ⟨hn, hstep⟩ := Option.ite_none_right_eq_some.mp hstep
      split at hstep
      · obtain rfl := Option.some.inj hstep
        exact Returns.loop hsize' hstream.1
      · next hzero =>
        -- the end of the stream
        obtain rfl := Option.some.inj hstep
        have hleft : 0 < s.sizeLeft := hinv.left_pos (by rw [hpc]; rfl)
        have hret : castInt (size - s.sizeLeft) = (size - s.sizeLeft : Nat) := castInt_of_lt (by omega)
        refine ⟨h.has, fun r hr => Or.inr (Or.inl ⟨?_, hleft, hstream.2 (by omega)⟩)⟩
        rw [← hret]
        exact (Pc.returned.inj hr).symm
    | wouldBlock =>
      obtain rfl := Option.some.inj hstep
      exact ⟨h.has, nofun⟩
    | error =>
      obtain rfl := Option.some.inj hstep
      refine ⟨h.has, ?_⟩
      rintro r ⟨⟩
      exact Or.inr (Or.inr rfl)
  | wait w =>
    simp only [step, Option.ite_none_right_eq_some] at hstep
    obtain ⟨hpc, hstep⟩ := hstep
    split at hstep
    · obtain rfl := Option.some.inj hstep
      exact h
    · split at hstep
      · obtain rfl := Option.some.inj hstep
        refine ⟨h.has, ?_⟩
        rintro r ⟨⟩
        exact Or.inr (Or.inr rfl)
      · obtain rfl := Option.some.inj hstep
        exact Returns.loop hsize' h.has

theorem run_returns (hsize : size < 2 ^ 31) (hhas : stream.Has taken)
    (h : (step size stream.byte).Run (start pBlock size mem taken) tr s)
    (hstream : ∀ x ∈ tr, x.1.OfStream stream x.2) :
    Inv stream.byte pBlock size mem taken s ∧ Returns stream size s := by
  refine h.guarded (P := fun s => Inv stream.byte pBlock size mem taken s ∧ Returns stream size s)
    ⟨start_inv, Returns.loop (Nat.lt_trans hsize (by decide)) hhas⟩ ?_ hstream
  intro s a s' hs hg hstep
  exact ⟨step_inv hs.1 hstep, step_returns hsize hs.1 hs.2 hg hstep⟩

/-- **The next bytes.** `size` is returned only with the next `size` bytes of the stream in the block, less only at
the end of the stream and with all bytes up to there, and otherwise -1; and nothing else is written. -/
theorem receives_next_bytes (hsize : size < 2 ^ 31) (hhas : stream.Has taken)
    (h : (step size stream.byte).Run (start pBlock size mem taken) tr s)
    (hstream : ∀ x ∈ tr, x.1.OfStream stream x.2) : Delivers stream pBlock size mem taken s := by
  obtain ⟨hinv, hreturns⟩ := run_returns hsize hhas h hstream
  have hle := hinv.left_le
  have hstored {i : Nat} (hi : i < size - s.sizeLeft) : s.mem (pBlock + i) = stream.byte (taken + i) := by
    rw [hinv.mem_eq, store_inside _ _ _ hi]
  constructor
  · intro hret
    rcases hreturns.returned _ hret with ⟨_, hleft⟩ | ⟨hr, hleft, _⟩ | hr
    · rw [hleft, Nat.sub_zero] at hstored
      refine ⟨?_, fun i hi => hstored hi⟩
      have hhas' := hreturns.has
      rwa [hinv.taken_eq, hleft] at hhas'
    · omega
    · omega
  · intro r hlt hret
    rcases hreturns.returned _ hret with ⟨hr, _⟩ | ⟨hr, _, hend⟩ | hr
    · omega
    · obtain rfl := Int.ofNat_inj.mp hr
      refine ⟨?_, fun i hi => hstored hi⟩
      rw [hend, hinv.taken_eq]
    · omega
  · intro r hret hout
    rcases hreturns.returned _ hret with ⟨hr, _⟩ | ⟨hr, _, _⟩ | hr
    · omega
    · omega
    · exact hr
  · intro a ha
    rw [hinv.mem_eq]
    exact store_outside _ _ (by omega)

/-- Three of four bytes in two pieces, with a wait that is interrupted; then the stream ends. -/
theorem receives_three :
    ∃ tr s, (step 4 (fun i => i + 10)).Run (start 100 4 (fun _ => 0) 0) tr s ∧ s.pc = .returned 3 ∧
      Delivers ⟨fun i => i + 10, some 3⟩ 100 4 (fun _ => 0) 0 s := by
  have h := run_of_exec (step 4 (fun i => i + 10)) (start 100 4 (fun _ => 0) 0)
    [.recv (.count 2), .recv .wouldBlock, .wait .intr, .wait .ready, .recv (.count 1), .recv (.count 0)] rfl
  have hhas {n : Nat} (hn : n ≤ 3) : (⟨fun i => i + 10, some 3⟩ : ByteStream Nat).Has n := by
    rintro m ⟨⟩
    exact hn
  refine ⟨_, _, h, by decide +kernel, receives_next_bytes (by decide) (hhas (by decide)) h ?_⟩
  simp only [List.forall_mem_cons]
  exact ⟨⟨hhas (by decide), fun _ => rfl⟩, ⟨hhas (by decide), nofun⟩, trivial, trivial, trivial,
    ⟨hhas (by decide), nofun⟩, List.forall_mem_nil _⟩

/-! ### Timeouts -/

/-- The bytes that have arrived. -/
def arrived : List (ReceiveBlock α × ReceiveAct) → Nat
  | [] => 0
  | (_, .recv (.count n)) :: tr => arrived tr + n
  | _ :: tr => arrived tr

/-- The next call on the socket delivers the stream from position `pos` on. -/
def NextDelivers (byte : Nat → α) (s : ReceiveBlock α) (pos : Nat) : Prop :=
  ∀ pBlock size n s', step size byte (start pBlock size s.mem s.taken) (.recv (.count n)) = some s' →
    ∀ i < n, s'.mem (pBlock + i) = byte (pos + i)

theorem step_taken (hstep : step size byte s a = some s') (htaken : s.taken = taken + arrived tr) :
    s'.taken = taken + arrived ((s, a) :: tr) := by
  cases a with
  | recv o =>
    simp only [step, Option.ite_none_right_eq_some] at hstep
    obtain ⟨_, hstep⟩ := hstep
    cases o with
    | count n =>
      obtain ⟨_, hstep⟩ := Option.ite_none_right_eq_some.mp hstep
      rw [arrived, ← Nat.add_assoc, ← htaken]
      split at hstep
      · obtain rfl := Option.some.inj hstep
        unfold loop
        split <;> rfl
      · obtain rfl := Option.some.inj hstep
        dsimp only
        omega
    | wouldBlock | error =>
      obtain rfl := Option.some.inj hstep
      exact htaken
  | wait w =>
    simp only [step, Option.ite_none_right_eq_some] at hstep
    obtain ⟨_, hstep⟩ := hstep
    split_ifs at hstep
    · obtain rfl := Option.some.inj hstep
      exact htaken
    · obtain rfl := Option.some.inj hstep
      exact htaken
    · obtain rfl := Option.some.inj hstep
      unfold loop
      split <;> exact htaken

theorem run_taken (h : (step size byte).Run (start pBlock size mem taken) tr s) : s.taken = taken + arrived tr := by
  refine h.trace_induction (P := fun tr s => s.taken = taken + arrived tr) ?_ ?_
  · unfold start loop
    split <;> rfl
  · intro tr s a s' _ htaken hstep
    exact step_taken hstep htaken

theorem arrived_eq (h : (step size byte).Run (start pBlock size mem taken) tr s) : arrived tr = size - s.sizeLeft := by
  have htaken := (run_inv h).taken_eq
  rw [run_taken h] at htaken
  exact Nat.add_left_cancel htaken

theorem nextDelivers_taken (byte : Nat → α) (s : ReceiveBlock α) : NextDelivers byte s s.taken := by
  intro pBlock size n s' hstep i hi
  have hrun : (step size byte).Run (start pBlock size s.mem s.taken) _ s' := Run.nil.snoc hstep
  have hn : 0 + n = size - s'.sizeLeft := arrived_eq hrun
  rw [(run_inv hrun).mem_eq, ← hn, Nat.zero_add, store_inside _ _ _ hi]

/-- **A timeout keeps the position.** What had arrived is in the block, and the next call goes on behind it. -/
theorem timeout_keeps_position (h : (step size byte).Run (start pBlock size mem taken) tr s)
    (hstep : step size byte s (.wait .timeout) = some s') :
    s'.pc = .returned (-1) ∧ arrived tr < size ∧ (∀ i < arrived tr, s'.mem (pBlock + i) = byte (taken + i)) ∧
      s'.NextDelivers byte (taken + arrived tr) := by
  have hinv := run_inv h
  have harrived := arrived_eq h
  obtain ⟨hpc, hstep⟩ := Option.ite_none_right_eq_some.mp hstep
  obtain rfl := Option.some.inj hstep
  have hleft : 0 < s.sizeLeft := hinv.left_pos (by rw [hpc]; rfl)
  have hle := hinv.left_le
  refine ⟨rfl, by omega, fun i hi => ?_, ?_⟩
  · dsimp only
    rw [hinv.mem_eq, ← harrived, store_inside _ _ _ hi]
  · rw [← run_taken h]
    exact nextDelivers_taken byte _

/-- One of two bytes arrives, then the time is over. -/
theorem timeout_keeps_second :
    ∃ tr s s', (step 2 (fun i => i + 10)).Run (start 100 2 (fun _ => 0) 0) tr s ∧
      step 2 (fun i => i + 10) s (.wait .timeout) = some s' ∧ s'.pc = .returned (-1) ∧ s'.mem 100 = 10 ∧
        s'.NextDelivers (fun i => i + 10) 1 := by
  have h := run_of_exec (step 2 (fun i => i + 10)) (start 100 2 (fun _ => 0) 0)
    [.recv (.count 1), .recv .wouldBlock, .wait .intr] rfl
  obtain ⟨hret, _, hmem, hnext⟩ := timeout_keeps_position h rfl
  exact ⟨_, _, _, h, rfl, hret, hmem 0 (by decide), hnext⟩

/-- The next call does not begin with the byte that had arrived. -/
theorem timeout_consumes :
    ¬ ∀ (byte : Nat → Nat) (size : Nat) (tr : List (ReceiveBlock Nat × ReceiveAct)) (s s' : ReceiveBlock Nat),
      (step size byte).Run (start 100 size (fun _ => 0) 0) tr s → step size byte s (.wait .timeout) = some s' →
        s'.NextDelivers byte 0 := by
  intro h
  have hrun := run_of_exec (step 2 (fun i => i + 10)) (start 100 2 (fun _ => 0) 0)
    [.recv (.count 1), .recv .wouldBlock] rfl
  have hnext := h _ _ _ _ _ hrun rfl
  exact absurd (hnext 200 1 1 _ rfl 0 (by decide)) (by decide)

/-! ### The loop over any reader -/

/-- The standard `recv` as a reader: its state is the position in the stream. -/
def reader (byte : Nat → α) (taken : Nat) (buf : List α) : Recvd → Received Nat α
  | .count n => ⟨n, (List.range n).map (fun i => byte (taken + i)) ++ buf.drop n, taken + n, false⟩
  | .wouldBlock => ⟨-1, buf, taken, true⟩
  | .error => ⟨-1, buf, taken, false⟩

/-- The calls of one turn. -/
def calls (t : Turn Recvd) : List ReceiveAct :=
  match t.answer with
  | .wouldBlock => [.recv .wouldBlock, .wait (if t.nfds = 1 then .ready else .timeout)]
  | o => [.recv o]

/-- `recv` never returns more than the `left` bytes it is asked for. -/
def Fits : Nat → List (Turn Recvd) → Prop
  | _, [] => True
  | left, t :: turns =>
    match t.answer with
    | .count n => n ≤ left ∧ Fits (left - n) turns
    | _ => Fits left turns

/-- The block, split at `pPos`. -/
structure Split (pBlock size : Nat) (s : ReceiveBlock α) (got rest : List α) : Prop where
  got_eq : (List.range' pBlock got.length).map s.mem = got
  rest_eq : (List.range' s.pPos s.sizeLeft).map s.mem = rest
  pPos_eq : s.pPos = pBlock + got.length
  size_eq : got.length + s.sizeLeft = size

variable {got rest : List α} {n : Nat}

theorem Split.length_rest (h : Split pBlock size s got rest) : rest.length = s.sizeLeft := by
  rw [← h.rest_eq, List.length_map, List.length_range']

theorem Split.block (h : Split pBlock size s got rest) : (List.range' pBlock size).map s.mem = got ++ rest := by
  rw [← h.size_eq, ← List.range'_append_1, List.map_append, h.got_eq, ← h.pPos_eq, h.rest_eq]

theorem Split.count (h : Split pBlock size s got rest) (hn : n ≤ s.sizeLeft) (pc : Pc) (byte : Nat → α) :
    Split pBlock size
      { s with
        pPos := s.pPos + n
        sizeLeft := s.sizeLeft - n
        pc := pc
        mem := store s.mem s.pPos n fun i => byte (s.taken + i)
        taken := s.taken + n }
      (got ++ (List.range n).map fun i => byte (s.taken + i)) (rest.drop n) := by
  have hpos := h.pPos_eq
  have hsize := h.size_eq
  refine ⟨?_, ?_, ?_, ?_⟩
  · rw [List.length_append, List.length_map, List.length_range, ← List.range'_append_1, List.map_append, ← hpos]
    have hbefore : ∀ a ∈ List.range' pBlock got.length, a < s.pPos ∨ s.pPos + n ≤ a := by
      intro a ha
      rw [List.mem_range'_1] at ha
      omega
    dsimp only
    rw [map_store_outside _ _ hbefore, map_store_inside, h.got_eq]
  · have hbehind : ∀ a ∈ List.range' (s.pPos + n) (s.sizeLeft - n), a < s.pPos ∨ s.pPos + n ≤ a := by
      intro a ha
      rw [List.mem_range'_1] at ha
      exact Or.inr ha.1
    dsimp only
    rw [map_store_outside _ _ hbehind, ← h.rest_eq, ← List.map_drop, List.drop_range', Nat.mul_one]
  · rw [List.length_append, List.length_map, List.length_range, ← Nat.add_assoc, ← hpos]
  · rw [List.length_append, List.length_map, List.length_range]
    dsimp only
    omega

theorem Split.complete (h : Split pBlock size s got rest) (hzero : s.sizeLeft = 0) :
    rest = [] ∧ got.length = size ∧ (List.range' pBlock size).map s.mem = got := by
  have hnil : rest = [] := List.eq_nil_of_length_eq_zero (h.length_rest.trans hzero)
  have hlength := h.size_eq
  rw [hzero, Nat.add_zero] at hlength
  refine ⟨hnil, hlength, ?_⟩
  rw [← hlength]
  exact h.got_eq

theorem step_closed (hpc : s.pc = .recv) :
    step size byte s (.recv (.count 0)) = some { s with pc := .returned (castInt (size - s.sizeLeft)) } := by
  simp only [step, if_pos hpc, if_pos (Nat.zero_le _), if_neg (Nat.lt_irrefl 0)]

theorem step_count (hpc : s.pc = .recv) (hn : n ≤ s.sizeLeft) (hpos : 0 < n) :
    step size byte s (.recv (.count n)) = some (loop size { s with
      pPos := s.pPos + n
      sizeLeft := s.sizeLeft - n
      mem := store s.mem s.pPos n fun i => byte (s.taken + i)
      taken := s.taken + n }) := by
  simp only [step, if_pos hpc, if_pos hn, if_pos hpos]

theorem settle_returned (s : ReceiveBlock α) (r : Int) (acts : List ReceiveAct) :
    (step size byte).settle { s with pc := .returned r } acts = { s with pc := .returned r } := by
  refine settle_stuck (fun a => ?_) acts
  cases a with
  | recv o => simp only [step, reduceCtorEq, if_false]
  | wait w => simp only [step, reduceCtorEq, if_false]

/-- From any turn on the calls made are those of the loop, and so is what is left. -/
theorem settle_calls (hsize : size < 2 ^ 63) {turns : List (Turn Recvd)} (hfits : Fits s.sizeLeft turns)
    (h : Split pBlock size s got rest) (hpc : s.pc = .recv) (hleft : 0 < s.sizeLeft) {res : ReceivedBlock Nat α}
    (hres : receiveLoop (reader byte) turns s.taken got rest = some res) :
    ((step size byte).settle s (turns.flatMap calls)).pc = .returned res.ret ∧
      ((step size byte).settle s (turns.flatMap calls)).taken = res.reader ∧
      (List.range' pBlock size).map ((step size byte).settle s (turns.flatMap calls)).mem = res.block := by
  induction turns generalizing s got rest with
  | nil =>
    cases rest with
    | nil => exact absurd h.length_rest (Nat.ne_of_lt hleft)
    | cons b rest => simp [receiveLoop] at hres
  | cons t turns ih =>
    obtain ⟨b, bs, hrest⟩ := List.exists_cons_of_length_pos (h.length_rest ▸ hleft)
    have hgot : size - s.sizeLeft = got.length := by
      rw [← h.size_eq, Nat.add_sub_cancel]
    rw [hrest, receiveLoop, ← hrest] at hres
    rw [List.flatMap_cons]
    cases ht : t.answer with
    | count n =>
      simp only [Fits, ht] at hfits
      obtain ⟨hn, hfits⟩ := hfits
      simp only [calls, ht, List.singleton_append]
      rcases Nat.eq_zero_or_pos n with rfl | hpos
      · -- the connection is closed
        simp only [ht, reader, Int.natCast_zero, Int.lt_irrefl, if_false, if_true] at hres
        obtain rfl := Option.some.inj hres
        rw [settle_cons (step_closed hpc), settle_returned, hgot]
        exact ⟨by dsimp only, rfl, h.block⟩
      · have hlen : ((List.range n).map fun i => byte (s.taken + i)).length = n := by
          rw [List.length_map, List.length_range]
        simp only [ht, reader, Int.natCast_pos.mpr hpos, if_true, Int.toNat_natCast, List.take_left' hlen,
          List.drop_left' hlen] at hres
        rw [settle_cons (step_count hpc hn hpos), loop]
        split
        · next hzero =>
          obtain ⟨hnil, hlength, hblock⟩ := (h.count hn (.returned (castSsize size)) byte).complete hzero
          rw [hnil, receiveLoop_full] at hres
          obtain rfl := Option.some.inj hres
          rw [settle_returned]
          refine ⟨congrArg Pc.returned ?_, rfl, hblock⟩
          rw [castSsize_of_lt hsize, hlength]
        · next hmore => exact ih hfits (h.count hn .recv byte) rfl (Nat.pos_of_ne_zero hmore) hres
    | wouldBlock =>
      simp only [Fits, ht] at hfits
      simp only [ht, reader, if_true] at hres
      rw [if_neg (by decide), if_neg (by decide)] at hres
      have hstep : step size byte s (.recv .wouldBlock) = some { s with pc := .poll } := if_pos hpc
      by_cases hready : t.nfds = 1
      · have hloop : loop size s = s := by
          rw [loop, if_neg (Nat.ne_of_gt hleft), ← hpc]
        have hwait : step size byte { s with pc := .poll } (.wait .ready) = some (loop size s) := rfl
        rw [if_pos hready] at hres
        simp only [calls, ht, if_pos hready, List.cons_append, List.nil_append]
        rw [settle_cons hstep, settle_cons hwait, hloop]
        exact ih hfits h hpc hleft hres
      · have hwait : step size byte { s with pc := .poll } (.wait .timeout) = some { s with pc := .returned (-1) } := rfl
        rw [if_neg hready] at hres
        obtain rfl := Option.some.inj hres
        simp only [calls, ht, if_neg hready, List.cons_append, List.nil_append]
        rw [settle_cons hstep, settle_cons hwait, settle_returned]
        exact ⟨rfl, rfl, h.block⟩
    | error =>
      have hstep : step size byte s (.recv .error) = some { s with pc := .returned (-1) } := if_pos hpc
      simp only [ht, reader] at hres
      rw [if_neg (by decide), if_neg (by decide), if_neg (by decide)] at hres
      obtain rfl := Option.some.inj hres
      simp only [calls, ht, List.singleton_append]
      rw [settle_cons hstep, settle_returned]
      exact ⟨rfl, rfl, h.block⟩

/-- **Refinement.** The whole call returns what the loop over the standard `recv` returns, and leaves the block and the
position in the stream that it leaves. -/
theorem settle_receiveComplete (hsize : size < 2 ^ 63) {turns : List (Turn Recvd)} (hfits : Fits size turns)
    {res : ReceivedBlock Nat α}
    (hres : receiveComplete (reader byte) turns taken ((List.range' pBlock size).map mem) = some res) :
    let s := (step size byte).settle (start pBlock size mem taken) (turns.flatMap calls)
    s.pc = .returned res.ret ∧ s.taken = res.reader ∧ (List.range' pBlock size).map s.mem = res.block := by
  intro s
  rcases Nat.eq_zero_or_pos size with hzero | hpos
  · subst hzero
    rw [receiveComplete, List.range'_zero, List.map_nil, receiveLoop_full] at hres
    obtain rfl := Option.some.inj hres
    have hs : s = _ := settle_returned ⟨pBlock, 0, .recv, mem, taken⟩ (castSsize 0) _
    rw [hs]
    exact ⟨congrArg Pc.returned (castSsize_of_lt hsize), rfl, rfl⟩
  · have hsplit : Split pBlock size ⟨pBlock, size, .recv, mem, taken⟩ [] ((List.range' pBlock size).map mem) :=
      ⟨rfl, rfl, rfl, Nat.zero_add _⟩
    have hstart : start pBlock size mem taken = ⟨pBlock, size, .recv, mem, taken⟩ := by
      rw [start, loop, if_neg (Nat.ne_of_gt hpos)]
    have hcalls := settle_calls hsize hfits hsplit rfl hpos hres
    rwa [← hstart] at hcalls

theorem settle_receiveComplete_four :
    let s := (step 4 fun i => i + 10).settle (start 100 4 (fun _ => 0) 0)
      ([⟨.count 2, 0⟩, ⟨.wouldBlock, 1⟩, ⟨.count 2, 0⟩].flatMap calls)
    s.pc = .returned 4 ∧ s.taken = 4 ∧ (List.range' 100 4).map s.mem = [10, 11, 12, 13] := by
  have hfits : Fits 4 [⟨.count 2, 0⟩, ⟨.wouldBlock, 1⟩, ⟨.count 2, 0⟩] := ⟨by decide, by decide, trivial⟩
  have hres : receiveComplete (reader fun i => i + 10) [⟨.count 2, 0⟩, ⟨.wouldBlock, 1⟩, ⟨.count 2, 0⟩] 0
      ((List.range' 100 4).map fun _ => 0) = some ⟨4, [10, 11, 12, 13], 4, 4⟩ := by
    rfl
  exact settle_receiveComplete (by decide) hfits hres

end ReceiveBlock

end Libhbk
