import Libhbk.Communication.SendBlocks

/-!
# Sending one block

`SocketNonblocking::sendBlock` sends with a loop of its own. `observe` is what the kernel and the caller see of
either function when the kernel answers in a given way: the calls with their flags and bytes, what was accepted,
and the return value. Given the concatenation of the blocks, `sendBlock` shows what `sendBlocks` should.
-/

namespace Libhbk

open Machine

variable {β : Type}

/-- What the call that sends returns: a number of bytes, or -1 with `EWOULDBLOCK` or `EAGAIN`, with `EINTR`, or
with another error. -/
inductive Answer where
  | count (bytes : Nat)
  | wouldBlock
  | intr
  | error
  deriving DecidableEq, Repr

/-- A response of the kernel: the call that sends returns, and so does `waitForWritable` if the function calls it
next. -/
structure Response where
  sent : Answer
  waited : Int
  deriving DecidableEq, Repr

/-! ### The function -/

inductive SendBlock.Pc where
  | send
  | returned (retVal : Int)
  deriving DecidableEq, Repr

/-- The variables of `sendBlock`, and the bytes the kernel accepted. -/
structure SendBlock (β : Type) where
  pDat : Nat
  bytesLeft : Nat
  retVal : Int
  flags : BitVec 32
  pc : SendBlock.Pc
  accepted : List β
  deriving DecidableEq

namespace SendBlock

/-- The condition of the loop. -/
def loop (s : SendBlock β) : SendBlock β :=
  if 0 < s.bytesLeft then { s with pc := .send } else { s with pc := .returned s.retVal }

/-- `sendBlock(pBlock, size, more)` up to the first `send`. -/
def start (pBlock size : Nat) (more : Bool) : SendBlock β :=
  loop
    { pDat := pBlock
      bytesLeft := size
      retVal := castSsize size
      flags := if more then msgNoSignal ||| msgMore else msgNoSignal
      pc := .send
      accepted := [] }

/-- The bytes `send` is offered. -/
def offered (mem : Nat → β) (s : SendBlock β) : List β := DataBlock.bytes mem ⟨s.pDat, s.bytesLeft⟩

/-- One turn of the loop. -/
def answer (mem : Nat → β) : Machine (SendBlock β) Response := fun s x =>
  if s.pc = .send then
    match x.sent with
    | .count n =>
      if n ≤ s.bytesLeft then
        if 0 < n then
          some (loop { s with
            pDat := s.pDat + n
            bytesLeft := s.bytesLeft - n
            accepted := s.accepted ++ (s.offered mem).take n })
        else some (loop { s with bytesLeft := 0, retVal := -1 })
      else none
    | .wouldBlock => some (loop (if x.waited ≠ 1 then { s with bytesLeft := 0, retVal := -1 } else s))
    | .intr => some (loop s)
    | .error => some (loop { s with bytesLeft := 0, retVal := -1 })
  else none

end SendBlock

/-- The same response for `sendBlocks`, which treats `EINTR` as it treats `EAGAIN`. -/
def Answer.sendmsg : Answer → Sendmsg
  | count n => .count n
  | wouldBlock => .error true
  | intr => .error true
  | error => .error false

/-- One turn of the loop of `sendBlocks`. -/
def SendBlocks.answer (mem : Nat → β) : Machine (SendBlocks β) Response := fun s x =>
  (SendBlocks.step mem s (.sendmsg x.sent.sendmsg)).bind fun s' =>
    if s'.pc = .poll then SendBlocks.step mem s' (.poll x.waited false) else some s'

/-! ### What is observed -/

/-- The calls with their flags and the bytes they offer, the bytes accepted, and the return value. -/
structure Observed (β : Type) where
  calls : List (BitVec 32 × List β)
  accepted : List β
  ret : Option Int
  deriving DecidableEq

/-- What is observed until the function has returned or the responses are used up; a call not answered yet
counts. -/
def observe {S : Type} (m : Machine S Response) (view : S → Observed β) : S → List Response → Observed β
  | s, [] => view s
  | s, x :: xs =>
    match m s x with
    | none => view s
    | some s' =>
      let o := observe m view s' xs
      { o with calls := (view s).calls ++ o.calls }

def SendBlock.view (mem : Nat → β) (s : SendBlock β) : Observed β :=
  match s.pc with
  | .send => ⟨[(s.flags, s.offered mem)], s.accepted, none⟩
  | .returned retVal => ⟨[], s.accepted, some retVal⟩

def SendBlocks.view (mem : Nat → β) (s : SendBlocks β) : Observed β :=
  match s.pc with
  | .sendmsg => ⟨[(s.flags, stream mem s.iov)], s.accepted, none⟩
  | .returned retVal => ⟨[], s.accepted, some retVal⟩
  | _ => ⟨[], s.accepted, none⟩

/-- `sendBlocks(blocks, more)`. -/
def gather (mem : Nat → β) (blocks : List DataBlock) (more : Bool) (xs : List Response) : Observed β :=
  observe (SendBlocks.answer mem) (SendBlocks.view mem) (SendBlocks.start blocks more) xs

/-- `sendBlock(pBlock, size, more)`. -/
def plain (mem : Nat → β) (pBlock size : Nat) (more : Bool) (xs : List Response) : Observed β :=
  observe (SendBlock.answer mem) (SendBlock.view mem) (SendBlock.start pBlock size more) xs

/-! ### Rules for `observe` -/

section observe

variable {S : Type} {m : Machine S Response} {view : S → Observed β} {s : S} {P : S → Prop}

theorem observe_calls {C : BitVec 32 × List β → Prop} (hstep : ∀ s x s', P s → m s x = some s' → P s')
    (hview : ∀ s, P s → ∀ c ∈ (view s).calls, C c) (h : P s) (xs : List Response) :
    ∀ c ∈ (observe m view s xs).calls, C c := by
  induction xs generalizing s with
  | nil => exact hview s h
  | cons x xs ih =>
    rw [observe]
    split
    · exact hview s h
    · next s' hs' =>
      intro c hc
      rcases List.mem_append.mp hc with hc | hc
      · exact hview s h c hc
      · exact ih (hstep s x s' h hs') c hc

theorem observe_last (view : S → Observed β) (hstep : ∀ s x s', P s → m s x = some s' → P s') (h : P s) (xs : List Response) :
    ∃ s', P s' ∧ (observe m view s xs).accepted = (view s').accepted ∧
      (observe m view s xs).ret = (view s').ret := by
  induction xs generalizing s with
  | nil => exact ⟨s, h, rfl, rfl⟩
  | cons x xs ih =>
    rw [observe]
    split
    · exact ⟨s, h, rfl, rfl⟩
    · next s' hs' => exact ih (hstep s x s' h hs')

theorem observe_head {c : BitVec 32 × List β} (hview : (view s).calls = [c]) (xs : List Response) :
    (observe m view s xs).calls.head? = some c := by
  cases xs with
  | nil => rw [observe, hview, List.head?_cons]
  | cons x xs =>
    rw [observe]
    split
    · rw [hview, List.head?_cons]
    · simp only [hview, List.cons_append, List.head?_cons]

theorem observe_done (h : ∀ x, m s x = none) (xs : List Response) : observe m view s xs = view s := by
  cases xs with
  | nil => rfl
  | cons x xs => rw [observe, h]

theorem observe_cons {x : Response} {s' : S} (h : m s x = some s') (xs : List Response) :
    observe m view s (x :: xs) =
      { observe m view s' xs with calls := (view s).calls ++ (observe m view s' xs).calls } := by
  rw [observe, h]

end observe

/-! ### The plain path -/

namespace SendBlock

variable {mem : Nat → β} {bytes : List β} {s s' : SendBlock β}

/-- What `sendBlock` does with `bytes`. -/
structure Inv (mem : Nat → β) (bytes : List β) (flags : BitVec 32) (s : SendBlock β) : Prop where
  flags_eq : s.flags = flags
  left_pos : s.pc = .send → 0 < s.bytesLeft
  retVal_eq : s.pc = .send → s.retVal = bytes.length
  taken : s.pc = .send → s.accepted ++ s.offered mem = bytes
  returned : ∀ r, s.pc = .returned r →
    r = bytes.length ∧ s.accepted = bytes ∨ r = -1 ∧ s.accepted ≠ bytes

theorem length_offered (mem : Nat → β) (s : SendBlock β) : (s.offered mem).length = s.bytesLeft :=
  DataBlock.length_bytes mem _

theorem offered_drop {n : Nat} (hn : n ≤ s.bytesLeft) :
    DataBlock.bytes mem ⟨s.pDat + n, s.bytesLeft - n⟩ = (s.offered mem).drop n :=
  DataBlock.bytes_advance mem ⟨s.pDat, s.bytesLeft⟩ hn

theorem length_taken (htaken : s.accepted ++ s.offered mem = bytes) : s.accepted.length + s.bytesLeft = bytes.length := by
  rw [← htaken, List.length_append, length_offered]

theorem taken_drop (htaken : s.accepted ++ s.offered mem = bytes) (n : Nat) :
    s.accepted ++ (s.offered mem).take n ++ (s.offered mem).drop n = bytes := by
  rw [List.append_assoc, List.take_append_drop, htaken]

theorem taken_all (htaken : s.accepted ++ s.offered mem = bytes) {n : Nat} (hleft : ¬ 0 < s.bytesLeft - n) :
    s.accepted ++ (s.offered mem).take n = bytes := by
  have hall := taken_drop htaken n
  rwa [List.drop_of_length_le (by rw [length_offered]; omega), List.append_nil] at hall

theorem Inv.failed {flags : BitVec 32} (h : Inv mem bytes flags s) (hpc : s.pc = .send) :
    Inv mem bytes flags { s with bytesLeft := 0, retVal := -1, pc := .returned (-1) } := by
  refine ⟨h.flags_eq, fun he => (nomatch he), fun he => (nomatch he), fun he => (nomatch he), ?_⟩
  rintro r ⟨⟩
  refine Or.inr ⟨rfl, fun hacc => ?_⟩
  have hlen := length_taken (h.taken hpc)
  have hpos := h.left_pos hpc
  rw [hacc] at hlen
  omega

theorem Inv.sent {flags : BitVec 32} (h : Inv mem bytes flags s) (hpc : s.pc = .send) {n : Nat}
    (hn : n ≤ s.bytesLeft) :
    Inv mem bytes flags (loop { s with
      pDat := s.pDat + n
      bytesLeft := s.bytesLeft - n
      accepted := s.accepted ++ (s.offered mem).take n }) := by
  unfold loop
  split
  · next hleft =>
    refine ⟨h.flags_eq, fun _ => hleft, fun _ => h.retVal_eq hpc, fun _ => ?_, fun _ he => (nomatch he)⟩
    rw [← taken_drop (h.taken hpc) n, ← offered_drop hn]
    rfl
  · next hleft =>
    refine ⟨h.flags_eq, fun he => (nomatch he), fun he => (nomatch he), fun he => (nomatch he), ?_⟩
    rintro r ⟨⟩
    exact Or.inl ⟨h.retVal_eq hpc, taken_all (h.taken hpc) hleft⟩

theorem loop_send (hpc : s.pc = .send) (hpos : 0 < s.bytesLeft) : loop s = s := by
  rw [loop, if_pos hpos, ← hpc]

theorem answer_inv {flags : BitVec 32} {x : Response} (h : Inv mem bytes flags s)
    (hstep : answer mem s x = some s') : Inv mem bytes flags s' := by
  simp only [answer, Option.ite_none_right_eq_some] at hstep
  obtain ⟨hpc, hstep⟩ := hstep
  have hloop := loop_send hpc (h.left_pos hpc)
  cases hx : x.sent with
  | count n =>
    simp only [hx, Option.ite_none_right_eq_some] at hstep
    obtain ⟨hn, hstep⟩ := hstep
    split at hstep
    · obtain rfl := Option.some.inj hstep
      exact h.sent hpc hn
    · obtain rfl := Option.some.inj hstep
      exact h.failed hpc
  | wouldBlock =>
    simp only [hx] at hstep
    obtain rfl := Option.some.inj hstep
    split
    · exact h.failed hpc
    · rw [hloop]
      exact h
  | intr =>
    simp only [hx] at hstep
    obtain rfl := Option.some.inj hstep
    rw [hloop]
    exact h
  | error =>
    simp only [hx] at hstep
    obtain rfl := Option.some.inj hstep
    exact h.failed hpc

theorem start_eq (pBlock : Nat) {size : Nat} (more : Bool) (hpos : 0 < size) :
    (start pBlock size more : SendBlock β) =
      ⟨pBlock, size, castSsize size, if more then msgNoSignal ||| msgMore else msgNoSignal, .send, []⟩ :=
  loop_send rfl hpos

theorem start_inv {pBlock size : Nat} (more : Bool) (hsize : size < 2 ^ 63) (hpos : 0 < size)
    (hbytes : DataBlock.bytes mem ⟨pBlock, size⟩ = bytes) :
    Inv mem bytes (if more then msgNoSignal ||| msgMore else msgNoSignal) (start pBlock size more) := by
  have hlen : bytes.length = size := by
    rw [← hbytes, DataBlock.length_bytes]
  have hret : castSsize size = size := castSsize_of_lt hsize
  rw [start_eq pBlock more hpos]
  refine ⟨rfl, fun _ => hpos, fun _ => ?_, fun _ => hbytes, fun _ he => (nomatch he)⟩
  rw [hlen, ← hret]

theorem answer_done {r : Int} (h : s.pc = .returned r) (x : Response) : answer mem s x = none := by
  rw [answer, if_neg (by rw [h]; exact fun he => (nomatch he))]

theorem answer_over {x : Response} {n : Nat} (hx : x.sent = .count n) (hn : s.bytesLeft < n) :
    answer mem s x = none := by
  simp only [answer, hx, if_neg (Nat.not_le_of_lt hn), ite_self]

theorem answer_failed (hpc : s.pc = .send) {x : Response}
    (hx : x.sent = .count 0 ∨ x.sent = .wouldBlock ∧ x.waited ≠ 1 ∨ x.sent = .error) :
    answer mem s x = some { s with bytesLeft := 0, retVal := -1, pc := .returned (-1) } := by
  rcases hx with hx | ⟨hx, hw⟩ | hx
  · simp only [answer, if_pos hpc, hx, if_pos (Nat.zero_le _), if_neg (Nat.lt_irrefl 0)]
    rfl
  · simp only [answer, if_pos hpc, hx, if_pos hw]
    rfl
  · simp only [answer, if_pos hpc, hx]
    rfl

theorem answer_again (hpc : s.pc = .send) (hpos : 0 < s.bytesLeft) {x : Response}
    (hx : x.sent = .wouldBlock ∧ x.waited = 1 ∨ x.sent = .intr) : answer mem s x = some s := by
  rcases hx with ⟨hx, hw⟩ | hx
  · simp only [answer, if_pos hpc, hx, if_neg (not_not.mpr hw), loop_send hpc hpos]
  · simp only [answer, if_pos hpc, hx, loop_send hpc hpos]

theorem answer_count (hpc : s.pc = .send) {x : Response} {n : Nat} (hx : x.sent = .count n) (hpos : 0 < n)
    (hn : n ≤ s.bytesLeft) :
    answer mem s x = some (loop { s with
      pDat := s.pDat + n
      bytesLeft := s.bytesLeft - n
      accepted := s.accepted ++ (s.offered mem).take n }) := by
  simp only [answer, if_pos hpc, hx, if_pos hn, if_pos hpos]

end SendBlock

/-! ### A turn of the gather path -/

namespace SendBlocks

variable {mem : Nat → β} {blocks : List DataBlock} {s : SendBlocks β}

/-- A response that leaves something to be sent and does not end the function by itself. -/
def Leaves (x : Response) (n : Nat) : Prop :=
  x.sent = .count n ∧ 0 < n ∨ n = 0 ∧ (x.sent = .wouldBlock ∨ x.sent = .intr)

theorem sendmsg_written (hs : Sending mem blocks 0 s) (hpc : s.pc = .sendmsg) {x : Response} {n : Nat}
    (hx : Leaves x n) (hn : n ≤ s.totalBytesRemaining) :
    ∃ s₁, step mem s (.sendmsg x.sent.sendmsg) = some (s₁.written n) ∧ Sending mem blocks n s₁ ∧
      s₁.flags = s.flags ∧ s₁.accepted = s.accepted ++ (stream mem s.iov).take n ∧
      s₁.totalBytesRemaining = s.totalBytesRemaining := by
  have hle : n ≤ (stream mem s.iov).length := by
    rw [hs.iov_eq, ← hs.remaining]
    exact hn
  refine ⟨{ s with accepted := s.accepted ++ (stream mem s.iov).take n }, ?_, ?_, rfl, rfl, rfl⟩
  · rcases hx with ⟨hx, hpos⟩ | ⟨rfl, hx | hx⟩
    · rw [hx]
      simp only [Answer.sendmsg, step, if_pos (And.intro hpc hle), if_neg (Nat.ne_of_gt hpos)]
    · rw [hx, List.take_zero, List.append_nil]
      simp only [Answer.sendmsg, step, if_pos hpc, if_true]
    · rw [hx, List.take_zero, List.append_nil]
      simp only [Answer.sendmsg, step, if_pos hpc, if_true]
  · rw [hs.iov_eq] at hle ⊢
    exact hs.take hle

theorem poll_eq (hpc : s.pc = .poll) (hleft : s.totalBytesRemaining ≠ 0) (waited : Int) :
    step mem s (.poll waited false) =
      some { s with pc := if waited = 1 then .sendmsg else .returned (-1) } := by
  simp only [step, if_pos hpc, Bool.false_eq_true, and_false, if_false, if_pos hleft]
  by_cases hw : waited = 1
  · rw [if_pos hw, if_neg (not_not.mpr hw)]
  · rw [if_neg hw, if_pos hw]

theorem written_poll (htotal : (stream mem blocks).length < 2 ^ 63) (hcount : blocks.length < 2 ^ 64) {n : Nat}
    (h : Sending mem blocks n s) (hn : n < s.totalBytesRemaining) :
    (s.written n).pc = .poll ∧ (s.written n).totalBytesRemaining ≠ 0 ∧ (s.written n).flags = s.flags ∧
      (s.written n).accepted = s.accepted := by
  rcases written_cases htotal hcount h with ⟨hdone, _⟩ | ⟨hlt, k, b, _, _, _, hw⟩
  · exact absurd hdone (Nat.ne_of_gt hn)
  · rw [hw]
    exact ⟨rfl, Nat.sub_ne_zero_of_lt hlt, rfl, rfl⟩

theorem answer_leaves (htotal : (stream mem blocks).length < 2 ^ 63) (hcount : blocks.length < 2 ^ 64)
    (h : Inv mem blocks s) (hpc : s.pc = .sendmsg) {x : Response} {n : Nat} (hx : Leaves x n)
    (hn : n < s.totalBytesRemaining) :
    ∃ s', answer mem s x = some s' ∧ Inv mem blocks s' ∧ s'.flags = s.flags ∧
      s'.accepted = s.accepted ++ (stream mem s.iov).take n ∧
      s'.pc = if x.waited = 1 then .sendmsg else .returned (-1) := by
  obtain ⟨s₁, hfirst, hs₁, hflags₁, hacc₁, hrem₁⟩ :=
    sendmsg_written (h.sending (Or.inl hpc)) hpc hx (Nat.le_of_lt hn)
  have hinv := step_inv htotal hcount h hfirst
  obtain ⟨hpoll, hleft, hflags, hacc⟩ := written_poll htotal hcount hs₁ (hrem₁ ▸ hn)
  obtain ⟨w, hw⟩ : ∃ w, s₁.written n = w := ⟨_, rfl⟩
  rw [hw] at hfirst hinv hpoll hleft hflags hacc
  have hsecond : step mem w (.poll x.waited false) = some _ := poll_eq hpoll hleft x.waited
  refine ⟨_, ?_, step_inv htotal hcount hinv hsecond, ?_, ?_, rfl⟩
  · rw [answer, hfirst, Option.bind_some, if_pos hpoll, hsecond]
  · exact hflags.trans hflags₁
  · exact hacc.trans hacc₁

theorem answer_all (htotal : (stream mem blocks).length < 2 ^ 63) (hcount : blocks.length < 2 ^ 64)
    (h : Inv mem blocks s) (hpc : s.pc = .sendmsg) {x : Response}
    (hx : x.sent = .count s.totalBytesRemaining) (hpos : 0 < s.totalBytesRemaining) :
    ∃ s', answer mem s x = some s' ∧ s'.accepted = stream mem blocks ∧
      s'.pc = .returned (stream mem blocks).length := by
  have hs := h.sending (Or.inl hpc)
  obtain ⟨s₁, hfirst, hs₁, _, hacc₁, hrem₁⟩ := sendmsg_written hs hpc (Or.inl ⟨hx, hpos⟩) (Nat.le_refl _)
  rcases written_cases htotal hcount hs₁ with ⟨_, hw⟩ | ⟨hlt, _⟩
  · have hret : castSsize s₁.totalLength = (stream mem blocks).length := by
      rw [hs₁.totalLength, castSsize_of_lt htotal]
    rw [hw, hret] at hfirst
    refine ⟨_, by rw [answer, hfirst, Option.bind_some, if_neg (fun he => (nomatch he))], ?_, rfl⟩
    have hall : (stream mem s.iov).take s.totalBytesRemaining = stream mem (s.blocks.drop s.pBlockPos) := by
      rw [hs.iov_eq, hs.remaining, List.take_length]
    exact (hacc₁.trans (congrArg _ hall)).trans hs.taken
  · rw [hrem₁] at hlt
    exact absurd hlt (Nat.lt_irrefl _)

theorem answer_done {r : Int} (h : s.pc = .returned r) (x : Response) : answer mem s x = none := by
  have hne : s.pc ≠ .sendmsg := by
    rw [h]
    exact fun he => (nomatch he)
  rw [answer]
  cases x.sent with
  | count n => simp only [Answer.sendmsg, step, hne, false_and, if_false, Option.bind_none]
  | wouldBlock => simp only [Answer.sendmsg, step, if_neg hne, Option.bind_none]
  | intr => simp only [Answer.sendmsg, step, if_neg hne, Option.bind_none]
  | error => simp only [Answer.sendmsg, step, if_neg hne, Option.bind_none]

theorem answer_over {x : Response} {n : Nat} (hx : x.sent = .count n) (hn : (stream mem s.iov).length < n) :
    answer mem s x = none := by
  rw [answer, hx]
  simp only [Answer.sendmsg, step, Nat.not_le_of_lt hn, and_false, if_false, Option.bind_none]

theorem answer_zero (hpc : s.pc = .sendmsg) {x : Response} (hx : x.sent = .count 0) :
    answer mem s x = some { s with pc := .returned 0 } := by
  rw [answer, hx]
  simp only [Answer.sendmsg, step, hpc, true_and, if_pos (Nat.zero_le _), if_true, Option.bind_some]
  rw [if_neg]
  rintro ⟨⟩

theorem answer_error (hpc : s.pc = .sendmsg) {x : Response} (hx : x.sent = .error) :
    answer mem s x = some { s with pc := .returned (-1) } := by
  rw [answer, hx]
  simp only [Answer.sendmsg, step, if_pos hpc, Bool.false_eq_true, if_false, Option.bind_some]
  rw [if_neg]
  rintro ⟨⟩

end SendBlocks

/-! ### The two paths side by side -/

/-- Responses that `sendBlocks` and `sendBlock` treat alike with `left` bytes left: the kernel never reports 0 bytes,
and a wait succeeds where only `sendBlocks` waits. -/
def Alike : Nat → List Response → Prop
  | _, [] => True
  | left, x :: xs =>
    match x.sent with
    | .count n => n ≠ 0 ∧ (n < left → x.waited = 1 ∧ Alike (left - n) xs)
    | .wouldBlock => x.waited = 1 → Alike left xs
    | .intr => x.waited = 1 ∧ Alike left xs
    | .error => True

section paths

variable {mem : Nat → β} {blocks : List DataBlock}

/-- Both functions are about to send the same bytes. -/
structure Side (mem : Nat → β) (blocks : List DataBlock) (g : SendBlocks β) (p : SendBlock β) : Prop where
  gather : SendBlocks.Inv mem blocks g
  plain : SendBlock.Inv mem (stream mem blocks) p.flags p
  sendmsg : g.pc = .sendmsg
  send : p.pc = .send
  flags : g.flags = p.flags
  accepted : g.accepted = p.accepted

variable {g : SendBlocks β} {p : SendBlock β}

theorem Side.offered (h : Side mem blocks g p) : stream mem g.iov = p.offered mem := by
  have hs := h.gather.sending (Or.inl h.sendmsg)
  have hg := hs.taken
  rw [List.drop_zero, ← hs.iov_eq, h.accepted] at hg
  exact List.append_cancel_left (hg.trans (h.plain.taken h.send).symm)

theorem Side.left (h : Side mem blocks g p) : g.totalBytesRemaining = p.bytesLeft := by
  have hs := h.gather.sending (Or.inl h.sendmsg)
  rw [hs.remaining, ← hs.iov_eq, h.offered, SendBlock.length_offered]

theorem Side.view (h : Side mem blocks g p) : SendBlocks.view mem g = SendBlock.view mem p := by
  simp only [SendBlocks.view, h.sendmsg, SendBlock.view, h.send, h.flags, h.offered, h.accepted]

theorem Side.next (h : Side mem blocks g p) {x : Response} {g' : SendBlocks β} {p' : SendBlock β}
    (hg : SendBlocks.answer mem g x = some g') (hp : SendBlock.answer mem p x = some p') (xs : List Response) :
    observe (SendBlocks.answer mem) (SendBlocks.view mem) g (x :: xs) =
        observe (SendBlock.answer mem) (SendBlock.view mem) p (x :: xs) ↔
      observe (SendBlocks.answer mem) (SendBlocks.view mem) g' xs =
        observe (SendBlock.answer mem) (SendBlock.view mem) p' xs := by
  rw [observe_cons hg, observe_cons hp, h.view]
  constructor
  · intro he
    obtain ⟨hcalls, hacc, hret⟩ := Observed.mk.inj he
    have hcalls' := List.append_cancel_left hcalls
    cases ho : observe (SendBlocks.answer mem) (SendBlocks.view mem) g' xs
    cases ho' : observe (SendBlock.answer mem) (SendBlock.view mem) p' xs
    rw [ho, ho'] at hcalls' hacc hret
    exact congr (congr (congrArg _ hcalls') hacc) hret
  · intro he
    rw [he]

theorem returned_ne {r : Int} (hg : g.pc = .returned r) (hp : p.pc = .send) (xs : List Response) :
    observe (SendBlocks.answer mem) (SendBlocks.view mem) g xs ≠
      observe (SendBlock.answer mem) (SendBlock.view mem) p xs := by
  intro he
  have hcalls : (SendBlock.view mem p).calls = [(p.flags, p.offered mem)] := by
    simp only [SendBlock.view, hp]
  have hhead : (observe (SendBlock.answer mem) (SendBlock.view mem) p xs).calls.head? = _ := observe_head hcalls xs
  rw [← he, observe_done (SendBlocks.answer_done hg)] at hhead
  simp only [SendBlocks.view, hg] at hhead
  exact nomatch hhead

theorem Side.return_iff (h : Side mem blocks g p) {x : Response} {g' : SendBlocks β} {p' : SendBlock β}
    (hg : SendBlocks.answer mem g x = some g') (hp : SendBlock.answer mem p x = some p') {r r' : Int}
    (hgpc : g'.pc = .returned r) (hppc : p'.pc = .returned r') (hacc : g'.accepted = p'.accepted)
    (xs : List Response) :
    observe (SendBlocks.answer mem) (SendBlocks.view mem) g (x :: xs) =
        observe (SendBlock.answer mem) (SendBlock.view mem) p (x :: xs) ↔ r = r' := by
  rw [h.next hg hp, observe_done (SendBlocks.answer_done hgpc), observe_done (SendBlock.answer_done hppc)]
  simp [SendBlocks.view, hgpc, SendBlock.view, hppc, hacc]

theorem Side.goes_on (htotal : (stream mem blocks).length < 2 ^ 63) (hcount : blocks.length < 2 ^ 64)
    (h : Side mem blocks g p) {x : Response} {n : Nat} (hx : SendBlocks.Leaves x n) (hn : n < p.bytesLeft)
    {p' : SendBlock β} (hp : SendBlock.answer mem p x = some p') (hsend : p'.pc = .send)
    (hacc : p'.accepted = p.accepted ++ (p.offered mem).take n) {xs : List Response} {A : Prop}
    (ih : ∀ g', Side mem blocks g' p' →
      (observe (SendBlocks.answer mem) (SendBlocks.view mem) g' xs =
        observe (SendBlock.answer mem) (SendBlock.view mem) p' xs ↔ A)) :
    observe (SendBlocks.answer mem) (SendBlocks.view mem) g (x :: xs) =
        observe (SendBlock.answer mem) (SendBlock.view mem) p (x :: xs) ↔ x.waited = 1 ∧ A := by
  obtain ⟨g', hg, hinv, hflags, hacc', hpc⟩ :=
    SendBlocks.answer_leaves htotal hcount h.gather h.sendmsg hx (h.left ▸ hn)
  have hplain := SendBlock.answer_inv h.plain hp
  rw [h.next hg hp]
  by_cases hw : x.waited = 1
  · rw [if_pos hw] at hpc
    have hside : Side mem blocks g' p' := by
      refine ⟨hinv, hplain.flags_eq ▸ hplain, hpc, hsend, ?_, ?_⟩
      · rw [hflags, h.flags, hplain.flags_eq]
      · rw [hacc', hacc, h.accepted, h.offered]
    rw [ih g' hside]
    exact (and_iff_right hw).symm
  · rw [if_neg hw] at hpc
    exact iff_of_false (returned_ne hpc hsend xs) (fun hA => hw hA.1)

/-- **Simulation.** Side by side the two functions show the same exactly if the responses are alike for both. -/
theorem Side.observe_iff (htotal : (stream mem blocks).length < 2 ^ 63) (hcount : blocks.length < 2 ^ 64)
    (h : Side mem blocks g p) (xs : List Response) :
    observe (SendBlocks.answer mem) (SendBlocks.view mem) g xs =
        observe (SendBlock.answer mem) (SendBlock.view mem) p xs ↔ Alike p.bytesLeft xs := by
  induction xs generalizing g p with
  | nil => exact iff_of_true h.view trivial
  | cons x xs ih =>
    have hpos := h.plain.left_pos h.send
    have hleft := h.left
    cases hx : x.sent with
    | count n =>
      simp only [Alike, hx]
      rcases Nat.eq_zero_or_pos n with rfl | hn
      · -- the connection is closed
        have hg : SendBlocks.answer mem g x = some _ := SendBlocks.answer_zero h.sendmsg hx
        have hp : SendBlock.answer mem p x = some _ := SendBlock.answer_failed h.send (Or.inl hx)
        rw [h.return_iff hg hp rfl rfl h.accepted]
        simp
      · rcases Nat.lt_trichotomy n p.bytesLeft with hlt | rfl | hgt
        · -- a part is accepted
          have hp : SendBlock.answer mem p x = some _ := SendBlock.answer_count h.send hx hn (Nat.le_of_lt hlt)
          rw [SendBlock.loop, if_pos (Nat.sub_pos_of_lt hlt)] at hp
          rw [h.goes_on htotal hcount (Or.inl ⟨hx, hn⟩) hlt hp rfl rfl fun g' hside => ih hside]
          simp [Nat.ne_of_gt hn, hlt]
        · -- everything is accepted
          obtain ⟨g', hg, hacc, hpc⟩ := SendBlocks.answer_all htotal hcount h.gather h.sendmsg
            (hx.trans (congrArg _ hleft.symm)) (hleft ▸ hn)
          have hp : SendBlock.answer mem p x = some _ := SendBlock.answer_count h.send hx hn (Nat.le_refl _)
          rw [SendBlock.loop, if_neg (by simp)] at hp
          have htaken := h.plain.taken h.send
          rw [← List.take_length (l := p.offered mem), SendBlock.length_offered] at htaken
          rw [h.return_iff hg hp hpc rfl (hacc.trans htaken.symm)]
          exact iff_of_true (h.plain.retVal_eq h.send).symm
            ⟨Nat.ne_of_gt hn, fun hlt => absurd hlt (Nat.lt_irrefl _)⟩
        · -- there is no such response
          have hlen : (stream mem g.iov).length < n := by
            rw [h.offered, SendBlock.length_offered]
            exact hgt
          rw [observe, observe, SendBlocks.answer_over hx hlen, SendBlock.answer_over hx hgt]
          exact iff_of_true h.view ⟨Nat.ne_of_gt hn, fun hlt => absurd hlt (Nat.lt_asymm hgt)⟩
    | wouldBlock =>
      simp only [Alike, hx]
      by_cases hw : x.waited = 1
      · have hp : SendBlock.answer mem p x = some _ := SendBlock.answer_again h.send hpos (Or.inl ⟨hx, hw⟩)
        rw [h.goes_on htotal hcount (Or.inr ⟨rfl, Or.inl hx⟩) hpos hp h.send (by simp) fun g' hside => ih hside]
        simp [hw]
      · obtain ⟨g', hg, _, _, hacc, hpc⟩ := SendBlocks.answer_leaves htotal hcount h.gather h.sendmsg
          (Or.inr ⟨rfl, Or.inl hx⟩) (hleft ▸ hpos)
        have hp : SendBlock.answer mem p x = some _ := SendBlock.answer_failed h.send (Or.inr (Or.inl ⟨hx, hw⟩))
        rw [if_neg hw] at hpc
        rw [List.take_zero, List.append_nil] at hacc
        rw [h.return_iff hg hp hpc rfl (hacc.trans h.accepted)]
        exact iff_of_true rfl fun he => absurd he hw
    | intr =>
      simp only [Alike, hx]
      have hp : SendBlock.answer mem p x = some _ := SendBlock.answer_again h.send hpos (Or.inr hx)
      exact h.goes_on htotal hcount (Or.inr ⟨rfl, Or.inr hx⟩) hpos hp h.send (by simp) fun g' hside => ih hside
    | error =>
      simp only [Alike, hx, iff_true]
      have hg : SendBlocks.answer mem g x = some _ := SendBlocks.answer_error h.sendmsg hx
      have hp : SendBlock.answer mem p x = some _ := SendBlock.answer_failed h.send (Or.inr (Or.inr hx))
      rw [h.return_iff hg hp rfl rfl h.accepted]

theorem plain_correct (mem : Nat → β) (pBlock : Nat) {size : Nat} (more : Bool) (hsize : size < 2 ^ 63)
    (hpos : 0 < size) (xs : List Response) :
    (∀ c ∈ (plain mem pBlock size more xs).calls, c.1 = if more then msgNoSignal ||| msgMore else msgNoSignal) ∧
      ∀ r, (plain mem pBlock size more xs).ret = some r →
        r = size ∧ (plain mem pBlock size more xs).accepted = DataBlock.bytes mem ⟨pBlock, size⟩ ∨
          r = -1 ∧ (plain mem pBlock size more xs).accepted ≠ DataBlock.bytes mem ⟨pBlock, size⟩ := by
  have hinv : SendBlock.Inv mem (DataBlock.bytes mem ⟨pBlock, size⟩) _ (SendBlock.start pBlock size more) :=
    SendBlock.start_inv more hsize hpos rfl
  constructor
  · refine observe_calls (fun _ _ _ => SendBlock.answer_inv) ?_ hinv xs
    intro p hp c hc
    cases hpc : p.pc with
    | send =>
      simp only [SendBlock.view, hpc, List.mem_singleton] at hc
      rw [hc]
      exact hp.flags_eq
    | returned r =>
      simp only [SendBlock.view, hpc] at hc
      exact nomatch hc
  · intro r hr
    obtain ⟨p, hp, hacc, hret⟩ := observe_last (SendBlock.view mem) (fun _ _ _ => SendBlock.answer_inv) hinv xs
    change (plain mem pBlock size more xs).accepted = _ at hacc
    change (plain mem pBlock size more xs).ret = _ at hret
    rw [hr] at hret
    rw [hacc]
    cases hpc : p.pc with
    | send =>
      simp only [SendBlock.view, hpc] at hret
      exact nomatch hret
    | returned r' =>
      simp only [SendBlock.view, hpc, Option.some.injEq] at hret ⊢
      have hcases := hp.returned r' hpc
      rwa [DataBlock.length_bytes, ← hret] at hcases

/-- What the gather path should show, given the blocks one after the other at `pBlock`. -/
structure Agrees (mem : Nat → β) (blocks : List DataBlock) (pBlock : Nat) (more : Bool) (xs : List Response) :
    Prop where
  same : gather mem blocks more xs = plain mem pBlock (stream mem blocks).length more xs
  flags : ∀ c ∈ (gather mem blocks more xs).calls, c.1 = if more then msgNoSignal ||| msgMore else msgNoSignal
  result : ∀ r, (gather mem blocks more xs).ret = some r →
    r = (stream mem blocks).length ∧ (gather mem blocks more xs).accepted = stream mem blocks ∨
      r = -1 ∧ (gather mem blocks more xs).accepted ≠ stream mem blocks

/-- **The gather path agrees with the plain path** exactly without `more`, and as long as the kernel does not
report 0 bytes and no wait fails where only `sendBlocks` waits. -/
theorem gather_agrees_iff (mem : Nat → β) (blocks : List DataBlock) (pBlock : Nat) (more : Bool)
    (xs : List Response) (hpos : 0 < (stream mem blocks).length) (htotal : (stream mem blocks).length < 2 ^ 63)
    (hcount : blocks.length < 2 ^ 64)
    (hconcat : DataBlock.bytes mem ⟨pBlock, (stream mem blocks).length⟩ = stream mem blocks) :
    Agrees mem blocks pBlock more xs ↔ more = false ∧ Alike (stream mem blocks).length xs := by
  obtain ⟨hflags, hresult⟩ := plain_correct mem pBlock more htotal hpos xs
  rw [hconcat] at hresult
  have hsame : Agrees mem blocks pBlock more xs ↔
      gather mem blocks more xs = plain mem pBlock (stream mem blocks).length more xs :=
    ⟨fun h => h.same, fun h => ⟨h, h ▸ hflags, h ▸ hresult⟩⟩
  rw [hsame]
  cases more with
  | true =>
    refine iff_of_false (fun he => ?_) (fun he => (nomatch he.1))
    -- the flags of the first call differ
    have hhead : (gather mem blocks true xs).calls.head? = some (msgMore, stream mem _) := observe_head rfl xs
    rw [he] at hhead
    have hfirst := hflags _ (List.mem_of_head? hhead)
    exact absurd hfirst (show ¬ msgMore = msgNoSignal ||| msgMore by decide)
  | false =>
    have hinv := SendBlock.start_inv false htotal hpos hconcat
    have hstart := SendBlock.start_eq (β := β) pBlock false hpos
    rw [hstart] at hinv
    rw [and_iff_right rfl, plain, hstart]
    exact Side.observe_iff htotal hcount ⟨SendBlocks.start_inv false htotal, hinv, rfl, rfl, rfl, rfl⟩ xs

/-- Two blocks behind each other; the first call stops inside the second one, the next is interrupted. -/
theorem gather_agrees_partial :
    (gather (fun n => n) [⟨10, 2⟩, ⟨12, 3⟩] false
      [⟨.count 3, 1⟩, ⟨.intr, 1⟩, ⟨.wouldBlock, 1⟩, ⟨.count 2, 0⟩]).ret = some 5 ∧
    Agrees (fun n => n) [⟨10, 2⟩, ⟨12, 3⟩] 10 false
      [⟨.count 3, 1⟩, ⟨.intr, 1⟩, ⟨.wouldBlock, 1⟩, ⟨.count 2, 0⟩] := by
  refine ⟨by decide +kernel, ?_⟩
  refine (gather_agrees_iff (fun n => n) _ 10 false _ (by decide) (by decide) (by decide) rfl).mpr ⟨rfl, ?_⟩
  simp [Alike, stream, DataBlock.bytes]

/-- With `more` the call of `sendBlocks` does without `MSG_NOSIGNAL`. -/
theorem more_drops_noSignal :
    ¬ ∀ (mem : Nat → Nat) (blocks : List DataBlock) (pBlock : Nat) (more : Bool) (xs : List Response),
      0 < (stream mem blocks).length →
      DataBlock.bytes mem ⟨pBlock, (stream mem blocks).length⟩ = stream mem blocks →
      Agrees mem blocks pBlock more xs := by
  intro h
  have hagrees := h (fun n => n) [⟨10, 2⟩] 10 true [⟨.count 2, 1⟩] (by decide) rfl
  have hcalls : (gather (fun n => n) [⟨10, 2⟩] true [⟨.count 2, 1⟩]).calls = [(msgMore, [10, 11])] := by
    decide +kernel
  have hflags := hagrees.flags (msgMore, [10, 11]) (hcalls ▸ List.mem_singleton_self _)
  exact absurd hflags (by decide)

end paths

end Libhbk
