import Libhbk.Base.Arith
import Libhbk.Base.Machine
import Mathlib.Data.List.Induction
import Mathlib.Data.List.TakeDrop

/-!
# Sending an array of blocks

`SocketNonblocking::sendBlocks` hands the whole array to `sendmsg`, and after a partial write moves on in the
array, over the blocks that are gone and into the one the kernel stopped in, and waits until the socket is
writable again. The answers of the system are the actions of a machine. Nothing looks at a byte, so the model
is generic in their type `β`.
-/

namespace Libhbk

/-- `dataBlock_t`. -/
structure DataBlock where
  pData : Nat
  size : Nat
  deriving DecidableEq, Repr

variable {β : Type}

/-- The bytes a block describes. -/
def DataBlock.bytes (mem : Nat → β) (b : DataBlock) : List β := (List.range' b.pData b.size).map mem

/-- The concatenation of the blocks of an array. -/
def stream (mem : Nat → β) (blocks : List DataBlock) : List β := blocks.flatMap (DataBlock.bytes mem)

theorem DataBlock.length_bytes (mem : Nat → β) (b : DataBlock) : (b.bytes mem).length = b.size := by
  rw [DataBlock.bytes, List.length_map, List.length_range']

theorem stream_cons (mem : Nat → β) (b : DataBlock) (blocks : List DataBlock) :
    stream mem (b :: blocks) = b.bytes mem ++ stream mem blocks := rfl

/-! ### The inner loop -/

/-- The inner loop over the blocks from `pBlockPos` on: how many of them it steps over, and what it makes of
the one it stops at. `none` if the pointer leaves the array. -/
def reorganize : Nat → List DataBlock → Option (Nat × DataBlock)
  | _, [] => none
  | remainingOffset, b :: blocks =>
    if b.size ≤ remainingOffset then
      (reorganize (remainingOffset - b.size) blocks).map fun x => (x.1 + 1, x.2)
    else some (0, ⟨b.pData + remainingOffset, b.size - remainingOffset⟩)

theorem DataBlock.bytes_advance (mem : Nat → β) (b : DataBlock) {off : Nat} (h : off ≤ b.size) :
    DataBlock.bytes mem ⟨b.pData + off, b.size - off⟩ = (b.bytes mem).drop off := by
  obtain ⟨n, hn⟩ := Nat.exists_eq_add_of_le h
  simp only [DataBlock.bytes, hn, ← List.map_drop, Nat.add_sub_cancel_left]
  rw [← List.range'_append_1, List.drop_left' List.length_range']

/-- As long as the offset lies inside the blocks, the loop ends at one of them, and what it leaves there
and behind it are the bytes from the offset on. -/
theorem reorganize_spec (mem : Nat → β) {off : Nat} {blocks : List DataBlock}
    (h : off < (stream mem blocks).length) :
    ∃ k b, reorganize off blocks = some (k, b) ∧ k < blocks.length ∧
      stream mem (b :: blocks.drop (k + 1)) = (stream mem blocks).drop off := by
  induction blocks generalizing off with
  | nil => exact absurd h (Nat.not_lt_zero _)
  | cons a blocks ih =>
    rw [stream_cons, List.length_append, a.length_bytes] at h
    by_cases hsize : a.size ≤ off
    · obtain ⟨k, b, hk, hlt, hb⟩ := ih (show off - a.size < _ by omega)
      refine ⟨k + 1, b, ?_, ?_, ?_⟩
      · rw [reorganize, if_pos hsize, hk]
        rfl
      · rw [List.length_cons]
        omega
      · have hgone : (a.bytes mem).drop off = [] :=
          List.drop_of_length_le (by rw [a.length_bytes]; exact hsize)
        rw [List.drop_succ_cons, hb, stream_cons, List.drop_append, a.length_bytes, hgone, List.nil_append]
    · refine ⟨0, ⟨a.pData + off, a.size - off⟩, ?_, ?_, ?_⟩
      · rw [reorganize, if_neg hsize]
      · exact Nat.zero_lt_succ _
      · rw [stream_cons, stream_cons, a.bytes_advance mem (by omega)]
        rw [List.drop_append_of_le_length (by rw [a.length_bytes]; omega)]
        rfl

/-! ### The function -/

/-- `MSG_NOSIGNAL` and `MSG_MORE`. -/
def msgNoSignal : BitVec 32 := 0x4000

def msgMore : BitVec 32 := 0x8000

/-- `IOV_MAX`. -/
def iovMax : Nat := 1024

/-- The next call, or how `sendBlocks` ended: it returned, or it read behind the array. -/
inductive SendBlocks.Pc where
  | sendmsg
  | poll
  | returned (retVal : Int)
  | stray
  deriving DecidableEq, Repr

/-- The variables of `sendBlocks`, the array as it is now, and the bytes the kernel accepted. -/
structure SendBlocks (β : Type) where
  blocks : List DataBlock
  blockCount : Nat
  flags : BitVec 32
  totalLength : Nat
  totalBytesRemaining : Nat
  pBlockPos : Nat
  pc : SendBlocks.Pc
  accepted : List β
  deriving DecidableEq

/-- What `sendmsg` returns: a number of bytes, or -1; `again` if `errno` is `EWOULDBLOCK`, `EAGAIN` or
`EINTR` then. -/
inductive Sendmsg where
  | count (bytes : Nat)
  | error (again : Bool)
  deriving DecidableEq, Repr

/-- The answers of the system; `intr` if `poll` failed with `EINTR`. -/
inductive SendBlocks.Act where
  | sendmsg (answer : Sendmsg)
  | poll (err : Int) (intr : Bool)
  deriving DecidableEq, Repr

open Machine

namespace SendBlocks

/-- The sum of the sizes, in `size_t`. -/
def totalSize (blocks : List DataBlock) : Nat := blocks.foldl (fun n b => (n + b.size) % 2 ^ 64) 0

/-- `sendBlocks(blocks, blockCount, more)` up to the first `sendmsg`. -/
def start (blocks : List DataBlock) (more : Bool) : SendBlocks β where
  blocks := blocks
  blockCount := blocks.length
  flags := if more then msgMore else msgNoSignal
  totalLength := totalSize blocks
  totalBytesRemaining := totalSize blocks
  pBlockPos := 0
  pc := .sendmsg
  accepted := []

/-- What `msgHdr` describes, `blockCount` blocks from `pBlockPos` on. -/
def iov (s : SendBlocks β) : List DataBlock := (s.blocks.drop s.pBlockPos).take s.blockCount

/-- From the return of `sendmsg` to the call of `poll`, or to the end. -/
def written (s : SendBlocks β) (bytesWritten : Nat) : SendBlocks β :=
  let totalBytesRemaining := sizeSub s.totalBytesRemaining bytesWritten
  if totalBytesRemaining = 0 then
    { s with totalBytesRemaining := totalBytesRemaining, pc := .returned (castSsize s.totalLength) }
  else
    match reorganize bytesWritten (s.blocks.drop s.pBlockPos) with
    | none => { s with totalBytesRemaining := totalBytesRemaining, pc := .stray }
    | some (k, b) =>
      { s with
        totalBytesRemaining := totalBytesRemaining
        blocks := s.blocks.set (s.pBlockPos + k) b
        pBlockPos := s.pBlockPos + k
        blockCount := sizeSub s.blockCount k
        pc := .poll }

/-- One answer of the system. `sendmsg` takes as many bytes as it says from what it is offered, and
`waitForWritable` calls `poll` again after `EINTR`. -/
def step (mem : Nat → β) : Machine (SendBlocks β) SendBlocks.Act
  | s, .sendmsg (.count n) =>
    let offered := stream mem s.iov
    if s.pc = .sendmsg ∧ n ≤ offered.length then
      if n = 0 then some { s with pc := .returned 0 }
      else some ({ s with accepted := s.accepted ++ offered.take n }.written n)
    else none
  | s, .sendmsg (.error again) =>
    if s.pc = .sendmsg then some (if again then s.written 0 else { s with pc := .returned (-1) }) else none
  | s, .poll err intr =>
    if s.pc = .poll then
      if err = -1 ∧ intr then some s
      else if err ≠ 1 then some { s with pc := .returned (-1) }
      else if s.totalBytesRemaining ≠ 0 then some { s with pc := .sendmsg }
      else some { s with pc := .returned (castSsize s.totalLength) }
    else none

theorem totalSize_eq (mem : Nat → β) (blocks : List DataBlock) :
    totalSize blocks = (stream mem blocks).length % 2 ^ 64 := by
  suffices h : ∀ n, blocks.foldl (fun n b => (n + b.size) % 2 ^ 64) (n % 2 ^ 64) =
      (n + (stream mem blocks).length) % 2 ^ 64 by
    have h0 := h 0
    rwa [Nat.zero_mod, Nat.zero_add] at h0
  induction blocks with
  | nil =>
    intro n
    rfl
  | cons b blocks ih =>
    intro n
    rw [List.foldl_cons, Nat.mod_add_mod, ih, stream_cons, List.length_append, b.length_bytes, Nat.add_assoc]

/-! ### What holds between two answers -/

variable {mem : Nat → β} {blocks : List DataBlock} {s s' : SendBlocks β} {n : Nat}

/-- The kernel has just taken `n` bytes more than the variables say. -/
structure Sending (mem : Nat → β) (blocks : List DataBlock) (n : Nat) (s : SendBlocks β) : Prop where
  length_blocks : s.blocks.length = blocks.length
  window : s.pBlockPos + s.blockCount = blocks.length
  totalLength : s.totalLength = (stream mem blocks).length
  remaining : s.totalBytesRemaining = (stream mem (s.blocks.drop s.pBlockPos)).length
  taken : s.accepted ++ (stream mem (s.blocks.drop s.pBlockPos)).drop n = stream mem blocks
  le_remaining : n ≤ s.totalBytesRemaining
  le_accepted : n ≤ s.accepted.length

/-- The array is not left, and as long as the function runs, what it has not sent yet is what is left. -/
structure Inv (mem : Nat → β) (blocks : List DataBlock) (s : SendBlocks β) : Prop where
  length_blocks : s.blocks.length = blocks.length
  window : s.pBlockPos + s.blockCount = blocks.length
  accepted_prefix : s.accepted <+: stream mem blocks
  not_stray : s.pc ≠ .stray
  sending : s.pc = .sendmsg ∨ s.pc = .poll → Sending mem blocks 0 s
  unfinished : s.pc = .sendmsg ∨ s.pc = .poll → 0 < (stream mem blocks).length → 0 < s.totalBytesRemaining
  returned : ∀ r, s.pc = .returned r → 0 < (stream mem blocks).length →
    (r = (stream mem blocks).length ↔ s.accepted = stream mem blocks)

theorem Sending.accepted_prefix (h : Sending mem blocks n s) : s.accepted <+: stream mem blocks :=
  ⟨_, h.taken⟩

theorem Sending.length (h : Sending mem blocks n s) :
    s.accepted.length + (s.totalBytesRemaining - n) = (stream mem blocks).length := by
  have hlen := congrArg List.length h.taken
  rw [List.length_append, List.length_drop, ← h.remaining] at hlen
  exact hlen

theorem Sending.iov_eq (h : Sending mem blocks n s) : s.iov = s.blocks.drop s.pBlockPos := by
  refine List.take_of_length_le ?_
  rw [List.length_drop, h.length_blocks]
  have := h.window
  omega

theorem Sending.take (h : Sending mem blocks 0 s) (hn : n ≤ (stream mem (s.blocks.drop s.pBlockPos)).length) :
    Sending mem blocks n
      { s with accepted := s.accepted ++ (stream mem (s.blocks.drop s.pBlockPos)).take n } := by
  refine ⟨h.length_blocks, h.window, h.totalLength, h.remaining, ?_, ?_, ?_⟩
  · rw [List.append_assoc, List.take_append_drop]
    exact h.taken
  · rw [h.remaining]
    exact hn
  · rw [List.length_append, List.length_take, Nat.min_eq_left hn]
    exact Nat.le_add_left _ _

theorem Sending.returned (h : Sending mem blocks 0 s) {r : Int} (hr : r ≤ 0)
    (hleft : 0 < (stream mem blocks).length → 0 < s.totalBytesRemaining) :
    Inv mem blocks { s with pc := .returned r } := by
  refine ⟨h.length_blocks, h.window, h.accepted_prefix, ?_, ?_, ?_, ?_⟩
  · exact fun he => nomatch he
  · rintro (he | he) <;> cases he
  · rintro (he | he) <;> cases he
  · intro r' he hpos
    obtain rfl := Pc.returned.inj he
    have hlen := h.length
    have hrem := hleft hpos
    refine iff_of_false (by omega) ?_
    intro hacc
    change s.accepted = _ at hacc
    rw [hacc] at hlen
    omega

theorem start_inv (more : Bool) (htotal : (stream mem blocks).length < 2 ^ 63) :
    Inv mem blocks (start blocks more) := by
  have hsize : totalSize blocks = (stream mem blocks).length := by
    rw [totalSize_eq mem, Nat.mod_eq_of_lt (by omega)]
  refine ⟨rfl, ?_, List.nil_prefix, ?_, ?_, ?_, ?_⟩
  · exact Nat.zero_add _
  · exact fun he => nomatch he
  · intro _
    exact ⟨rfl, Nat.zero_add _, hsize, hsize, rfl, Nat.zero_le _, Nat.zero_le _⟩
  · intro _ hpos
    change 0 < totalSize blocks
    omega
  · exact fun _ he => nomatch he

/-- What `written` does while the function runs: it is done, or it moves on inside the array. -/
theorem written_cases (htotal : (stream mem blocks).length < 2 ^ 63) (hcount : blocks.length < 2 ^ 64)
    (h : Sending mem blocks n s) :
    (s.totalBytesRemaining = n ∧
      s.written n = { s with totalBytesRemaining := 0, pc := .returned (castSsize s.totalLength) }) ∨
    (n < s.totalBytesRemaining ∧ ∃ k b, reorganize n (s.blocks.drop s.pBlockPos) = some (k, b) ∧
      s.pBlockPos + k < blocks.length ∧
      stream mem (b :: (s.blocks.drop s.pBlockPos).drop (k + 1)) = (stream mem (s.blocks.drop s.pBlockPos)).drop n ∧
      s.written n = { s with
        totalBytesRemaining := s.totalBytesRemaining - n
        blocks := s.blocks.set (s.pBlockPos + k) b
        pBlockPos := s.pBlockPos + k
        blockCount := s.blockCount - k
        pc := .poll }) := by
  have hle := h.le_remaining
  have hlen := h.length
  have hacc := h.le_accepted
  have hsub : sizeSub s.totalBytesRemaining n = s.totalBytesRemaining - n := sizeSub_of_le hle (by omega)
  unfold written
  rw [hsub]
  by_cases hdone : s.totalBytesRemaining - n = 0
  · refine Or.inl ⟨by omega, ?_⟩
    rw [hdone]
    rfl
  · have hinside : n < (stream mem (s.blocks.drop s.pBlockPos)).length := by
      rw [← h.remaining]
      omega
    obtain ⟨k, b, hk, hlt, hb⟩ := reorganize_spec mem hinside
    rw [List.length_drop, h.length_blocks] at hlt
    have hwindow := h.window
    have hk' : sizeSub s.blockCount k = s.blockCount - k := sizeSub_of_le (by omega) (by omega)
    refine Or.inr ⟨by omega, k, b, hk, by omega, hb, ?_⟩
    simp only [if_neg hdone, hk, hk']

theorem written_inv (htotal : (stream mem blocks).length < 2 ^ 63) (hcount : blocks.length < 2 ^ 64)
    (h : Sending mem blocks n s) : Inv mem blocks (s.written n) := by
  rcases written_cases htotal hcount h with ⟨hdone, hw⟩ | ⟨hlt, k, b, _, hk, hb, hw⟩
  · rw [hw]
    refine ⟨h.length_blocks, h.window, h.accepted_prefix, ?_, ?_, ?_, ?_⟩
    · exact fun he => nomatch he
    · rintro (he | he) <;> cases he
    · rintro (he | he) <;> cases he
    · intro r he _
      obtain rfl := Pc.returned.inj he
      have htaken := h.taken
      rw [List.drop_of_length_le (by rw [← h.remaining]; omega), List.append_nil] at htaken
      rw [h.totalLength, castSsize_of_lt htotal]
      exact iff_of_true rfl htaken
  · rw [hw]
    have hwindow := h.window
    have hblocks := h.length_blocks
    -- the array from the new position on
    have hrest : (s.blocks.set (s.pBlockPos + k) b).drop (s.pBlockPos + k) =
        b :: (s.blocks.drop s.pBlockPos).drop (k + 1) := by
      rw [List.drop_eq_getElem_cons (by rw [List.length_set]; omega), List.getElem_set_self, List.drop_drop]
      rw [List.drop_set_of_lt (by omega), Nat.add_assoc]
    refine ⟨?_, ?_, h.accepted_prefix, ?_, ?_, ?_, ?_⟩
    · rw [List.length_set, hblocks]
    · change s.pBlockPos + k + (s.blockCount - k) = blocks.length
      omega
    · exact fun he => nomatch he
    · intro _
      refine ⟨?_, ?_, h.totalLength, ?_, ?_, Nat.zero_le _, Nat.zero_le _⟩
      · rw [List.length_set, hblocks]
      · change s.pBlockPos + k + (s.blockCount - k) = blocks.length
        omega
      · change s.totalBytesRemaining - n = _
        rw [hrest, hb, List.length_drop, h.remaining]
      · change s.accepted ++ _ = _
        rw [hrest, hb, List.drop_zero, h.taken]
    · intro _ _
      change 0 < s.totalBytesRemaining - n
      omega
    · exact fun _ he => nomatch he

/-- **Step rule.** Every answer of the system keeps the invariant. -/
theorem step_inv (htotal : (stream mem blocks).length < 2 ^ 63) (hcount : blocks.length < 2 ^ 64) {a : Act}
    (h : Inv mem blocks s) (hstep : step mem s a = some s') : Inv mem blocks s' := by
  rcases a with ⟨n | again⟩ | ⟨err, intr⟩
  · -- `sendmsg` takes `n` bytes
    simp only [step, Option.ite_none_right_eq_some] at hstep
    obtain ⟨⟨hpc, hn⟩, hstep⟩ := hstep
    have hs := h.sending (Or.inl hpc)
    rw [hs.iov_eq] at hn hstep
    split at hstep
    · obtain rfl := Option.some.inj hstep
      exact hs.returned (Int.le_refl 0) (h.unfinished (Or.inl hpc))
    · obtain rfl := Option.some.inj hstep
      exact written_inv htotal hcount (hs.take hn)
  · -- `sendmsg` fails
    simp only [step, Option.ite_none_right_eq_some] at hstep
    obtain ⟨hpc, hstep⟩ := hstep
    have hs := h.sending (Or.inl hpc)
    obtain rfl := Option.some.inj hstep
    split
    · exact written_inv htotal hcount hs
    · exact hs.returned (by omega) (h.unfinished (Or.inl hpc))
  · -- waiting for the socket to become writable
    simp only [step, Option.ite_none_right_eq_some] at hstep
    obtain ⟨hpc, hstep⟩ := hstep
    have hs := h.sending (Or.inr hpc)
    have hleft := h.unfinished (Or.inr hpc)
    split at hstep
    · obtain rfl := Option.some.inj hstep
      exact h
    · split at hstep
      · obtain rfl := Option.some.inj hstep
        exact hs.returned (by omega) hleft
      · split at hstep
        · obtain rfl := Option.some.inj hstep
          refine ⟨h.length_blocks, h.window, h.accepted_prefix, ?_, fun _ => ?_, fun _ => hleft, ?_⟩
          · exact fun he => nomatch he
          · exact ⟨hs.length_blocks, hs.window, hs.totalLength, hs.remaining, hs.taken, hs.le_remaining, hs.le_accepted⟩
          · exact fun _ he => nomatch he
        · obtain rfl := Option.some.inj hstep
          refine ⟨h.length_blocks, h.window, h.accepted_prefix, ?_, ?_, ?_, ?_⟩
          · exact fun he => nomatch he
          · rintro (he | he) <;> cases he
          · rintro (he | he) <;> cases he
          · intro _ _ hpos
            have hrem := hleft hpos
            omega

/-- **The concatenation is sent.** Whatever the system answers, the function stays inside the array, offers
exactly what the kernel has not accepted yet, and returns the total exactly if everything was accepted. -/
theorem sendBlocks_transmits (mem : Nat → β) (blocks : List DataBlock) (more : Bool)
    (htotal : (stream mem blocks).length < 2 ^ 63) (hcount : blocks.length ≤ iovMax)
    {tr : List (SendBlocks β × Act)} {s : SendBlocks β} (h : (step mem).Run (start blocks more) tr s) :
    s.pc ≠ .stray ∧ s.pBlockPos + s.blockCount = s.blocks.length ∧ s.blocks.length = blocks.length ∧
      s.accepted <+: stream mem blocks ∧
      (s.pc = .sendmsg → s.accepted ++ stream mem s.iov = stream mem blocks) ∧
      ∀ r, s.pc = .returned r → 0 < (stream mem blocks).length →
        (r = (stream mem blocks).length ↔ s.accepted = stream mem blocks) := by
  have hcount' : blocks.length < 2 ^ 64 := by
    unfold iovMax at hcount
    omega
  have hinv := h.invariant (P := Inv mem blocks) (start_inv more htotal)
    fun _ _ _ hs hstep => step_inv htotal hcount' hs hstep
  refine ⟨hinv.not_stray, ?_, hinv.length_blocks, hinv.accepted_prefix, ?_, hinv.returned⟩
  · rw [hinv.length_blocks]
    exact hinv.window
  · intro hpc
    have hs := hinv.sending (Or.inl hpc)
    rw [hs.iov_eq]
    exact hs.taken

/-- Three blocks, one of them empty. The first call stops at the border of a block and the second inside one. -/
theorem sendBlocks_transmits_partial :
    let blocks : List DataBlock := [⟨10, 2⟩, ⟨0, 0⟩, ⟨20, 3⟩]
    ∃ tr s, (step (fun n => n)).Run (start blocks false) tr s ∧ s.pc = .returned 5 ∧
      s.accepted = stream (fun n => n) blocks := by
  obtain ⟨tr, h⟩ := exists_run_of_exec (step (fun n => n)) (start [⟨10, 2⟩, ⟨0, 0⟩, ⟨20, 3⟩] false)
    [.sendmsg (.count 2), .poll (-1) true, .poll 1 false, .sendmsg (.error true), .poll 1 false,
      .sendmsg (.count 1), .poll 1 false, .sendmsg (.count 2)]
    ⟨[⟨10, 2⟩, ⟨0, 0⟩, ⟨21, 2⟩], 1, msgNoSignal, 5, 0, 2, .returned 5, [10, 11, 20, 21, 22]⟩
    (by decide +kernel)
  refine ⟨tr, _, h, rfl, ?_⟩
  have htransmits := sendBlocks_transmits (fun n => n) [⟨10, 2⟩, ⟨0, 0⟩, ⟨20, 3⟩] false (by decide) (by decide) h
  exact (htransmits.2.2.2.2.2 5 rfl (by decide)).mp rfl

end SendBlocks

end Libhbk
