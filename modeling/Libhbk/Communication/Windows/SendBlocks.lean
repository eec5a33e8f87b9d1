import Libhbk.Communication.SendBlock

/-!
# Sending on Windows

`sendBlock` has a loop of its own. `sendBlocks` tries `WSASend` with all blocks first, and sends what is left block
by block with `sendBlock`. On Windows `ssize_t` is `int`, the length of a `WSABUF` and the number of bytes written
have 32 bits, and both functions have a second variable `retVal` where they look at an error code.
-/

namespace Libhbk

open Machine

variable {β : Type}

/-- The connection is closed. -/
def Response.Closes (x : Response) : Prop := x.sent = .count 0

/-- `send` fails with an error that is not one to wait or to call again for, or the wait fails. -/
def Response.Fails (x : Response) : Prop := x.sent = .error ∨ x.sent = .wouldBlock ∧ x.waited ≠ 1

namespace Windows

/-! ### One block -/

namespace SendBlock

/-- `sendBlock(pBlock, size, more)` up to the first `send`; nothing is done with `more`. -/
def start (pBlock size : Nat) : SendBlock β :=
  SendBlock.loop
    { pDat := pBlock
      bytesLeft := size
      retVal := castInt size
      flags := 0
      pc := .send
      accepted := [] }

/-- One turn of the loop. `send` is asked for `static_cast<int>(BytesLeft)` bytes and returns an `int`. -/
def answer (mem : Nat → β) : Machine (SendBlock β) Response := fun s x =>
  if s.pc = .send then
    match x.sent with
    | .count n =>
      if n ≤ castSize (castInt s.bytesLeft) ∧ n < 2 ^ 31 then
        if 0 < n then
          some (SendBlock.loop { s with
            pDat := s.pDat + n
            bytesLeft := s.bytesLeft - n
            accepted := s.accepted ++ (s.offered mem).take n })
        else some (SendBlock.loop { s with bytesLeft := 0, retVal := -1 })
      else none
    -- the -1 goes to the `retVal` with the error code
    | .wouldBlock => some (SendBlock.loop (if x.waited ≠ 1 then { s with bytesLeft := 0 } else s))
    | .intr => some (SendBlock.loop s)
    | .error => some (SendBlock.loop { s with bytesLeft := 0 })
  else none

end SendBlock

/-! ### All blocks -/

/-- What `WSASend` does: it succeeds with a number of bytes, or it fails with an error code. -/
inductive WsaSend where
  | written (bytes : Nat)
  | failed (code : Nat)
  deriving DecidableEq, Repr

/-- `WSAEWOULDBLOCK`, `ERROR_IO_PENDING`, `WSAEINTR`, `WSAEINPROGRESS`. -/
def WsaSend.goesOn (code : Nat) : Bool := code = 10035 || code = 997 || code = 10004 || code = 10036

/-- The next call, with the variables of `sendBlock` if that is where it is made. -/
inductive SendBlocks.Pc (β : Type) where
  | wsaSend
  | sending (block : SendBlock β)
  | returned (retVal : Int)
  deriving DecidableEq

/-- The variables of `sendBlocks`; `buffers` are the ones behind `index`. -/
structure SendBlocks (β : Type) where
  completeLength : Nat
  bytesWritten : Nat
  blockSum : Nat
  buffers : List DataBlock
  pc : SendBlocks.Pc β
  accepted : List β
  deriving DecidableEq

inductive SendBlocks.Act where
  | wsaSend (o : WsaSend)
  | send (x : Response)
  deriving DecidableEq, Repr

namespace SendBlocks

/-- The `WSABUF` of a block: its length is a `ULONG`. -/
def buffer (item : DataBlock) : DataBlock := ⟨item.pData, item.size % 2 ^ 32⟩

/-- `sendBlocks(blocks, more)` up to `WSASend`. -/
def start (blocks : List DataBlock) : SendBlocks β where
  completeLength := Libhbk.SendBlocks.totalSize blocks
  bytesWritten := 0
  blockSum := 0
  buffers := blocks.map buffer
  pc := .wsaSend
  accepted := []

/-- The loop over the buffers, up to the next `sendBlock`. -/
def next (s : SendBlocks β) : List DataBlock → Nat → SendBlocks β
  | [], blockSum => { s with buffers := [], blockSum := blockSum, pc := .returned (castInt s.bytesWritten) }
  | b :: buffers, len =>
    let blockSum := (len + b.size) % 2 ^ 64
    if s.bytesWritten < blockSum then
      let bytesRemaining := blockSum - s.bytesWritten
      { s with
        buffers := buffers
        blockSum := blockSum
        -- `buf + start` with `start = len - bytesRemaining`
        pc := .sending (SendBlock.start (b.pData + b.size - bytesRemaining) bytesRemaining) }
    else next s buffers blockSum

/-- Behind `WSASend`. -/
def written (s : SendBlocks β) : SendBlocks β :=
  if s.bytesWritten = s.completeLength then { s with pc := .returned (castInt s.bytesWritten) }
  else next s s.buffers 0

/-- `sendBlock` has returned. -/
def finish (s : SendBlocks β) (block : SendBlock β) (retVal : Int) : SendBlocks β :=
  if 0 < retVal then
    next { s with
      bytesWritten := (s.bytesWritten + retVal.toNat) % 2 ^ 32
      accepted := s.accepted ++ block.accepted } s.buffers s.blockSum
  else { s with pc := .returned (-1), accepted := s.accepted ++ block.accepted }

/-- `sendBlock` has taken a turn of its loop. -/
def resume (s : SendBlocks β) (block : SendBlock β) : SendBlocks β :=
  match block.pc with
  | .send => { s with pc := .sending block }
  | .returned retVal => finish s block retVal

/-- The number of bytes written is a `DWORD`, and error codes are positive. -/
def step (mem : Nat → β) : Machine (SendBlocks β) Act
  | s, .wsaSend o =>
    match s.pc with
    | .wsaSend =>
      match o with
      | .written n =>
        if n ≤ (stream mem s.buffers).length ∧ n < 2 ^ 32 then
          some (written { s with bytesWritten := n, accepted := (stream mem s.buffers).take n })
        else none
      | .failed code =>
        if 0 < code then
          if WsaSend.goesOn code then some (written s) else some { s with pc := .returned code }
        else none
    | _ => none
  | s, .send x =>
    match s.pc with
    | .sending block => (SendBlock.answer mem block x).map (resume s)
    | _ => none

end SendBlocks

/-! ### What is reported -/

/-- What `sendBlock` should return. -/
def SendBlock.Truthful (size : Nat) (bytes accepted : List β) (r : Int) : Prop :=
  (r = size → accepted = bytes) ∧ (r ≠ size → r = -1)

/-- What `sendBlocks` should return. -/
def SendBlocks.Truthful (bytes accepted : List β) (r : Int) : Prop :=
  (r = bytes.length → accepted = bytes) ∧ (r ≠ bytes.length → r < 0)

/-- `WSASend` fails with an error that is not one to go on with. -/
def SendBlocks.Act.Refused : SendBlocks.Act → Prop
  | wsaSend (.failed code) => WsaSend.goesOn code = false
  | _ => False

def SendBlocks.Act.Closes : SendBlocks.Act → Prop
  | send x => x.Closes
  | _ => False

def SendBlocks.Act.Fails : SendBlocks.Act → Prop
  | send x => x.Fails
  | _ => False

/-- `sendBlock` is sending a length that is not a positive `int`. -/
def SendBlocks.Short (s : SendBlocks β) : Prop := ∃ block, s.pc = .sending block ∧ block.retVal ≤ 0

/-! ### One block, turn by turn -/

namespace SendBlock

variable {mem : Nat → β} {bytes : List β} {s s' : SendBlock β} {x : Response} {r : Int}

/-- `sendBlock` with `bytes` before a `send`. -/
structure Calling (mem : Nat → β) (bytes : List β) (s : SendBlock β) : Prop where
  send : s.pc = .send
  left_pos : 0 < s.bytesLeft
  retVal_eq : s.retVal = castInt bytes.length
  taken : s.accepted ++ s.offered mem = bytes

/-- How `sendBlock` ended: everything was sent, or a failure was met, or the connection closed. -/
inductive Ended (bytes accepted : List β) (fails closes : Prop) (r : Int) : Prop
  | whole (hret : r = castInt bytes.length) (hall : accepted = bytes) (hfails : ¬ fails) (hcloses : ¬ closes)
  | failed (hret : r = castInt bytes.length) (hpart : accepted.length < bytes.length) (hfails : fails)
      (hcloses : ¬ closes)
  | closed (hret : r = -1) (hfails : ¬ fails) (hcloses : closes)

theorem Calling.accepted_lt (h : Calling mem bytes s) : s.accepted.length < bytes.length := by
  have hlen := SendBlock.length_taken h.taken
  have hpos := h.left_pos
  omega

/-- **A turn.** It goes on with nothing lost, or it ends. -/
theorem answer_cases (h : Calling mem bytes s) (hstep : answer mem s x = some s') :
    Calling mem bytes s' ∧ ¬ x.Fails ∧ ¬ x.Closes ∨
      ∃ r, s'.pc = .returned r ∧ Ended bytes s'.accepted x.Fails x.Closes r := by
  have hloop := SendBlock.loop_send h.send h.left_pos
  rw [answer, if_pos h.send] at hstep
  cases hx : x.sent with
  | count n =>
    have hfails : ¬ x.Fails := by simp [Response.Fails, hx]
    simp only [hx, Option.ite_none_right_eq_some] at hstep
    obtain ⟨⟨hreq, hint⟩, hstep⟩ := hstep
    have hn : n ≤ s.bytesLeft := le_of_le_castSize hreq hint
    split at hstep
    · next hpos =>
      have hcloses : ¬ x.Closes := by simp [Response.Closes, hx, Nat.ne_of_gt hpos]
      obtain rfl := Option.some.inj hstep
      unfold SendBlock.loop
      split
      · next hleft =>
        refine Or.inl ⟨⟨rfl, hleft, h.retVal_eq, ?_⟩, hfails, hcloses⟩
        rw [← SendBlock.taken_drop h.taken n, ← SendBlock.offered_drop hn]
        rfl
      · next hleft =>
        exact Or.inr ⟨_, rfl, .whole h.retVal_eq (SendBlock.taken_all h.taken hleft) hfails hcloses⟩
    · next hpos =>
      obtain rfl := Option.some.inj hstep
      have hcloses : x.Closes := by rw [Response.Closes, hx, Nat.eq_zero_of_not_pos hpos]
      exact Or.inr ⟨_, rfl, .closed rfl hfails hcloses⟩
  | wouldBlock =>
    have hcloses : ¬ x.Closes := by simp [Response.Closes, hx]
    simp only [hx] at hstep
    obtain rfl := Option.some.inj hstep
    by_cases hw : x.waited = 1
    · rw [if_neg (not_not.mpr hw), hloop]
      exact Or.inl ⟨h, by simp [Response.Fails, hx, hw], hcloses⟩
    · rw [if_pos hw]
      exact Or.inr ⟨_, rfl, .failed h.retVal_eq h.accepted_lt (Or.inr ⟨hx, hw⟩) hcloses⟩
  | intr =>
    simp only [hx] at hstep
    obtain rfl := Option.some.inj hstep
    rw [hloop]
    exact Or.inl ⟨h, by simp [Response.Fails, hx], by simp [Response.Closes, hx]⟩
  | error =>
    simp only [hx] at hstep
    obtain rfl := Option.some.inj hstep
    exact Or.inr ⟨_, rfl, .failed h.retVal_eq h.accepted_lt (Or.inl hx) (by simp [Response.Closes, hx])⟩

theorem start_calling {pBlock size : Nat} (hpos : 0 < size) :
    Calling mem (DataBlock.bytes mem ⟨pBlock, size⟩) (start pBlock size) := by
  rw [start, SendBlock.loop, if_pos hpos]
  refine ⟨rfl, hpos, ?_, rfl⟩
  rw [DataBlock.length_bytes]

theorem run_cases {pBlock size : Nat} {tr : List (SendBlock β × Response)}
    (hrun : (answer mem).Run (start pBlock size) tr s) :
    Calling mem (DataBlock.bytes mem ⟨pBlock, size⟩) s ∧ (¬ ∃ x ∈ tr, x.2.Fails) ∧ (¬ ∃ x ∈ tr, x.2.Closes) ∨
      ∃ r, s.pc = .returned r ∧
        Ended (DataBlock.bytes mem ⟨pBlock, size⟩) s.accepted (∃ x ∈ tr, x.2.Fails) (∃ x ∈ tr, x.2.Closes) r := by
  refine hrun.trace_induction (P := fun tr s => Calling mem (DataBlock.bytes mem ⟨pBlock, size⟩) s ∧
    (¬ ∃ x ∈ tr, x.2.Fails) ∧ (¬ ∃ x ∈ tr, x.2.Closes) ∨ ∃ r, s.pc = .returned r ∧
      Ended (DataBlock.bytes mem ⟨pBlock, size⟩) s.accepted (∃ x ∈ tr, x.2.Fails) (∃ x ∈ tr, x.2.Closes) r) ?_ ?_
  · rcases Nat.eq_zero_or_pos size with rfl | hpos
    · exact Or.inr ⟨castInt 0, rfl, .whole (by rw [DataBlock.length_bytes]) rfl (by simp) (by simp)⟩
    · exact Or.inl ⟨start_calling hpos, by simp, by simp⟩
  · rintro tr s x s' - (⟨hcalling, hfails, hcloses⟩ | ⟨r, hret, _⟩) hstep
    · simp only [List.exists_mem_cons_iff, or_iff_left hfails, or_iff_left hcloses]
      exact answer_cases hcalling hstep
    · rw [answer, if_neg (hret ▸ SendBlock.Pc.noConfusion)] at hstep
      cases hstep

theorem Ended.truthful_iff {accepted : List β} {fails closes : Prop} (h : Ended bytes accepted fails closes r) :
    Truthful bytes.length bytes accepted r ↔
      castInt bytes.length = -1 ∨ closes ∨ bytes.length < 2 ^ 31 ∧ ¬ fails := by
  cases h with
  | whole hret hall hfails hcloses =>
    simp only [Truthful, hret, ne_eq, castInt_eq_iff, hall, implies_true, true_and, hcloses, false_or, hfails,
      not_false_eq_true, and_true]
    exact ⟨fun htruth => or_iff_not_imp_right.mpr htruth, fun hor hle => hor.resolve_right hle⟩
  | failed hret hpart hfails hcloses =>
    have hne : accepted ≠ bytes := fun hall => Nat.lt_irrefl _ (hall ▸ hpart)
    simp only [Truthful, hret, ne_eq, castInt_eq_iff, hne, hcloses, hfails, not_true, and_false, or_false, imp_false]
    constructor
    · exact fun htruth => htruth.2 htruth.1
    · intro hneg
      refine ⟨fun hlt => ?_, fun _ => hneg⟩
      rw [castInt_of_lt hlt] at hneg
      omega
  | closed hret hfails hcloses =>
    refine iff_of_true ⟨fun hlen => ?_, fun _ => hret⟩ (Or.inr (Or.inl hcloses))
    omega

end SendBlock

/-! ### All blocks, call by call -/

namespace SendBlocks

variable {mem : Nat → β} {all : List β} {failed : Prop} {s s' : SendBlocks β} {block : SendBlock β} {bytes : List β}
  {buffers : List DataBlock} {blockSum : Nat} {r : Int}

/-- Of `all`, `left` is still to be sent; what failed is lost. -/
structure Progress (all : List β) (failed : Prop) (accepted left : List β) : Prop where
  whole : ¬ failed → accepted ++ left = all
  part : failed → accepted.length + left.length < all.length

theorem Progress.sent {fails : Prop} {accepted left : List β} (h : Progress all failed accepted (bytes ++ left))
    (hfails : ¬ fails) : Progress all (failed ∨ fails) (accepted ++ bytes) left := by
  refine ⟨fun hnone => ?_, fun hsome => ?_⟩
  · rw [List.append_assoc, h.whole fun hfailed => hnone (Or.inl hfailed)]
  · have hpart := h.part (hsome.resolve_right hfails)
    rw [List.length_append] at hpart ⊢
    omega

theorem Progress.lost {fails : Prop} {accepted left sent : List β} (h : Progress all failed accepted (bytes ++ left))
    (hfails : fails) (hsent : sent.length < bytes.length) :
    Progress all (failed ∨ fails) (accepted ++ sent) left := by
  refine ⟨fun hnone => absurd (Or.inr hfails) hnone, fun _ => ?_⟩
  have hle : accepted.length + (bytes ++ left).length ≤ all.length := by
    by_cases hfailed : failed
    · exact Nat.le_of_lt (h.part hfailed)
    · rw [← List.length_append, h.whole hfailed]
  rw [List.length_append] at hle ⊢
  omega

/-- Between two calls of `sendBlock`: `bytesWritten` is the number of bytes in the buffers that are done, up to
what does not fit in 32 bits; before the first call, it is what `WSASend` has taken. -/
structure Between (mem : Nat → β) (all : List β) (bytesWritten : Nat) (buffers : List DataBlock) (blockSum : Nat) :
    Prop where
  lt : bytesWritten < 2 ^ 32
  sum : blockSum + (stream mem buffers).length = all.length
  counted : bytesWritten % 2 ^ 32 = blockSum % 2 ^ 32 ∨ blockSum ≤ bytesWritten ∧ bytesWritten ≤ all.length

/-- `sendBlock` is sending `bytes`. -/
structure Sending (mem : Nat → β) (all : List β) (failed : Prop) (s : SendBlocks β) (block : SendBlock β)
    (bytes : List β) : Prop where
  calling : SendBlock.Calling mem bytes block
  lt : s.bytesWritten < 2 ^ 32
  blockSum : s.bytesWritten + bytes.length = s.blockSum
  sum : s.blockSum + (stream mem s.buffers).length = all.length
  progress : all.length < 2 ^ 31 → Progress all failed s.accepted (bytes ++ stream mem s.buffers)

/-- It returned with every `sendBlock` as it should be, or calls `sendBlock`. -/
inductive Goes (mem : Nat → β) (all : List β) (failed : Prop) (s : SendBlocks β) : Prop
  | through (hpc : s.pc = .returned (castInt all.length))
      (hprogress : all.length < 2 ^ 31 → Progress all failed s.accepted [])
  | sends (block : SendBlock β) (bytes : List β) (hpc : s.pc = .sending block)
      (h : Sending mem all failed s block bytes)

theorem Between.le (h : Between mem all s.bytesWritten buffers blockSum) (hsmall : all.length < 2 ^ 31) :
    blockSum ≤ s.bytesWritten := by
  have hsum := h.sum
  have hlt := h.lt
  rcases h.counted with hmod | ⟨hle, _⟩
  · omega
  · exact hle

theorem next_goes (hall : all.length < 2 ^ 64) (h : Between mem all s.bytesWritten buffers blockSum)
    (hprogress : all.length < 2 ^ 31 →
      Progress all failed s.accepted ((stream mem buffers).drop (s.bytesWritten - blockSum))) :
    Goes mem all failed (next s buffers blockSum) := by
  induction buffers generalizing blockSum with
  | nil =>
    have hsum : blockSum = all.length := h.sum
    have hret : castInt s.bytesWritten = castInt all.length := by
      rcases h.counted with hmod | ⟨hle, hge⟩
      · exact castInt_congr (hsum ▸ hmod)
      · rw [Nat.le_antisymm hge (hsum ▸ hle)]
    refine .through (congrArg Pc.returned hret) fun hlt => ?_
    have hprogress := hprogress hlt
    rwa [show stream mem [] = [] from rfl, List.drop_nil] at hprogress
  | cons b buffers ih =>
    have hsum : blockSum + (b.size + (stream mem buffers).length) = all.length := by
      have hsum := h.sum
      rwa [stream_cons, List.length_append, b.length_bytes] at hsum
    have hmod : (blockSum + b.size) % 2 ^ 64 = blockSum + b.size := Nat.mod_eq_of_lt (by omega)
    rw [next, hmod]
    split
    · next hlt =>
      have hpos : 0 < blockSum + b.size - s.bytesWritten := Nat.sub_pos_of_lt hlt
      refine .sends _ _ rfl ⟨SendBlock.start_calling hpos, h.lt, ?_, ?_, fun hsmall => ?_⟩
      · rw [DataBlock.length_bytes]
        exact Nat.add_sub_cancel' (Nat.le_of_lt hlt)
      · exact (Nat.add_assoc _ _ _).trans hsum
      · have hle := h.le hsmall
        have hblock : DataBlock.mk (b.pData + b.size - (blockSum + b.size - s.bytesWritten))
            (blockSum + b.size - s.bytesWritten) =
              ⟨b.pData + (s.bytesWritten - blockSum), b.size - (s.bytesWritten - blockSum)⟩ := by
          congr 1 <;> omega
        have hoff : s.bytesWritten - blockSum ≤ b.size := by omega
        have hprogress := hprogress hsmall
        rwa [stream_cons, List.drop_append_of_le_length (by rwa [b.length_bytes]), ← b.bytes_advance mem hoff,
          ← hblock] at hprogress
    · next hge =>
      have hle : blockSum + b.size ≤ s.bytesWritten := Nat.le_of_not_lt hge
      refine ih ⟨h.lt, (Nat.add_assoc _ _ _).trans hsum, Or.inr ⟨hle, ?_⟩⟩ fun hsmall => ?_
      · have hlt := h.lt
        rcases h.counted with hmod | ⟨_, hge⟩
        · omega
        · exact hge
      · have hprogress := hprogress hsmall
        have hoff : s.bytesWritten - blockSum = b.size + (s.bytesWritten - (blockSum + b.size)) := by omega
        rwa [stream_cons, hoff, ← b.length_bytes mem, List.drop_length_add_append, b.length_bytes] at hprogress

theorem finish_cases (hall : all.length < 2 ^ 64) (h : Sending mem all failed s block bytes) {block' : SendBlock β}
    {fails closes : Prop} (hended : SendBlock.Ended bytes block'.accepted fails closes r) :
    (finish s block' r).pc = .returned (-1) ∧ (closes ∨ castInt bytes.length ≤ 0) ∨
      Goes mem all (failed ∨ fails) (finish s block' r) ∧ ¬ closes ∧ 0 < castInt bytes.length := by
  have hsends : ∀ hprogress : all.length < 2 ^ 31 → Progress all (failed ∨ fails) (s.accepted ++ block'.accepted)
      (stream mem s.buffers), 0 < castInt bytes.length →
      Goes mem all (failed ∨ fails) (finish s block' (castInt bytes.length)) := by
    intro hprogress hpos
    have hblockSum := h.blockSum
    rw [finish, if_pos hpos, castInt_toNat hpos, Nat.add_mod_mod, hblockSum]
    refine next_goes hall ⟨Nat.mod_lt _ (by decide), h.sum, Or.inl (Nat.mod_mod _ _)⟩ fun hsmall => ?_
    have hsum := h.sum
    rw [Nat.mod_eq_of_lt (by omega), Nat.sub_self, List.drop_zero]
    exact hprogress hsmall
  cases hended with
  | whole hret hwhole hfails hcloses =>
    rw [hret]
    rcases Int.lt_or_le 0 (castInt bytes.length) with hpos | hneg
    · refine Or.inr ⟨hsends (fun hsmall => ?_) hpos, hcloses, hpos⟩
      rw [hwhole]
      exact (h.progress hsmall).sent hfails
    · rw [finish, if_neg (Int.not_lt.mpr hneg)]
      exact Or.inl ⟨rfl, Or.inr hneg⟩
  | failed hret hpart hfails hcloses =>
    rw [hret]
    rcases Int.lt_or_le 0 (castInt bytes.length) with hpos | hneg
    · exact Or.inr ⟨hsends (fun hsmall => (h.progress hsmall).lost hfails hpart) hpos, hcloses, hpos⟩
    · rw [finish, if_neg (Int.not_lt.mpr hneg)]
      exact Or.inl ⟨rfl, Or.inr hneg⟩
  | closed hret hfails hcloses =>
    rw [hret]
    exact Or.inl ⟨rfl, Or.inl hcloses⟩

/-! ### The buffers -/

section buffers

variable {blocks : List DataBlock}

theorem length_buffers (mem : Nat → β) (blocks : List DataBlock) :
    (stream mem (blocks.map buffer)).length ≤ (stream mem blocks).length ∧
      (stream mem (blocks.map buffer)).length % 2 ^ 32 = (stream mem blocks).length % 2 ^ 32 := by
  induction blocks with
  | nil => exact ⟨Nat.le_refl _, rfl⟩
  | cons b blocks ih =>
    obtain ⟨hle, hmod⟩ := ih
    have hb : (buffer b).size = b.size % 2 ^ 32 := rfl
    rw [List.map_cons, stream_cons, stream_cons, List.length_append, List.length_append, DataBlock.length_bytes,
      DataBlock.length_bytes, hb]
    constructor
    · have := Nat.mod_le b.size (2 ^ 32)
      omega
    · rw [Nat.mod_add_mod, Nat.add_mod, hmod, ← Nat.add_mod]

theorem buffers_eq (mem : Nat → β) (h : (stream mem blocks).length < 2 ^ 31) : blocks.map buffer = blocks := by
  induction blocks with
  | nil => rfl
  | cons b blocks ih =>
    rw [stream_cons, List.length_append, DataBlock.length_bytes] at h
    have hb : buffer b = b := by
      rw [buffer, Nat.mod_eq_of_lt (by omega)]
    rw [List.map_cons, hb, ih (by omega)]

theorem written_goes (htotal : (stream mem blocks).length < 2 ^ 64) (hfailed : ¬ failed) {n : Nat}
    (hn : n ≤ (stream mem (blocks.map buffer)).length) (hlt : n < 2 ^ 32) :
    Goes mem (stream mem (blocks.map buffer)) failed (written { start blocks with
      bytesWritten := n
      accepted := (stream mem (blocks.map buffer)).take n }) := by
  obtain ⟨hle, _⟩ := length_buffers mem blocks
  have hsize : Libhbk.SendBlocks.totalSize blocks = (stream mem blocks).length := by
    rw [Libhbk.SendBlocks.totalSize_eq mem, Nat.mod_eq_of_lt htotal]
  rw [written]
  split
  · next hall =>
    have hlen : n = (stream mem (blocks.map buffer)).length :=
      Nat.le_antisymm hn (hle.trans (Nat.le_of_eq (hsize.symm.trans hall.symm)))
    refine .through (congrArg (fun n => Pc.returned (castInt n)) hlen) fun _ => ⟨fun _ => ?_, fun h => absurd h hfailed⟩
    rw [hlen, List.append_nil]
    exact List.take_length
  · refine next_goes (hle.trans_lt htotal) ⟨hlt, Nat.zero_add _, Or.inr ⟨Nat.zero_le _, hn⟩⟩ fun _ =>
      ⟨fun _ => ?_, fun h => absurd h hfailed⟩
    exact List.take_append_drop n _

end buffers

/-! ### A run -/

/-- How `sendBlocks` ended. -/
inductive Outcome (all accepted : List β) (refused closes short fails : Prop) (r : Int) : Prop
  | refused (hrefused : refused) (hpos : 0 < r) (hnone : accepted = [])
  | early (hrefused : ¬ refused) (hret : r = -1) (hearly : closes ∨ short)
  | through (hrefused : ¬ refused) (hcloses : ¬ closes) (hshort : ¬ short) (hret : r = castInt all.length)
      (hprogress : all.length < 2 ^ 31 → Progress all fails accepted [])

/-- Where a run gets. -/
inductive Reached (mem : Nat → β) (blocks : List DataBlock) (tr : List (SendBlocks β × Act)) (s : SendBlocks β) : Prop
  | start (htr : tr = []) (hs : s = start blocks)
  | sending (block : SendBlock β) (bytes : List β) (hpc : s.pc = .sending block)
      (h : Sending mem (stream mem (blocks.map buffer)) (∃ x ∈ tr, x.2.Fails) s block bytes)
      (hrefused : ¬ ∃ x ∈ tr, x.2.Refused) (hcloses : ¬ ∃ x ∈ tr, x.2.Closes)
      (hshort : (∃ x ∈ tr, x.1.Short) → castInt bytes.length ≤ 0)
  | returned (r : Int) (hpc : s.pc = .returned r)
      (h : Outcome (stream mem (blocks.map buffer)) s.accepted (∃ x ∈ tr, x.2.Refused) (∃ x ∈ tr, x.2.Closes)
        (∃ x ∈ tr, x.1.Short) (∃ x ∈ tr, x.2.Fails) r)

variable {blocks : List DataBlock} {tr : List (SendBlocks β × Act)} {a : Act}

theorem Goes.reached (h : Goes mem (stream mem (blocks.map buffer)) (∃ x ∈ tr, x.2.Fails) s)
    (hrefused : ¬ ∃ x ∈ tr, x.2.Refused) (hcloses : ¬ ∃ x ∈ tr, x.2.Closes) (hshort : ¬ ∃ x ∈ tr, x.1.Short) :
    Reached mem blocks tr s := by
  cases h with
  | through hpc hprogress => exact .returned _ hpc (.through hrefused hcloses hshort rfl hprogress)
  | sends block bytes hpc h => exact .sending block bytes hpc h hrefused hcloses fun hs => absurd hs hshort

theorem start_not_short (blocks : List DataBlock) : ¬ (start blocks : SendBlocks β).Short := by
  rintro ⟨block, hpc, _⟩
  cases hpc

theorem step_start (htotal : (stream mem blocks).length < 2 ^ 64) (hstep : step mem (start blocks) a = some s') :
    Reached mem blocks [(start blocks, a)] s' := by
  have hshort : ¬ ∃ x ∈ [((start blocks : SendBlocks β), a)], x.1.Short := by
    simpa only [List.mem_singleton, exists_eq_left] using start_not_short blocks
  cases a with
  | wsaSend o =>
    have hfails : ¬ ∃ x ∈ [((start blocks : SendBlocks β), Act.wsaSend o)], x.2.Fails := by simp [Act.Fails]
    have hcloses : ¬ ∃ x ∈ [((start blocks : SendBlocks β), Act.wsaSend o)], x.2.Closes := by simp [Act.Closes]
    cases o with
    | written n =>
      obtain ⟨⟨hn, hlt⟩, hstep⟩ := Option.ite_none_right_eq_some.mp hstep
      obtain rfl := Option.some.inj hstep
      exact (written_goes htotal hfails hn hlt).reached (by simp [Act.Refused]) hcloses hshort
    | failed code =>
      obtain ⟨hpos, hstep⟩ := Option.ite_none_right_eq_some.mp hstep
      split at hstep
      · next hgoesOn =>
        obtain rfl := Option.some.inj hstep
        exact (written_goes htotal hfails (Nat.zero_le _) (by decide)).reached (by simp [Act.Refused, hgoesOn])
          hcloses hshort
      · next hgoesOn =>
        obtain rfl := Option.some.inj hstep
        refine .returned code rfl (.refused ?_ (Int.natCast_pos.mpr hpos) rfl)
        exact ⟨_, List.mem_singleton_self _, eq_false_of_ne_true hgoesOn⟩
  | send x => cases hstep

theorem step_sending (htotal : (stream mem blocks).length < 2 ^ 64) (hpc : s.pc = .sending block)
    (h : Sending mem (stream mem (blocks.map buffer)) (∃ x ∈ tr, x.2.Fails) s block bytes)
    (hrefused : ¬ ∃ x ∈ tr, x.2.Refused) (hcloses : ¬ ∃ x ∈ tr, x.2.Closes)
    (hshort : (∃ x ∈ tr, x.1.Short) → castInt bytes.length ≤ 0) (hstep : step mem s a = some s') :
    Reached mem blocks ((s, a) :: tr) s' := by
  have hall := (length_buffers mem blocks).1.trans_lt htotal
  have hnow : s.Short ↔ castInt bytes.length ≤ 0 := by
    constructor
    · rintro ⟨block', hpc', hneg⟩
      obtain rfl := Pc.sending.inj (hpc.symm.trans hpc')
      rwa [← h.calling.retVal_eq]
    · exact fun hneg => ⟨block, hpc, h.calling.retVal_eq ▸ hneg⟩
  cases a with
  | wsaSend o => simp only [step, hpc, reduceCtorEq] at hstep
  | send x =>
    simp only [step, hpc] at hstep
    obtain ⟨block', hblock, rfl⟩ := Option.map_eq_some_iff.mp hstep
    have hallRefused : (∃ y ∈ (s, Act.send x) :: tr, y.2.Refused) ↔ False ∨ ∃ y ∈ tr, y.2.Refused :=
      List.exists_mem_cons_iff _ _ _
    have hallFails : (∃ y ∈ (s, Act.send x) :: tr, y.2.Fails) ↔ x.Fails ∨ ∃ y ∈ tr, y.2.Fails :=
      List.exists_mem_cons_iff _ _ _
    have hallCloses : (∃ y ∈ (s, Act.send x) :: tr, y.2.Closes) ↔ x.Closes ∨ ∃ y ∈ tr, y.2.Closes :=
      List.exists_mem_cons_iff _ _ _
    have hallShort : (∃ y ∈ (s, Act.send x) :: tr, y.1.Short) ↔ s.Short ∨ ∃ y ∈ tr, y.1.Short :=
      List.exists_mem_cons_iff _ _ _
    rw [false_or] at hallRefused
    rcases SendBlock.answer_cases h.calling hblock with ⟨hcalling, hxfails, hxcloses⟩ | ⟨r, hret, hended⟩
    · rw [resume, hcalling.send]
      refine .sending block' bytes rfl ⟨hcalling, h.lt, h.blockSum, h.sum, ?_⟩ ?_ ?_ ?_
      · rw [hallFails, or_iff_right hxfails]
        exact h.progress
      · rwa [hallRefused]
      · rw [hallCloses, or_iff_right hxcloses]
        exact hcloses
      · rw [hallShort, hnow]
        exact fun hor => hor.elim id hshort
    · rw [resume, hret]
      rcases finish_cases hall h hended with ⟨hpc', hearly⟩ | ⟨hgoes, hxcloses, hpos⟩
      · refine .returned (-1) hpc' (.early ?_ rfl ?_)
        · rwa [hallRefused]
        · rw [hallCloses, hallShort, hnow]
          exact hearly.imp Or.inl Or.inl
      · have hpositive := Int.not_le.mpr hpos
        refine Goes.reached ?_ ?_ ?_ ?_
        · rwa [hallFails, or_comm]
        · rwa [hallRefused]
        · rw [hallCloses, or_iff_right hxcloses]
          exact hcloses
        · rw [hallShort, hnow, or_iff_right hpositive]
          exact fun hs => hpositive (hshort hs)

theorem reached (htotal : (stream mem blocks).length < 2 ^ 64) (hrun : (step mem).Run (start blocks) tr s) :
    Reached mem blocks tr s := by
  refine hrun.trace_induction (P := Reached mem blocks) (.start rfl rfl) ?_
  intro tr s a s' _ h hstep
  cases h with
  | start htr hs =>
    subst htr hs
    exact step_start htotal hstep
  | sending block bytes hpc h hrefused hcloses hshort => exact step_sending htotal hpc h hrefused hcloses hshort hstep
  | returned r hpc _ => cases a <;> simp only [step, hpc, reduceCtorEq] at hstep

theorem Outcome.truthful_iff {accepted : List β} {refused closes short fails : Prop}
    (h : Outcome (stream mem (blocks.map buffer)) accepted refused closes short fails r) :
    Truthful (stream mem blocks) accepted r ↔ ¬ refused ∧
      (closes ∨ short ∨ castInt (stream mem blocks).length < 0 ∨ (stream mem blocks).length < 2 ^ 31 ∧ ¬ fails) := by
  cases h with
  | refused hrefused hpos hnone =>
    refine iff_of_false (fun htruth => ?_) fun hcond => hcond.1 hrefused
    by_cases hr : r = (stream mem blocks).length
    · have hlen := congrArg List.length (htruth.1 hr)
      rw [hnone, List.length_nil] at hlen
      omega
    · have := htruth.2 hr
      omega
  | early hrefused hret hearly =>
    refine iff_of_true ⟨fun hr => ?_, fun _ => ?_⟩ ⟨hrefused, or_assoc.mp (Or.inl hearly)⟩
    · omega
    · rw [hret]
      decide
  | through hrefused hcloses hshort hret hprogress =>
    rw [castInt_congr (length_buffers mem blocks).2] at hret
    rw [and_iff_right hrefused, or_iff_right hcloses, or_iff_right hshort, Truthful, hret, ne_eq, castInt_eq_iff]
    by_cases hsmall : (stream mem blocks).length < 2 ^ 31
    · have hwhole : accepted = stream mem blocks ↔ ¬ fails := by
        rw [buffers_eq mem hsmall] at hprogress
        have hdone := hprogress hsmall
        constructor
        · intro hall hfails
          have hpart := hdone.part hfails
          rw [hall] at hpart
          exact Nat.lt_irrefl _ hpart
        · intro hfails
          rw [← hdone.whole hfails, List.append_nil]
      have hnonneg : ¬ castInt (stream mem blocks).length < 0 := by
        rw [castInt_of_lt hsmall]
        exact Int.not_lt.mpr (Int.natCast_nonneg _)
      simp only [hsmall, forall_const, not_true, false_imp_iff, and_true, true_and, hnonneg, false_or, hwhole]
    · simp only [hsmall, false_imp_iff, not_false_eq_true, forall_const, true_and, false_and, or_false]

end SendBlocks

/-- **Reported truthfully.** `sendBlock` returns what it should exactly if the connection closes, or no `send` and no
wait fails and the size fits an `int`, or the size is -1 as an `int`. `sendBlocks` does exactly if `WSASend` is not
refused and the same holds of the sends after it, or a length is not positive as an `int`. -/
theorem sends_truthful_iff (mem : Nat → β) :
    (∀ (pBlock size : Nat) (tr : List (SendBlock β × Response)) (s : SendBlock β) (r : Int),
      (SendBlock.answer mem).Run (SendBlock.start pBlock size) tr s → s.pc = .returned r →
      (SendBlock.Truthful size (DataBlock.bytes mem ⟨pBlock, size⟩) s.accepted r ↔
        castInt size = -1 ∨ (∃ x ∈ tr, x.2.Closes) ∨ size < 2 ^ 31 ∧ ¬ ∃ x ∈ tr, x.2.Fails)) ∧
    ∀ (blocks : List DataBlock) (tr : List (SendBlocks β × SendBlocks.Act)) (s : SendBlocks β) (r : Int),
      (stream mem blocks).length < 2 ^ 64 →
      (SendBlocks.step mem).Run (SendBlocks.start blocks) tr s → s.pc = .returned r →
      (SendBlocks.Truthful (stream mem blocks) s.accepted r ↔ (¬ ∃ x ∈ tr, x.2.Refused) ∧
        ((∃ x ∈ tr, x.2.Closes) ∨ (∃ x ∈ tr, x.1.Short) ∨ castInt (stream mem blocks).length < 0 ∨
          (stream mem blocks).length < 2 ^ 31 ∧ ¬ ∃ x ∈ tr, x.2.Fails)) := by
  constructor
  · intro pBlock size tr s r hrun hret
    rcases SendBlock.run_cases hrun with ⟨hcalling, _⟩ | ⟨r', hret', hended⟩
    · have hsend := hcalling.send
      rw [hret] at hsend
      cases hsend
    · obtain rfl := SendBlock.Pc.returned.inj (hret.symm.trans hret')
      have htruth := hended.truthful_iff
      rwa [DataBlock.length_bytes] at htruth
  · intro blocks tr s r htotal hrun hret
    cases SendBlocks.reached htotal hrun with
    | start htr hs =>
      rw [hs] at hret
      cases hret
    | sending block bytes hpc _ _ _ _ =>
      rw [hret] at hpc
      cases hpc
    | returned r' hret' h =>
      obtain rfl := SendBlocks.Pc.returned.inj (hret.symm.trans hret')
      exact h.truthful_iff

/-- Four bytes in two pieces; two blocks of which `WSASend` takes the first and a part of the second. -/
theorem sends_truthful_pieces :
    (∃ tr s, (SendBlock.answer fun n => n).Run (SendBlock.start 100 4) tr s ∧ s.pc = .returned 4 ∧
      SendBlock.Truthful 4 [100, 101, 102, 103] s.accepted 4) ∧
    ∃ tr s, (SendBlocks.step fun n => n).Run (SendBlocks.start [⟨10, 2⟩, ⟨20, 3⟩]) tr s ∧ s.pc = .returned 5 ∧
      SendBlocks.Truthful [10, 11, 20, 21, 22] s.accepted 5 := by
  obtain ⟨hblock, hblocks⟩ := sends_truthful_iff fun n => n
  constructor
  · have hrun : (SendBlock.answer fun n => n).Run (SendBlock.start 100 4)
        [(⟨103, 1, 4, 0, .send, [100, 101, 102]⟩, ⟨.count 1, 0⟩),
          (⟨103, 1, 4, 0, .send, [100, 101, 102]⟩, ⟨.intr, 0⟩),
          (⟨103, 1, 4, 0, .send, [100, 101, 102]⟩, ⟨.wouldBlock, 1⟩), (⟨100, 4, 4, 0, .send, []⟩, ⟨.count 3, 0⟩)]
        ⟨104, 0, 4, 0, .returned 4, [100, 101, 102, 103]⟩ :=
      run_of_exec _ _ [⟨.count 3, 0⟩, ⟨.wouldBlock, 1⟩, ⟨.intr, 0⟩, ⟨.count 1, 0⟩] (by decide +kernel)
    refine ⟨_, _, hrun, rfl, (hblock 100 4 _ _ 4 hrun rfl).mpr (Or.inr (Or.inr ⟨by decide, ?_⟩))⟩
    simp [Response.Fails]
  · have hrun : (SendBlocks.step fun n => n).Run (SendBlocks.start [⟨10, 2⟩, ⟨20, 3⟩])
        [(⟨5, 3, 5, [], .sending ⟨21, 2, 2, 0, .send, []⟩, [10, 11, 20]⟩, .send ⟨.count 2, 0⟩),
          (⟨5, 0, 0, [⟨10, 2⟩, ⟨20, 3⟩], .wsaSend, []⟩, .wsaSend (.written 3))]
        ⟨5, 5, 5, [], .returned 5, [10, 11, 20, 21, 22]⟩ :=
      run_of_exec _ _ [.wsaSend (.written 3), .send ⟨.count 2, 0⟩] (by decide +kernel)
    refine ⟨_, _, hrun, rfl, (hblocks [⟨10, 2⟩, ⟨20, 3⟩] _ _ 5 (by decide) hrun rfl).mpr ⟨?_, ?_⟩⟩
    · simp [SendBlocks.Act.Refused]
    · refine Or.inr (Or.inr (Or.inr ⟨by decide, ?_⟩))
      simp [SendBlocks.Act.Fails, Response.Fails]

/-- `sendBlock` reports a block of which nothing was accepted; `sendBlocks` returns the error code. -/
theorem sends_untruthful :
    (¬ ∀ (pBlock size : Nat) (tr : List (SendBlock Nat × Response)) (s : SendBlock Nat) (r : Int),
      (SendBlock.answer fun n => n).Run (SendBlock.start pBlock size) tr s → s.pc = .returned r →
      SendBlock.Truthful size (DataBlock.bytes (fun n => n) ⟨pBlock, size⟩) s.accepted r) ∧
    ¬ ∀ (blocks : List DataBlock) (tr : List (SendBlocks Nat × SendBlocks.Act)) (s : SendBlocks Nat) (r : Int),
      (SendBlocks.step fun n => n).Run (SendBlocks.start blocks) tr s → s.pc = .returned r →
      SendBlocks.Truthful (stream (fun n => n) blocks) s.accepted r := by
  constructor
  · intro h
    obtain ⟨tr, hrun⟩ := exists_run_of_exec (SendBlock.answer fun n => n) (SendBlock.start 100 2) [⟨.error, 0⟩]
      ⟨100, 0, 2, 0, .returned 2, []⟩ (by decide +kernel)
    have hall := (h 100 2 tr _ 2 hrun rfl).1 rfl
    exact absurd hall (by decide)
  · intro h
    obtain ⟨tr, hrun⟩ := exists_run_of_exec (SendBlocks.step fun n => n) (SendBlocks.start [⟨10, 2⟩])
      [.wsaSend (.failed 10054)] ⟨2, 0, 0, [⟨10, 2⟩], .returned 10054, []⟩ (by decide +kernel)
    exact absurd ((h _ tr _ 10054 hrun rfl).2 (by decide)) (by decide)

end Windows

end Libhbk
