import Libhbk.Base.Arith
import Libhbk.Base.Bytes
import Mathlib.Data.List.Induction

/-!
# The Linux buffered reader

`BufferedReader::recv` asks the kernel for more than the caller wants: one `readv` scatters into the
rest of the caller's buffer and then into `m_buffer`, and what lands there serves the next calls. The
reader never looks at a byte, so the model is generic in the type `α` of bytes.

`History` adds what an outside observer sees of a sequence of calls: the bytes taken from the kernel and
the bytes handed to the caller. `Conserved` says that none is lost, duplicated or reordered.
-/

namespace Libhbk

/-- Capacity of `m_buffer`. -/
def bufferSize : Nat := 65536

/-- What `readv` finds: an error (`again` for `EAGAIN` and `EWOULDBLOCK`), or the bytes the kernel hands
over, of which it takes as many as the iovecs hold. No bytes is the end of the stream. -/
inductive Readv (α : Type) where
  | error (again : Bool)
  | data (avail : List α)
  deriving DecidableEq, Repr

/-- Is `errno` `EAGAIN` or `EWOULDBLOCK` afterwards? -/
def Readv.again {α : Type} : Readv α → Bool
  | error again => again
  | data _ => false

/-- The same bytes under another name. -/
def Readv.map {α β : Type} (f : α → β) : Readv α → Readv β
  | error again => .error again
  | data avail => .data (avail.map f)

structure BufferedReader (α : Type) where
  buffer : List α
  fillLevel : Nat
  alreadyRead : Nat
  size_buffer : buffer.length = bufferSize

/-- Result of one `recv`: the return value, the caller's buffer and the reader afterwards, and the bytes
that `readv` took from the kernel. -/
structure RecvResult (α : Type) where
  ret : Int
  buf : List α
  reader : BufferedReader α
  taken : List α

/-- What the call hands out: the first `ret` bytes of the caller's buffer, if `ret` is positive. -/
def RecvResult.handed {α : Type} (o : RecvResult α) : List α := o.buf.take o.ret.toNat

namespace BufferedReader

variable {α : Type}

/-- The constructor; the array itself is not initialised. -/
def new (mem : List α) (h : mem.length = bufferSize) : BufferedReader α := ⟨mem, 0, 0, h⟩

/-- `m_fillLevel - m_alreadyRead`, the bytes left from the last read. -/
def bytesLeft (r : BufferedReader α) : Nat := sizeSub r.fillLevel r.alreadyRead

/-- `recv(sockfd, buf, desiredLen)` with `desiredLen` the length of `buf`. The lengths of objects fit
`ssize_t`, so the signed comparison of `retVal` is the comparison of integers. -/
def recv (r : BufferedReader α) (buf : List α) (k : Readv α) : RecvResult α :=
  let desiredLen := buf.length
  let bytesLeft := r.bytesLeft
  if desiredLen ≤ bytesLeft then
    { ret := desiredLen
      buf := writeAt buf 0 ((r.buffer.drop r.alreadyRead).take desiredLen)
      reader := { r with alreadyRead := r.alreadyRead + desiredLen }
      taken := [] }
  else
    let buf := if 0 < bytesLeft then writeAt buf 0 ((r.buffer.drop r.alreadyRead).take bytesLeft) else buf
    match k with
    | .error _ => { ret := -1, buf := buf, reader := { r with alreadyRead := 0, fillLevel := 0 }, taken := [] }
    | .data avail =>
      -- iov[0] is the rest of `buf`, iov[1] all of `m_buffer`
      let restLen := desiredLen - bytesLeft
      let got := avail.take (restLen + bufferSize)
      { ret := if (desiredLen : Int) < got.length then desiredLen else got.length
        buf := writeAt buf bytesLeft (got.take restLen)
        reader :=
          { buffer := writeAt r.buffer 0 (got.drop restLen)
            fillLevel := if (desiredLen : Int) < got.length then got.length - desiredLen else 0
            alreadyRead := 0
            size_buffer := by
              have hgot : got.length ≤ restLen + bufferSize := List.length_take_le _ _
              rw [length_writeAt, r.size_buffer]
              rw [List.length_drop, r.size_buffer]
              omega }
        taken := got }

/-- `m_buffer[m_alreadyRead, m_fillLevel)`. -/
def buffered (r : BufferedReader α) : List α := (r.buffer.take r.fillLevel).drop r.alreadyRead

/-- The bookkeeping between calls. -/
def Wf (r : BufferedReader α) : Prop := r.alreadyRead ≤ r.fillLevel ∧ r.fillLevel ≤ bufferSize

/-- The request takes more than what is left of the last read, and something is left. -/
def Straddles (r : BufferedReader α) (desiredLen : Nat) : Prop :=
  0 < r.bytesLeft ∧ r.bytesLeft < desiredLen

instance (r : BufferedReader α) (n : Nat) : Decidable (r.Straddles n) :=
  inferInstanceAs (Decidable (_ ∧ _))

theorem Wf.bytesLeft {r : BufferedReader α} (h : r.Wf) : r.bytesLeft = r.fillLevel - r.alreadyRead :=
  sizeSub_of_le h.1 (by have := h.2; unfold bufferSize at this; omega)

theorem Wf.length_buffered {r : BufferedReader α} (h : r.Wf) : r.buffered.length = r.bytesLeft := by
  have := r.size_buffer
  have := h.2
  rw [h.bytesLeft, buffered, List.length_drop, List.length_take]
  omega

theorem Wf.take_drop {r : BufferedReader α} (h : r.Wf) {n : Nat} (hn : n ≤ r.bytesLeft) :
    (r.buffer.drop r.alreadyRead).take n = r.buffered.take n := by
  have hw := h.1
  rw [h.bytesLeft] at hn
  rw [buffered, List.drop_take, List.take_take, Nat.min_eq_left hn]

/-! ### The three outcomes of a call -/

theorem recv_buffered (r : BufferedReader α) (h : r.Wf) (buf : List α) (k : Readv α)
    (hle : buf.length ≤ r.bytesLeft) :
    (r.recv buf k).handed = r.buffered.take buf.length ∧
      (r.recv buf k).reader.buffered = r.buffered.drop buf.length ∧ (r.recv buf k).taken = [] := by
  have hcopy := h.take_drop hle
  have hlen : (r.buffered.take buf.length).length = buf.length := by
    rw [List.length_take, h.length_buffered, Nat.min_eq_left hle]
  unfold recv
  rw [if_pos hle, hcopy]
  refine ⟨?_, ?_, rfl⟩
  · simp only [RecvResult.handed, Int.toNat_natCast]
    rw [take_writeAt_zero _ _ _ (Nat.le_of_eq hlen.symm), List.take_of_length_le (Nat.le_of_eq hlen)]
  · simp only [buffered, List.drop_drop]

theorem recv_error (r : BufferedReader α) (buf : List α) (again : Bool) (hlt : r.bytesLeft < buf.length) :
    (r.recv buf (.error again)).handed = [] ∧ (r.recv buf (.error again)).reader.buffered = [] ∧
      (r.recv buf (.error again)).taken = [] := by
  unfold recv
  rw [if_neg (by omega)]
  simp [RecvResult.handed, buffered]

theorem copied_front (buf left : List α) (h : left.length ≤ buf.length) :
    (if 0 < left.length then writeAt buf 0 left else buf).length = buf.length ∧
      (if 0 < left.length then writeAt buf 0 left else buf).take left.length = left := by
  split
  · refine ⟨length_writeAt (by omega), ?_⟩
    rw [take_writeAt_zero _ _ _ (Nat.le_refl _), List.take_length]
  · next h0 =>
    obtain rfl : left = [] := List.eq_nil_of_length_eq_zero (by omega)
    exact ⟨rfl, rfl⟩

/-- A read that succeeds stores its bytes behind the copied ones; the return value and the fill level
count the bytes of this read only. -/
theorem recv_data (r : BufferedReader α) (h : r.Wf) (buf avail : List α) (hlt : r.bytesLeft < buf.length)
    (got : List α) (hgot : got = avail.take (buf.length - r.bytesLeft + bufferSize)) :
    (r.recv buf (.data avail)).handed =
        (r.buffered ++ got.take (buf.length - r.bytesLeft)).take (min buf.length got.length) ∧
      (r.recv buf (.data avail)).reader.buffered =
        (got.drop (buf.length - r.bytesLeft)).take (got.length - buf.length) ∧
      (r.recv buf (.data avail)).taken = got := by
  have hcopy : (r.buffer.drop r.alreadyRead).take r.bytesLeft = r.buffered := by
    rw [h.take_drop (Nat.le_refl _), ← h.length_buffered, List.take_length]
  obtain ⟨hlen, hfront⟩ := copied_front buf r.buffered (by rw [h.length_buffered]; omega)
  rw [h.length_buffered] at hlen hfront
  unfold recv
  rw [if_neg (by omega)]
  simp only [hcopy, ← hgot]
  refine ⟨?_, ?_, trivial⟩
  · have hret : (if (buf.length : Int) < (got.length : Int) then (buf.length : Int) else got.length).toNat =
        min buf.length got.length := by
      split <;> omega
    simp only [RecvResult.handed, hret]
    -- every byte counted by the return value lies in the copied part or in iov[0]
    have hwithin : min buf.length got.length ≤
        r.bytesLeft + (got.take (buf.length - r.bytesLeft)).length := by
      rw [List.length_take]
      omega
    generalize (if 0 < r.bytesLeft then writeAt buf 0 r.buffered else buf) = copied at hlen hfront ⊢
    rw [← hfront, ← take_writeAt (by omega), List.take_take, Nat.min_eq_left hwithin]
  · simp only [buffered, List.drop_zero]
    have hfits : (if (buf.length : Int) < (got.length : Int) then got.length - buf.length else 0) =
        got.length - buf.length := by
      split <;> omega
    rw [hfits, take_writeAt_zero]
    rw [List.length_drop]
    omega

/-- No call makes bytes up: what it hands out and what it keeps was buffered or is taken. -/
theorem recv_mem (r : BufferedReader α) (h : r.Wf) (buf : List α) (k : Readv α) {b : α}
    (hb : b ∈ (r.recv buf k).handed ∨ b ∈ (r.recv buf k).reader.buffered) :
    b ∈ r.buffered ∨ b ∈ (r.recv buf k).taken := by
  by_cases hle : buf.length ≤ r.bytesLeft
  · obtain ⟨h1, h2, _⟩ := recv_buffered r h buf k hle
    rw [h1, h2] at hb
    exact Or.inl (hb.elim List.mem_of_mem_take List.mem_of_mem_drop)
  · rcases k with again | avail
    · obtain ⟨h1, h2, _⟩ := recv_error r buf again (by omega)
      rw [h1, h2] at hb
      simp at hb
    · obtain ⟨h1, h2, h3⟩ := recv_data r h buf avail (by omega) _ rfl
      rw [h1, h2] at hb
      rw [h3]
      rcases hb with hb | hb
      · exact (List.mem_append.mp (List.mem_of_mem_take hb)).imp id List.mem_of_mem_take
      · exact Or.inr (List.mem_of_mem_drop (List.mem_of_mem_take hb))

theorem recv_taken (r : BufferedReader α) (buf : List α) (k : Readv α) {b : α} (hb : b ∈ (r.recv buf k).taken) :
    ∃ avail, k = .data avail ∧ b ∈ avail := by
  unfold recv at hb
  by_cases hle : buf.length ≤ r.bytesLeft
  · rw [if_pos hle] at hb
    simp at hb
  · rw [if_neg hle] at hb
    rcases k with again | avail
    · simp at hb
    · exact ⟨avail, rfl, List.mem_of_mem_take hb⟩

/-- A property of all bytes in the reader and of all that the system hands over holds of what `recv` delivers
and keeps. -/
theorem recv_all {P : α → Prop} (r : BufferedReader α) (hw : r.Wf) (hr : ∀ b ∈ r.buffered, P b) (buf : List α)
    {k : Readv α} (hk : ∀ avail, k = .data avail → ∀ b ∈ avail, P b) :
    (∀ b ∈ (r.recv buf k).handed, P b) ∧ ∀ b ∈ (r.recv buf k).reader.buffered, P b := by
  have hall : ∀ b, b ∈ (r.recv buf k).handed ∨ b ∈ (r.recv buf k).reader.buffered → P b := by
    intro b hb
    rcases r.recv_mem hw buf k hb with hold | hnew
    · exact hr b hold
    · obtain ⟨avail, hdata, hmem⟩ := r.recv_taken buf k hnew
      exact hk avail hdata b hmem
  exact ⟨fun b hb => hall b (Or.inl hb), fun b hb => hall b (Or.inr hb)⟩

/-! ### Conservation -/

theorem recv_wf (r : BufferedReader α) (h : r.Wf) (buf : List α) (k : Readv α) : (r.recv buf k).reader.Wf := by
  obtain ⟨hle, hmax⟩ := h
  have hleft := Wf.bytesLeft ⟨hle, hmax⟩
  unfold recv
  by_cases hcovered : buf.length ≤ r.bytesLeft
  · rw [if_pos hcovered]
    exact ⟨show r.alreadyRead + buf.length ≤ r.fillLevel by omega, hmax⟩
  · rw [if_neg hcovered]
    cases k with
    | error again => exact ⟨Nat.le_refl _, Nat.zero_le _⟩
    | data avail =>
      refine ⟨Nat.zero_le _, ?_⟩
      have := List.length_take_le (buf.length - r.bytesLeft + bufferSize) avail
      simp only
      split <;> omega

/-- A call that does not straddle the buffered rest hands out and keeps exactly the buffered bytes and
those it took. -/
theorem recv_conserves (r : BufferedReader α) (h : r.Wf) (buf : List α) (k : Readv α)
    (hs : ¬ r.Straddles buf.length) :
    (r.recv buf k).handed ++ (r.recv buf k).reader.buffered = r.buffered ++ (r.recv buf k).taken := by
  by_cases hle : buf.length ≤ r.bytesLeft
  · obtain ⟨h1, h2, h3⟩ := recv_buffered r h buf k hle
    rw [h1, h2, h3, List.take_append_drop, List.append_nil]
  · have hzero : r.bytesLeft = 0 := by
      unfold Straddles at hs
      omega
    have hnil : r.buffered = [] := List.eq_nil_of_length_eq_zero (by rw [h.length_buffered, hzero])
    cases k with
    | error again =>
      obtain ⟨h1, h2, h3⟩ := recv_error r buf again (by omega)
      rw [h1, h2, h3, hnil]
    | data avail =>
      obtain ⟨h1, h2, h3⟩ := recv_data r h buf avail (by omega) _ rfl
      rw [h1, h2, h3, hnil, hzero]
      generalize avail.take (buf.length - 0 + bufferSize) = got
      have hall : (got.drop buf.length).take (got.length - buf.length) = got.drop buf.length :=
        List.take_of_length_le (Nat.le_of_eq List.length_drop)
      have hmin : min (min buf.length got.length) buf.length = min buf.length got.length := by omega
      rw [List.nil_append, List.nil_append, Nat.sub_zero, List.take_take, hmin, hall,
        ← List.take_eq_take_min, List.take_append_drop]

theorem recv_loses (r : BufferedReader α) (h : r.Wf) (buf : List α) (k : Readv α)
    (hs : r.Straddles buf.length) :
    (r.recv buf k).handed.length + (r.recv buf k).reader.buffered.length = (r.recv buf k).taken.length := by
  obtain ⟨hpos, hlt⟩ := hs
  cases k with
  | error again =>
    obtain ⟨h1, h2, h3⟩ := recv_error r buf again hlt
    rw [h1, h2, h3]
    rfl
  | data avail =>
    obtain ⟨h1, h2, h3⟩ := recv_data r h buf avail hlt _ rfl
    rw [h1, h2, h3]
    generalize avail.take (buf.length - r.bytesLeft + bufferSize) = got
    simp only [List.length_take, List.length_append, List.length_drop, h.length_buffered]
    omega

end BufferedReader

/-! ### Sequences of calls -/

/-- One call: the caller's buffer and what `readv` finds if it is reached. -/
structure RecvCall (α : Type) where
  buf : List α
  readv : Readv α
  nonempty : 0 < buf.length

/-- A reader with what went through it: the bytes `taken` from the kernel and those `handed` out. -/
structure History (α : Type) where
  reader : BufferedReader α
  taken : List α
  handed : List α

namespace History

variable {α : Type}

def start (mem : List α) (h : mem.length = bufferSize) : History α := ⟨.new mem h, [], []⟩

def recv (s : History α) (c : RecvCall α) : History α :=
  let o := s.reader.recv c.buf c.readv
  ⟨o.reader, s.taken ++ o.taken, s.handed ++ o.handed⟩

def run (s : History α) (calls : List (RecvCall α)) : History α := calls.foldl recv s

/-- The bytes handed out, followed by the buffered ones, are the bytes taken from the kernel. -/
def Conserved (s : History α) : Prop := s.handed ++ s.reader.buffered = s.taken

theorem run_snoc (s : History α) (calls : List (RecvCall α)) (c : RecvCall α) :
    s.run (calls ++ [c]) = (s.run calls).recv c := by
  simp [run]

theorem run_wf {s : History α} (h : s.reader.Wf) (calls : List (RecvCall α)) : (s.run calls).reader.Wf := by
  induction calls generalizing s with
  | nil => exact h
  | cons c calls ih => exact ih (BufferedReader.recv_wf _ h _ _)

theorem start_conserved (mem : List α) (h : mem.length = bufferSize) : (start mem h).Conserved := by
  simp [Conserved, start, BufferedReader.new, BufferedReader.buffered]

/-- One call keeps conservation exactly when it does not straddle the buffered rest. -/
theorem recv_conserved_iff {s : History α} (hw : s.reader.Wf) (hc : s.Conserved) (c : RecvCall α) :
    (s.recv c).Conserved ↔ ¬ s.reader.Straddles c.buf.length := by
  unfold Conserved at hc
  constructor
  · intro hc' hs
    have hloss := BufferedReader.recv_loses _ hw c.buf c.readv hs
    have hleft := hw.length_buffered
    have hlen := congrArg List.length hc
    have hlen' := congrArg List.length hc'
    simp only [recv, List.length_append] at hlen hlen'
    have := hs.1
    omega
  · intro hs
    have hstep := BufferedReader.recv_conserves _ hw c.buf c.readv hs
    simp only [Conserved, recv, List.append_assoc]
    rw [hstep, ← List.append_assoc, hc]

/-- **Conservation.** Over a sequence of calls the reader conserves the stream in every state it reaches
exactly when no call straddles the buffered rest. -/
theorem conserved_iff (mem : List α) (hmem : mem.length = bufferSize) (calls : List (RecvCall α)) :
    (∀ pre, pre <+: calls → ((start mem hmem).run pre).Conserved) ↔
      ∀ pre c, pre ++ [c] <+: calls → ¬ ((start mem hmem).run pre).reader.Straddles c.buf.length := by
  have hw : ∀ pre, ((start mem hmem).run pre).reader.Wf :=
    fun pre => run_wf ⟨Nat.le_refl _, Nat.zero_le _⟩ pre
  constructor
  · intro h pre c hpre
    have hbefore := h pre ((List.prefix_append _ _).trans hpre)
    have hafter := h _ hpre
    rw [run_snoc] at hafter
    exact (recv_conserved_iff (hw pre) hbefore c).mp hafter
  · intro h pre
    induction pre using List.reverseRecOn with
    | nil => exact fun _ => start_conserved mem hmem
    | append_singleton pre c ih =>
      intro hpre
      rw [run_snoc]
      exact (recv_conserved_iff (hw pre) (ih ((List.prefix_append _ _).trans hpre)) c).mpr (h pre c hpre)

/-- Of four bytes the first request takes two and leaves two, which serve the second one; the third finds no rest. -/
theorem conserved_with_rest :
    let s := (start (List.replicate bufferSize (0 : UInt8)) List.length_replicate).run
      [⟨[0, 0], .data [1, 2, 3, 4], by decide⟩, ⟨[0, 0], .error false, by decide⟩, ⟨[0, 0, 0], .data [5, 6], by decide⟩]
    s.handed = [1, 2, 3, 4, 5, 6] ∧ s.Conserved := by
  refine ⟨rfl, (conserved_iff _ List.length_replicate _).mpr (fun pre c hpre => ?_) _ (List.prefix_refl _)⟩
  rcases pre with _ | ⟨c₁, _ | ⟨c₂, pre⟩⟩
  · exact fun hs => absurd hs.1 (by decide)
  · obtain ⟨rfl, hrest⟩ := List.cons_prefix_cons.mp hpre
    obtain ⟨rfl, -⟩ := List.cons_prefix_cons.mp hrest
    exact fun hs => absurd hs.2 (by decide)
  · obtain ⟨rfl, hrest⟩ := List.cons_prefix_cons.mp hpre
    obtain ⟨rfl, hlast⟩ := List.cons_prefix_cons.mp hrest
    obtain rfl : pre = [] := List.eq_nil_of_length_eq_zero (by simpa using hlast.length_le)
    exact fun hs => absurd hs.1 (by decide)

/-- Two bytes of three are read, then three are wanted and two more arrive: the fifth byte is lost. -/
theorem straddling_recv_loses :
    let s := (start (List.replicate bufferSize (0 : UInt8)) List.length_replicate).run
      [⟨[0, 0], .data [1, 2, 3], by decide⟩, ⟨[0, 0, 0], .data [4, 5], by decide⟩]
    s.taken = [1, 2, 3, 4, 5] ∧ s.handed = [1, 2, 3, 4] ∧ s.reader.buffered = [] ∧ ¬ s.Conserved := by
  refine ⟨rfl, rfl, rfl, ?_⟩
  unfold Conserved
  decide

end History

end Libhbk
