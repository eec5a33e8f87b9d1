import Libhbk.Base.Machine
import Libhbk.Communication.BufferedReader

/-!
# The Windows buffered reader

The members are those of the other `BufferedReader`; `recv` receives into the caller's buffer and into `m_buffer` with
one `WSARecv`, and after `WSAEWOULDBLOCK` orders a receive of no bytes that signals the next arriving byte. If this
one succeeds at once, a third `WSARecv` follows, whose return value nobody looks at. On Windows `ssize_t` is `int`.
-/

namespace Libhbk.Windows

open Machine

variable {α : Type}

/-- What a `WSARecv` into the two buffers finds: an error, `WSAEWOULDBLOCK`, or bytes, of which it takes as many as
fit. No bytes is the end of the stream. -/
inductive WsaRecv (α : Type) where
  | error
  | wouldBlock
  | data (avail : List α)
  deriving DecidableEq, Repr

/-- What one `recv` finds: `Internal` is `STATUS_PENDING`; the first receive; the receive of no bytes succeeds at once;
the last receive. `numberOfBytesRecvd` holds anything as long as no receive succeeds. -/
structure Receives (α : Type) where
  pending : Bool
  first : WsaRecv α
  signal : Bool
  last : WsaRecv α
  numberOfBytesRecvd : UInt32
  deriving DecidableEq, Repr

/-- The bytes that a receive finds and those it reports, if one succeeds. -/
def Receives.found (k : Receives α) : Option (List α) :=
  match k.first, k.last with
  | .data avail, _ => some avail
  | .wouldBlock, .data avail => if k.signal then some avail else none
  | _, _ => none

/-- The receive that follows the one of no bytes fails. -/
def Receives.LastFails (k : Receives α) : Prop :=
  k.first = .wouldBlock ∧ k.signal = true ∧ ∀ avail, k.last ≠ .data avail

theorem Receives.found_of_lastFails {k : Receives α} (h : k.LastFails) : k.found = none := by
  obtain ⟨hfirst, _, hlast⟩ := h
  simp only [found, hfirst]
  split
  · next he => exact nomatch he
  · next avail _ he => exact absurd he (hlast avail)
  · rfl

namespace BufferedReader

open Libhbk (RecvResult)

/-- `buffers[0].len`, and `static_cast<DWORD>(desiredLen)`. -/
def firstLen (buf : List α) : Nat := buf.length % 2 ^ 32

/-- The bytes that a receive takes. Their number is a `DWORD`. -/
def takes (buf avail : List α) : List α := avail.take (min (firstLen buf + bufferSize) (2 ^ 32 - 1))

theorem length_takes_drop (buf avail : List α) : ((takes buf avail).drop (firstLen buf)).length ≤ bufferSize := by
  have htakes := List.length_take_le (min (firstLen buf + bufferSize) (2 ^ 32 - 1)) avail
  rw [List.length_drop, takes]
  omega

/-- The code after a receive: `numberOfBytesRecvd` decides. -/
def counted (r : Libhbk.BufferedReader α) (buf : List α) (numberOfBytesRecvd : Nat) (taken : List α) : RecvResult α :=
  let desiredLen := buf.length
  if firstLen buf < numberOfBytesRecvd then
    -- `numberOfBytesRecvd - desiredLen` in `size_t`
    ⟨castInt desiredLen, buf, { r with fillLevel := sizeSub numberOfBytesRecvd desiredLen, alreadyRead := 0 }, taken⟩
  else ⟨castInt numberOfBytesRecvd, buf, { r with fillLevel := 0, alreadyRead := 0 }, taken⟩

/-- A receive that succeeds. -/
def received (r : Libhbk.BufferedReader α) (buf avail : List α) : RecvResult α :=
  let got := takes buf avail
  counted
    { r with
      buffer := writeAt r.buffer 0 (got.drop (firstLen buf))
      size_buffer := by
        rw [length_writeAt, r.size_buffer]
        rw [r.size_buffer, Nat.zero_add]
        exact length_takes_drop buf avail }
    (writeAt buf 0 (got.take (firstLen buf))) got.length got

/-- `recv(ev, buf, desiredLen)` with `desiredLen` the length of `buf`. -/
def recv (r : Libhbk.BufferedReader α) (buf : List α) (k : Receives α) : RecvResult α :=
  let desiredLen := buf.length
  let bytesLeft := r.bytesLeft
  if desiredLen ≤ bytesLeft then
    ⟨castInt desiredLen, writeAt buf 0 ((r.buffer.drop r.alreadyRead).take desiredLen),
      { r with alreadyRead := r.alreadyRead + desiredLen }, []⟩
  else if 0 < bytesLeft then
    ⟨castInt bytesLeft, writeAt buf 0 ((r.buffer.drop r.alreadyRead).take bytesLeft),
      { r with alreadyRead := r.fillLevel }, []⟩
  else if k.pending then ⟨-1, buf, r, []⟩
  else
    let failed : RecvResult α := ⟨-1, buf, { r with alreadyRead := 0, fillLevel := 0 }, []⟩
    match k.first with
    | .data avail => received r buf avail
    | .error => failed
    | .wouldBlock =>
      if k.signal then
        match k.last with
        | .data avail => received r buf avail
        -- nobody looks at the return value
        | _ => counted r buf k.numberOfBytesRecvd.toNat []
      else failed

end BufferedReader

/-- One call: the caller's buffer, whose length is a `size_t`, and what the receives find. -/
structure RecvCall (α : Type) where
  buf : List α
  receives : Receives α
  nonempty : 0 < buf.length
  size_lt : buf.length < 2 ^ 64

namespace BufferedReader

/-- The calls of `recv` on a reader. -/
def step : Machine (History α) (RecvCall α) := fun s c =>
  let o := recv s.reader c.buf c.receives
  some ⟨o.reader, s.taken ++ o.taken, s.handed ++ o.handed⟩

/-- The call keeps the stream and the bounds, and 0 is returned only if the peer has closed the connection and nothing
is buffered. -/
structure Correct (s : History α) (c : RecvCall α) : Prop where
  conserved : ∀ s', step s c = some s' → s'.Conserved
  wf : ∀ s', step s c = some s' → s'.reader.Wf
  closed : (recv s.reader c.buf c.receives).ret = 0 → c.receives.found = some [] ∧ s.reader.bytesLeft = 0

/-- The count of a successful receive, and with it what `recv` returns, fits `int`. -/
def Fits (buf avail : List α) : Prop :=
  (firstLen buf < (takes buf avail).length → buf.length < 2 ^ 31) ∧
    ((takes buf avail).length ≤ firstLen buf → (takes buf avail).length < 2 ^ 31)

/-- Where the receives are reached, the count fits, and the last one does not fail, unless what happens to be in
`numberOfBytesRecvd` makes a negative return value. -/
def Sound (r : Libhbk.BufferedReader α) (c : RecvCall α) : Prop :=
  r.bytesLeft = 0 → c.receives.pending = false →
    (∀ avail, c.receives.found = some avail → Fits c.buf avail) ∧
      (c.receives.LastFails →
        2 ^ 31 ≤ c.receives.numberOfBytesRecvd.toNat ∧ c.receives.numberOfBytesRecvd.toNat ≤ firstLen c.buf)

variable {r : Libhbk.BufferedReader α} {buf avail : List α} {k : Receives α} {s s' : History α} {c : RecvCall α}

/-! ### One call -/

/-- What a call should do, said of its result. -/
structure Right (r : Libhbk.BufferedReader α) (k : Receives α) (o : RecvResult α) : Prop where
  conserved : o.handed ++ o.reader.buffered = r.buffered ++ o.taken
  wf : o.reader.Wf
  closed : o.ret = 0 → k.found = some [] ∧ r.bytesLeft = 0

theorem correct_iff_right (hc : s.Conserved) :
    Correct s c ↔ Right s.reader c.receives (recv s.reader c.buf c.receives) := by
  have hstep {s' : History α} (hs : step s c = some s') := Option.some.inj hs
  have hconserved : (∀ s', step s c = some s' → s'.Conserved) ↔
      (recv s.reader c.buf c.receives).handed ++ (recv s.reader c.buf c.receives).reader.buffered =
        s.reader.buffered ++ (recv s.reader c.buf c.receives).taken := by
    simp only [step, Option.some.injEq, forall_eq', History.Conserved, List.append_assoc]
    rw [← show s.handed ++ s.reader.buffered = s.taken from hc, List.append_assoc, List.append_cancel_left_eq]
  constructor
  · exact fun h => ⟨hconserved.mp h.conserved, h.wf _ rfl, h.closed⟩
  · exact fun h => ⟨hconserved.mpr h.conserved, fun s' hs' => hstep hs' ▸ h.wf, h.closed⟩

theorem buffered_nil (hw : r.Wf) (hzero : r.bytesLeft = 0) : r.buffered = [] :=
  List.eq_nil_of_length_eq_zero (hw.length_buffered.trans hzero)

theorem firstLen_of_lt (h : buf.length < 2 ^ 32) : firstLen buf = buf.length := by
  rw [firstLen, Nat.mod_eq_of_lt h]

theorem firstLen_le (buf : List α) : firstLen buf ≤ buf.length := by
  rw [firstLen]
  exact Nat.mod_le _ _

theorem not_le_wrapped {n : Nat} (hd : 2 ^ 32 ≤ buf.length) (hlt : buf.length < 2 ^ 64) (hn : firstLen buf < n)
    (hn' : n < 2 ^ 32) : ¬ sizeSub n buf.length ≤ bufferSize := by
  unfold firstLen at hn
  unfold sizeSub bufferSize
  omega

/-- A request of `2 ^ 31` bytes or more that is counted as satisfied: `-1` or another negative value is returned, or
the fill level is too large. -/
theorem counted_large {n : Nat} {taken : List α} (hd : 2 ^ 31 ≤ buf.length) (hlt : buf.length < 2 ^ 64)
    (hn : firstLen buf < n) (hn' : n < 2 ^ 32) (hr : (counted r buf n taken).reader.Wf) :
    (counted r buf n taken).handed = [] ∧ (counted r buf n taken).reader.buffered.length = n - buf.length ∧
      buf.length < n := by
  rw [counted, if_pos hn] at hr ⊢
  have hsmall : buf.length < 2 ^ 32 := by
    by_contra hge
    exact not_le_wrapped (Nat.le_of_not_lt hge) hlt hn hn' hr.2
  rw [firstLen_of_lt hsmall] at hn
  refine ⟨?_, ?_, hn⟩
  · have hneg := castInt_neg hd hsmall
    simp only [RecvResult.handed, Int.toNat_of_nonpos (Int.le_of_lt hneg), List.take_zero]
  · have hfill := sizeSub_of_le (Nat.le_of_lt hn) (Nat.lt_trans hn' (by decide))
    rw [hr.length_buffered, hr.bytesLeft, Nat.sub_zero, hfill]

theorem counted_small {n : Nat} {taken : List α} (hd : buf.length < 2 ^ 31) (hn : buf.length < n) (hn' : n < 2 ^ 32) :
    counted r buf n taken =
      ⟨buf.length, buf, { r with fillLevel := n - buf.length, alreadyRead := 0 }, taken⟩ := by
  have hfirst : firstLen buf = buf.length := firstLen_of_lt (Nat.lt_trans hd (by decide))
  rw [counted, hfirst, if_pos hn, castInt_of_lt hd, sizeSub_of_le (Nat.le_of_lt hn) (Nat.lt_trans hn' (by decide))]

theorem counted_short {n : Nat} {taken : List α} (hn : ¬ firstLen buf < n) :
    counted r buf n taken = ⟨castInt n, buf, { r with fillLevel := 0, alreadyRead := 0 }, taken⟩ :=
  if_neg hn

theorem counted_taken (r : Libhbk.BufferedReader α) (buf : List α) (n : Nat) (taken : List α) :
    (counted r buf n taken).taken = taken := by
  rw [counted]
  by_cases hn : firstLen buf < n
  · rw [if_pos hn]
  · rw [if_neg hn]

theorem buffered_zero (r : Libhbk.BufferedReader α) :
    ({ r with fillLevel := 0, alreadyRead := 0 } : Libhbk.BufferedReader α).buffered = [] := by
  simp [Libhbk.BufferedReader.buffered]

theorem length_takes_lt (buf avail : List α) : (takes buf avail).length < 2 ^ 32 := by
  have htakes := List.length_take_le (min (firstLen buf + bufferSize) (2 ^ 32 - 1)) avail
  rw [takes]
  omega

theorem takes_eq_nil (h : takes buf avail = []) : avail = [] := by
  rcases List.take_eq_nil_iff.mp h with hzero | hnil
  · unfold bufferSize at hzero
    omega
  · exact hnil

/-- The reader after a receive that succeeds, before the bytes are counted. -/
def stored (r : Libhbk.BufferedReader α) (buf avail : List α) : Libhbk.BufferedReader α :=
  { r with
    buffer := writeAt r.buffer 0 ((takes buf avail).drop (firstLen buf))
    size_buffer := by
      rw [length_writeAt, r.size_buffer]
      rw [r.size_buffer, Nat.zero_add]
      exact length_takes_drop buf avail }

/-- The caller's buffer then. -/
def filled (buf avail : List α) : List α := writeAt buf 0 ((takes buf avail).take (firstLen buf))

theorem received_eq (r : Libhbk.BufferedReader α) (buf avail : List α) :
    received r buf avail = counted (stored r buf avail) (filled buf avail) (takes buf avail).length (takes buf avail) :=
  rfl

theorem length_filled (buf avail : List α) : (filled buf avail).length = buf.length := by
  have hfit := Nat.le_trans (List.length_take_le (firstLen buf) (takes buf avail)) (firstLen_le buf)
  rw [filled, length_writeAt]
  rw [Nat.zero_add]
  exact hfit

theorem firstLen_filled (buf avail : List α) : firstLen (filled buf avail) = firstLen buf := by
  rw [firstLen, length_filled, firstLen]

theorem take_filled {m : Nat} (hm : m ≤ firstLen buf) (hm' : m ≤ (takes buf avail).length) :
    (filled buf avail).take m = (takes buf avail).take m := by
  rw [filled, take_writeAt_zero, List.take_take, Nat.min_eq_left hm]
  rw [List.length_take]
  exact Nat.le_min.mpr ⟨hm, hm'⟩

theorem received_more (hw : r.Wf) (hzero : r.bytesLeft = 0) (hpos : 0 < buf.length) (hlt : buf.length < 2 ^ 64)
    (hmore : firstLen buf < (takes buf avail).length) : Right r k (received r buf avail) ↔ buf.length < 2 ^ 31 := by
  have hnil := buffered_nil hw hzero
  have hrest := length_takes_drop buf avail
  have hn := length_takes_lt buf avail
  have hlen := length_filled buf avail
  have hmore' : firstLen (filled buf avail) < (takes buf avail).length := by
    rw [firstLen_filled]
    exact hmore
  rw [received_eq]
  constructor
  · intro hright
    by_contra hlarge
    have hd : 2 ^ 31 ≤ (filled buf avail).length := by
      rw [hlen]
      exact Nat.le_of_not_lt hlarge
    have hd' : (filled buf avail).length < 2 ^ 64 := by
      rw [hlen]
      exact hlt
    obtain ⟨hhanded, hbuffered, _⟩ := counted_large hd hd' hmore' hn hright.wf
    have hconserved := congrArg List.length hright.conserved
    rw [hhanded, hnil, counted_taken, List.nil_append, List.nil_append, hbuffered, hlen] at hconserved
    omega
  · intro hd
    have hall : firstLen buf = buf.length := firstLen_of_lt (Nat.lt_trans hd (by decide))
    rw [hall] at hmore hrest
    have hhanded : (filled buf avail).take buf.length = (takes buf avail).take buf.length :=
      take_filled (Nat.le_of_eq hall.symm) (Nat.le_of_lt hmore)
    have hd' : (filled buf avail).length < 2 ^ 31 := by
      rw [hlen]
      exact hd
    have hlt' : (filled buf avail).length < (takes buf avail).length := by
      rw [hlen]
      exact hmore
    have hbuffered : ((stored r buf avail).buffer.take ((takes buf avail).length - buf.length)).drop 0 =
        (takes buf avail).drop buf.length := by
      have hrest' : (takes buf avail).length - buf.length = ((takes buf avail).drop buf.length).length :=
        List.length_drop.symm
      have hstored : (stored r buf avail).buffer = writeAt r.buffer 0 ((takes buf avail).drop (firstLen buf)) := rfl
      rw [List.drop_zero, hstored, hall, hrest', take_writeAt_zero _ _ _ (Nat.le_refl _), List.take_length]
    rw [counted_small hd' hlt' hn, hlen]
    refine ⟨?_, ⟨Nat.zero_le _, ?_⟩, ?_⟩
    · rw [RecvResult.handed, Libhbk.BufferedReader.buffered, hbuffered, hnil, Int.toNat_natCast, hhanded,
        List.take_append_drop, List.nil_append]
    · rw [List.length_drop] at hrest
      exact hrest
    · exact fun hret => absurd (Int.ofNat_eq_zero.mp hret) (Nat.ne_of_gt hpos)

theorem received_short (hw : r.Wf) (hzero : r.bytesLeft = 0) (hfound : k.found = some avail)
    (hmore : ¬ firstLen buf < (takes buf avail).length) :
    Right r k (received r buf avail) ↔ (takes buf avail).length < 2 ^ 31 := by
  have hnil := buffered_nil hw hzero
  have hmore' : ¬ firstLen (filled buf avail) < (takes buf avail).length := by
    rw [firstLen_filled]
    exact hmore
  rw [received_eq, counted_short hmore']
  constructor
  · intro hright
    by_contra hlarge
    have hneg : castInt (takes buf avail).length < 0 :=
      castInt_neg (Nat.le_of_not_lt hlarge) (length_takes_lt buf avail)
    have hconserved := congrArg List.length hright.conserved
    simp only [RecvResult.handed, buffered_zero, hnil] at hconserved
    rw [Int.toNat_of_nonpos (Int.le_of_lt hneg), List.take_zero, List.nil_append, List.nil_append,
      List.length_nil] at hconserved
    omega
  · intro hd
    have hhanded := take_filled (Nat.le_of_not_lt hmore) (Nat.le_refl _)
    refine ⟨?_, ⟨Nat.le_refl _, Nat.zero_le _⟩, ?_⟩
    · rw [RecvResult.handed, buffered_zero, hnil, castInt_of_lt hd, Int.toNat_natCast, hhanded, List.take_length,
        List.append_nil, List.nil_append]
    · intro hret
      rw [castInt_of_lt hd] at hret
      have hnone : takes buf avail = [] := List.eq_nil_of_length_eq_zero (Int.ofNat_eq_zero.mp hret)
      rw [hfound, takes_eq_nil hnone]
      exact ⟨rfl, hzero⟩

theorem received_right_iff (hw : r.Wf) (hzero : r.bytesLeft = 0) (hpos : 0 < buf.length) (hlt : buf.length < 2 ^ 64)
    (hfound : k.found = some avail) : Right r k (received r buf avail) ↔ Fits buf avail := by
  by_cases hmore : firstLen buf < (takes buf avail).length
  · rw [received_more hw hzero hpos hlt hmore]
    constructor
    · exact fun h => ⟨fun _ => h, fun hle => absurd hmore (Nat.not_lt_of_le hle)⟩
    · exact fun h => h.1 hmore
  · rw [received_short hw hzero hfound hmore]
    constructor
    · exact fun h => ⟨fun hlt => absurd hlt hmore, fun _ => h⟩
    · exact fun h => h.2 (Nat.le_of_not_lt hmore)

/-- The last receive fails: nothing is taken, and what is in `numberOfBytesRecvd` decides. -/
theorem failed_right_iff (hw : r.Wf) (hzero : r.bytesLeft = 0) (hpos : 0 < buf.length) (hlt : buf.length < 2 ^ 64)
    (hfound : k.found = none) {n : Nat} (hn : n < 2 ^ 32) :
    Right r k (counted r buf n []) ↔ 2 ^ 31 ≤ n ∧ n ≤ firstLen buf := by
  have hnil := buffered_nil hw hzero
  by_cases hmore : firstLen buf < n
  · refine iff_of_false (fun hright => ?_) (fun h => absurd hmore (Nat.not_lt_of_le h.2))
    have hconserved := congrArg List.length hright.conserved
    rw [counted_taken, hnil, List.append_nil, List.length_nil, List.length_append] at hconserved
    by_cases hd : buf.length < 2 ^ 31
    · rw [firstLen_of_lt (Nat.lt_trans hd (by decide))] at hmore
      rw [counted_small hd hmore hn] at hconserved
      simp only [RecvResult.handed, Int.toNat_natCast, List.take_length] at hconserved
      omega
    · obtain ⟨_, hbuffered, hgt⟩ := counted_large (Nat.le_of_not_lt hd) hlt hmore hn hright.wf
      omega
  · rw [counted_short hmore, and_iff_left (Nat.le_of_not_lt hmore)]
    constructor
    · intro hright
      by_contra hsmall
      have hret : castInt n = n := castInt_of_lt (Nat.lt_of_not_le hsmall)
      rcases Nat.eq_zero_or_pos n with rfl | hn0
      · have hclosed := hright.closed hret
        exact absurd (hclosed.1.symm.trans hfound) (Option.some_ne_none _)
      · have hconserved := congrArg List.length hright.conserved
        have hfits := Nat.le_trans (Nat.le_of_not_lt hmore) (firstLen_le buf)
        simp only [RecvResult.handed, buffered_zero, hnil] at hconserved
        rw [hret, Int.toNat_natCast, List.append_nil, List.append_nil, List.length_take, List.length_nil] at hconserved
        omega
    · intro hlarge
      have hneg : castInt n < 0 := castInt_neg hlarge hn
      refine ⟨?_, ⟨Nat.le_refl _, Nat.zero_le _⟩, fun hret => ?_⟩
      · simp only [RecvResult.handed, buffered_zero, hnil]
        rw [Int.toNat_of_nonpos (Int.le_of_lt hneg), List.take_zero]
      · dsimp only at hret
        omega

theorem nothing_right (hzero : r.buffered = []) {r' : Libhbk.BufferedReader α} (hw : r'.Wf)
    (hnil : r'.buffered = []) : Right r k ⟨-1, buf, r', []⟩ := by
  refine ⟨?_, hw, fun hret => absurd (show (-1 : Int) = 0 from hret) (by decide)⟩
  rw [hzero, hnil]
  rfl

theorem left_right (hw : r.Wf) {n : Nat} (hpos : 0 < n) (hn : n ≤ r.bytesLeft) {r' : Libhbk.BufferedReader α}
    (hbuffer : r'.buffer = r.buffer) (hfill : r'.fillLevel = r.fillLevel) (hread : r'.alreadyRead = r.alreadyRead + n) :
    Right r k ⟨castInt n, writeAt buf 0 ((r.buffer.drop r.alreadyRead).take n), r', []⟩ := by
  have hleft := hw.bytesLeft
  obtain ⟨hle, hmax⟩ := hw
  have hmax' : r.fillLevel ≤ 65536 := hmax
  have hret : castInt n = n := castInt_of_lt (by omega)
  have hlen : (r.buffered.take n).length = n := by
    rw [List.length_take, Libhbk.BufferedReader.Wf.length_buffered ⟨hle, hmax⟩, Nat.min_eq_left hn]
  refine ⟨?_, ⟨?_, hfill ▸ hmax⟩, fun hzero => ?_⟩
  · have hrest : r'.buffered = r.buffered.drop n := by
      rw [Libhbk.BufferedReader.buffered, Libhbk.BufferedReader.buffered, hbuffer, hfill, hread, List.drop_drop]
    simp only [RecvResult.handed, hret, Int.toNat_natCast]
    rw [Libhbk.BufferedReader.Wf.take_drop ⟨hle, hmax⟩ hn, take_writeAt_zero _ _ _ (Nat.le_of_eq hlen.symm),
      List.take_of_length_le (Nat.le_of_eq hlen), hrest, List.take_append_drop, List.append_nil]
  · rw [hfill, hread]
    omega
  · simp only [hret] at hzero
    omega

/-! ### The receives -/

section reached

variable (hzero : r.bytesLeft = 0) (hpos : 0 < buf.length) (hpending : k.pending = false)

include hzero hpos hpending

theorem recv_found (hfound : k.found = some avail) : recv r buf k = received r buf avail := by
  obtain ⟨pending, first, signal, last, n⟩ := k
  obtain rfl : pending = false := hpending
  have hcovered : ¬ buf.length ≤ r.bytesLeft := by omega
  have hleft : ¬ 0 < r.bytesLeft := by omega
  simp only [recv, if_neg hcovered, if_neg hleft, Bool.false_eq_true, if_false]
  cases first with
  | data avail' =>
    obtain rfl := Option.some.inj hfound
    rfl
  | error => exact absurd hfound.symm (Option.some_ne_none _)
  | wouldBlock =>
    cases last with
    | data avail' =>
      obtain ⟨hsignal, he⟩ := Option.ite_none_right_eq_some.mp hfound
      obtain rfl := Option.some.inj he
      exact if_pos hsignal
    | error | wouldBlock => cases hfound

theorem recv_lastFails (h : k.LastFails) : recv r buf k = counted r buf k.numberOfBytesRecvd.toNat [] := by
  obtain ⟨pending, first, signal, last, n⟩ := k
  obtain rfl : pending = false := hpending
  obtain ⟨hfirst, hsignal, hlast⟩ := h
  obtain rfl : first = .wouldBlock := hfirst
  obtain rfl : signal = true := hsignal
  have hcovered : ¬ buf.length ≤ r.bytesLeft := by omega
  have hleft : ¬ 0 < r.bytesLeft := by omega
  simp only [recv, if_neg hcovered, if_neg hleft, Bool.false_eq_true, if_false, if_true]

theorem recv_failed (hfound : k.found = none) (h : ¬ k.LastFails) :
    recv r buf k = ⟨-1, buf, { r with alreadyRead := 0, fillLevel := 0 }, []⟩ := by
  obtain ⟨pending, first, signal, last, n⟩ := k
  obtain rfl : pending = false := hpending
  have hcovered : ¬ buf.length ≤ r.bytesLeft := by omega
  have hleft : ¬ 0 < r.bytesLeft := by omega
  simp only [recv, if_neg hcovered, if_neg hleft, Bool.false_eq_true, if_false]
  cases first with
  | data avail => exact absurd hfound (Option.some_ne_none _)
  | error => rfl
  | wouldBlock =>
    cases signal with
    | false => rfl
    | true =>
      cases last with
      | data avail => exact absurd hfound (Option.some_ne_none _)
      | error | wouldBlock => exact absurd ⟨rfl, rfl, by rintro _ ⟨⟩⟩ h

end reached

/-- **Step rule.** -/
theorem right_iff_sound (hw : r.Wf) (c : RecvCall α) :
    Right r c.receives (recv r c.buf c.receives) ↔ Sound r c := by
  have hpos := c.nonempty
  by_cases hcovered : c.buf.length ≤ r.bytesLeft
  · refine iff_of_true ?_ (fun hzero => absurd hpos (by omega))
    rw [recv, if_pos hcovered]
    exact left_right hw hpos hcovered rfl rfl rfl
  by_cases hleft : 0 < r.bytesLeft
  · refine iff_of_true ?_ (fun hzero => absurd hleft (by omega))
    rw [recv, if_neg hcovered, if_pos hleft]
    refine left_right hw hleft (Nat.le_refl _) rfl rfl ?_
    rw [hw.bytesLeft, Nat.add_sub_of_le hw.1]
  have hzero : r.bytesLeft = 0 := Nat.eq_zero_of_not_pos hleft
  have hnil := buffered_nil hw hzero
  cases hpending : c.receives.pending with
  | true =>
    refine iff_of_true ?_ (fun _ he => absurd (hpending.symm.trans he) (by decide))
    rw [recv, if_neg hcovered, if_neg hleft, if_pos hpending]
    exact nothing_right hnil hw hnil
  | false =>
    have hsound : Sound r c ↔ (∀ avail, c.receives.found = some avail → Fits c.buf avail) ∧
        (c.receives.LastFails →
          2 ^ 31 ≤ c.receives.numberOfBytesRecvd.toNat ∧ c.receives.numberOfBytesRecvd.toNat ≤ firstLen c.buf) :=
      ⟨fun h => h hzero hpending, fun h _ _ => h⟩
    rw [hsound]
    cases hfound : c.receives.found with
    | some avail =>
      have hlast : ¬ c.receives.LastFails := fun hl => nomatch hfound.symm.trans (Receives.found_of_lastFails hl)
      rw [recv_found hzero hpos hpending hfound, received_right_iff hw hzero hpos c.size_lt hfound,
        and_iff_left (fun hl => absurd hl hlast)]
      simp only [Option.some.injEq, forall_eq']
    | none =>
      rw [and_iff_right (fun _ he => nomatch he)]
      by_cases hlast : c.receives.LastFails
      · rw [recv_lastFails hzero hpos hpending hlast,
          failed_right_iff hw hzero hpos c.size_lt hfound c.receives.numberOfBytesRecvd.toNat_lt]
        exact ⟨fun h _ => h, fun h => h hlast⟩
      · rw [recv_failed hzero hpos hpending hfound hlast]
        exact iff_of_true (nothing_right hnil ⟨Nat.le_refl _, Nat.zero_le _⟩ (buffered_zero r))
          (fun hl => absurd hl hlast)

/-- **Conservation.** In every run the calls keep the stream and the bounds, and return 0 only at its end, exactly if
every receive that is reached counts its bytes in `int` and no receive fails after one of no bytes succeeded, unless
what happens to be in the count makes the result negative. -/
theorem correct_iff_sound (mem : List α) (hmem : mem.length = bufferSize) {tr : List (History α × RecvCall α)}
    (h : step.Run (History.start mem hmem) tr s) :
    (∀ x ∈ tr, Correct x.1 x.2) ↔ ∀ x ∈ tr, Sound x.1.reader x.2 := by
  refine h.forall_iff (P := fun s => s.Conserved ∧ s.reader.Wf) (Q := Correct) (G := fun s c => Sound s.reader c)
    ⟨History.start_conserved mem hmem, Nat.le_refl _, Nat.zero_le _⟩ ?_ ?_
  · intro s c s' hs _
    rw [correct_iff_right hs.1]
    exact right_iff_sound hs.2 c
  · intro s c s' _ hcorrect hstep
    exact ⟨hcorrect.conserved s' hstep, hcorrect.wf s' hstep⟩

/-- Nothing at first, then more than is wanted, in the third receive; then the rest. -/
theorem correct_signalled :
    ∃ tr s, step.Run (History.start (List.replicate bufferSize (0 : UInt8)) List.length_replicate) tr s ∧
      s.handed = [1, 2, 3] ∧ ∀ x ∈ tr, Correct x.1 x.2 := by
  have h := run_of_exec step (History.start (List.replicate bufferSize (0 : UInt8)) List.length_replicate)
    [⟨[0, 0], ⟨false, .wouldBlock, true, .data [1, 2, 3], 0⟩, by decide, by decide⟩,
      ⟨[0, 0], ⟨true, .error, false, .error, 0⟩, by decide, by decide⟩] rfl
  refine ⟨_, _, h, rfl, (correct_iff_sound _ _ h).mpr ?_⟩
  simp only [List.forall_mem_cons]
  refine ⟨fun hzero => ?_, fun _ _ => ⟨fun avail he => ?_, fun hl => ?_⟩, List.forall_mem_nil _⟩
  · exact absurd hzero (by decide)
  · obtain rfl := Option.some.inj he
    exact ⟨fun _ => by decide, fun _ => by decide⟩
  · exact absurd rfl (hl.2.2 [1, 2, 3])

/-- The third receive fails with 0 in `numberOfBytesRecvd`: 0 is returned, as if the peer had closed the connection. -/
theorem failed_receive_returns_zero :
    ¬ ∀ tr s, step.Run (History.start (List.replicate bufferSize (0 : UInt8)) List.length_replicate) tr s →
      ∀ x ∈ tr, Correct x.1 x.2 := by
  intro h
  have hrun := run_of_exec step (History.start (List.replicate bufferSize (0 : UInt8)) List.length_replicate)
    [⟨[0, 0], ⟨false, .wouldBlock, true, .error, 0⟩, by decide, by decide⟩] rfl
  exact nomatch ((h _ _ hrun _ List.mem_cons_self).closed (by decide +kernel)).1

end BufferedReader

end Libhbk.Windows
