import Libhbk.Base.Machine
import Libhbk.Communication.BufferedReader

/-!
# The memory of the buffered reader

`recv` copies from `m_buffer` with `memcpy` and hands two areas to `readv`. Here the bytes have addresses and no values;
what counts is which addresses a call uses, and which `readv` has stored a byte. The levels are those of `BufferedReader`.
-/

namespace Libhbk

/-- Addresses in a row, as a `struct iovec` has them. -/
structure Area where
  base : Nat
  len : Nat
  deriving DecidableEq

/-- The address is in the area. -/
def Area.Contains (x : Area) (a : Nat) : Prop := x.base ≤ a ∧ a < x.base + x.len

/-- The levels, and for each address which `readv` was the last to store a byte there; the first one has number 1. -/
structure ReaderMemory where
  fillLevel : Nat
  alreadyRead : Nat
  readvs : Nat
  storedBy : Nat → Option Nat

/-- The arguments of a call, and what `readv` returns if it is reached. -/
structure ReaderCall where
  buf : Nat
  desiredLen : Nat
  retVal : Int

namespace ReaderMemory

/-- The constructor. -/
def new : ReaderMemory := ⟨0, 0, 0, fun _ => none⟩

def bytesLeft (s : ReaderMemory) : Nat := sizeSub s.fillLevel s.alreadyRead

variable (buffer : Nat)

/-- Target and source of the `memcpy` of a call. -/
def copied (s : ReaderMemory) (c : ReaderCall) : Option (Area × Area) :=
  if c.desiredLen ≤ s.bytesLeft then some (⟨c.buf, c.desiredLen⟩, ⟨buffer + s.alreadyRead, c.desiredLen⟩)
  else if 0 < s.bytesLeft then some (⟨c.buf, s.bytesLeft⟩, ⟨buffer + s.alreadyRead, s.bytesLeft⟩)
  else none

/-- `iov[0]` and `iov[1]`, if `readv` is called. -/
def iov (s : ReaderMemory) (c : ReaderCall) : Option (Area × Area) :=
  if c.desiredLen ≤ s.bytesLeft then none
  else some (⟨c.buf + s.bytesLeft, sizeSub c.desiredLen s.bytesLeft⟩, ⟨buffer, bufferSize⟩)

/-- What `recv` returns. -/
def ret (s : ReaderMemory) (c : ReaderCall) : Int :=
  if c.desiredLen ≤ s.bytesLeft then castSsize c.desiredLen
  else if castSsize c.desiredLen < c.retVal then castSsize c.desiredLen
  else c.retVal

/-- `readv` fills the first area before the second one. -/
def scatter (storedBy : Nat → Option Nat) (number : Nat) (areas : Area × Area) (n : Nat) : Nat → Option Nat :=
  store (store storedBy areas.1.base (min n areas.1.len) fun _ => some number) areas.2.base (n - areas.1.len)
    fun _ => some number

/-- `recv` on the levels and the memory. -/
def recv (s : ReaderMemory) (c : ReaderCall) : ReaderMemory :=
  let storedBy := (s.copied buffer c).elim s.storedBy fun x => store s.storedBy x.1.base x.1.len fun _ => none
  match s.iov buffer c with
  | none => { s with alreadyRead := (s.alreadyRead + c.desiredLen) % 2 ^ 64, storedBy := storedBy }
  | some areas =>
    { fillLevel := if castSsize c.desiredLen < c.retVal then sizeSub (castSize c.retVal) c.desiredLen else 0
      alreadyRead := 0
      readvs := s.readvs + 1
      storedBy := scatter storedBy (s.readvs + 1) areas c.retVal.toNat }

/-- The lengths of both areas together fit `ssize_t`, the caller's buffer is not part of the reader, and `readv` fails
or returns no more than fits into the areas. -/
def Possible (s : ReaderMemory) (c : ReaderCall) : Prop :=
  c.desiredLen + bufferSize < 2 ^ 63 ∧ (c.buf + c.desiredLen ≤ buffer ∨ buffer + bufferSize ≤ c.buf) ∧
    ∀ areas ∈ s.iov buffer c, -1 ≤ c.retVal ∧ c.retVal ≤ (areas.1.len + areas.2.len : Nat)

instance (s : ReaderMemory) (c : ReaderCall) : Decidable (Possible buffer s c) := inferInstanceAs (Decidable (_ ∧ _))

/-- Calls of `recv` on a reader whose `m_buffer` is at this address. -/
def step : Machine ReaderMemory ReaderCall := fun s c =>
  if Possible buffer s c then some (s.recv buffer c) else none

/-- The levels between calls, and where the bytes below the fill level come from. -/
structure Inv (s : ReaderMemory) : Prop where
  level : s.alreadyRead ≤ s.fillLevel
  capacity : s.fillLevel ≤ bufferSize
  stored : ∀ a, buffer ≤ a → a < buffer + s.fillLevel → s.storedBy a = some s.readvs

variable {buffer} {s s' : ReaderMemory} {c : ReaderCall} {tr : List (ReaderMemory × ReaderCall)}

theorem Inv.bytesLeft (h : Inv buffer s) : s.bytesLeft = s.fillLevel - s.alreadyRead := by
  have hcapacity := h.capacity
  apply sizeSub_of_le h.level
  unfold bufferSize at hcapacity
  omega

theorem copied_outside (hpossible : Possible buffer s c) {a : Nat} (hlow : buffer ≤ a) (hhigh : a < buffer + bufferSize) :
    ((s.copied buffer c).elim s.storedBy fun x => store s.storedBy x.1.base x.1.len fun _ => none) a = s.storedBy a := by
  obtain ⟨-, hapart, -⟩ := hpossible
  rw [copied]
  split_ifs with hcovered hleft
  · rw [Option.elim_some]
    apply store_outside
    dsimp only
    omega
  · rw [Option.elim_some]
    apply store_outside
    dsimp only
    omega
  · rfl

theorem recv_inv (h : Inv buffer s) (hpossible : Possible buffer s c) : Inv buffer (s.recv buffer c) := by
  obtain ⟨hlen, -, hretVal⟩ := id hpossible
  have hbytesLeft := h.bytesLeft
  obtain ⟨hlevel, hcapacity, hstored⟩ := h
  have hsize : bufferSize = 65536 := rfl
  rw [recv]
  by_cases hcovered : c.desiredLen ≤ s.bytesLeft
  · rw [iov, if_pos hcovered]
    dsimp only
    have hadd : (s.alreadyRead + c.desiredLen) % 2 ^ 64 = s.alreadyRead + c.desiredLen := by
      apply Nat.mod_eq_of_lt
      omega
    refine ⟨?_, hcapacity, fun a hlow hhigh => ?_⟩
    · dsimp only
      omega
    · dsimp only at hhigh ⊢
      rw [copied_outside hpossible hlow (by omega)]
      exact hstored a hlow hhigh
  · rw [iov, if_neg hcovered] at hretVal ⊢
    obtain ⟨hmin, hmax⟩ := hretVal _ rfl
    dsimp only at hmax ⊢
    have hrest : sizeSub c.desiredLen s.bytesLeft = c.desiredLen - s.bytesLeft := sizeSub_of_le (by omega) (by omega)
    rw [castSsize_of_lt (by omega)]
    rw [hrest] at hmax ⊢
    split_ifs with hmore
    · have hcast : castSize c.retVal = c.retVal.toNat := by
        unfold castSize
        omega
      have hfill : sizeSub (castSize c.retVal) c.desiredLen = c.retVal.toNat - c.desiredLen := by
        rw [hcast]
        exact sizeSub_of_le (by omega) (by omega)
      rw [hfill]
      refine ⟨Nat.zero_le _, ?_, fun a hlow hhigh => ?_⟩
      · dsimp only
        omega
      · dsimp only at hhigh
        exact if_pos ⟨hlow, by dsimp only; omega⟩
    · refine ⟨Nat.le_refl _, Nat.zero_le _, fun a hlow hhigh => ?_⟩
      dsimp only at hhigh
      omega

theorem run_inv (h : (step buffer).Run new tr s) : Inv buffer s := by
  refine h.invariant ⟨Nat.le_refl _, Nat.zero_le _, fun a hlow hhigh => ?_⟩ ?_
  · have hzero : new.fillLevel = 0 := rfl
    omega
  · intro s c s' hinv hstep
    obtain ⟨hpossible, hstep⟩ := Option.ite_none_right_eq_some.mp hstep
    obtain rfl := Option.some.inj hstep
    exact recv_inv hinv hpossible

/-! ### What a call touches -/

/-- A call stays inside `m_buffer` and the caller's buffer, and reads of `m_buffer` what the last `readv` stored. -/
structure Inside (buffer : Nat) (s : ReaderMemory) (c : ReaderCall) : Prop where
  noWrap : s.alreadyRead ≤ s.fillLevel ∧ s.bytesLeft = s.fillLevel - s.alreadyRead
  target : ∀ x ∈ s.copied buffer c, ∀ a, x.1.Contains a → (Area.mk c.buf c.desiredLen).Contains a
  source : ∀ x ∈ s.copied buffer c, ∀ a, x.2.Contains a →
    (Area.mk buffer bufferSize).Contains a ∧ s.storedBy a = some s.readvs
  rest : ∀ areas ∈ s.iov buffer c, ∀ a, areas.1.Contains a ↔
    (Area.mk c.buf c.desiredLen).Contains a ∧ ∀ x ∈ s.copied buffer c, ¬ x.1.Contains a
  whole : ∀ areas ∈ s.iov buffer c, areas.2 = ⟨buffer, bufferSize⟩
  apart : ∀ areas ∈ s.iov buffer c, ∀ a, ¬ (areas.1.Contains a ∧ areas.2.Contains a)
  ret : s.ret c ≤ c.desiredLen

theorem copied_within (h : Inv buffer s) {x : Area × Area} (hx : x ∈ s.copied buffer c) :
    x.1 = ⟨c.buf, x.2.len⟩ ∧ x.2.base = buffer + s.alreadyRead ∧ x.2.len ≤ c.desiredLen ∧
      x.2.len ≤ s.fillLevel - s.alreadyRead := by
  rw [← h.bytesLeft]
  rw [copied] at hx
  split_ifs at hx with hcovered hleft
  · obtain rfl := Option.some.inj hx
    exact ⟨rfl, rfl, Nat.le_refl _, hcovered⟩
  · obtain rfl := Option.some.inj hx
    exact ⟨rfl, rfl, by dsimp only; omega, Nat.le_refl _⟩
  · contradiction

theorem copied_of_lt (hlt : s.bytesLeft < c.desiredLen) (a : Nat) :
    (∀ x ∈ s.copied buffer c, ¬ x.1.Contains a) ↔ ¬ (c.buf ≤ a ∧ a < c.buf + s.bytesLeft) := by
  rw [copied, if_neg (Nat.not_le.mpr hlt)]
  split_ifs with hleft
  · simp only [Option.mem_def, Option.some.injEq, forall_eq', Area.Contains]
  · refine iff_of_true (fun x hx => by contradiction) ?_
    omega

theorem iov_eq (hpossible : Possible buffer s c) {areas : Area × Area} (hareas : areas ∈ s.iov buffer c) :
    s.bytesLeft < c.desiredLen ∧
      areas = (⟨c.buf + s.bytesLeft, c.desiredLen - s.bytesLeft⟩, ⟨buffer, bufferSize⟩) := by
  have hlen := hpossible.1
  rw [iov] at hareas
  split_ifs at hareas with hcovered
  · contradiction
  · rw [sizeSub_of_le (by omega) (by omega)] at hareas
    exact ⟨by omega, (Option.some.inj hareas).symm⟩

theorem ret_le (hpossible : Possible buffer s c) : s.ret c ≤ c.desiredLen := by
  have hcast : castSsize c.desiredLen = c.desiredLen := castSsize_of_lt (by have := hpossible.1; omega)
  rw [ret, hcast]
  split_ifs <;> omega

theorem inside_of_inv (h : Inv buffer s) (hpossible : Possible buffer s c) : Inside buffer s c where
  noWrap := ⟨h.level, h.bytesLeft⟩
  target x hx a ha := by
    obtain ⟨htarget, -, hlen, -⟩ := copied_within h hx
    rw [htarget] at ha
    exact ⟨ha.1, Nat.lt_of_lt_of_le ha.2 (Nat.add_le_add_left hlen _)⟩
  source x hx a ha := by
    obtain ⟨-, hbase, -, hlen⟩ := copied_within h hx
    obtain ⟨hlow, hhigh⟩ := ha
    have hlevel := h.level
    have hcapacity := h.capacity
    rw [hbase] at hlow hhigh
    refine ⟨⟨by dsimp only; omega, by dsimp only; omega⟩, ?_⟩
    apply h.stored <;> omega
  rest areas hareas a := by
    obtain ⟨hlt, rfl⟩ := iov_eq hpossible hareas
    rw [copied_of_lt hlt, Area.Contains, Area.Contains]
    dsimp only
    omega
  whole areas hareas := by
    obtain ⟨-, rfl⟩ := iov_eq hpossible hareas
    rfl
  apart areas hareas a := by
    obtain ⟨hlt, rfl⟩ := iov_eq hpossible hareas
    obtain ⟨-, hapart, -⟩ := hpossible
    rw [Area.Contains, Area.Contains]
    dsimp only
    omega
  ret := ret_le hpossible

theorem run_inside (h : (step buffer).Run new tr s) : ∀ x ∈ tr, Inside buffer x.1 x.2 := by
  intro x hx
  obtain ⟨tr₂, tr₁, rfl⟩ := List.append_of_mem hx
  obtain ⟨s', hrun, hstep, -⟩ := h.split
  obtain ⟨hpossible, -⟩ := Option.ite_none_right_eq_some.mp hstep
  exact inside_of_inv (run_inv hrun) hpossible

/-- **The reader stays inside its buffers**, whatever is asked for and however much `readv` returns. -/
theorem recv_inside (buffer : Nat) {tr : List (ReaderMemory × ReaderCall)} {s : ReaderMemory}
    (h : (step buffer).Run new tr s) :
    (s.alreadyRead ≤ s.fillLevel ∧ s.fillLevel ≤ bufferSize) ∧ ∀ x ∈ tr, Inside buffer x.1 x.2 :=
  ⟨⟨(run_inv h).level, (run_inv h).capacity⟩, run_inside h⟩

/-- Three of five bytes are handed out, the other two in the next call. -/
theorem recv_inside_five : ∃ tr s, (step 0).Run new tr s ∧ tr.length = 2 ∧
    (s.alreadyRead ≤ s.fillLevel ∧ s.fillLevel ≤ bufferSize) ∧ ∀ x ∈ tr, Inside 0 x.1 x.2 := by
  have hfirst : step 0 new ⟨70000, 3, 5⟩ = some (new.recv 0 ⟨70000, 3, 5⟩) := if_pos (by decide)
  have hsecond : step 0 (new.recv 0 ⟨70000, 3, 5⟩) ⟨80000, 2, 0⟩ = some _ := if_pos (by decide)
  have hrun := (Machine.Run.nil.snoc hfirst).snoc hsecond
  exact ⟨_, _, hrun, rfl, recv_inside 0 hrun⟩

/-! ### The reader with values -/

/-- What `readv` returns if the areas hold `n` bytes. -/
def readvResult {α : Type} (n : Nat) : Readv α → Int
  | .error _ => -1
  | .data avail => (avail.take n).length

/-- A call of the reader with values, as one of the reader with addresses. -/
def callAt {α : Type} (base : Nat) (r : BufferedReader α) (x : RecvCall α) : ReaderCall :=
  ⟨base, x.buf.length, readvResult (x.buf.length - r.bytesLeft + bufferSize) x.readv⟩

/-- What the calls return. -/
def returns {α : Type} (h : History α) : List (RecvCall α) → List Int
  | [] => []
  | x :: calls => (h.reader.recv x.buf x.readv).ret :: returns (h.recv x) calls

/-- The levels are the same. -/
def SameLevels {α : Type} (s : ReaderMemory) (r : BufferedReader α) : Prop :=
  s.fillLevel = r.fillLevel ∧ s.alreadyRead = r.alreadyRead

/-- The caller's buffer lies apart from the reader, and both lengths together fit `ssize_t`. -/
def Placed {α : Type} (buffer : Nat) (x : Nat × RecvCall α) : Prop :=
  x.2.buf.length + bufferSize < 2 ^ 63 ∧ (x.1 + x.2.buf.length ≤ buffer ∨ buffer + bufferSize ≤ x.1)

theorem recv_refines {α : Type} (buffer : Nat) (r : BufferedReader α) (hw : r.Wf) (buf : List α) (k : Readv α)
    (hlevels : s.SameLevels r) (hlen : c.desiredLen = buf.length)
    (hsize : buf.length + bufferSize < 2 ^ 63)
    (hretVal : c.retVal = readvResult (buf.length - r.bytesLeft + bufferSize) k) :
    s.ret c = (r.recv buf k).ret ∧ (s.recv buffer c).fillLevel = (r.recv buf k).reader.fillLevel ∧
      (s.recv buffer c).alreadyRead = (r.recv buf k).reader.alreadyRead := by
  obtain ⟨hfill, halready⟩ := hlevels
  have hleft : s.bytesLeft = r.bytesLeft := by
    rw [bytesLeft, BufferedReader.bytesLeft, hfill, halready]
  have hcast : castSsize c.desiredLen = buf.length := by
    rw [hlen]
    exact castSsize_of_lt (by omega)
  have hfails : ¬ (buf.length : Int) < -1 := by
    rw [Int.not_lt]
    exact Int.le_trans (by decide) (Int.natCast_nonneg _)
  have hadd (hcovered : buf.length ≤ r.bytesLeft) :
      (r.alreadyRead + buf.length) % 2 ^ 64 = r.alreadyRead + buf.length := by
    apply Nat.mod_eq_of_lt
    rw [hw.bytesLeft] at hcovered
    have hlevel := hw.1
    have hcapacity := hw.2
    clear hretVal
    omega
  unfold ReaderMemory.recv ret iov BufferedReader.recv
  rw [hcast, hleft, hlen]
  by_cases hcovered : buf.length ≤ r.bytesLeft
  · simp only [if_pos hcovered, halready, hfill, hadd hcovered, and_self]
  · simp only [if_neg hcovered]
    cases k with
    | error again => simp only [hretVal, readvResult, if_neg hfails, and_self]
    | data avail =>
      have hgot := List.length_take_le (buf.length - r.bytesLeft + bufferSize) avail
      simp only [hretVal, readvResult]
      clear hretVal
      generalize avail.take (buf.length - r.bytesLeft + bufferSize) = got at hgot ⊢
      refine ⟨trivial, ?_, trivial⟩
      split_ifs with hmore
      · rw [castSize_ofNat (by omega), sizeSub_of_le (by omega) (by omega)]
      · rfl

theorem readvResult_bounds {α : Type} (n : Nat) (k : Readv α) : -1 ≤ readvResult n k ∧ readvResult n k ≤ n := by
  cases k with
  | error again =>
    rw [readvResult]
    omega
  | data avail =>
    have hle := List.length_take_le n avail
    rw [readvResult]
    omega

theorem possible_callAt {α : Type} {r : BufferedReader α} (hlevels : s.SameLevels r) {x : Nat × RecvCall α}
    (hplaced : Placed buffer x) : Possible buffer s (callAt x.1 r x.2) := by
  refine ⟨hplaced.1, hplaced.2, fun areas hareas => ?_⟩
  have hleft : s.bytesLeft = r.bytesLeft := by
    rw [bytesLeft, BufferedReader.bytesLeft, hlevels.1, hlevels.2]
  have hbounds := readvResult_bounds (x.2.buf.length - r.bytesLeft + bufferSize) x.2.readv
  have hsize := hplaced.1
  rw [iov] at hareas
  split_ifs at hareas with hcovered
  · simp at hareas
  · obtain rfl := Option.mem_some.mp hareas
    rw [hleft] at hcovered ⊢
    have hcalled : (callAt x.1 r x.2).desiredLen = x.2.buf.length := rfl
    rw [hcalled] at hcovered ⊢
    rw [sizeSub_of_le (by omega) (by omega)]
    exact hbounds

theorem history_steps {α : Type} (h : History α) (hw : h.reader.Wf) (hlevels : s.SameLevels h.reader)
    (calls : List (Nat × RecvCall α)) (hplaced : ∀ x ∈ calls, Placed buffer x) : ∃ tr s',
      (step buffer).Run s tr s' ∧ s'.SameLevels (h.run (calls.map Prod.snd)).reader ∧
        tr.reverse.map (fun y => y.1.ret y.2) = returns h (calls.map Prod.snd) ∧
          tr.reverse.map (fun y => (y.2.buf, y.2.desiredLen)) = calls.map fun x => (x.1, x.2.buf.length) := by
  induction calls generalizing h s with
  | nil => exact ⟨[], s, .nil, hlevels, rfl, rfl⟩
  | cons x calls ih =>
    have hfirst := hplaced x List.mem_cons_self
    obtain ⟨hret, hlevels'⟩ := recv_refines (c := callAt x.1 h.reader x.2) buffer h.reader hw x.2.buf x.2.readv hlevels
      rfl hfirst.1 rfl
    have hstep : step buffer s (callAt x.1 h.reader x.2) = some _ := if_pos (possible_callAt hlevels hfirst)
    obtain ⟨tr, s', hrun, hlast, hrets, hcalls⟩ := ih (h.recv x.2) (BufferedReader.recv_wf _ hw _ _) hlevels'
      fun y hy => hplaced y (List.mem_cons_of_mem _ hy)
    refine ⟨_, s', (Machine.Run.nil.snoc hstep).trans hrun, hlast, ?_, ?_⟩
    · rw [List.reverse_append, List.map_append, hrets]
      exact congrArg (· :: returns (h.recv x.2) (calls.map Prod.snd)) hret
    · rw [List.reverse_append, List.map_append, hcalls]
      rfl

/-- **Refinement.** Whatever is received with the reader, the reader with addresses makes the same calls, has the same
levels and returns the same; so the copies of those calls stay inside the buffers. -/
theorem history_inside {α : Type} (buffer : Nat) (mem : List α) (hmem : mem.length = bufferSize)
    (calls : List (Nat × RecvCall α)) (hplaced : ∀ x ∈ calls, Placed buffer x) :
    ∃ (tr : List (ReaderMemory × ReaderCall)) (s : ReaderMemory), (step buffer).Run new tr s ∧
      s.SameLevels ((History.start mem hmem).run (calls.map Prod.snd)).reader ∧
      tr.reverse.map (fun y => y.1.ret y.2) = returns (History.start mem hmem) (calls.map Prod.snd) ∧
      tr.reverse.map (fun y => (y.2.buf, y.2.desiredLen)) = calls.map (fun x => (x.1, x.2.buf.length)) ∧
      ∀ y ∈ tr, Inside buffer y.1 y.2 := by
  obtain ⟨tr, s, hrun, hlevels, hrets, hcalls⟩ := history_steps (s := new) (History.start mem hmem)
    ⟨Nat.le_refl _, Nat.zero_le _⟩ ⟨rfl, rfl⟩ calls hplaced
  exact ⟨tr, s, hrun, hlevels, hrets, hcalls, run_inside hrun⟩

instance {α : Type} (buffer : Nat) (x : Nat × RecvCall α) : Decidable (Placed buffer x) :=
  inferInstanceAs (Decidable (_ ∧ _))

theorem history_inside_five :
    ∃ (tr : List (ReaderMemory × ReaderCall)) (s : ReaderMemory), (step 0).Run new tr s ∧
      tr.reverse.map (fun y => (y.2.buf, y.2.desiredLen)) = [(70000, 3), (80000, 2)] ∧
      tr.reverse.map (fun y => y.1.ret y.2) = [3, 2] ∧ ∀ y ∈ tr, Inside 0 y.1 y.2 := by
  obtain ⟨tr, s, hrun, -, hrets, hcalls, hinside⟩ :=
    history_inside 0 (List.replicate bufferSize (0 : UInt8)) List.length_replicate
      [(70000, ⟨[0, 0, 0], .data [1, 2, 3, 4, 5], by decide⟩), (80000, ⟨[0, 0], .error true, by decide⟩)] (by decide)
  refine ⟨tr, s, hrun, hcalls, hrets.trans ?_, hinside⟩
  decide +kernel

end ReaderMemory

end Libhbk
