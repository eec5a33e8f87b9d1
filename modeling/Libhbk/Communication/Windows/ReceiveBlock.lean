import Libhbk.Communication.ReceiveBlock

/-!
# Receiving a whole block on Windows and on Linux

The Windows `receiveComplete` waits with `select`, asks `recv` for what is missing as an `int`, and has its own
condition for waiting again; `ssize_t` is `int` there. Both versions are driven with the same answers of the system:
what `recv` and the waits give, in the order of the calls. Its `pDat` and `DataToGet` are `pPos` and `sizeLeft` here.
-/

namespace Libhbk

open Machine

variable {α : Type}

namespace Windows.ReceiveBlock

open Libhbk.ReceiveBlock (Pc)

/-- The condition of the loop. -/
def loop (len : Nat) (s : ReceiveBlock α) : ReceiveBlock α :=
  if s.sizeLeft = 0 then { s with pc := .returned (castInt len) } else { s with pc := .recv }

/-- `receiveComplete(pBlock, len, msTimeout)` up to the first `recv`. -/
def start (pBlock len : Nat) (mem : Nat → α) (taken : Nat) : ReceiveBlock α :=
  loop len ⟨pBlock, len, .recv, mem, taken⟩

/-- What `recv` is asked for. -/
def request (dataToGet : Nat) : Nat := castSize (castInt dataToGet)

/-- `recv` returns an `int`, and no more than it was asked for. -/
def step (len : Nat) (byte : Nat → α) : Machine (ReceiveBlock α) ReceiveAct
  | s, .recv o =>
    if s.pc = .recv then
      match o with
      | .count n =>
        if n ≤ request s.sizeLeft ∧ n < 2 ^ 31 then
          if 0 < n then
            some (loop len { s with
              pPos := s.pPos + n
              sizeLeft := s.sizeLeft - n
              mem := store s.mem s.pPos n fun i => byte (s.taken + i)
              taken := s.taken + n })
          else some { s with pc := .returned (castInt (len - s.sizeLeft)) }
        else none
      | .wouldBlock => some { s with pc := .poll }
      | .error => some { s with pc := .returned (-1) }
    else none
  | s, .wait w =>
    if s.pc = .poll then
      -- `WSAGetLastError() != WSAEINTR`
      if w.ret = -1 ∧ w ≠ .intr then some s
      else if w.ret ≠ 1 then some { s with pc := .returned (-1) }
      else some (loop len s)
    else none

end Windows.ReceiveBlock

namespace ReceiveBlock

/-! ### The same answers -/

/-- Both return the same, or neither has returned, and the memory is the same. -/
def Agree (size : Nat) (byte : Nat → α) (pBlock : Nat) (mem : Nat → α) (taken : Nat) (acts : List ReceiveAct) : Prop :=
  let l := (step size byte).settle (start pBlock size mem taken) acts
  let w := (Windows.ReceiveBlock.step size byte).settle (Windows.ReceiveBlock.start pBlock size mem taken) acts
  l.pc.ret = w.pc.ret ∧ l.mem = w.mem

/-- What `recv` can return with `left` bytes missing, on either system. -/
def Possible : Nat → List ReceiveAct → Prop
  | _, [] => True
  | left, .recv (.count n) :: acts => n ≤ Windows.ReceiveBlock.request left ∧ n < 2 ^ 31 ∧ Possible (left - n) acts
  | left, _ :: acts => Possible left acts

/-- A version that waits again after `retried` returns -1 with nothing more received. -/
def GivesUp (size left : Nat) (retried : Waited) : Pc → List ReceiveAct → Prop
  | .recv, .recv (.count n) :: _ => n = 0 ∧ castInt (size - left) = -1
  | .recv, .recv .wouldBlock :: acts => GivesUp size left retried .poll acts
  | .recv, .recv .error :: _ => True
  | .poll, .wait w :: acts =>
    if w = retried then GivesUp size left retried .poll acts
    else if w = .ready then GivesUp size left retried .recv acts
    else True
  | _, _ => False

/-- Answers that both versions treat alike, with `left` bytes missing. After `EINTR` Linux goes on alone, after
another error of a wait Windows does. -/
def Alike (size : Nat) : Pc → Nat → List ReceiveAct → Prop
  | .recv, left, .recv (.count n) :: acts =>
    n = 0 ∨ if n = left then size < 2 ^ 31 else Alike size .recv (left - n) acts
  | .recv, left, .recv .wouldBlock :: acts => Alike size .poll left acts
  | .poll, left, .wait .ready :: acts => Alike size .recv left acts
  | .poll, left, .wait .intr :: acts => GivesUp size left .intr .poll acts
  | .poll, left, .wait .error :: acts => GivesUp size left .error .poll acts
  | _, _, _ => True

/-! ### One version by itself -/

/-- What the two versions do in their own ways: which positive numbers of bytes `recv` may return, what is returned
with everything received, and the answer to a wait after which they wait again. -/
structure Version where
  size : Nat
  accepts : Nat → Nat → Bool
  whole : Int
  retried : Waited

namespace Version

def loop (v : Version) (s : ReceiveBlock α) : ReceiveBlock α :=
  if s.sizeLeft = 0 then { s with pc := .returned v.whole } else { s with pc := .recv }

def step (v : Version) (byte : Nat → α) : Machine (ReceiveBlock α) ReceiveAct
  | s, .recv (.count n) =>
    if s.pc = .recv then
      if 0 < n then
        if v.accepts s.sizeLeft n then
          some (v.loop { s with
            pPos := s.pPos + n
            sizeLeft := s.sizeLeft - n
            mem := store s.mem s.pPos n fun i => byte (s.taken + i)
            taken := s.taken + n })
        else none
      else some { s with pc := .returned (castInt (v.size - s.sizeLeft)) }
    else none
  | s, .recv .wouldBlock => if s.pc = .recv then some { s with pc := .poll } else none
  | s, .recv .error => if s.pc = .recv then some { s with pc := .returned (-1) } else none
  | s, .wait w =>
    if s.pc = .poll then
      if w = v.retried then some s
      else if w = .ready then some (v.loop s)
      else some { s with pc := .returned (-1) }
    else none

def linux (size : Nat) : Version := ⟨size, fun left n => n ≤ left, castSsize size, .intr⟩

def windows (size : Nat) : Version :=
  ⟨size, fun left n => n ≤ Windows.ReceiveBlock.request left ∧ n < 2 ^ 31, castInt size, .error⟩

theorem linux_loop (size : Nat) (s : ReceiveBlock α) : s.loop size = (linux size).loop s := by
  simp only [ReceiveBlock.loop, loop, linux]

theorem windows_loop (size : Nat) (s : ReceiveBlock α) :
    Windows.ReceiveBlock.loop size s = (windows size).loop s := by
  simp only [Windows.ReceiveBlock.loop, loop, windows]

theorem linux_step (size : Nat) (byte : Nat → α) : ReceiveBlock.step size byte = (linux size).step byte := by
  funext s a
  cases a with
  | recv o =>
    cases o with
    | count n =>
      rcases Nat.eq_zero_or_pos n with rfl | hn
      · simp [ReceiveBlock.step, step, linux]
      · simp only [ReceiveBlock.step, step, linux_loop, if_pos hn]
        simp only [linux, decide_eq_true_eq]
    | wouldBlock => rfl
    | error => rfl
  | wait w =>
    simp only [ReceiveBlock.step, step, linux_loop]
    cases w <;> simp [Waited.ret, linux]

theorem windows_step (size : Nat) (byte : Nat → α) :
    Windows.ReceiveBlock.step size byte = (windows size).step byte := by
  funext s a
  cases a with
  | recv o =>
    cases o with
    | count n =>
      rcases Nat.eq_zero_or_pos n with rfl | hn
      · simp [Windows.ReceiveBlock.step, step, windows]
      · simp only [Windows.ReceiveBlock.step, step, windows_loop, if_pos hn]
        simp only [windows, decide_eq_true_eq]
    | wouldBlock => rfl
    | error => rfl
  | wait w =>
    simp only [Windows.ReceiveBlock.step, step, windows_loop]
    cases w <;> simp [Waited.ret, windows]

variable {v : Version} {byte : Nat → α} {s s' : ReceiveBlock α} {a : ReceiveAct}

theorem left_loop (v : Version) (s : ReceiveBlock α) : (v.loop s).sizeLeft = s.sizeLeft := by
  unfold loop
  split <;> rfl

theorem loop_of_pos (hleft : 0 < s.sizeLeft) : v.loop s = { s with pc := .recv } := by
  rw [loop, if_neg (Nat.ne_of_gt hleft)]

theorem step_returned {r : Int} (hpc : s.pc = .returned r) (a : ReceiveAct) : v.step byte s a = none := by
  have hrecv : s.pc ≠ .recv := hpc ▸ Pc.noConfusion
  have hpoll : s.pc ≠ .poll := hpc ▸ Pc.noConfusion
  cases a with
  | recv o => cases o <;> exact if_neg hrecv
  | wait w => exact if_neg hpoll

theorem step_left_le (h : v.step byte s a = some s') : s'.sizeLeft ≤ s.sizeLeft := by
  cases a with
  | recv o =>
    cases o with
    | count n =>
      obtain ⟨_, h⟩ := Option.ite_none_right_eq_some.mp h
      split at h
      · obtain ⟨_, h⟩ := Option.ite_none_right_eq_some.mp h
        obtain rfl := Option.some.inj h
        rw [left_loop]
        exact Nat.sub_le _ _
      · obtain rfl := Option.some.inj h
        exact Nat.le_refl _
    | wouldBlock | error =>
      obtain ⟨_, h⟩ := Option.ite_none_right_eq_some.mp h
      obtain rfl := Option.some.inj h
      exact Nat.le_refl _
  | wait w =>
    obtain ⟨_, h⟩ := Option.ite_none_right_eq_some.mp h
    split_ifs at h
    · obtain rfl := Option.some.inj h
      exact Nat.le_refl _
    · obtain rfl := Option.some.inj h
      rw [left_loop]
    · obtain rfl := Option.some.inj h
      exact Nat.le_refl _

theorem step_left_lt {n : Nat} (hn : 0 < n) (hleft : 0 < s.sizeLeft) (h : v.step byte s (.recv (.count n)) = some s') :
    s'.sizeLeft < s.sizeLeft := by
  obtain ⟨_, h⟩ := Option.ite_none_right_eq_some.mp h
  rw [if_pos hn] at h
  obtain ⟨_, h⟩ := Option.ite_none_right_eq_some.mp h
  obtain rfl := Option.some.inj h
  rw [left_loop]
  exact Nat.sub_lt hleft hn

theorem step_closed (hpc : s.pc = .recv) :
    v.step byte s (.recv (.count 0)) = some { s with pc := .returned (castInt (v.size - s.sizeLeft)) } :=
  if_pos hpc

theorem step_wouldBlock (hpc : s.pc = .recv) : v.step byte s (.recv .wouldBlock) = some { s with pc := .poll } :=
  if_pos hpc

theorem step_error (hpc : s.pc = .recv) : v.step byte s (.recv .error) = some { s with pc := .returned (-1) } :=
  if_pos hpc

theorem step_retried (hpc : s.pc = .poll) : v.step byte s (.wait v.retried) = some s := by
  rw [step, if_pos hpc, if_pos rfl]

theorem step_ready (hready : v.retried ≠ .ready) (hpc : s.pc = .poll) (hleft : 0 < s.sizeLeft) :
    v.step byte s (.wait .ready) = some { s with pc := .recv } := by
  rw [step, if_pos hpc, if_neg hready.symm, if_pos rfl, loop_of_pos hleft]

theorem step_failed {w : Waited} (hpc : s.pc = .poll) (hw : w ≠ v.retried) (hready : w ≠ .ready) :
    v.step byte s (.wait w) = some { s with pc := .returned (-1) } := by
  rw [step, if_pos hpc, if_neg hw, if_neg hready]

theorem step_recv_wait (hpc : s.pc = .recv) (w : Waited) : v.step byte s (.wait w) = none := by
  rw [step, if_neg]
  rw [hpc]
  exact Pc.noConfusion

theorem step_poll_recv (hpc : s.pc = .poll) (o : Recvd) : v.step byte s (.recv o) = none := by
  have hne : s.pc ≠ .recv := hpc ▸ Pc.noConfusion
  cases o <;> exact if_neg hne

theorem settle_returned (s : ReceiveBlock α) (r : Int) (acts : List ReceiveAct) :
    (v.step byte).settle { s with pc := .returned r } acts = { s with pc := .returned r } :=
  settle_stuck (step_returned rfl) acts

theorem settle_retried (hpc : s.pc = .poll) (n : Nat) :
    (v.step byte).settle s (List.replicate n (.wait v.retried)) = s := by
  induction n with
  | zero => rfl
  | succ n ih =>
    rw [List.replicate_succ, settle_cons (step_retried hpc)]
    exact ih

theorem settle_left_le (s : ReceiveBlock α) (acts : List ReceiveAct) :
    ((v.step byte).settle s acts).sizeLeft ≤ s.sizeLeft := by
  refine settle_invariant (P := fun s' : ReceiveBlock α => s'.sizeLeft ≤ s.sizeLeft) ?_ (Nat.le_refl _) acts
  intro s₁ a s₂ h₁ hstep
  exact Nat.le_trans (step_left_le hstep) h₁

/-- A version waits until the answer is another one, and gives up without having received more, or not. -/
theorem givesUp_iff (byte : Nat → α) (hready : v.retried ≠ .ready) (hleft : 0 < s.sizeLeft) (acts : List ReceiveAct)
    (hpc : s.pc.ret = none) :
    (((v.step byte).settle s acts).pc.ret = some (-1) ∧ ((v.step byte).settle s acts).sizeLeft = s.sizeLeft) ↔
      GivesUp v.size s.sizeLeft v.retried s.pc acts := by
  induction acts generalizing s with
  | nil =>
    rw [settle, hpc]
    cases s.pc <;> simp [GivesUp]
  | cons a acts ih =>
    cases hs : s.pc with
    | returned r =>
      rw [hs] at hpc
      cases hpc
    | recv =>
      cases a with
      | recv o =>
        cases o with
        | count n =>
          rcases Nat.eq_zero_or_pos n with rfl | hn
          · rw [settle_cons (step_closed hs), settle_returned]
            simp [GivesUp, Pc.ret]
          · refine iff_of_false ?_ (fun h => Nat.ne_of_gt hn h.1)
            rintro ⟨hret, hsame⟩
            cases hstep : v.step byte s (.recv (.count n)) with
            | none =>
              rw [settle_none hstep, hpc] at hret
              cases hret
            | some s' =>
              rw [settle_cons hstep] at hsame
              have hlt := step_left_lt hn hleft hstep
              have hle : ((v.step byte).settle s' acts).sizeLeft ≤ s'.sizeLeft := settle_left_le s' acts
              omega
        | wouldBlock =>
          rw [settle_cons (step_wouldBlock hs)]
          exact ih (s := { s with pc := .poll }) hleft rfl
        | error =>
          rw [settle_cons (step_error hs), settle_returned]
          simp [GivesUp, Pc.ret]
      | wait w =>
        rw [settle_none (step_recv_wait hs w), hpc]
        simp [GivesUp]
    | poll =>
      cases a with
      | recv o =>
        rw [settle_none (step_poll_recv hs o), hpc]
        simp [GivesUp]
      | wait w =>
        by_cases hw : w = v.retried
        · subst hw
          rw [settle_cons (step_retried hs), GivesUp, if_pos rfl, ← hs]
          exact ih hleft hpc
        · by_cases hwready : w = .ready
          · subst hwready
            rw [settle_cons (step_ready hready hs hleft), GivesUp, if_neg hw, if_pos rfl]
            exact ih (s := { s with pc := .recv }) hleft rfl
          · rw [settle_cons (step_failed hs hw hwready), GivesUp, if_neg hw, if_neg hwready, settle_returned]
            simp [Pc.ret]

/-! ### Both versions -/

theorem step_count {n : Nat} (hpc : s.pc = .recv) (hn : 0 < n) (hacc : v.accepts s.sizeLeft n) :
    v.step byte s (.recv (.count n)) = some (v.loop { s with
      pPos := s.pPos + n
      sizeLeft := s.sizeLeft - n
      mem := store s.mem s.pPos n fun i => byte (s.taken + i)
      taken := s.taken + n }) := by
  rw [step, if_pos hpc, if_pos hn, if_pos hacc]

theorem loop_of_zero (hleft : s.sizeLeft = 0) : v.loop s = { s with pc := .returned v.whole } :=
  if_pos hleft

/-- Return value and number of bytes received. -/
def Same (l w : ReceiveBlock α) : Prop := l.pc.ret = w.pc.ret ∧ l.sizeLeft = w.sizeLeft

theorem whole_eq_iff {size : Nat} (hsize : size < 2 ^ 63) : castSsize size = castInt size ↔ size < 2 ^ 31 := by
  rw [castSsize_of_lt hsize, eq_comm, castInt_eq_iff]

/-- **Simulation.** At the same call, with the same number of bytes missing, both versions come to the same exactly
if the answers are alike for both. -/
theorem settle_same_iff {size : Nat} (hsize : size < 2 ^ 63) {l w : ReceiveBlock α} (hsame : l.pc = w.pc)
    (hleft : l.sizeLeft = w.sizeLeft) (hpos : 0 < l.sizeLeft) (hpc : l.pc.ret = none) (acts : List ReceiveAct)
    (hpossible : Possible l.sizeLeft acts) :
    Same (((linux size).step byte).settle l acts) (((windows size).step byte).settle w acts) ↔
      Alike size l.pc l.sizeLeft acts := by
  induction acts generalizing l w with
  | nil =>
    refine iff_of_true ⟨congrArg Pc.ret hsame, hleft⟩ ?_
    cases l.pc <;> trivial
  | cons a acts ih =>
    have hposw : 0 < w.sizeLeft := hleft ▸ hpos
    have hretw : w.pc.ret = none := hsame ▸ hpc
    cases hl : l.pc with
    | returned r =>
      rw [hl] at hpc
      cases hpc
    | recv =>
      have hw : w.pc = .recv := hsame ▸ hl
      cases a with
      | recv o =>
        cases o with
        | count n =>
          rcases Nat.eq_zero_or_pos n with rfl | hn
          · rw [settle_cons (step_closed hl), settle_cons (step_closed hw), settle_returned, settle_returned]
            refine iff_of_true ⟨?_, hleft⟩ (Or.inl rfl)
            rw [hleft]
            rfl
          · obtain ⟨hreq, hint, hpossible⟩ := hpossible
            have hle : n ≤ l.sizeLeft := le_of_le_castSize hreq hint
            have hacc : (linux size).accepts l.sizeLeft n := decide_eq_true hle
            have haccw : (windows size).accepts w.sizeLeft n := decide_eq_true ⟨hleft ▸ hreq, hint⟩
            rw [settle_cons (step_count hl hn hacc), settle_cons (step_count hw hn haccw)]
            rw [Alike, or_iff_right (Nat.ne_of_gt hn)]
            by_cases hall : n = l.sizeLeft
            · have hzero : l.sizeLeft - n = 0 := by omega
              have hzerow : w.sizeLeft - n = 0 := by omega
              rw [if_pos hall, loop_of_zero hzero, loop_of_zero hzerow, settle_returned, settle_returned,
                ← whole_eq_iff hsize]
              simp only [Same, Pc.ret, linux, windows, Option.some.injEq, hleft, and_true]
            · have hmore : 0 < l.sizeLeft - n := by omega
              have hmorew : 0 < w.sizeLeft - n := by omega
              rw [if_neg hall, loop_of_pos hmore, loop_of_pos hmorew]
              exact ih (l := ⟨l.pPos + n, l.sizeLeft - n, .recv, _, l.taken + n⟩)
                (w := ⟨w.pPos + n, w.sizeLeft - n, .recv, _, w.taken + n⟩) rfl (by rw [hleft]) hmore rfl hpossible
        | wouldBlock =>
          rw [settle_cons (step_wouldBlock hl), settle_cons (step_wouldBlock hw)]
          exact ih (l := { l with pc := .poll }) (w := { w with pc := .poll }) rfl hleft hpos rfl hpossible
        | error =>
          rw [settle_cons (step_error hl), settle_cons (step_error hw), settle_returned, settle_returned]
          exact iff_of_true ⟨rfl, hleft⟩ trivial
      | wait x =>
        rw [settle_none (step_recv_wait hl x), settle_none (step_recv_wait hw x)]
        exact iff_of_true ⟨congrArg Pc.ret hsame, hleft⟩ trivial
    | poll =>
      have hw : w.pc = .poll := hsame ▸ hl
      cases a with
      | recv o =>
        rw [settle_none (step_poll_recv hl o), settle_none (step_poll_recv hw o)]
        exact iff_of_true ⟨congrArg Pc.ret hsame, hleft⟩ trivial
      | wait x =>
        cases x with
        | ready =>
          have hlinux : (linux size).step byte l (.wait .ready) = some _ := step_ready Waited.noConfusion hl hpos
          have hwindows : (windows size).step byte w (.wait .ready) = some _ :=
            step_ready Waited.noConfusion hw hposw
          rw [settle_cons hlinux, settle_cons hwindows]
          exact ih (l := { l with pc := .recv }) (w := { w with pc := .recv }) rfl hleft hpos rfl hpossible
        | timeout =>
          have hlinux : (linux size).step byte l (.wait .timeout) = some _ :=
            step_failed hl Waited.noConfusion Waited.noConfusion
          have hwindows : (windows size).step byte w (.wait .timeout) = some _ :=
            step_failed hw Waited.noConfusion Waited.noConfusion
          rw [settle_cons hlinux, settle_cons hwindows, settle_returned, settle_returned]
          exact iff_of_true ⟨rfl, hleft⟩ trivial
        | intr =>
          -- Windows returns
          have hlinux : (linux size).step byte l (.wait .intr) = some l := step_retried hl
          have hwindows : (windows size).step byte w (.wait .intr) = some _ :=
            step_failed hw Waited.noConfusion Waited.noConfusion
          rw [settle_cons hlinux, settle_cons hwindows, settle_returned, Same, ← hleft]
          have hgives := givesUp_iff (v := linux size) byte Waited.noConfusion hpos acts hpc
          rw [hl] at hgives
          exact hgives
        | error =>
          -- Linux returns
          have hlinux : (linux size).step byte l (.wait .error) = some _ :=
            step_failed hl Waited.noConfusion Waited.noConfusion
          have hwindows : (windows size).step byte w (.wait .error) = some w := step_retried hw
          rw [settle_cons hlinux, settle_cons hwindows, settle_returned, Same, eq_comm,
            eq_comm (a := l.sizeLeft)]
          have hgives := givesUp_iff (v := windows size) byte Waited.noConfusion hposw acts hretw
          rw [hw, ← hleft] at hgives
          exact hgives

/-! ### The memory -/

section memory

variable {pBlock taken : Nat} {mem : Nat → α}

theorem loop_inv (h : Inv byte pBlock v.size mem taken s) (hleft : 0 < s.sizeLeft) :
    Inv byte pBlock v.size mem taken (v.loop s) := by
  rw [loop_of_pos hleft]
  exact ⟨h.left_le, h.pPos_eq, h.taken_eq, h.mem_eq, fun _ => hleft⟩

theorem step_inv (hacc : ∀ left n, v.accepts left n → n ≤ left) (h : Inv byte pBlock v.size mem taken s)
    (hstep : v.step byte s a = some s') : Inv byte pBlock v.size mem taken s' := by
  cases a with
  | recv o =>
    cases o with
    | count n =>
      obtain ⟨hpc, hstep⟩ := Option.ite_none_right_eq_some.mp hstep
      split at hstep
      · obtain ⟨hn, hstep⟩ := Option.ite_none_right_eq_some.mp hstep
        obtain rfl := Option.some.inj hstep
        unfold loop
        split
        · exact h.count (hacc _ _ hn) nofun
        · next hleft => exact h.count (hacc _ _ hn) fun _ => Nat.lt_of_sub_ne_zero hleft
      · obtain rfl := Option.some.inj hstep
        exact h.congr nofun
    | wouldBlock =>
      obtain ⟨hpc, hstep⟩ := Option.ite_none_right_eq_some.mp hstep
      obtain rfl := Option.some.inj hstep
      exact h.congr fun _ => congrArg Pc.ret hpc
    | error =>
      obtain ⟨hpc, hstep⟩ := Option.ite_none_right_eq_some.mp hstep
      obtain rfl := Option.some.inj hstep
      exact h.congr nofun
  | wait w =>
    obtain ⟨hpc, hstep⟩ := Option.ite_none_right_eq_some.mp hstep
    split_ifs at hstep
    · obtain rfl := Option.some.inj hstep
      exact h
    · obtain rfl := Option.some.inj hstep
      exact loop_inv h (h.left_pos (congrArg Pc.ret hpc))
    · obtain rfl := Option.some.inj hstep
      exact h.congr nofun

/-- Up to the first `recv`. -/
def start (v : Version) (pBlock : Nat) (mem : Nat → α) (taken : Nat) : ReceiveBlock α :=
  v.loop ⟨pBlock, v.size, .recv, mem, taken⟩

theorem settle_inv (hacc : ∀ left n, v.accepts left n → n ≤ left) (acts : List ReceiveAct) :
    Inv byte pBlock v.size mem taken ((v.step byte).settle (v.start pBlock mem taken) acts) := by
  refine settle_invariant (fun _ _ _ => step_inv hacc) ?_ acts
  unfold start loop
  split
  · exact inv_of_start nofun
  · next hleft => exact inv_of_start fun _ => Nat.pos_of_ne_zero hleft

end memory

end Version

theorem store_ones_inj {k n : Nat} (h : store (fun _ => (0 : UInt8)) 0 k (fun _ => 1) = store (fun _ => 0) 0 n fun _ => 1) :
    k = n := by
  rcases Nat.lt_trichotomy k n with hlt | heq | hgt
  · have hcell := congrFun h k
    rw [store_outside _ _ (Or.inr (by omega)), store, if_pos (by omega)] at hcell
    exact absurd hcell (by decide)
  · exact heq
  · have hcell := congrFun h n
    rw [store_outside (n := n) _ _ (Or.inr (by omega)), store, if_pos (by omega)] at hcell
    exact absurd hcell (by decide)

section agree

variable {size : Nat} {acts : List ReceiveAct} {byte mem : Nat → α} {pBlock taken : Nat}

/-- The two versions after the answers `acts`. -/
def linuxEnd (size : Nat) (byte : Nat → α) (pBlock : Nat) (mem : Nat → α) (taken : Nat) (acts : List ReceiveAct) :
    ReceiveBlock α :=
  ((Version.linux size).step byte).settle ((Version.linux size).start pBlock mem taken) acts

def windowsEnd (size : Nat) (byte : Nat → α) (pBlock : Nat) (mem : Nat → α) (taken : Nat) (acts : List ReceiveAct) :
    ReceiveBlock α :=
  ((Version.windows size).step byte).settle ((Version.windows size).start pBlock mem taken) acts

theorem linux_inv : Inv byte pBlock size mem taken (linuxEnd size byte pBlock mem taken acts) :=
  Version.settle_inv (v := Version.linux size) (fun _ _ h => of_decide_eq_true h) acts

theorem windows_inv : Inv byte pBlock size mem taken (windowsEnd size byte pBlock mem taken acts) := by
  refine Version.settle_inv (v := Version.windows size) (fun left n h => ?_) acts
  have hn := of_decide_eq_true h
  exact le_of_le_castSize hn.1 hn.2

theorem agree_ends : Agree size byte pBlock mem taken acts ↔
    (linuxEnd size byte pBlock mem taken acts).pc.ret = (windowsEnd size byte pBlock mem taken acts).pc.ret ∧
      (linuxEnd size byte pBlock mem taken acts).mem = (windowsEnd size byte pBlock mem taken acts).mem := by
  rw [Agree, Version.linux_step, Version.windows_step, start, Version.linux_loop, Windows.ReceiveBlock.start,
    Version.windows_loop]
  rfl

theorem agree_of_same
    (h : Version.Same (linuxEnd size byte pBlock mem taken acts) (windowsEnd size byte pBlock mem taken acts)) :
    Agree size byte pBlock mem taken acts := by
  obtain ⟨hret, hleft⟩ := h
  refine agree_ends.mpr ⟨hret, ?_⟩
  rw [linux_inv.mem_eq, windows_inv.mem_eq, hleft]

theorem same_of_agree (h : Agree size (fun _ => (1 : UInt8)) 0 (fun _ => 0) 0 acts) :
    Version.Same (linuxEnd size (fun _ => (1 : UInt8)) 0 (fun _ => 0) 0 acts)
      (windowsEnd size (fun _ => 1) 0 (fun _ => 0) 0 acts) := by
  obtain ⟨hret, hmem⟩ := agree_ends.mp h
  rw [linux_inv.mem_eq, windows_inv.mem_eq] at hmem
  have hcount := store_ones_inj hmem
  have hlinux : (linuxEnd size (fun _ => (1 : UInt8)) 0 (fun _ => 0) 0 acts).sizeLeft ≤ size := linux_inv.left_le
  have hwindows : (windowsEnd size (fun _ => (1 : UInt8)) 0 (fun _ => 0) 0 acts).sizeLeft ≤ size :=
    windows_inv.left_le
  exact ⟨hret, by omega⟩

theorem ends_same_iff (hsize : size < 2 ^ 63) (hpossible : Possible size acts) :
    Version.Same (linuxEnd size byte pBlock mem taken acts) (windowsEnd size byte pBlock mem taken acts) ↔
      size = 0 ∨ Alike size .recv size acts := by
  rcases Nat.eq_zero_or_pos size with hzero | hpos
  · refine iff_of_true ?_ (Or.inl hzero)
    have hwhole := (Version.whole_eq_iff hsize).mpr (by omega)
    rw [linuxEnd, windowsEnd, Version.start, Version.start, Version.loop_of_zero hzero, Version.loop_of_zero hzero,
      Version.settle_returned, Version.settle_returned]
    simp only [Version.Same, Pc.ret, Version.linux, Version.windows, hwhole, and_self]
  · rw [or_iff_right (Nat.ne_of_gt hpos), linuxEnd, windowsEnd, Version.start, Version.start,
      Version.loop_of_pos hpos, Version.loop_of_pos hpos]
    exact Version.settle_same_iff hsize rfl rfl hpos rfl acts hpossible

end agree

/-- **Both versions.** For the same answers of the system they return the same and leave the same memory, whatever
it held and whatever is received, exactly if the answers are alike for both. -/
theorem receives_alike_iff {size : Nat} (hsize : size < 2 ^ 63) {acts : List ReceiveAct}
    (hpossible : Possible size acts) :
    (∀ (byte mem : Nat → UInt8) (pBlock taken : Nat), Agree size byte pBlock mem taken acts) ↔
      size = 0 ∨ Alike size .recv size acts := by
  constructor
  · intro h
    exact (ends_same_iff hsize hpossible).mp (same_of_agree (h _ _ 0 0))
  · intro h byte mem pBlock taken
    exact agree_of_same ((ends_same_iff hsize hpossible).mpr h)

/-- Four bytes in two pieces, with a wait in between. -/
theorem receives_alike_pieces :
    Agree 4 (fun i => UInt8.ofNat i) 100 (fun _ => 0) 0
      [.recv (.count 3), .recv .wouldBlock, .wait .ready, .recv (.count 1)] := by
  refine (receives_alike_iff (by decide) ?_).mpr (Or.inr ?_) _ _ _ _
  · simp only [Possible]
    decide +kernel
  · simp only [Alike]
    decide +kernel

/-- After an interruption Linux waits again and receives, and Windows returns -1. After another error Linux returns
-1, and Windows never does. -/
theorem receives_differ :
    (¬ ∀ acts, Possible 1 acts →
      ∀ (byte mem : Nat → UInt8) (pBlock taken : Nat), Agree 1 byte pBlock mem taken acts) ∧
      ∀ n, ¬ ∀ (byte mem : Nat → UInt8) (pBlock taken : Nat), Agree 1 byte pBlock mem taken
        (.recv .wouldBlock :: .wait .error :: List.replicate n (.wait .error)) := by
  constructor
  · intro h
    have hagree := h [.recv .wouldBlock, .wait .intr, .wait .ready, .recv (.count 1)]
      (by simp only [Possible]; decide +kernel) (fun _ => 1) (fun _ => 0) 0 0
    exact absurd hagree.1 (by decide +kernel)
  · intro n h
    have hret := (agree_ends.mp (h (fun _ => 1) (fun _ => 0) 0 0)).1
    have hlinux : ∀ acts, (linuxEnd 1 (fun _ => (1 : UInt8)) 0 (fun _ => 0) 0
        (.recv .wouldBlock :: .wait .error :: acts)).pc.ret = some (-1) := by
      intro acts
      rw [linuxEnd, settle_cons (Version.step_wouldBlock ?_), settle_cons (Version.step_failed ?_ ?_ ?_),
        Version.settle_returned]
      · rfl
      · rfl
      · exact Waited.noConfusion
      · exact Waited.noConfusion
      · rfl
    have hwindows : (windowsEnd 1 (fun _ => (1 : UInt8)) 0 (fun _ => 0) 0
        (.recv .wouldBlock :: List.replicate (n + 1) (.wait .error))).pc.ret = none := by
      have hwait : Waited.error = (Version.windows 1).retried := rfl
      rw [windowsEnd, settle_cons (Version.step_wouldBlock ?_), hwait, Version.settle_retried ?_]
      · rfl
      · rfl
      · rfl
    rw [hlinux, ← List.replicate_succ, hwindows] at hret
    exact Option.some_ne_none _ hret

end ReceiveBlock

end Libhbk
