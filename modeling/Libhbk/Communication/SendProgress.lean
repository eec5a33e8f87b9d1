import Libhbk.Communication.ReceiveBlock
import Libhbk.Communication.SendBlock

/-!
# Sending one block, call by call

`sendBlock` with every call it makes: `send`, and the `poll` of `waitForWritable`, which is repeated as long as it
is interrupted. A turn of its loop is `SendBlock.answer`, where both calls come together.
-/

namespace Libhbk

open Machine

variable {β : Type}

/-- `sendBlock`, and whether it is in `waitForWritable`. -/
structure SendCall (β : Type) where
  block : SendBlock β
  polling : Bool
  deriving DecidableEq

inductive SendAct where
  | send (sent : Answer)
  | poll (w : Waited)
  deriving DecidableEq, Repr

/-- Answers after which `sendBlock` makes the same call again, and the one that ends a wait. -/
def SendAct.Again : SendAct → Prop
  | send o => o = .wouldBlock ∨ o = .intr
  | poll w => w = .intr ∨ w = .ready

/-! ### A turn of the loop -/

namespace SendBlock

variable {mem : Nat → β} {bytes : List β} {flags : BitVec 32} {s s' : SendBlock β} {x : Response}

theorem loop_left (s : SendBlock β) : (loop s).bytesLeft = s.bytesLeft := by
  unfold loop
  split <;> rfl

theorem loop_accepted (s : SendBlock β) : (loop s).accepted = s.accepted := by
  unfold loop
  split <;> rfl

theorem answer_prefix (h : Inv mem bytes flags s) (hinit : s.accepted <+: bytes)
    (hstep : answer mem s x = some s') : s'.accepted <+: bytes := by
  obtain ⟨hpc, hstep⟩ := Option.ite_none_right_eq_some.mp hstep
  cases hx : x.sent with
  | count n =>
    simp only [hx, Option.ite_none_right_eq_some] at hstep
    obtain ⟨hn, hstep⟩ := hstep
    split at hstep
    · obtain rfl := Option.some.inj hstep
      rw [loop_accepted, ← h.taken hpc]
      exact List.prefix_append_right_inj _ |>.mpr (List.take_prefix _ _)
    · obtain rfl := Option.some.inj hstep
      rwa [loop_accepted]
  | wouldBlock =>
    simp only [hx] at hstep
    obtain rfl := Option.some.inj hstep
    rw [loop_accepted]
    split <;> exact hinit
  | intr | error =>
    simp only [hx] at hstep
    obtain rfl := Option.some.inj hstep
    rwa [loop_accepted]

theorem answer_left (h : Inv mem bytes flags s) (hstep : answer mem s x = some s') :
    s'.bytesLeft < s.bytesLeft ∨ s' = s ∧ (x.sent = .intr ∨ x.sent = .wouldBlock ∧ x.waited = 1) := by
  have hpc := (Option.ite_none_right_eq_some.mp hstep).1
  have hpos := h.left_pos hpc
  have hfails : ∀ s₁, answer mem s x = some { s with bytesLeft := 0, retVal := -1, pc := .returned s₁ } →
      s'.bytesLeft < s.bytesLeft := by
    intro s₁ hfailed
    obtain rfl := Option.some.inj (hstep.symm.trans hfailed)
    exact hpos
  cases hx : x.sent with
  | count n =>
    left
    rcases Nat.eq_zero_or_pos n with rfl | hn
    · exact hfails _ (answer_failed hpc (Or.inl hx))
    · by_cases hle : n ≤ s.bytesLeft
      · obtain rfl := Option.some.inj (hstep.symm.trans (answer_count hpc hx hn hle))
        rw [loop_left]
        exact Nat.sub_lt hpos hn
      · rw [answer_over hx (Nat.lt_of_not_le hle)] at hstep
        cases hstep
  | wouldBlock =>
    by_cases hw : x.waited = 1
    · exact Or.inr ⟨Option.some.inj (hstep.symm.trans (answer_again hpc hpos (Or.inl ⟨hx, hw⟩))), Or.inr ⟨rfl, hw⟩⟩
    · exact Or.inl (hfails _ (answer_failed hpc (Or.inr (Or.inl ⟨hx, hw⟩))))
  | intr => exact Or.inr ⟨Option.some.inj (hstep.symm.trans (answer_again hpc hpos (Or.inr hx))), Or.inl rfl⟩
  | error => exact Or.inl (hfails _ (answer_failed hpc (Or.inr (Or.inr hx))))

theorem start_zero (pBlock : Nat) (more : Bool) :
    (start pBlock 0 more : SendBlock β) =
      ⟨pBlock, 0, 0, if more then msgNoSignal ||| msgMore else msgNoSignal, .returned 0, []⟩ := by
  rfl

end SendBlock

/-! ### The calls -/

namespace SendCall

def start (pBlock size : Nat) (more : Bool) : SendCall β := ⟨SendBlock.start pBlock size more, false⟩

/-- `waitForWritable` returns once `poll` is not interrupted. -/
def step (mem : Nat → β) : Machine (SendCall β) SendAct
  | s, .send o =>
    if s.polling then none
    else if o = .wouldBlock then
      if s.block.pc = .send then some { s with polling := true } else none
    else (SendBlock.answer mem s.block ⟨o, 0⟩).map fun block => ⟨block, false⟩
  | s, .poll w =>
    if s.polling then
      if w = .intr then some s
      else (SendBlock.answer mem s.block ⟨.wouldBlock, w.ret⟩).map fun block => ⟨block, false⟩
    else none

variable {mem : Nat → β} {bytes : List β} {flags : BitVec 32} {s s' : SendCall β} {a : SendAct}

theorem step_turn (hstep : step mem s a = some s') :
    s'.block = s.block ∧ a.Again ∧ (s.block.pc = .send ∨ s.polling = true) ∨
      s'.polling = false ∧ ∃ x, SendBlock.answer mem s.block x = some s'.block ∧
        (x.sent = .intr ∨ x.sent = .wouldBlock ∧ x.waited = 1 → a.Again) := by
  cases a with
  | send o =>
    simp only [step] at hstep
    split_ifs at hstep with hpoll ho hpc
    · obtain rfl := Option.some.inj hstep
      exact Or.inl ⟨rfl, Or.inl ho, Or.inl hpc⟩
    · obtain ⟨block, hblock, rfl⟩ := Option.map_eq_some_iff.mp hstep
      exact Or.inr ⟨rfl, _, hblock, fun hsame => hsame.elim Or.inr fun hw => Or.inl hw.1⟩
  | poll w =>
    simp only [step] at hstep
    split_ifs at hstep with hpoll hw
    · obtain rfl := Option.some.inj hstep
      exact Or.inl ⟨rfl, Or.inl hw, Or.inr hpoll⟩
    · obtain ⟨block, hblock, rfl⟩ := Option.map_eq_some_iff.mp hstep
      refine Or.inr ⟨rfl, _, hblock, fun hsame => Or.inr ?_⟩
      rcases hsame with hintr | ⟨_, hready⟩
      · cases hintr
      · cases w with
        | ready => rfl
        | timeout | intr | error => exact absurd hready (by decide)

/-- `sendBlock` with `bytes`: nothing is accepted out of order, and it waits only for another `send`. -/
structure Inv (mem : Nat → β) (bytes : List β) (flags : BitVec 32) (s : SendCall β) : Prop where
  block : SendBlock.Inv mem bytes flags s.block
  accepted : s.block.accepted <+: bytes
  polling : s.polling = true → s.block.pc = .send

theorem step_inv (h : Inv mem bytes flags s) (hstep : step mem s a = some s') : Inv mem bytes flags s' := by
  rcases step_turn hstep with ⟨hblock, _, hsend⟩ | ⟨hpoll, x, hturn, _⟩
  · have hpc : s.block.pc = .send := hsend.elim id h.polling
    exact ⟨hblock ▸ h.block, hblock ▸ h.accepted, fun _ => hblock ▸ hpc⟩
  · exact ⟨SendBlock.answer_inv h.block hturn, SendBlock.answer_prefix h.block h.accepted hturn,
      fun hpolling => absurd (hpoll.symm.trans hpolling) Bool.false_ne_true⟩

theorem start_inv (pBlock : Nat) {size : Nat} (more : Bool) (hsize : size < 2 ^ 63) :
    Inv mem (DataBlock.bytes mem ⟨pBlock, size⟩) (if more then msgNoSignal ||| msgMore else msgNoSignal)
      (start pBlock size more) := by
  rcases Nat.eq_zero_or_pos size with rfl | hpos
  · rw [start, SendBlock.start_zero]
    refine ⟨⟨rfl, SendBlock.Pc.noConfusion, SendBlock.Pc.noConfusion, SendBlock.Pc.noConfusion, ?_⟩,
      List.nil_prefix, fun hpolling => absurd hpolling Bool.false_ne_true⟩
    intro r hr
    exact Or.inl ⟨(SendBlock.Pc.returned.inj hr).symm, rfl⟩
  · refine ⟨SendBlock.start_inv more hsize hpos rfl, ?_, fun hpolling => absurd hpolling Bool.false_ne_true⟩
    rw [start, SendBlock.start_eq pBlock more hpos]
    exact List.nil_prefix

theorem step_left (h : Inv mem bytes flags s) (hstep : step mem s a = some s') :
    s'.block.bytesLeft < s.block.bytesLeft ∨ s'.block.bytesLeft = s.block.bytesLeft ∧ a.Again := by
  rcases step_turn hstep with ⟨hblock, hagain, _⟩ | ⟨_, x, hturn, hagain⟩
  · exact Or.inr ⟨congrArg SendBlock.bytesLeft hblock, hagain⟩
  · rcases SendBlock.answer_left h.block hturn with hlt | ⟨hsame, hx⟩
    · exact Or.inl hlt
    · exact Or.inr ⟨congrArg SendBlock.bytesLeft hsame, hagain hx⟩

theorem exists_step (mem : Nat → β) (hret : ∀ r, s.block.pc ≠ .returned r) :
    ∃ a, (step mem s a).isSome := by
  have hpc : s.block.pc = .send := by
    cases hpc : s.block.pc with
    | send => rfl
    | returned r => exact absurd hpc (hret r)
  cases hpoll : s.polling with
  | false => exact ⟨.send .wouldBlock, by simp [step, hpoll, hpc]⟩
  | true => exact ⟨.poll .intr, by simp [step, hpoll]⟩

/-- **Exactly once.** Whatever the calls return, the bytes accepted are the first of the block, it returns `size`
exactly with all of them accepted, and -1 otherwise; it returns unless the answers from some point on are only ones
after which it calls again. -/
theorem sends_once (mem : Nat → β) (pBlock : Nat) {size : Nat} (more : Bool) (hsize : size < 2 ^ 63) :
    (∀ tr s, (step mem).Run (start pBlock size more) tr s →
      s.block.accepted <+: DataBlock.bytes mem ⟨pBlock, size⟩ ∧
        (s.block.pc = .returned size ↔ s.block.accepted = DataBlock.bytes mem ⟨pBlock, size⟩) ∧
        (∀ r, s.block.pc = .returned r → r ≠ size → r = -1) ∧
        ((∀ r, s.block.pc ≠ .returned r) → ∃ a, (step mem s a).isSome)) ∧
    ∀ acts : Nat → SendAct,
      (∀ n, (∀ r, ((step mem).along (start pBlock size more) acts n).block.pc ≠ .returned r) →
        (step mem ((step mem).along (start pBlock size more) acts n) (acts n)).isSome) →
      (∀ i, ∃ j, i ≤ j ∧ ¬ (acts j).Again) →
      ∃ n r, ((step mem).along (start pBlock size more) acts n).block.pc = .returned r := by
  have hstart : Inv mem _ _ (start pBlock size more) := start_inv pBlock more hsize
  constructor
  · intro tr s hrun
    have h := hrun.invariant hstart fun _ _ _ => step_inv
    refine ⟨h.accepted, ⟨fun hpc => ?_, fun hall => ?_⟩, fun r hpc hr => ?_, exists_step mem⟩
    · rcases h.block.returned _ hpc with ⟨_, hall⟩ | ⟨hneg, _⟩
      · exact hall
      · omega
    · cases hpc : s.block.pc with
      | send =>
        have hlen := SendBlock.length_taken (h.block.taken hpc)
        have hpos := h.block.left_pos hpc
        rw [hall] at hlen
        omega
      | returned r =>
        rcases h.block.returned r hpc with ⟨hr, _⟩ | ⟨_, hne⟩
        · rw [hr, DataBlock.length_bytes]
        · exact absurd hall hne
    · rcases h.block.returned r hpc with ⟨hall, _⟩ | ⟨hneg, _⟩
      · exact absurd (hall.trans (by rw [DataBlock.length_bytes])) hr
      · exact hneg
  · intro acts hanswered hagain
    obtain ⟨n, hn⟩ := exists_disabled (G := fun a : SendAct => ¬ a.Again)
      (fun s : SendCall β => s.block.bytesLeft) hstart (fun _ _ _ => step_inv)
      (fun s a s' h hstep => (step_left h hstep).elim Nat.le_of_lt fun hsame => Nat.le_of_eq hsame.1)
      (fun s a s' h hG hstep => (step_left h hstep).elim id fun hsame => absurd hsame.2 hG) hagain
    by_contra hnever
    have hsome := hanswered n fun r hr => hnever ⟨n, r, hr⟩
    rw [hn] at hsome
    cases hsome

/-- Four bytes in two pieces, with interruptions and a wait in between; and four bytes at once. -/
theorem sends_once_four :
    (∃ tr s, (step fun n => n).Run (start 100 4 true) tr s ∧ s.block.pc = .returned 4 ∧
      s.block.accepted = [100, 101, 102, 103]) ∧
    ∃ n r, ((step fun n => n).along (start 100 4 true) (fun _ => .send (.count 4)) n).block.pc = .returned r := by
  obtain ⟨hruns, hends⟩ := sends_once (fun n => n) 100 true (show 4 < 2 ^ 63 by decide)
  constructor
  · obtain ⟨tr, hrun⟩ := exists_run_of_exec (step fun n => n) (start 100 4 true)
      [.send .intr, .send (.count 3), .send .wouldBlock, .poll .intr, .poll .ready, .send (.count 1)]
      ⟨⟨104, 0, 4, msgNoSignal ||| msgMore, .returned 4, [100, 101, 102, 103]⟩, false⟩ (by decide +kernel)
    exact ⟨tr, _, hrun, (hruns tr _ hrun).2.1.mpr rfl, rfl⟩
  · have hreturned : ∀ n, (step fun n => n).along (start 100 4 true) (fun _ => .send (.count 4)) (n + 1) =
        ⟨⟨104, 0, 4, msgNoSignal ||| msgMore, .returned 4, [100, 101, 102, 103]⟩, false⟩ := by
      intro n
      induction n with
      | zero => decide +kernel
      | succ n ih =>
        rw [along, ih]
        rfl
    refine hends _ (fun n hn => ?_) fun i => ⟨i, Nat.le_refl i, ?_⟩
    · cases n with
      | zero => decide +kernel
      | succ n => exact absurd (by rw [hreturned]) (hn 4)
    · simp [SendAct.Again]

end SendCall

end Libhbk
