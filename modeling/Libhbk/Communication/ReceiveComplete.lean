import Libhbk.Base.Arith
import Mathlib.Data.List.Basic

/-!
# Receiving a whole block

The loop of `SocketNonblocking::receiveComplete` over any reader: it asks `recv` for what is missing until
the block is full, and waits with `poll` where there is nothing yet. The block is split at `pPos`. The
answers of the system are given as one list of turns; the loop has no result as long as they do not suffice.
-/

namespace Libhbk

/-- What one `recv` returns; `again` if it failed with `EWOULDBLOCK` or `EAGAIN`. -/
structure Received (R α : Type) where
  ret : Int
  buf : List α
  reader : R
  again : Bool

/-- The answers of the system in one turn of the loop: to `recv`, and to `poll` if it comes to it. -/
structure Turn (κ : Type) where
  answer : κ
  nfds : Int

/-- The block when the loop returns, of which `received` bytes have been stored. -/
structure ReceivedBlock (R α : Type) where
  ret : Int
  block : List α
  reader : R
  received : Nat

variable {R κ α : Type}

def receiveLoop (recv : R → List α → κ → Received R α) :
    List (Turn κ) → R → List α → List α → Option (ReceivedBlock R α)
  | _, r, got, [] => some ⟨got.length, got, r, got.length⟩
  | [], _, _, _ :: _ => none
  | t :: turns, r, got, b :: rest =>
    let o := recv r (b :: rest) t.answer
    if 0 < o.ret then
      receiveLoop recv turns o.reader (got ++ o.buf.take o.ret.toNat) (o.buf.drop o.ret.toNat)
    else if o.ret = 0 then some ⟨castInt got.length, got ++ o.buf, o.reader, got.length⟩
    else if o.again then
      -- wait for the socket to become readable
      if t.nfds = 1 then receiveLoop recv turns o.reader got o.buf
      else some ⟨-1, got ++ o.buf, o.reader, got.length⟩
    else some ⟨-1, got ++ o.buf, o.reader, got.length⟩

/-- `receiveComplete(pBlock, size)` with `size` the length of `block`. -/
def receiveComplete (recv : R → List α → κ → Received R α) (turns : List (Turn κ)) (r : R) (block : List α) :
    Option (ReceivedBlock R α) := receiveLoop recv turns r [] block

theorem receiveLoop_full (recv : R → List α → κ → Received R α) (turns : List (Turn κ)) (r : R) (got : List α) :
    receiveLoop recv turns r got [] = some ⟨got.length, got, r, got.length⟩ := by
  cases turns <;> rfl

/-- **Loop rule.** What every call of `recv` keeps, of the reader and the bytes received so far, holds when the
loop returns; the return value counts no more than the bytes received. -/
theorem receiveLoop_invariant {recv : R → List α → κ → Received R α} {I : R → List α → Prop}
    {turns : List (Turn κ)}
    (hstep : ∀ t ∈ turns, ∀ r got rest, I r got →
      I (recv r rest t.answer).reader (got ++ (recv r rest t.answer).buf.take (recv r rest t.answer).ret.toNat))
    {r : R} {got rest : List α} (h : I r got) {res : ReceivedBlock R α}
    (hres : receiveLoop recv turns r got rest = some res) :
    I res.reader (res.block.take res.received) ∧ res.ret ≤ res.received := by
  induction turns generalizing r got rest with
  | nil =>
    rcases rest with _ | ⟨b, rest⟩
    · obtain rfl := Option.some.inj hres
      rw [List.take_length]
      exact ⟨h, Int.le_refl _⟩
    · simp [receiveLoop] at hres
  | cons t turns ih =>
    rcases rest with _ | ⟨b, rest⟩
    · obtain rfl := Option.some.inj hres
      rw [List.take_length]
      exact ⟨h, Int.le_refl _⟩
    · have hnext := hstep t List.mem_cons_self r got (b :: rest) h
      have hstep' := fun t (ht : t ∈ turns) => hstep t (List.mem_cons_of_mem _ ht)
      simp only [receiveLoop] at hres
      generalize recv r (b :: rest) t.answer = o at hnext hres
      by_cases hpos : 0 < o.ret
      · rw [if_pos hpos] at hres
        exact ih hstep' hnext hres
      · -- nothing is received in this turn
        rw [Int.toNat_of_nonpos (by omega), List.take_zero, List.append_nil] at hnext
        rw [if_neg hpos] at hres
        have hdone : ∀ n : Int, n ≤ got.length →
            some (⟨n, got ++ o.buf, o.reader, got.length⟩ : ReceivedBlock R α) = some res →
              I res.reader (res.block.take res.received) ∧ res.ret ≤ res.received := by
          intro n hn he
          obtain rfl := Option.some.inj he
          rw [List.take_left]
          exact ⟨hnext, hn⟩
        by_cases hzero : o.ret = 0
        · rw [if_pos hzero] at hres
          exact hdone _ (castInt_le _) hres
        · rw [if_neg hzero] at hres
          have herror := hdone (-1) (by omega)
          split at hres
          · split at hres
            · exact ih hstep' hnext hres
            · exact herror hres
          · exact herror hres

end Libhbk
