import Libhbk.Base.Potential
import Libhbk.Sys.Windows.Port
import Mathlib.Data.List.Count

/-!
# Overlapped operations

An object with one `OVERLAPPED` orders an operation, the system ends it and posts a packet with the key of the object,
`execute` takes the packet and calls `process`, and `process` does its work and orders the next operation. Here such an
object is beside the event loop, the other sources at the completion port, and other threads.

The operation is in one place at a time: with the system, at the port, or with `execute`. It is nowhere exactly if
something has lost it: an order that is refused, an exception, or an operation that fails with an error for which
`execute` does not call `process`.
-/

namespace Libhbk.Windows

open Machine Port

/-- An object with state `Q`: what happens to it from outside, what the end of an operation brings, what `process` does
until it orders the next one, with whether it throws, what the order does, and what `process` returns. -/
structure Operation (Q E A : Type) where
  outside : E → Q → Option Q
  completes : Q → Option Q
  work : A → Q → Option (Bool × Q)
  orders : Q → Q
  ret : Bool → Int
  ret_nonpos : ∀ ordered, ret ordered ≤ 0

namespace Operation

variable {H Q E A : Type}

/-- The event loop with its port, whether the operation is pending, and whether `process` has done its work. -/
structure State (H Q : Type) extends Port H where
  pending : Bool
  working : Bool
  items : Q

inductive Act (H E A : Type) where
  | port (a : Port.Act H)
  | outside (e : E)
  | complete
  | fail (lastError : Nat)
  | work (x : A)
  /-- The system takes the next operation or refuses it, and `process` returns. -/
  | finish (ordered : Bool)

/-- `process` has been registered, and an operation has been ordered. -/
def start (eventInfos : Nat → Option H) (key : Nat) (process : H) (items : Q) : State H Q :=
  ⟨.start eventInfos key process, true, false, items⟩

def step (op : Operation Q E A) (key : Nat) : Machine (State H Q) (Act H E A)
  | s, .port a => (Port.step key s.toPort a).map fun p => { s with toPort := p }
  | s, .outside e => (op.outside e s.items).map fun q => { s with items := q }
  | s, .complete =>
    if s.pending then
      (op.completes s.items).map fun q => { s with pending := false, items := q, port := s.port ++ [.packet key] }
    else none
  | s, .fail lastError =>
    if s.pending then some { s with pending := false, port := s.port ++ [.failed lastError key] } else none
  | s, .work x =>
    if processing key s.loop ∧ s.working = false then
      (op.work x s.items).bind fun (throws, q) =>
        if throws then (EventLoop.step s.loop .threw).map fun loop => { s with loop := loop, items := q }
        else some { s with working := true, items := q }
    else none
  | s, .finish ordered =>
    if s.working then
      (EventLoop.step s.loop (.handled (op.ret ordered))).map fun loop =>
        { s with
          loop := loop
          working := false
          pending := s.pending || ordered
          items := if ordered then op.orders s.items else s.items }
    else none

/-- The step loses the operation. -/
def loses (op : Operation Q E A) (key : Nat) (y : State H Q × Act H E A) : Bool :=
  match y.2 with
  | .port .dequeue =>
    match y.1.port with
    | [] => false
    | c :: _ => ours key c && !called key c
  | .work x => ((op.work x y.1.items).map Prod.fst).getD false
  | .finish ordered => !ordered
  | _ => false

/-- The system ends the operation. -/
def ends : Act H E A → Bool
  | .complete => true
  | .fail _ => true
  | _ => false

/-- `process` is called. -/
def works : Act H E A → Bool
  | .work _ => true
  | _ => false

/-- A packet is taken, and `process` not called for it. -/
def drops (op : Operation Q E A) (key : Nat) (y : State H Q × Act H E A) : Bool :=
  match y.2 with
  | .port .dequeue => loses op key y
  | _ => false

/-- In how many places the operation is. -/
def places (key : Nat) (s : State H Q) : Nat :=
  s.pending.toNat + s.port.countP (ours key) + (engaged key s.loop).toNat

variable {op : Operation Q E A} {key : Nat} {c : EventLoop.Dequeued}
variable {s s' : State H Q} {a : Act H E A} {tr : List (State H Q × Act H E A)}

/-- Between two steps of a run. -/
structure Inv (op : Operation Q E A) (key : Nat) (tr : List (State H Q × Act H E A)) (s : State H Q) : Prop where
  serves : Serves key s.loop
  working : s.working = true → processing key s.loop = true
  places : places key s = if tr.any (loses op key) then 0 else 1
  account : tr.countP (fun y => ends y.2) = tr.countP (fun y => works y.2) + tr.countP (drops op key) +
    s.port.countP (ours key) + (engaged key s.loop && !s.working).toNat

theorem Inv.next (h : Inv op key tr s) (hserves : Serves key s'.loop)
    (hworking : s'.working = true → processing key s'.loop = true)
    (hplaces : Operation.places key s' + (loses op key (s, a)).toNat = Operation.places key s)
    (haccount : (ends a).toNat + s.port.countP (ours key) + (engaged key s.loop && !s.working).toNat =
      (works a).toNat + (drops op key (s, a)).toNat + s'.port.countP (ours key) +
        (engaged key s'.loop && !s'.working).toNat) : Inv op key ((s, a) :: tr) s' := by
  refine ⟨hserves, hworking, ?_, ?_⟩
  · have hbefore := h.places
    rw [List.any_cons]
    cases hloses : loses op key (s, a) with
    | false =>
      rw [hloses] at hplaces
      rw [Bool.false_or, ← hbefore]
      exact hplaces
    | true =>
      rw [hloses, Bool.toNat_true] at hplaces
      rw [Bool.true_or, if_pos rfl]
      split_ifs at hbefore <;> omega
  · have hbefore := h.account
    rw [countP_cons_toNat, countP_cons_toNat, countP_cons_toNat]
    dsimp only
    omega

theorem Inv.keep (h : Inv op key tr s) (haside : Aside key s.loop s'.loop) (hworking : s'.working = s.working)
    (hpending : s'.pending = s.pending) (hport : s'.port.countP (ours key) = s.port.countP (ours key))
    (hloses : loses op key (s, a) = false) (hends : ends a = false) (hworks : works a = false) :
    Inv op key ((s, a) :: tr) s' := by
  have hdrops : drops op key (s, a) = false := by
    rw [drops]
    split
    · exact hloses
    · rfl
  refine h.next haside.serves (fun hw => haside.processing (h.working (hworking ▸ hw))) ?_ ?_
  · rw [Operation.places, Operation.places, hpending, hport, haside.engaged, hloses]
    rfl
  · rw [hends, hworks, hdrops, hport, haside.engaged, hworking, Bool.toNat_false, Nat.zero_add]

theorem loses_aside {b : Port.Act H} (hne : b ≠ .dequeue) :
    loses op key ((s, .port b) : State H Q × Act H E A) = false := by
  cases b with
  | dequeue => exact absurd rfl hne
  | _ => rfl

theorem ours_eq {port : List EventLoop.Dequeued} (hport : s.port = c :: port) :
    (ours key c).toNat = (called key c).toNat + (loses op key ((s, .port .dequeue) : State H Q × Act H E A)).toNat := by
  have hloses : loses op key ((s, .port .dequeue) : State H Q × Act H E A) = (ours key c && !called key c) := by
    rw [loses]
    dsimp only
    rw [hport]
  rw [hloses]
  cases hcalled : called key c with
  | true =>
    rw [ours_of_called hcalled]
    rfl
  | false => simp

theorem Inv.dequeue (h : Inv op key tr s) {port : List EventLoop.Dequeued} (hport : s.port = c :: port)
    (hidle : engaged key s.loop = false) (hserves : Serves key (EventLoop.dequeue s.loop c))
    (hengaged : engaged key (EventLoop.dequeue s.loop c) = called key c) :
    Inv op key ((s, .port .dequeue) :: tr) { s with loop := EventLoop.dequeue s.loop c, port := port } := by
  have hworking : s.working = false := by
    rw [Bool.eq_false_iff]
    intro hworking
    rw [engaged_of_processing (h.working hworking)] at hidle
    simp at hidle
  have hours : (ours key c).toNat =
      (called key c).toNat + (loses op key ((s, .port .dequeue) : State H Q × Act H E A)).toNat := ours_eq hport
  have hdrops : drops op key ((s, .port .dequeue) : State H Q × Act H E A) =
    loses op key ((s, .port .dequeue) : State H Q × Act H E A) := rfl
  refine h.next hserves (fun hw => ?_) ?_ ?_
  · rw [hworking] at hw
    simp at hw
  · rw [Operation.places, Operation.places, hengaged, hidle, hport, countP_cons_toNat, Bool.toNat_false]
    dsimp only
    omega
  · rw [hdrops, hengaged, hidle, hport, countP_cons_toNat]
    dsimp only [ends, works]
    rw [hworking, Bool.not_false, Bool.and_true, Bool.and_true, Bool.toNat_false]
    omega

theorem Inv.posted (h : Inv op key tr s) (hpending : s.pending = true) (hours : ours key c = true) {q : Q}
    (hends : ends a = true) (hloses : loses op key (s, a) = false) :
    Inv op key ((s, a) :: tr) { s with pending := false, items := q, port := s.port ++ [c] } := by
  have hcount : (s.port ++ [c]).countP (ours key) = s.port.countP (ours key) + 1 := by
    rw [List.countP_append, List.countP_singleton, hours, if_pos rfl]
  refine h.next h.serves h.working ?_ ?_
  · rw [Operation.places, Operation.places, hloses, hpending, hcount]
    dsimp only [Bool.toNat_false, Bool.toNat_true]
    omega
  · rw [hends, hcount]
    cases a with
    | complete =>
      dsimp only [works, drops, Bool.toNat_false, Bool.toNat_true]
      omega
    | fail lastError =>
      dsimp only [works, drops, Bool.toNat_false, Bool.toNat_true]
      omega
    | _ => simp [ends] at hends

theorem Inv.alone (h : Inv op key tr s) (hprocessing : processing key s.loop = true) :
    s.pending = false ∧ s.port.countP (ours key) = 0 := by
  have hplaces := h.places
  rw [Operation.places, engaged_of_processing hprocessing, Bool.toNat_true] at hplaces
  have hle : s.pending.toNat + s.port.countP (ours key) = 0 := by
    split_ifs at hplaces
    omega
  refine ⟨?_, by omega⟩
  cases hpending : s.pending with
  | false => rfl
  | true =>
    rw [hpending, Bool.toNat_true] at hle
    omega

theorem Inv.work (h : Inv op key tr s) {x : A} {throws : Bool} {q : Q} (hprocessing : processing key s.loop = true)
    (hworking : s.working = false) (hwork : op.work x s.items = some (throws, q)) {loop : EventLoop H}
    (hloop : if throws then EventLoop.step s.loop .threw = some loop else loop = s.loop) :
    Inv op key ((s, .work x) :: tr) { s with loop := loop, working := !throws, items := q } := by
  have hloses : loses op key ((s, .work x) : State H Q × Act H E A) = throws := by
    rw [loses]
    dsimp only
    rw [hwork]
    rfl
  have hengaged := engaged_of_processing hprocessing
  cases throws with
  | true =>
    obtain ⟨hserves, hidle⟩ := h.serves.threw hloop
    refine h.next hserves (by simp) ?_ ?_
    · rw [Operation.places, Operation.places, hidle, hengaged, hloses]
      rfl
    · rw [hidle, hengaged, hworking]
      simp [ends, works, drops, Nat.add_comm]
  | false =>
    obtain rfl := hloop
    refine h.next h.serves (fun _ => hprocessing) ?_ ?_
    · rw [hloses]
      rfl
    · rw [hengaged, hworking]
      simp [ends, works, drops, Nat.add_comm]

theorem Inv.finish (h : Inv op key tr s) {ordered : Bool} (hworking : s.working = true) {loop : EventLoop H} {q : Q}
    (hloop : EventLoop.step s.loop (.handled (op.ret ordered)) = some loop) :
    Inv op key ((s, .finish ordered) :: tr)
      { s with loop := loop, working := false, pending := s.pending || ordered, items := q } := by
  have hprocessing := h.working hworking
  obtain ⟨hpending, hport⟩ := h.alone hprocessing
  obtain ⟨hserves, hidle⟩ := h.serves.handled hprocessing (op.ret_nonpos ordered) hloop
  refine h.next hserves (by simp) ?_ ?_
  · rw [Operation.places, Operation.places, hidle, engaged_of_processing hprocessing, hpending, hport, loses]
    cases ordered <;> rfl
  · rw [hidle, hworking]
    dsimp only [ends, works, drops]
    simp

/-- The steps of a run, with what each one needs. -/
inductive Step (op : Operation Q E A) (key : Nat) (s : State H Q) : Act H E A → State H Q → Prop where
  | dequeue {c : EventLoop.Dequeued} {port : List EventLoop.Dequeued} (hport : s.port = c :: port)
      (hidle : engaged key s.loop = false) (hserves : Serves key (EventLoop.dequeue s.loop c))
      (hengaged : engaged key (EventLoop.dequeue s.loop c) = called key c) :
      Step op key s (.port .dequeue) { s with loop := EventLoop.dequeue s.loop c, port := port }
  | aside {b : Port.Act H} {p : Port H} (hne : b ≠ .dequeue) (haside : Aside key s.loop p.loop)
      (hport : p.port.countP (ours key) = s.port.countP (ours key)) : Step op key s (.port b) { s with toPort := p }
  | outside {e : E} {q : Q} (hout : op.outside e s.items = some q) : Step op key s (.outside e) { s with items := q }
  | complete {q : Q} (hpending : s.pending = true) (hq : op.completes s.items = some q) :
      Step op key s .complete { s with pending := false, items := q, port := s.port ++ [.packet key] }
  | fail {lastError : Nat} (hpending : s.pending = true) :
      Step op key s (.fail lastError) { s with pending := false, port := s.port ++ [.failed lastError key] }
  | work {x : A} {throws : Bool} {q : Q} {loop : EventLoop H} (hprocessing : processing key s.loop = true)
      (hworking : s.working = false) (hwork : op.work x s.items = some (throws, q))
      (hloop : if throws then EventLoop.step s.loop .threw = some loop else loop = s.loop) :
      Step op key s (.work x) { s with loop := loop, working := !throws, items := q }
  | finish {ordered : Bool} {loop : EventLoop H} (hworking : s.working = true)
      (hloop : EventLoop.step s.loop (.handled (op.ret ordered)) = some loop) :
      Step op key s (.finish ordered) { s with
        loop := loop
        working := false
        pending := s.pending || ordered
        items := if ordered then op.orders s.items else s.items }

theorem step_cases (hkey : key ≠ 0) (h : Serves key s.loop) (hs : op.step key s a = some s') :
    Step op key s a s' := by
  cases a with
  | port b =>
    obtain ⟨p, hp, rfl⟩ := Option.map_eq_some_iff.mp hs
    cases Port.step_cases hkey h hp with
    | dequeue hport hidle hserves hengaged => exact .dequeue hport hidle hserves hengaged
    | aside hne haside hport hours =>
      refine .aside hne haside ?_
      rw [hport, List.countP_append, List.countP_eq_zero.mpr fun c hc => Bool.eq_false_iff.mp (hours c hc), Nat.add_zero]
  | outside e =>
    obtain ⟨q, hout, rfl⟩ := Option.map_eq_some_iff.mp hs
    exact .outside hout
  | complete =>
    simp only [Operation.step, Option.ite_none_right_eq_some, Option.map_eq_some_iff] at hs
    obtain ⟨hpending, q, hq, rfl⟩ := hs
    exact .complete hpending hq
  | fail lastError =>
    obtain ⟨hpending, hs⟩ := Option.ite_none_right_eq_some.mp hs
    obtain rfl := Option.some.inj hs
    exact .fail hpending
  | work x =>
    simp only [Operation.step, Option.ite_none_right_eq_some, Option.bind_eq_some_iff] at hs
    obtain ⟨⟨hprocessing, hworking⟩, ⟨throws, q⟩, hwork, hs⟩ := hs
    cases throws with
    | true =>
      simp only [if_true, Option.map_eq_some_iff] at hs
      obtain ⟨loop, hloop, rfl⟩ := hs
      have hstep := Step.work hprocessing hworking hwork hloop
      rwa [Bool.not_true, ← hworking] at hstep
    | false =>
      simp only [if_neg Bool.false_ne_true, Option.some.injEq] at hs
      obtain rfl := hs
      exact Step.work hprocessing hworking hwork rfl
  | finish ordered =>
    simp only [Operation.step, Option.ite_none_right_eq_some, Option.map_eq_some_iff] at hs
    obtain ⟨hworking, loop, hloop, rfl⟩ := hs
    exact .finish hworking hloop

theorem Inv.step (h : Inv op key tr s) (hs : Step op key s a s') : Inv op key ((s, a) :: tr) s' := by
  cases hs with
  | dequeue hport hidle hserves hengaged => exact h.dequeue hport hidle hserves hengaged
  | aside hne haside hport => exact h.keep haside rfl rfl hport (loses_aside hne) rfl rfl
  | outside hout => exact h.keep ⟨h.serves, rfl, id⟩ rfl rfl rfl rfl rfl rfl
  | complete hpending hq => exact h.posted (c := .packet key) hpending (beq_self_eq_true key) rfl rfl
  | @fail lastError hpending =>
    exact h.posted (c := .failed lastError key) hpending (beq_self_eq_true key) rfl rfl
  | work hprocessing hworking hwork hloop => exact h.work hprocessing hworking hwork hloop
  | finish hworking hloop => exact h.finish hworking hloop

theorem run_inv (hkey : key ≠ 0) {eventInfos : Nat → Option H} {process : H} {items : Q}
    (h : (op.step key).Run (start eventInfos key process items) tr s) : Inv op key tr s := by
  refine h.trace_induction (P := Inv op key) ?_ fun _ _ _ _ _ hinv hs => hinv.step (step_cases hkey hinv.serves hs)
  have hidle : engaged key (start eventInfos key process items : State H Q).loop = false := not_engaged_start
  refine ⟨.start, by simp [start], ?_, ?_⟩
  · rw [Operation.places, hidle]
    rfl
  · rw [hidle]
    rfl

/-- Where `execute` waits and none of its packets is queued, an operation that is not lost is pending. -/
theorem Inv.rests (h : Inv op key tr s) (hkept : tr.any (loses op key) = false) (hpc : s.loop.pc = .wait)
    (hport : s.port.countP (ours key) = 0) : s.pending = true ∧ s.working = false := by
  have hidle : engaged key s.loop = false := not_engaged_of_wait hpc
  have hplaces := h.places
  rw [Operation.places, hkept, hport, hidle, if_neg Bool.false_ne_true] at hplaces
  constructor
  · cases hpending : s.pending with
    | true => rfl
    | false => simp [hpending] at hplaces
  · rw [Bool.eq_false_iff]
    intro hworking
    rw [engaged_of_processing (h.working hworking)] at hidle
    simp at hidle

theorem Inv.silent (h : Inv op key tr s) (hlost : tr.any (loses op key) = true) (hs : Step op key s a s') :
    works a = false := by
  cases hs with
  | work hprocessing =>
    have hplaces := h.places
    rw [Operation.places, hlost, if_pos rfl, engaged_of_processing hprocessing] at hplaces
    simp at hplaces
  | _ => rfl

theorem not_works_of_loses (hkey : key ≠ 0) {eventInfos : Nat → Option H} {process : H} {items : Q}
    {later earlier : List (State H Q × Act H E A)} {y : State H Q × Act H E A}
    (h : (op.step key).Run (start eventInfos key process items) (later ++ y :: earlier) s)
    (hloses : loses op key y = true) : ∀ z ∈ later, works z.2 = false := by
  intro z hz
  obtain ⟨after, before, rfl⟩ := List.append_of_mem hz
  rw [List.append_assoc, List.cons_append] at h
  obtain ⟨_, hrun, hs, _⟩ := h.split
  have hlost : (before ++ y :: earlier).any (loses op key) = true := by
    rw [List.any_append, List.any_cons, hloses, Bool.true_or, Bool.or_true]
  exact (run_inv hkey hrun).silent hlost (step_cases hkey (run_inv hkey hrun).serves hs)

end Operation

end Libhbk.Windows
