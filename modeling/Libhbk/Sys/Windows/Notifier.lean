import Libhbk.Base.Potential
import Libhbk.Sys.Windows.Port
import Mathlib.Data.List.Count

/-!
# Notifiers on Windows

`notify` posts a packet with the key of its notifier to the completion port of the event loop, `stop` one with the null
key, and other sources have their packets there too. `execute` takes them in the order in which they were posted. Any
thread may notify, stop, or set the handler between any two steps of `execute`, the handler itself included; where
`execute` has returned it may be called again.

`notified_in_order` counts the calls of `process` and says how `stop` divides them: those for what was notified before it
come before the return, the others behind it.
-/

namespace Libhbk

open Machine

variable {H C : Type}

namespace Windows

/-- A notifier, and the event loop it belongs to. -/
structure Notifier (H C : Type) extends Port H where
  eventHandler : Option C

namespace Notifier

open Port (Serves Aside engaged processing ours called)

/-- The constructor: `addEvent` has registered `process`, and `execute` is called. -/
def new (eventInfos : Nat → Option H) (key : Nat) (process : H) : Notifier H C :=
  ⟨.start eventInfos key process, none⟩

def set (s : Notifier H C) (eventHandler : Option C) : Int × Notifier H C := (0, { s with eventHandler := eventHandler })

/-- `PostQueuedCompletionStatus`, with its answer. -/
def post (s : Notifier H C) (c : EventLoop.Dequeued) (posted : Bool) : Notifier H C :=
  if posted then { s with port := s.port ++ [c] } else s

def notify (key : Nat) (s : Notifier H C) (posted : Bool) : Int × Notifier H C :=
  (if posted then 0 else -1, s.post (.packet key) posted)

/-- `EventLoop::stop`; the key is `WSA_INVALID_EVENT`. -/
def stop (s : Notifier H C) (posted : Bool) : Notifier H C := s.post (.packet 0) posted

/-- `process`: the callback that it calls, and its value. -/
def process (s : Notifier H C) : Option C × Int := (s.eventHandler, 0)

inductive Act (H C : Type) where
  | port (a : Port.Act H)
  /-- A call of `process` ends; it throws only if its callback does. -/
  | process (throws : Bool)
  | notify (posted : Bool)
  | set (eventHandler : Option C)
  | stop (posted : Bool)

def step (key : Nat) : Machine (Notifier H C) (Act H C)
  | s, .port a => (Port.step key s.toPort a).map fun p => { s with toPort := p }
  | s, .process throws =>
    if processing key s.loop ∧ (!throws || s.process.1.isSome) then
      (EventLoop.step s.loop (if throws then .threw else .handled s.process.2)).map fun loop => { s with loop := loop }
    else none
  | s, .notify posted => some (s.notify key posted).2
  | s, .set eventHandler => some (s.set eventHandler).2
  | s, .stop posted => some (s.stop posted)

/-! ### What a run has posted, taken and processed -/

/-- What an action posts. -/
def posts (key : Nat) : Act H C → List EventLoop.Dequeued
  | .port a => a.posts
  | .notify true => [.packet key]
  | .stop true => [.packet 0]
  | _ => []

/-- What a step takes from the port. -/
def takes (x : Notifier H C × Act H C) : List EventLoop.Dequeued :=
  match x.2 with
  | .port .dequeue => x.1.port.take 1
  | _ => []

/-- Everything posted, in its order; the newest step of a trace comes first. -/
def posted (key : Nat) (tr : List (Notifier H C × Act H C)) : List EventLoop.Dequeued :=
  tr.reverse.flatMap fun x => posts key x.2

def taken (tr : List (Notifier H C × Act H C)) : List EventLoop.Dequeued := tr.reverse.flatMap takes

/-- The step is a notification that succeeds. -/
def notified (x : Notifier H C × Act H C) : Bool :=
  match x.2 with
  | .notify posted => posted
  | _ => false

/-- The step ends a call of `process`. -/
def processed (x : Notifier H C × Act H C) : Bool :=
  match x.2 with
  | .process _ => true
  | _ => false

/-- `execute` has taken a packet of the notifier, and `process` has not ended. -/
def taking (key : Nat) (s : Notifier H C) : Bool := engaged key s.loop

variable {key : Nat} {s s' : Notifier H C} {a : Act H C} {tr : List (Notifier H C × Act H C)}

theorem posted_cons (x : Notifier H C × Act H C) : posted key (x :: tr) = posted key tr ++ posts key x.2 := by
  simp [posted]

theorem taken_cons (x : Notifier H C × Act H C) : taken (x :: tr) = taken tr ++ takes x := by
  simp [taken]

theorem count_not_ours {cs : List EventLoop.Dequeued} (h : ∀ c ∈ cs, ours key c = false) :
    cs.count (.packet key) = 0 := by
  refine List.count_eq_zero.mpr fun hmem => ?_
  have hours : ours key (.packet key) = true := beq_self_eq_true key
  rw [h _ hmem] at hours
  simp at hours

/-- Between two steps of a run. -/
structure Inv (key : Nat) (tr : List (Notifier H C × Act H C)) (s : Notifier H C) : Prop where
  serves : Serves key s.loop
  fifo : posted key tr = taken tr ++ s.port
  /-- No operation of the notifier fails. -/
  port : ∀ c ∈ s.port, c = .packet key ∨ ours key c = false
  packets : (posted key tr).count (.packet key) = tr.countP notified
  count : (taken tr).count (.packet key) = tr.countP processed + (s.taking key).toNat
  last : s.taking key = true → ∃ done, taken tr = done ++ [.packet key]

/-- What a step posts stands behind what is in the port, and what it takes stood in front. -/
theorem Inv.next (h : Inv key tr s) (hserves : Serves key s'.loop)
    (hport : s.port ++ posts key a = takes (s, a) ++ s'.port)
    (hposts : ∀ c ∈ posts key a, c = .packet key ∨ ours key c = false)
    (hpackets : (posts key a).count (.packet key) = (notified (s, a)).toNat)
    (hcount : (takes (s, a)).count (.packet key) + (s.taking key).toNat =
      (processed (s, a)).toNat + (s'.taking key).toNat)
    (hlast : s'.taking key = true → takes (s, a) = [.packet key] ∨ (takes (s, a) = [] ∧ s.taking key = true)) :
    Inv key ((s, a) :: tr) s' := by
  refine ⟨hserves, ?_, fun c hc => ?_, ?_, ?_, fun htaking => ?_⟩
  · rw [posted_cons, taken_cons, h.fifo, List.append_assoc, List.append_assoc, hport]
  · have hmem : c ∈ s.port ++ posts key a := hport ▸ List.mem_append_right _ hc
    exact (List.mem_append.mp hmem).elim (h.port c) (hposts c)
  · rw [posted_cons, List.count_append, countP_cons_toNat, h.packets, hpackets]
  · rw [taken_cons, List.count_append, countP_cons_toNat, h.count]
    omega
  · rw [taken_cons]
    rcases hlast htaking with htakes | ⟨htakes, hbefore⟩
    · exact ⟨taken tr, by rw [htakes]⟩
    · rw [htakes, List.append_nil]
      exact h.last hbefore

theorem Inv.quiet (h : Inv key tr s) (haside : Aside key s.loop s'.loop) (hport : s'.port = s.port ++ posts key a)
    (htakes : takes (s, a) = []) (hposts : ∀ c ∈ posts key a, c = .packet key ∨ ours key c = false)
    (hpackets : (posts key a).count (.packet key) = (notified (s, a)).toNat) (hprocessed : processed (s, a) = false) :
    Inv key ((s, a) :: tr) s' := by
  have htaking : s'.taking key = s.taking key := haside.engaged
  refine h.next haside.serves ?_ hposts hpackets ?_ fun htaking' => Or.inr ⟨htakes, htaking ▸ htaking'⟩
  · rw [htakes, List.nil_append, hport]
  · rw [htakes, hprocessed, htaking, List.count_nil, Bool.toNat_false]

theorem Inv.post (h : Inv key tr s) {c : EventLoop.Dequeued} (hc : c = .packet key ∨ ours key c = false)
    {posted : Bool} (hposts : posts key a = if posted then [c] else []) (htakes : takes (s, a) = [])
    (hpackets : (posts key a).count (.packet key) = (notified (s, a)).toNat) (hprocessed : processed (s, a) = false) :
    Inv key ((s, a) :: tr) (s.post c posted) := by
  cases posted with
  | false =>
    refine h.quiet ⟨h.serves, rfl, id⟩ ?_ htakes (fun c' hc' => ?_) hpackets hprocessed
    · rw [hposts]
      exact (List.append_nil s.port).symm
    · simp [hposts] at hc'
  | true =>
    refine h.quiet ⟨h.serves, rfl, id⟩ ?_ htakes (fun c' hc' => ?_) hpackets hprocessed
    · rw [hposts]
      rfl
    · rw [hposts, if_pos rfl] at hc'
      rw [List.mem_singleton.mp hc']
      exact hc

theorem Inv.dequeue (h : Inv key tr s) {c : EventLoop.Dequeued} {port : List EventLoop.Dequeued}
    (hport : s.port = c :: port) (hidle : engaged key s.loop = false) (hserves : Serves key (EventLoop.dequeue s.loop c))
    (hengaged : engaged key (EventLoop.dequeue s.loop c) = called key c) :
    Inv key ((s, .port .dequeue) :: tr) { s with loop := EventLoop.dequeue s.loop c, port := port } := by
  have htakes : takes (s, (.port .dequeue : Act H C)) = [c] := by
    rw [takes]
    dsimp only
    rw [hport]
    rfl
  refine h.next hserves ?_ (fun c' hc' => absurd hc' List.not_mem_nil) rfl ?_ fun htaking => Or.inl ?_
  · rw [htakes, hport]
    exact List.append_nil _
  · rw [htakes, taking, taking, hidle, hengaged]
    rcases h.port c (hport ▸ List.mem_cons_self) with rfl | hours
    · rw [List.count_singleton_self, called, beq_self_eq_true]
      rfl
    · have hcalled : called key c = false := Bool.eq_false_iff.mpr fun hcalled => by
        rw [Port.ours_of_called hcalled] at hours
        simp at hours
      rw [hcalled, count_not_ours fun c' hc' => List.mem_singleton.mp hc' ▸ hours]
      rfl
  · rw [taking, hengaged] at htaking
    rw [htakes]
    refine congrArg (fun c => [c]) ((h.port c (hport ▸ List.mem_cons_self)).resolve_right fun hours => ?_)
    rw [Port.ours_of_called htaking] at hours
    simp at hours

theorem Inv.process (h : Inv key tr s) {throws : Bool} (hprocessing : processing key s.loop = true)
    {loop : EventLoop H}
    (hloop : EventLoop.step s.loop (if throws then .threw else .handled s.process.2) = some loop) :
    Inv key ((s, .process throws) :: tr) { s with loop := loop } := by
  have hends : Serves key loop ∧ engaged key loop = false := by
    cases throws with
    | true => exact h.serves.threw hloop
    | false => exact h.serves.handled hprocessing (Int.le_refl 0) hloop
  obtain ⟨hserves, hidle⟩ := hends
  refine h.next hserves (List.append_nil _) (fun c hc => absurd hc List.not_mem_nil) rfl ?_ fun htaking => ?_
  · rw [taking, taking, hidle, Port.engaged_of_processing hprocessing]
    rfl
  · rw [taking, hidle] at htaking
    simp at htaking

theorem Inv.step (h : Inv key tr s) (hkey : key ≠ 0) (hstep : step key s a = some s') : Inv key ((s, a) :: tr) s' := by
  cases a with
  | port b =>
    obtain ⟨p, hp, rfl⟩ := Option.map_eq_some_iff.mp hstep
    cases Port.step_cases hkey h.serves hp with
    | dequeue hport hidle hserves hengaged => exact h.dequeue hport hidle hserves hengaged
    | aside hne haside hport hours =>
      have htakes : takes (s, (.port b : Act H C)) = [] := by
        cases b with
        | dequeue => exact absurd rfl hne
        | _ => rfl
      exact h.quiet haside hport htakes (fun c hc => Or.inr (hours c hc)) (count_not_ours hours) rfl
  | process throws =>
    simp only [Notifier.step, Option.ite_none_right_eq_some, Option.map_eq_some_iff] at hstep
    obtain ⟨⟨hprocessing, _⟩, loop, hloop, rfl⟩ := hstep
    exact h.process hprocessing hloop
  | notify posted =>
    obtain rfl := Option.some.inj hstep
    refine h.post (Or.inl rfl) (by cases posted <;> rfl) rfl ?_ rfl
    cases posted <;> simp [posts, notified]
  | set eventHandler =>
    obtain rfl := Option.some.inj hstep
    exact h.quiet ⟨h.serves, rfl, id⟩ (List.append_nil _).symm rfl (fun c hc => absurd hc List.not_mem_nil) rfl rfl
  | stop posted =>
    obtain rfl := Option.some.inj hstep
    have hother : ours key (.packet 0) = false := beq_eq_false_iff_ne.mpr hkey.symm
    refine h.post (Or.inr hother) (by cases posted <;> rfl) rfl ?_ rfl
    cases posted <;> simp [posts, notified, hkey.symm]

/-! ### Runs -/

theorem run_inv (hkey : key ≠ 0) {eventInfos : Nat → Option H} {process : H}
    (h : (step key).Run (new eventInfos key process : Notifier H C) tr s) : Inv key tr s := by
  refine h.trace_induction (P := Inv key) ?_ fun _ _ _ _ _ hinv hstep => hinv.step hkey hstep
  have hidle : (new eventInfos key process : Notifier H C).taking key = false := Port.not_engaged_start
  refine ⟨.start, rfl, fun c hc => absurd hc List.not_mem_nil, rfl, ?_, fun htaking => ?_⟩
  · rw [hidle]
    rfl
  · rw [hidle] at htaking
    simp at htaking

/-- **Each notification is processed once, in its turn.** `process` was called once for each notification, but for the
one that `execute` is about to call it for and those whose packets are queued. A `stop` is a barrier: as long as its
packet is queued, no later notification is processed, and when `execute` has taken it, all earlier ones are. -/
theorem notified_in_order (hkey : key ≠ 0) (eventInfos : Nat → Option H) (process : H)
    {tr : List (Notifier H C × Act H C)} {s : Notifier H C}
    (h : (step key).Run (new eventInfos key process) tr s) :
    tr.countP notified = tr.countP processed + (s.taking key).toNat + s.port.count (.packet key) ∧
      ∀ later x earlier, tr = later ++ (x, .stop true) :: earlier →
        ((taken tr).length ≤ (posted key earlier).length → tr.countP processed ≤ earlier.countP notified) ∧
          ((posted key earlier).length < (taken tr).length → earlier.countP notified ≤ tr.countP processed) := by
  have hinv := run_inv hkey h
  constructor
  · rw [← hinv.packets, hinv.fifo, List.count_append, hinv.count]
  · rintro later x earlier rfl
    obtain ⟨_, hrun, _⟩ := h.split
    have hearlier := (run_inv hkey hrun).packets
    have hposted : posted key (later ++ (x, .stop true) :: earlier) =
        posted key earlier ++ (.packet 0 :: posted key later) := by
      simp [posted, posts]
    have hbefore : posted key earlier <+: posted key (later ++ (x, .stop true) :: earlier) := ⟨_, hposted.symm⟩
    have htaken : taken (later ++ (x, .stop true) :: earlier) <+: posted key (later ++ (x, .stop true) :: earlier) :=
      ⟨_, hinv.fifo.symm⟩
    have hcount := hinv.count
    constructor
    · intro hle
      have hsub := (List.prefix_of_prefix_length_le htaken hbefore hle).sublist.count_le (.packet key)
      omega
    · intro hlt
      cases htaking : s.taking key with
      | false =>
        have hsub := (List.prefix_of_prefix_length_le hbefore htaken hlt.le).sublist.count_le (.packet key)
        rw [htaking, Bool.toNat_false] at hcount
        omega
      | true =>
        -- what is about to be processed was taken last
        obtain ⟨done, hdone⟩ := hinv.last htaking
        have hold : done <+: posted key (later ++ (x, .stop true) :: earlier) :=
          (List.prefix_append done [.packet key]).trans (hdone ▸ htaken)
        have hlength : (posted key earlier).length ≤ done.length := by
          rw [hdone, List.length_append, List.length_singleton] at hlt
          omega
        have hsub := (List.prefix_of_prefix_length_le hbefore hold hlength).sublist.count_le (.packet key)
        rw [htaking, hdone, List.count_append, List.count_singleton_self, Bool.toNat_true] at hcount
        omega

/-- Notified twice before `stop` and once behind it: when `execute` has returned, `process` was called twice. -/
theorem notified_in_order_thrice :
    ∃ (tr : List (Notifier Nat Nat × Act Nat Nat)) (s : Notifier Nat Nat),
      (step 7).Run (new (fun _ => none) 7 10) tr s ∧ s.loop.pc = .returned 0 ∧ s.port = [.packet 7] ∧
      tr.countP notified = 3 ∧ tr.countP processed = 2 ∧
      tr.countP notified = tr.countP processed + (s.taking 7).toNat + s.port.count (.packet 7) := by
  have hrun := run_of_exec (step 7) (new (fun _ => none) 7 10 : Notifier Nat Nat)
    [.notify true, .set (some 1), .notify true, .stop true, .notify true, .port .dequeue,
      .port (.loop .find), .process false, .port (.loop .test), .port .dequeue, .port (.loop .find), .process false,
      .port (.loop .test), .port .dequeue] rfl
  exact ⟨_, _, hrun, rfl, rfl, rfl, rfl, (notified_in_order (by decide) _ _ hrun).1⟩

end Notifier

end Windows

end Libhbk
