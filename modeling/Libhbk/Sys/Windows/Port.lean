import Libhbk.Sys.Windows.EventLoop

/-!
# The completion port

What objects have in common whose handler `process` the event loop calls for packets with their key: other sources post
packets too, `execute` takes one after the other, and other threads change the registrations in between. `step_cases`
says what all this is for one object: a packet is taken from the front of the port, or nothing has happened.
-/

namespace Libhbk.Windows

open Machine

variable {H : Type}

/-- The event loop, and what is queued at its completion port. -/
structure Port (H : Type) where
  loop : EventLoop H
  port : List EventLoop.Dequeued

namespace Port

/-- `process` has been registered, and `execute` is called. -/
def start (eventInfos : Nat → Option H) (key : Nat) (process : H) : Port H :=
  ⟨.start (Function.update eventInfos key (some process)), []⟩

inductive Act (H : Type) where
  /-- A step of `execute` behind `GetQueuedCompletionStatus`, or a change of the registrations. -/
  | loop (a : EventLoop.Act H)
  /-- `GetQueuedCompletionStatus` takes the first packet, or fails. -/
  | dequeue
  | nothing
  | execute
  /-- An operation of another source has ended. -/
  | other (c : EventLoop.Dequeued)

def Act.posts : Act H → List EventLoop.Dequeued
  | .other c => [c]
  | _ => []

/-- `execute` is going to call `process`, or has called it. -/
def engaged (key : Nat) (l : EventLoop H) : Bool :=
  l.event = key ∧ (l.pc = .find false ∨ l.pc = .handling ∨ l.pc = .closed)

/-- `process` is running. -/
def processing (key : Nat) (l : EventLoop H) : Bool := l.event = key ∧ (l.pc = .handling ∨ l.pc = .closed)

/-- The handler of the object is `process`, and the registration belongs to it. -/
def admits (key : Nat) (l : EventLoop H) : EventLoop.Act H → Bool
  | .completion _ => false
  | .handled _ => !processing key l
  | .threw => !processing key l
  | .addEvent event _ => event != key
  | .eraseEvent event => event != key
  | _ => true

/-- A packet of the object. -/
def ours (key : Nat) : EventLoop.Dequeued → Bool
  | .nothing => false
  | .failed _ completionKey => completionKey == key
  | .packet completionKey => completionKey == key

/-- A packet of the object for which `execute` calls `process`. -/
def called (key : Nat) : EventLoop.Dequeued → Bool
  | .nothing => false
  | .failed lastError completionKey => completionKey == key && lastError == errorNetnameDeleted
  | .packet completionKey => completionKey == key

def step (key : Nat) : Machine (Port H) (Act H)
  | s, .loop a => if admits key s.loop a then (EventLoop.step s.loop a).map fun loop => { s with loop := loop } else none
  | s, .dequeue =>
    match s.port with
    | [] => none
    | c :: port => (EventLoop.step s.loop (.completion c)).map fun loop => ⟨loop, port⟩
  | s, .nothing => (EventLoop.step s.loop (.completion .nothing)).map fun loop => { s with loop := loop }
  | s, .execute =>
    match s.loop.pc with
    | .returned _ => some { s with loop := { s.loop with pc := .wait } }
    | .thrown => some { s with loop := { s.loop with pc := .wait } }
    | _ => none
  | s, .other c => if ours key c then none else some { s with port := s.port ++ [c] }

/-! ### What `execute` does -/

variable {key : Nat} {l l' : EventLoop H} {b : EventLoop.Act H} {c : EventLoop.Dequeued}

theorem engaged_iff : engaged key l = true ↔ l.event = key ∧ (l.pc = .find false ∨ l.pc = .handling ∨ l.pc = .closed) :=
  decide_eq_true_iff

theorem processing_iff : processing key l = true ↔ l.event = key ∧ (l.pc = .handling ∨ l.pc = .closed) :=
  decide_eq_true_iff

theorem engaged_of_processing (h : processing key l = true) : engaged key l = true := by
  obtain ⟨hevent, hpc⟩ := processing_iff.mp h
  exact engaged_iff.mpr ⟨hevent, Or.inr hpc⟩

theorem not_engaged_of_ne (h : l.event ≠ key) : engaged key l = false := by
  rw [Bool.eq_false_iff]
  exact fun hengaged => h (engaged_iff.mp hengaged).1

theorem not_engaged_of_pc (hfind : l.pc ≠ .find false) (hhandling : l.pc ≠ .handling) (hclosed : l.pc ≠ .closed) :
    engaged key l = false := by
  rw [Bool.eq_false_iff]
  intro hengaged
  rcases (engaged_iff.mp hengaged).2 with hpc | hpc | hpc
  · exact hfind hpc
  · exact hhandling hpc
  · exact hclosed hpc

theorem not_engaged_of_wait (h : l.pc = .wait) : engaged key l = false :=
  not_engaged_of_pc (by simp [h]) (by simp [h]) (by simp [h])

/-- The object is registered, and `execute` calls `process` once for each packet. -/
structure Serves (key : Nat) (l : EventLoop H) : Prop where
  registered : (l.eventInfos key).isSome = true
  further : l.pc = .find true → l.event ≠ key
  test : l.pc = .test → l.event = key → l.retval ≤ 0

/-- A step that `process` has nothing to do with. -/
structure Aside (key : Nat) (l l' : EventLoop H) : Prop where
  serves : Serves key l'
  engaged : engaged key l' = engaged key l
  processing : processing key l = true → processing key l' = true

theorem Serves.aside_of_ne (h : Serves key l) (hinfos : l'.eventInfos = l.eventInfos) (hne : l.event ≠ key)
    (hevent : l'.event = l.event) : Aside key l l' := by
  refine ⟨⟨hinfos ▸ h.registered, fun _ => hevent ▸ hne, fun _ he => absurd (hevent ▸ he) hne⟩, ?_, fun hprocessing => ?_⟩
  · rw [not_engaged_of_ne hne, not_engaged_of_ne (hevent ▸ hne)]
  · exact absurd (processing_iff.mp hprocessing).1 hne

theorem Serves.aside_of_idle (h : Serves key l) (hinfos : l'.eventInfos = l.eventInfos)
    (hidle : engaged key l = false) (hidle' : engaged key l' = false) (hpc' : l'.pc = .wait ∨ l'.pc = .find true)
    (hfurther : l'.pc = .find true → l'.event ≠ key) : Aside key l l' := by
  refine ⟨⟨hinfos ▸ h.registered, hfurther, fun hpc => ?_⟩, hidle'.trans hidle.symm, fun hprocessing => ?_⟩
  · simp [hpc] at hpc'
  · rw [engaged_of_processing hprocessing] at hidle
    simp at hidle

theorem Serves.loop (h : Serves key l) (hadmits : admits key l b = true) (hs : EventLoop.step l b = some l') :
    Aside key l l' := by
  cases b with
  | completion c => simp [admits] at hadmits
  | find =>
    cases hpc : l.pc with
    | find further =>
      simp only [EventLoop.step, hpc, Option.some.injEq] at hs
      obtain rfl := hs
      by_cases hevent : l.event = key
      · have hfirst : l.pc = .find false := by
          cases further with
          | false => exact hpc
          | true => exact absurd hevent (h.further hpc)
        have hfound : (l.eventInfos l.event).isSome = true := hevent ▸ h.registered
        rw [if_pos hfound]
        refine ⟨⟨h.registered, by simp, by simp⟩, ?_, fun hprocessing => ?_⟩
        · rw [engaged_iff.mpr ⟨hevent, Or.inl hfirst⟩, engaged_iff]
          exact ⟨hevent, Or.inr (Or.inl rfl)⟩
        · rcases (processing_iff.mp hprocessing).2 with hpc' | hpc'
          · simp [hpc] at hpc'
          · simp [hpc] at hpc'
      · exact h.aside_of_ne rfl hevent rfl
    | wait | handling | closed | test | returned _ | thrown => simp only [EventLoop.step, hpc, reduceCtorEq] at hs
  | handled retval =>
    have hprocessing : ¬ processing key l = true := by
      simpa [admits] using hadmits
    cases hpc : l.pc with
    | handling =>
      have hevent : l.event ≠ key := fun hevent => hprocessing (processing_iff.mpr ⟨hevent, Or.inl hpc⟩)
      simp only [EventLoop.step, hpc, Option.some.injEq] at hs
      obtain rfl := hs
      exact h.aside_of_ne rfl hevent rfl
    | closed =>
      have hevent : l.event ≠ key := fun hevent => hprocessing (processing_iff.mpr ⟨hevent, Or.inr hpc⟩)
      simp only [EventLoop.step, hpc, Option.some.injEq] at hs
      obtain rfl := hs
      exact h.aside_of_ne rfl hevent rfl
    | wait | find _ | test | returned _ | thrown => simp only [EventLoop.step, hpc, reduceCtorEq] at hs
  | threw =>
    have hprocessing : ¬ processing key l = true := by
      simpa [admits] using hadmits
    obtain ⟨hpc, hs⟩ := Option.ite_none_right_eq_some.mp hs
    have hevent : l.event ≠ key := fun hevent => hprocessing (processing_iff.mpr ⟨hevent, hpc⟩)
    obtain rfl := Option.some.inj hs
    exact h.aside_of_ne rfl hevent rfl
  | test =>
    obtain ⟨hpc, hs⟩ := Option.ite_none_right_eq_some.mp hs
    obtain rfl := Option.some.inj hs
    have hidle : engaged key l = false := not_engaged_of_pc (by simp [hpc]) (by simp [hpc]) (by simp [hpc])
    by_cases hpos : 0 < l.retval
    · rw [if_pos hpos]
      refine h.aside_of_idle rfl hidle (not_engaged_of_pc (by simp) (by simp) (by simp)) (Or.inr rfl) fun _ hevent => ?_
      exact absurd (h.test hpc hevent) (Int.not_le.mpr hpos)
    · rw [if_neg hpos]
      exact h.aside_of_idle rfl hidle (not_engaged_of_pc (by simp) (by simp) (by simp)) (Or.inl rfl) (by simp)
  | addEvent event eventHandler =>
    have hne : event ≠ key := bne_iff_ne.mp hadmits
    cases eventHandler with
    | none =>
      obtain rfl := Option.some.inj hs
      exact ⟨h, rfl, id⟩
    | some handler =>
      obtain rfl := Option.some.inj hs
      refine ⟨⟨?_, h.further, h.test⟩, rfl, id⟩
      dsimp only
      rw [Function.update_of_ne (Ne.symm hne)]
      exact h.registered
  | eraseEvent event =>
    have hne : event ≠ key := bne_iff_ne.mp hadmits
    obtain rfl := Option.some.inj hs
    refine ⟨⟨?_, h.further, h.test⟩, rfl, id⟩
    dsimp only
    rw [Function.update_of_ne (Ne.symm hne)]
    exact h.registered

theorem Serves.dequeue (h : Serves key l) (hkey : key ≠ 0) (hpc : l.pc = .wait) (c : EventLoop.Dequeued) :
    Serves key (EventLoop.dequeue l c) ∧ engaged key (EventLoop.dequeue l c) = called key c := by
  cases c with
  | nothing =>
    exact ⟨h, not_engaged_of_wait hpc⟩
  | failed lastError completionKey =>
    rw [EventLoop.dequeue]
    by_cases hdeleted : lastError = errorNetnameDeleted
    · rw [if_pos hdeleted]
      by_cases hcompletion : completionKey = key
      · rw [if_pos (hcompletion ▸ h.registered)]
        refine ⟨⟨h.registered, by simp, by simp⟩, ?_⟩
        rw [engaged_iff.mpr ⟨hcompletion, Or.inr (Or.inr rfl)⟩]
        simp [called, hcompletion, hdeleted]
      · have hno : called key (.failed lastError completionKey) = false := by
          simp [called, hcompletion]
        rw [hno]
        split_ifs
        · exact ⟨⟨h.registered, by simp, by simp⟩, not_engaged_of_ne hcompletion⟩
        · exact ⟨h, not_engaged_of_wait hpc⟩
    · have hno : called key (.failed lastError completionKey) = false := by
        simp [called, hdeleted]
      rw [if_neg hdeleted, hno]
      split_ifs
      · exact ⟨⟨h.registered, by simp, by simp⟩, not_engaged_of_pc (by simp) (by simp) (by simp)⟩
      · exact ⟨h, not_engaged_of_wait hpc⟩
  | packet completionKey =>
    rw [EventLoop.dequeue]
    by_cases hstop : completionKey = 0
    · rw [if_pos hstop]
      refine ⟨⟨h.registered, by simp, by simp⟩, ?_⟩
      rw [not_engaged_of_pc (by simp) (by simp) (by simp)]
      exact (beq_eq_false_iff_ne.mpr (hstop ▸ hkey.symm)).symm
    · rw [if_neg hstop]
      refine ⟨⟨h.registered, by simp, by simp⟩, ?_⟩
      by_cases hcompletion : completionKey = key
      · rw [engaged_iff.mpr ⟨hcompletion, Or.inl rfl⟩]
        exact (beq_iff_eq.mpr hcompletion).symm
      · rw [not_engaged_of_ne hcompletion]
        exact (beq_eq_false_iff_ne.mpr hcompletion).symm

theorem Serves.handled (h : Serves key l) (hprocessing : processing key l = true) {retval : Int} (hretval : retval ≤ 0)
    (hs : EventLoop.step l (.handled retval) = some l') : Serves key l' ∧ engaged key l' = false := by
  rcases (processing_iff.mp hprocessing).2 with hpc | hpc
  · simp only [EventLoop.step, hpc, Option.some.injEq] at hs
    obtain rfl := hs
    exact ⟨⟨h.registered, by simp, fun _ _ => hretval⟩, not_engaged_of_pc (by simp) (by simp) (by simp)⟩
  · simp only [EventLoop.step, hpc, Option.some.injEq] at hs
    obtain rfl := hs
    exact ⟨⟨h.registered, by simp, by simp⟩, not_engaged_of_pc (by simp) (by simp) (by simp)⟩

theorem Serves.threw (h : Serves key l) (hs : EventLoop.step l .threw = some l') :
    Serves key l' ∧ engaged key l' = false := by
  obtain ⟨_, hs⟩ := Option.ite_none_right_eq_some.mp hs
  obtain rfl := Option.some.inj hs
  exact ⟨⟨h.registered, by simp, by simp⟩, not_engaged_of_pc (by simp) (by simp) (by simp)⟩

theorem Serves.start {eventInfos : Nat → Option H} {process : H} :
    Serves key (Port.start eventInfos key process).loop := by
  refine ⟨?_, by simp [Port.start, EventLoop.start], by simp [Port.start, EventLoop.start]⟩
  change (Function.update eventInfos key (some process) key).isSome = true
  rw [Function.update_self]
  rfl

theorem not_engaged_start {eventInfos : Nat → Option H} {process : H} :
    engaged key (Port.start eventInfos key process).loop = false :=
  not_engaged_of_pc (by simp [Port.start, EventLoop.start]) (by simp [Port.start, EventLoop.start])
    (by simp [Port.start, EventLoop.start])

theorem ours_of_called (h : called key c = true) : ours key c = true := by
  cases c with
  | nothing => exact h
  | failed lastError completionKey =>
    rw [called, Bool.and_eq_true] at h
    exact h.1
  | packet completionKey => exact h

/-! ### What a step does -/

variable {s s' : Port H} {a : Act H}

/-- For the object a packet is taken from the front of the port, or nothing happens. -/
inductive Step (key : Nat) (s : Port H) : Act H → Port H → Prop where
  | dequeue {c : EventLoop.Dequeued} {port : List EventLoop.Dequeued} (hport : s.port = c :: port)
      (hidle : engaged key s.loop = false) (hserves : Serves key (EventLoop.dequeue s.loop c))
      (hengaged : engaged key (EventLoop.dequeue s.loop c) = called key c) :
      Step key s .dequeue ⟨EventLoop.dequeue s.loop c, port⟩
  | aside {a : Act H} {s' : Port H} (hne : a ≠ .dequeue) (haside : Aside key s.loop s'.loop)
      (hport : s'.port = s.port ++ a.posts) (hours : ∀ c ∈ a.posts, ours key c = false) : Step key s a s'

theorem Step.keep {a : Act H} {loop : EventLoop H} (hne : a ≠ .dequeue) (haside : Aside key s.loop loop)
    (hposts : a.posts = []) : Step key s a { s with loop := loop } := by
  refine .aside hne haside ?_ fun c hc => ?_
  · rw [hposts, List.append_nil]
  · rw [hposts] at hc
    simp at hc

theorem step_cases (hkey : key ≠ 0) (h : Serves key s.loop) (hs : step key s a = some s') : Step key s a s' := by
  cases a with
  | loop b =>
    simp only [step, Option.ite_none_right_eq_some, Option.map_eq_some_iff] at hs
    obtain ⟨hadmits, loop, hloop, rfl⟩ := hs
    exact .keep (by simp) (h.loop hadmits hloop) rfl
  | dequeue =>
    cases hport : s.port with
    | nil => simp [step, hport] at hs
    | cons c port =>
      simp only [step, hport, EventLoop.step, Option.map_eq_some_iff, Option.ite_none_right_eq_some,
        Option.some.injEq] at hs
      obtain ⟨_, ⟨hpc, rfl⟩, rfl⟩ := hs
      obtain ⟨hserves, hengaged⟩ := h.dequeue hkey hpc c
      exact .dequeue hport (not_engaged_of_wait hpc) hserves hengaged
  | nothing =>
    simp only [step, EventLoop.step, Option.map_eq_some_iff, Option.ite_none_right_eq_some, Option.some.injEq] at hs
    obtain ⟨_, ⟨_, rfl⟩, rfl⟩ := hs
    exact .keep (by simp) ⟨h, rfl, id⟩ rfl
  | execute =>
    have hwait : engaged key s.loop = false → Step key s .execute { s with loop := { s.loop with pc := .wait } } :=
      fun hidle => .keep (by simp)
        (h.aside_of_idle rfl hidle (not_engaged_of_wait rfl) (Or.inl rfl) (by simp)) rfl
    cases hpc : s.loop.pc with
    | returned r =>
      simp only [step, hpc, Option.some.injEq] at hs
      obtain rfl := hs
      exact hwait (not_engaged_of_pc (by simp [hpc]) (by simp [hpc]) (by simp [hpc]))
    | thrown =>
      simp only [step, hpc, Option.some.injEq] at hs
      obtain rfl := hs
      exact hwait (not_engaged_of_pc (by simp [hpc]) (by simp [hpc]) (by simp [hpc]))
    | wait | find _ | handling | closed | test => simp only [step, hpc, reduceCtorEq] at hs
  | other c =>
    obtain ⟨hours, hs⟩ := Option.ite_none_left_eq_some.mp hs
    obtain rfl := Option.some.inj hs
    refine .aside (by simp) ⟨h, rfl, id⟩ rfl fun c' hc' => ?_
    rw [List.mem_singleton.mp hc']
    exact Bool.eq_false_iff.mpr hours

end Port

end Libhbk.Windows
