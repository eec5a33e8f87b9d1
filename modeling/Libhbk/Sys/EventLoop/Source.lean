import Libhbk.Sys.EventLoop.Recall

/-!
# Sources behind a descriptor

An object that registers an input handler has something behind its descriptor that the handler takes items from. The
machine runs such a source beside the event loop: what happens to it from outside, with the edges that the kernel
signals for it, the calls of the handler by the dispatch, and those that `addEvent` makes after it has registered the
handler. For each way a call can end it says when the handler is called again without a new edge.
-/

namespace Libhbk

/-- A source with items `Q`: what happens to it from outside, whether that is signalled, and one call of the handler
with the answers of the system, which returns a value or throws (`none`). -/
structure Source (Q E A : Type) where
  outside : E → Q → Option Q
  signalled : E → Bool
  handle : A → Q → Option (Option Int × Q)

namespace Source

variable {H Q E A : Type}

structure State (H Q : Type) where
  sys : Sys H
  items : Q
  /-- `addEvent` calls the handler until nothing is left. -/
  draining : Bool

inductive Act (H E A : Type) where
  /-- A step of `execute`, or of something else that uses the event loop. -/
  | loop (a : Libhbk.Act H)
  | outside (e : E)
  /-- The handler, called by the dispatch, ends. -/
  | process (x : A)
  /-- The handler, called by `addEvent`, ends. -/
  | drain (x : A)

/-- The handler has been registered. -/
def start (sys : Sys H) (items : Q) : State H Q := ⟨sys, items, true⟩

/-- How the call of a handler ends for the dispatch. -/
def ending : Option Int → Libhbk.Act H
  | some r => .ret r
  | none => .throw

def step [DecidableEq H] (src : Source Q E A) (fd stopFd : Fd) (p : Addr) (process : H) :
    Machine (State H Q) (Act H E A) := fun s a =>
  match a with
  | .loop a =>
    if Sys.admits fd stopFd p process s.sys.pc a then (s.sys.exec a).map fun sys => { s with sys := sys } else none
  | .outside e => (src.outside e s.items).map fun q =>
      if src.signalled e then
        { s with
          sys := { s.sys with loop := { s.sys.loop with kernel := s.sys.loop.kernel.signal fd EPOLLIN } }
          items := q }
      else { s with items := q }
  | .process x =>
    if s.sys.pc.dispatches p process then
      (src.handle x s.items).bind fun (o, q) => (s.sys.exec (ending o)).map fun sys => { s with sys := sys, items := q }
    else none
  | .drain x =>
    if s.draining then (src.handle x s.items).map fun (o, q) => { s with items := q, draining := 0 < o.getD 0 } else none

variable {src : Source Q E A} {fd stopFd : Fd} {p : Addr} {process : H} {s s' : State H Q} {a : Act H E A} {x : A}
  {o : Option Int} {q : Q}

/-- The handler stays registered, and the event of the slot whose call runs is on. -/
structure Inv (fd stopFd : Fd) (p : Addr) (process : H) (s : State H Q) : Prop where
  watched : s.sys.Watched fd stopFd p process
  on : ∀ n left fd', s.sys.pc = .running n p .inp left fd' process → s.sys.On n .inp

theorem Inv.step_sys {sys : Sys H} {b : Libhbk.Act H} (h : Inv fd stopFd p process s) (hs : s.sys.Step b sys)
    (hb : Sys.Spares fd stopFd b) (items : Q) (draining : Bool) :
    Inv fd stopFd p process (⟨sys, items, draining⟩ : State H Q) := by
  refine ⟨h.watched.step hs hb, fun n left fd' hrun => ?_⟩
  obtain ⟨hout, hold | ⟨_, htest, hinv, hloop⟩⟩ := hs.running hrun
  · have hptr := (Sys.slot_of_running h.watched hold).2.1
    have hon := hs.on (by rw [hold]; simp) (hb.not_erases .inp) h.watched.registered hptr (h.on n left fd' hold)
    refine hon.resolve_right ?_
    rintro ⟨r, _, hr⟩
    rw [hout] at hr
    simp at hr
  · obtain ⟨ev, hev, hsig⟩ := EventLoop.signals_of_invoked hinv
    exact ⟨ev, by rw [← hev]; exact congrArg (fun l => l.events[n]?) hloop, hsig⟩

variable [DecidableEq H]

theorem Inv.step (h : Inv fd stopFd p process s) (hfd : fd ≠ stopFd)
    (hs : src.step fd stopFd p process s a = some s') : Inv fd stopFd p process s' := by
  cases a with
  | loop b =>
    simp only [Source.step, Option.ite_none_right_eq_some, Option.map_eq_some_iff] at hs
    obtain ⟨hadmits, sys, hexec, rfl⟩ := hs
    exact h.step_sys (Sys.exec_step hexec) (Sys.spares_of_admits hadmits) _ _
  | outside e =>
    simp only [Source.step, Option.map_eq_some_iff] at hs
    obtain ⟨q, _, rfl⟩ := hs
    split
    · exact h.step_sys .edge hfd _ _
    · exact ⟨h.watched, h.on⟩
  | process x =>
    simp only [Source.step, Option.ite_none_right_eq_some, Option.bind_eq_some_iff, Option.map_eq_some_iff] at hs
    obtain ⟨_, ⟨o, q⟩, _, sys, hexec, rfl⟩ := hs
    refine h.step_sys (Sys.exec_step hexec) ?_ _ _
    cases o <;> trivial
  | drain x =>
    simp only [Source.step, Option.ite_none_right_eq_some, Option.map_eq_some_iff] at hs
    obtain ⟨_, ⟨o, q⟩, _, rfl⟩ := hs
    exact ⟨h.watched, h.on⟩

theorem run_inv {sys : Sys H} {items : Q} {tr : List (State H Q × Act H E A)}
    (hreg : sys.Registered fd stopFd p process) (hrun : (src.step fd stopFd p process).Run (start sys items) tr s) :
    Inv fd stopFd p process s :=
  hrun.invariant ⟨hreg.watched, fun _ _ _ hpc => absurd hpc hreg.idle⟩ fun _ _ _ h hs => h.step hreg.ne_stopFd hs

theorem process_eq (hs : src.step fd stopFd p process s (.process x) = some s')
    (hh : src.handle x s.items = some (o, q)) :
    s'.items = q ∧ s.sys.exec (ending o) = some s'.sys ∧
      ∃ n left fd', s.sys.pc = .running n p .inp left fd' process := by
  simp only [step, Option.ite_none_right_eq_some, hh, Option.bind_some, Option.map_eq_some_iff] at hs
  obtain ⟨hdispatches, sys, hexec, rfl⟩ := hs
  exact ⟨rfl, hexec, Pc.dispatches_iff.mp hdispatches⟩

theorem recalled_returned_iff (h : Inv fd stopFd p process s)
    (hs : src.step fd stopFd p process s (.process x) = some s') {r : Int}
    (hh : src.handle x s.items = some (some r, q)) (hr : r ≤ 0) :
    s'.sys.Recalled fd stopFd p ↔ signals (s.sys.loop.kernel.edges fd) .inp = true := by
  obtain ⟨_, hexec, n, left, fd', hpc⟩ := process_eq hs hh
  exact Sys.recalled_returned_iff h.watched hpc hr hexec

theorem recalled_thrown_iff (h : Inv fd stopFd p process s)
    (hs : src.step fd stopFd p process s (.process x) = some s') (hh : src.handle x s.items = some (none, q)) :
    s'.sys.Recalled fd stopFd p ↔ signals (s.sys.loop.kernel.edges fd) .inp = true ∨ 0 < s.sys.pc.left := by
  obtain ⟨_, hexec, n, left, fd', hpc⟩ := process_eq hs hh
  rw [Sys.recalled_thrown_iff h.watched hpc (h.on n left fd' hpc) hexec, hpc]
  rfl

theorem recalled_drained_iff (h : Inv fd stopFd p process s)
    (hs : src.step fd stopFd p process s (.drain x) = some s') (hh : src.handle x s.items = some (o, q)) :
    s'.items = q ∧ (s'.sys.Recalled fd stopFd p ↔ s.sys.Pending fd p) := by
  simp only [step, Option.ite_none_right_eq_some, hh, Option.map_some, Option.some.injEq] at hs
  obtain ⟨_, rfl⟩ := hs
  exact ⟨rfl, Sys.recalled_iff h.watched⟩

end Source

end Libhbk
