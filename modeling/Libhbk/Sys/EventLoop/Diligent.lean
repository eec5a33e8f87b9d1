import Libhbk.Sys.EventLoop.Source
import Libhbk.Sys.Notifier

/-!
# Sources that are drained

In an edge triggered loop a handler is diligent if it returns a value `≤ 0` only where nothing is left. Then nothing is
ever stranded: what has become available is announced by an edge that the kernel holds or by a slot of the batch that is
due, or `addEvent` is calling the handler, until all of it has been taken. The argument is the one for the counter of a
notifier, for any source.
-/

namespace Libhbk.Source

variable {H Q E A : Type} {src : Source Q E A} {empty : Q → Prop} {fd stopFd : Fd} {p : Addr} {process : H}
  {s s' : State H Q} {a : Act H E A} {sys : Sys H} {tr : List (State H Q × Act H E A)}

/-- The call of the handler that ends. -/
def ended : Act H E A → Option A
  | .process k => some k
  | .drain k => some k
  | _ => none

/-- A call that ends here wants to be called again, or leaves nothing. -/
def Diligent (src : Source Q E A) (empty : Q → Prop) (x : State H Q × Act H E A) : Prop :=
  ∀ k o q, ended x.2 = some k → src.handle k x.1.items = some (o, q) → (∃ r, o = some r ∧ 0 < r) ∨ empty q

/-- Nothing is left, or the handler is going to be called for it. -/
def Served (empty : Q → Prop) (fd : Fd) (p : Addr) (process : H) (s : State H Q) : Prop :=
  empty s.items ∨ s.draining = true ∨ signals (s.sys.loop.kernel.edges fd) .inp = true ∨
    Notifier.Ready p process none s.sys

theorem ready_of_more {r : Int} (h : Inv fd stopFd p process s) (hr : 0 < r) {n left : Nat} {fd' : Fd}
    (hpc : s.sys.pc = .running n p .inp left fd' process) (hs : s.sys.exec (.ret r) = some sys) :
    Notifier.Ready p process none sys := by
  obtain rfl : sys = { s.sys with pc := .after n p .inp (left + 1) } := by
    simp only [Sys.exec, hpc, if_pos hr, Option.some.injEq] at hs
    exact hs.symm
  obtain ⟨hactive, hptr, _⟩ := Sys.slot_of_running h.watched hpc
  have hsame : ({ s.sys with pc := .after n p .inp (left + 1) } : Sys H).active = s.sys.active := by
    rw [Sys.active_of_locked (s := s.sys) (by rw [hpc]; rfl)]
    rfl
  refine ⟨n, ⟨hsame ▸ hactive, hptr, h.on n left fd' hpc, Or.inr (Nat.succ_pos left)⟩, ?_⟩
  intro q left' fd'' hd hrun
  simp [Pc.after] at hrun

variable [DecidableEq H]

theorem step_items (hs : src.step fd stopFd p process s a = some s') :
    (∃ e, a = .outside e ∧ src.outside e s.items = some s'.items) ∨
      (∃ k o, ended a = some k ∧ src.handle k s.items = some (o, s'.items)) ∨ (∃ b, a = .loop b ∧ s'.items = s.items) := by
  cases a with
  | loop b =>
    simp only [Source.step, Option.ite_none_right_eq_some, Option.map_eq_some_iff] at hs
    obtain ⟨_, sys, _, rfl⟩ := hs
    exact Or.inr (Or.inr ⟨b, rfl, rfl⟩)
  | outside e =>
    simp only [Source.step, Option.map_eq_some_iff] at hs
    obtain ⟨q, hout, rfl⟩ := hs
    refine Or.inl ⟨e, rfl, hout.trans ?_⟩
    split <;> rfl
  | process k =>
    simp only [Source.step, Option.ite_none_right_eq_some, Option.bind_eq_some_iff, Option.map_eq_some_iff] at hs
    obtain ⟨_, ⟨o, q⟩, hh, sys, _, rfl⟩ := hs
    exact Or.inr (Or.inl ⟨k, o, rfl, hh⟩)
  | drain k =>
    simp only [Source.step, Option.ite_none_right_eq_some, Option.map_eq_some_iff] at hs
    obtain ⟨_, ⟨o, q⟩, hh, rfl⟩ := hs
    exact Or.inr (Or.inl ⟨k, o, rfl, hh⟩)

/-- For what is said of the steps and the items: the event loop does nothing to the items, so there are two cases. -/
theorem items_induction {P : List (State H Q × Act H E A) → Q → Prop} {items : Q} (hstart : P [] items)
    (hloop : ∀ tr s b, P tr s.items → P ((s, .loop b) :: tr) s.items)
    (houtside : ∀ tr s e q, P tr s.items → src.outside e s.items = some q → P ((s, .outside e) :: tr) q)
    (hhandle : ∀ tr s a k o q, P tr s.items → ended a = some k → src.handle k s.items = some (o, q) →
      P ((s, a) :: tr) q)
    (hrun : (src.step fd stopFd p process).Run (start sys items) tr s) : P tr s.items := by
  refine hrun.trace_induction (P := fun tr s => P tr s.items) hstart ?_
  intro tr s a s' _ h hs
  rcases step_items hs with ⟨e, rfl, hout⟩ | ⟨k, o, hended, hh⟩ | ⟨b, rfl, hitems⟩
  · exact houtside tr s e _ h hout
  · exact hhandle tr s a k o _ h hended hh
  · rw [hitems]
    exact hloop tr s b h

theorem Served.loop (h : Served empty fd p process s) (hinv : Inv fd stopFd p process s) {b : Libhbk.Act H}
    (hadmits : Sys.admits fd stopFd p process s.sys.pc b = true) (hs : s.sys.Step b sys) :
    Served empty fd p process { s with sys := sys } := by
  have hb := Sys.spares_of_admits hadmits
  rcases h with hempty | hdraining | hedge | hready
  · exact Or.inl hempty
  · exact Or.inr (Or.inl hdraining)
  · rcases hs.edge_kept hb hedge with hedge' | ⟨fds, rfl, hmem⟩
    · exact Or.inr (Or.inr (Or.inl hedge'))
    · obtain ⟨i, hdue, hpc⟩ := Sys.Due.of_wait hinv.watched hmem hs hedge
      exact Or.inr (Or.inr (Or.inr ⟨i, hdue, fun q left fd' hd hrun => by simp [hpc] at hrun⟩))
  · refine Or.inr (Or.inr (Or.inr (hready.step hinv.watched hs hb (fun hne => absurd rfl hne) ?_ fun _ => rfl)))
    intro i o hout hrun
    rw [Sys.outcome_of_admits hadmits hrun] at hout
    simp at hout

theorem Served.step (h : Served empty fd p process s) (hinv : Inv fd stopFd p process s)
    (hsignalled : ∀ e q q', src.outside e q = some q' → src.signalled e = false → empty q → empty q')
    (hdiligent : Diligent src empty (s, a)) (hs : src.step fd stopFd p process s a = some s') :
    Served empty fd p process s' := by
  cases a with
  | loop b =>
    simp only [Source.step, Option.ite_none_right_eq_some, Option.map_eq_some_iff] at hs
    obtain ⟨hadmits, sys, hexec, rfl⟩ := hs
    exact h.loop hinv hadmits (Sys.exec_step hexec)
  | outside e =>
    simp only [Source.step, Option.map_eq_some_iff] at hs
    obtain ⟨q, hout, rfl⟩ := hs
    split
    · refine Or.inr (Or.inr (Or.inl ?_))
      show signals (Function.update s.sys.loop.kernel.edges fd (s.sys.loop.kernel.edges fd ||| EPOLLIN) fd) .inp = true
      rw [Function.update_self, signals_or, signals_EPOLLIN]
      simp
    · next hno => exact h.imp (hsignalled e _ _ hout (Bool.eq_false_of_not_eq_true hno)) id
  | process x =>
    cases hh : src.handle x s.items with
    | none => simp [Source.step, hh] at hs
    | some result =>
      obtain ⟨o, q⟩ := result
      obtain ⟨hitems, hexec, n, left, fd', hpc⟩ := process_eq hs hh
      rcases hdiligent x o q rfl hh with ⟨r, rfl, hr⟩ | hempty
      · exact Or.inr (Or.inr (Or.inr (ready_of_more hinv hr hpc hexec)))
      · exact Or.inl (hitems ▸ hempty)
  | drain x =>
    simp only [Source.step, Option.ite_none_right_eq_some, Option.map_eq_some_iff] at hs
    obtain ⟨hdraining, ⟨o, q⟩, hh, rfl⟩ := hs
    rcases hdiligent x o q rfl hh with ⟨r, rfl, hr⟩ | hempty
    · exact Or.inr (Or.inl (decide_eq_true hr))
    · exact Or.inl hempty

/-- Where `execute` waits with nothing to report for the descriptor, and the handler has been registered, nothing is
left. -/
theorem nothing_stranded (empty : Q → Prop)
    (hsignalled : ∀ e q q', src.outside e q = some q' → src.signalled e = false → empty q → empty q')
    (hreg : sys.Registered fd stopFd p process) {items : Q}
    (hrun : (src.step fd stopFd p process).Run (start sys items) tr s) (hdiligent : ∀ x ∈ tr, Diligent src empty x)
    (hdraining : s.draining = false) (hpc : s.sys.pc = .wait) (hnothing : s.sys.loop.kernel.wait [fd] = none) :
    empty s.items := by
  have hserved : Inv fd stopFd p process s ∧ Served empty fd p process s := by
    refine hrun.guarded (P := fun s => Inv fd stopFd p process s ∧ Served empty fd p process s)
      (G := fun s a => Diligent src empty (s, a)) ?_ ?_ hdiligent
    · exact ⟨⟨hreg.watched, fun _ _ _ hrunning => absurd hrunning hreg.idle⟩, Or.inr (Or.inl rfl)⟩
    · intro s a s' h hdiligent hs
      exact ⟨h.1.step hreg.ne_stopFd hs, h.2.step h.1 hsignalled hdiligent hs⟩
  obtain ⟨hinv, hempty | hdraining' | hedge | ⟨i, hdue, _⟩⟩ := hserved
  · exact hempty
  · rw [hdraining] at hdraining'
    simp at hdraining'
  · -- the kernel has an edge to report
    rw [← hinv.watched.report] at hedge
    have hready : (s.sys.loop.kernel.report fd).events ≠ 0 := by
      intro hzero
      rw [hzero] at hedge
      exact absurd hedge (by decide)
    rw [Kernel.wait, if_pos ⟨by simp, by simp [MAXEVENTS], by simp, by simpa using hready⟩] at hnothing
    simp at hnothing
  · exact absurd hpc hdue.ne_wait

end Libhbk.Source
