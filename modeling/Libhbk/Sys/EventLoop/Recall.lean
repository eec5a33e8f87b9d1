import Libhbk.Sys.EventLoop.Watched

/-!
# Calls without a new edge

When the call of an input handler has ended, does `execute` call the handler again before it waits for a new edge of
its descriptor? It does if the kernel holds another edge, or if the event is still on and this pass asks for another
one. It need not in any other case: the other handlers of the batch may have nothing left, and `execute` waits.
-/

namespace Libhbk.Sys

variable {H : Type} {s s' : Sys H} {a : Act H} {fd stopFd : Fd} {p : Addr} {process : H}

/-- The step calls the input handler of the node `p`. -/
def Calls (p : Addr) (x : Sys H × Act H) : Prop :=
  x.2 = .step ∧ ∃ n left, x.1.pc = .test n p .inp left ∧ x.1.loop.invoked n p .inp ≠ none

/-- `execute` never waits for a new edge of `fd` before it has called the input handler of its node. -/
def Recalled (fd stopFd : Fd) (p : Addr) (s : Sys H) : Prop :=
  ∀ tr s', exec.Run s tr s' → (∀ x ∈ tr, Spares fd stopFd x.2 ∧ ¬ Signals fd x.2) → s'.pc = .wait →
    signals (s'.loop.kernel.report fd).events .inp = true ∨ ∃ x ∈ tr, Calls p x

/-! ### The call comes -/

/-- The kernel holds an edge, or the event is due in a slot whose call does not run. -/
def Pending (fd : Fd) (p : Addr) (s : Sys H) : Prop :=
  signals (s.loop.kernel.edges fd) .inp = true ∨ ∃ i, s.Due p i ∧ ∀ q left fd' h, s.pc ≠ .running i q .inp left fd' h

theorem Pending.step (h : Pending fd p s) (hw : Watched fd stopFd p process s) (hs : Step s a s')
    (ha : Spares fd stopFd a) : Calls p (s, a) ∨ Pending fd p s' := by
  rcases h with hedge | ⟨i, hdue, hidle⟩
  · rcases hs.edge_kept ha hedge with hedge' | ⟨fds, rfl, hmem⟩
    · exact Or.inr (Or.inl hedge')
    · obtain ⟨i, hdue, hpc⟩ := Due.of_wait hw hmem hs hedge
      exact Or.inr (Or.inr ⟨i, hdue, fun q left fd' hd hrun => by simp [hpc] at hrun⟩)
  · have hout : ∀ o, outcome? (s, a) ≠ some (i, .inp, o) := by
      intro o hout
      obtain ⟨q, left, fd', hd, hrun⟩ := running_of_outcome hout
      exact hidle q left fd' hd hrun
    by_cases hrun : ∃ q left fd' hd, s'.pc = .running i q .inp left fd' hd
    · obtain ⟨q, left, fd', hd, hrun⟩ := hrun
      rcases hdue.running hs hw hrun with hold | ⟨_, _, rfl, htest, hinv⟩
      · exact absurd hold (hidle q left fd' hd)
      · exact Or.inl ⟨rfl, i, left, htest, hinv⟩
    · exact Or.inr (Or.inr ⟨i, hdue.step hw hs ha hout, fun q left fd' hd he => hrun ⟨q, left, fd', hd, he⟩⟩)

theorem Pending.recalled (h : Pending fd p s) (hw : Watched fd stopFd p process s) : Recalled fd stopFd p s := by
  intro tr s' hrun hspares hpc
  have hinv : Watched fd stopFd p process s' ∧ ((∃ x ∈ tr, Calls p x) ∨ Pending fd p s') := by
    refine hrun.trace_induction (P := fun tr s => (∀ x ∈ tr, Spares fd stopFd x.2 ∧ ¬ Signals fd x.2) →
      Watched fd stopFd p process s ∧ ((∃ x ∈ tr, Calls p x) ∨ Pending fd p s))
      (fun _ => ⟨hw, Or.inr h⟩) (fun tr s a s' _ ih hs hq => ?_) hspares
    obtain ⟨hw, h⟩ := ih fun x hx => hq x (List.mem_cons_of_mem _ hx)
    have ha := (hq _ List.mem_cons_self).1
    refine ⟨hw.step (exec_step hs) ha, ?_⟩
    rcases h with ⟨x, hx, hcall⟩ | hpending
    · exact Or.inl ⟨x, List.mem_cons_of_mem _ hx, hcall⟩
    · exact (hpending.step hw (exec_step hs) ha).imp (fun hcall => ⟨_, List.mem_cons_self, hcall⟩) id
  rcases hinv.2 with hcalled | hedge | ⟨i, hdue, _⟩
  · exact Or.inr hcalled
  · left
    rw [hinv.1.report, hedge]
  · exact absurd hpc hdue.ne_wait

/-! ### Handlers that have nothing left -/

/-- `execute` goes on, or a handler returns that nothing is left. -/
def Quiet : Act H → Prop
  | .execute => True
  | .assign => True
  | .lock => True
  | .step => True
  | .ret r => r = 0
  | _ => False

theorem Quiet.spares (h : Quiet a) : Spares fd stopFd a := by
  cases a with
  | execute | assign | lock | step | ret => trivial
  | _ => exact absurd h id

theorem Quiet.not_signals (h : Quiet a) : ¬ Signals fd a := by
  cases a with
  | execute | assign | lock | step | ret => exact id
  | _ => exact absurd h id

def QuietRun (s s' : Sys H) : Prop := ∃ tr, exec.Run s tr s' ∧ ∀ x ∈ tr, Quiet x.2

namespace QuietRun

theorem refl (s : Sys H) : QuietRun s s := ⟨[], .nil, List.forall_mem_nil _⟩

theorem trans {s₁ s₂ s₃ : Sys H} (h : QuietRun s₁ s₂) (h' : QuietRun s₂ s₃) : QuietRun s₁ s₃ := by
  obtain ⟨tr, hrun, hquiet⟩ := h
  obtain ⟨tr', hrun', hquiet'⟩ := h'
  refine ⟨tr' ++ tr, hrun.trans hrun', fun x hx => ?_⟩
  exact (List.mem_append.mp hx).elim (hquiet' x) (hquiet x)

theorem single (ha : Quiet a) (hs : exec s a = some s') : QuietRun s s' :=
  ⟨[(s, a)], .snoc .nil hs, by simpa using ha⟩

theorem invariant {P : Sys H → Prop} (h : QuietRun s s') (hs : P s)
    (hstep : ∀ s a s', P s → Quiet a → Step s a s' → P s') : P s' := by
  obtain ⟨tr, hrun, hquiet⟩ := h
  exact hrun.guarded (G := fun _ a => Quiet a) hs (fun s a s' h ha hs => hstep s a s' h ha (exec_step hs)) hquiet

theorem sound (h : QuietRun s s') (hs : Sound stopFd s) : Sound stopFd s' :=
  h.invariant hs fun _ _ _ h ha hs => hs.sound ha.not_signals h

end QuietRun

theorem test_ends {n : Nat} {q : Addr} {d : Dir} {left : Nat} (hpc : s.pc = .test n q d left) :
    ∃ s', QuietRun s s' ∧ s'.pc = .after n q d left ∧ s'.loop.eventCount = s.loop.eventCount := by
  rcases hinv : s.loop.invoked n q d with _ | ⟨fd, h⟩
  · refine ⟨{ s with pc := .after n q d left }, .single (a := .step) trivial ?_, rfl, rfl⟩
    show s.dispatch = _
    simp only [dispatch, hpc, hinv]
  · have hcall : QuietRun s { s with pc := .running n q d left fd h } := by
      refine .single (a := .step) trivial ?_
      show s.dispatch = _
      simp only [dispatch, hpc, hinv]
    exact ⟨⟨s.loop.clearSlot n d, .after n q d left⟩, hcall.trans (.single (a := .ret 0) rfl rfl), rfl, rfl⟩

theorem slot_ends {n left : Nat} (hs : Sound stopFd s) (hpc : s.pc = .slot n left)
    (hn : (n : Int) < s.loop.eventCount) :
    ∃ s', QuietRun s s' ∧ s'.pc = .slot (n + 1) left ∧ s'.loop.eventCount = s.loop.eventCount := by
  have hactive : n < s.active := by
    rw [Sys.active, hpc]
    show n < s.loop.eventCount.toNat
    omega
  have hev := List.getElem?_eq_getElem (Nat.lt_of_lt_of_le hactive hs.sized)
  have hptr := hs.noStop.slots n hactive
  rw [hev, Option.map_some, ne_eq, Option.some.injEq] at hptr
  obtain ⟨q, hq⟩ := Option.ne_none_iff_exists'.mp hptr
  have henter : QuietRun s { s with pc := .test n q .inp left } := by
    refine .single (a := .step) trivial ?_
    show s.dispatch = _
    simp only [dispatch, hpc, if_pos hn, hev, Option.map_some, hq]
  obtain ⟨s₁, hrun₁, hpc₁, hcount₁⟩ := test_ends (s := { s with pc := .test n q .inp left }) rfl
  obtain ⟨s₂, hrun₂, hpc₂, hcount₂⟩ := test_ends hpc₁
  exact ⟨s₂, henter.trans (hrun₁.trans hrun₂), hpc₂, hcount₂.trans hcount₁⟩

theorem pass_ends {left : Nat} (k : Nat) {n : Nat} (hs : Sound stopFd s) (hpc : s.pc = .slot n left)
    (hk : s.loop.eventCount ≤ n + k) :
    ∃ s' m, QuietRun s s' ∧ s'.pc = .slot m left ∧ s'.loop.eventCount ≤ m := by
  induction k generalizing s n with
  | zero => exact ⟨s, n, .refl s, hpc, by omega⟩
  | succ k ih =>
    by_cases hn : (n : Int) < s.loop.eventCount
    · obtain ⟨s₁, hrun₁, hpc₁, hcount₁⟩ := slot_ends hs hpc hn
      obtain ⟨s₂, m, hrun₂, hpc₂, hm⟩ := ih (hrun₁.sound hs) hpc₁ (by rw [hcount₁]; omega)
      exact ⟨s₂, m, hrun₁.trans hrun₂, hpc₂, hm⟩
    · exact ⟨s, n, .refl s, hpc, by omega⟩

/-- From any slot the batch can come to its end: after this pass, or after another one. -/
theorem batch_ends_quietly {n left : Nat} (hs : Sound stopFd s) (hpc : s.pc = .slot n left) :
    ∃ s', QuietRun s s' ∧ s'.pc = .wait := by
  have hdone : ∀ {s : Sys H} {m : Nat}, s.pc = .slot m 0 → s.loop.eventCount ≤ m →
      QuietRun s { s with pc := .wait } := by
    intro s m hpc hm
    refine .single (a := .step) trivial ?_
    show s.dispatch = _
    simp only [dispatch, hpc, if_neg (Int.not_lt.mpr hm), ne_eq, not_true_eq_false, if_false]
  obtain ⟨s₁, m, hrun₁, hpc₁, hm⟩ := pass_ends s.loop.eventCount.toNat hs hpc (by omega)
  rcases Nat.eq_zero_or_pos left with rfl | hleft
  · exact ⟨_, hrun₁.trans (hdone hpc₁ hm), rfl⟩
  · have hagain : QuietRun s₁ { s₁ with pc := .slot 0 0 } := by
      refine .single (a := .step) trivial ?_
      show s₁.dispatch = _
      simp only [dispatch, hpc₁, if_neg (Int.not_lt.mpr hm), if_pos (Nat.ne_of_gt hleft)]
    obtain ⟨s₂, m', hrun₂, hpc₂, hm'⟩ := pass_ends s₁.loop.eventCount.toNat ((hrun₁.trans hagain).sound hs) rfl (by
      show s₁.loop.eventCount ≤ _
      omega)
    exact ⟨_, hrun₁.trans (hagain.trans (hrun₂.trans (hdone hpc₂ hm'))), rfl⟩

theorem can_wait (hs : Sound stopFd s) : ∃ s', QuietRun s s' ∧ s'.pc = .wait := by
  have hcounted : ∀ {s : Sys H}, Sound stopFd s → s.pc = .counted → ∃ s', QuietRun s s' ∧ s'.pc = .wait := by
    intro s hs hpc
    have hlock : QuietRun s { s with pc := .slot 0 0 } := .single (a := .lock) trivial (by simp only [exec, hpc])
    obtain ⟨s', hrun, hwait⟩ := batch_ends_quietly (hlock.sound hs) rfl
    exact ⟨s', hlock.trans hrun, hwait⟩
  have hout : ∀ {s : Sys H}, s.pc = .out → QuietRun s { s with pc := .wait } := by
    intro s hpc
    exact .single (a := .execute) trivial (by simp only [exec, hpc])
  have hafter : ∀ {s : Sys H} {n q d left}, Sound stopFd s → s.pc = .after n q d left →
      ∃ s', QuietRun s s' ∧ s'.pc = .wait := by
    intro s n q d left hs hpc
    cases d with
    | inp =>
      obtain ⟨s₁, hrun₁, hpc₁, _⟩ := test_ends hpc
      obtain ⟨s₂, hrun₂, hwait⟩ := batch_ends_quietly (hrun₁.sound hs) hpc₁
      exact ⟨s₂, hrun₁.trans hrun₂, hwait⟩
    | out => exact batch_ends_quietly hs hpc
  rcases hpc : s.pc with _ | _ | n | eintr | _ | ⟨n, left⟩ | ⟨n, q, d, left⟩ | ⟨n, q, d, left, fd, h⟩
  · exact ⟨_, hout hpc, rfl⟩
  · exact ⟨s, .refl s, hpc⟩
  · have hassign : QuietRun s ⟨{ s.loop with eventCount := n }, .counted⟩ :=
      .single (a := .assign) trivial (by simp only [exec, hpc])
    obtain ⟨s', hrun, hwait⟩ := hcounted (hassign.sound hs) rfl
    exact ⟨s', hassign.trans hrun, hwait⟩
  · have hassign : QuietRun s ⟨{ s.loop with eventCount := -1 }, if eintr then .counted else .out⟩ :=
      .single (a := .assign) trivial (by simp only [exec, hpc])
    cases eintr with
    | true =>
      obtain ⟨s', hrun, hwait⟩ := hcounted (hassign.sound hs) rfl
      exact ⟨s', hassign.trans hrun, hwait⟩
    | false => exact ⟨_, hassign.trans (hout rfl), rfl⟩
  · exact hcounted hs hpc
  · exact batch_ends_quietly hs hpc
  · obtain ⟨s₁, hrun₁, hpc₁, _⟩ := test_ends hpc
    obtain ⟨s₂, hrun₂, hwait⟩ := hafter (hrun₁.sound hs) hpc₁
    exact ⟨s₂, hrun₁.trans hrun₂, hwait⟩
  · have hret : QuietRun s ⟨s.loop.clearSlot n d, .after n q d left⟩ :=
      .single (a := .ret 0) rfl (by simp [exec, hpc])
    obtain ⟨s', hrun, hwait⟩ := hafter (hret.sound hs) rfl
    exact ⟨s', hret.trans hrun, hwait⟩

/-! ### The call does not come -/

/-- The kernel holds no edge, and the event is due in no slot but the one whose call runs. -/
structure Missed (fd : Fd) (p : Addr) (s : Sys H) : Prop where
  edges : signals (s.loop.kernel.edges fd) .inp = false
  slots : ∀ i, s.Due p i → ∃ q left fd' h, s.pc = .running i q .inp left fd' h

theorem Quiet.ne_wait (ha : Quiet a) (hs : Step s a s') : s.pc ≠ .wait := by
  cases hs with
  | execute hpc | assign hpc | assignFailed hpc | lock hpc | more hpc _ | finished hpc _ | enter hpc | stop hpc
  | again hpc | done hpc | invoke hpc | skip hpc => simp [hpc]
  | _ => exact absurd ha id

theorem Due.of_quiet {i : Nat} (h : Due p i s') (hs : Step s a s') (ha : Quiet a) : Due p i s := by
  have hpc := ha.ne_wait hs
  refine ⟨Nat.lt_of_lt_of_le h.active (hs.active_le hpc), by rw [← hs.ptr hpc]; exact h.ptr, hs.on_le hpc h.on, ?_⟩
  have hi := h.active
  have hahead := h.ahead
  cases hs with
  | assign hpc =>
    rw [hpc]
    exact Or.inl id
  | assignFailed hpc =>
    rw [hpc]
    exact Or.inl id
  | lock hpc =>
    rw [hpc]
    exact Or.inl id
  | enter hpc =>
    rw [hpc]
    exact hahead.imp (fun hn hp => hn (Or.inl hp)) id
  | again hpc _ hne =>
    rw [hpc]
    exact Or.inr (Nat.pos_of_ne_zero hne)
  | invoke hpc =>
    rw [hpc]
    exact hahead
  | skip hpc =>
    rw [hpc]
    rw [Pc.left_after] at hahead
    exact hahead.imp (fun hn hp => hn (Pc.passed_after.mpr (Or.inl hp))) id
  | finished hpc =>
    rw [hpc]
    rw [Pc.left_after] at hahead
    exact hahead.imp (fun hn hp => hn (Pc.passed_after.mpr (Or.inl hp))) id
  | @more _ _ _ _ _ _ r _ hr =>
    obtain rfl : r = 0 := ha
    omega
  | execute => exact absurd hi (Nat.not_lt_zero i)
  | stop => exact absurd hi (Nat.not_lt_zero i)
  | done => exact absurd hi (Nat.not_lt_zero i)
  | _ => exact absurd ha id

theorem Missed.not_calls (h : Missed fd p s) (hpos : Positioned s) : ¬ Calls p (s, a) := by
  rintro ⟨_, n, left, hpc, hinv⟩
  change s.pc = _ at hpc
  obtain ⟨hn, hptr⟩ := hpos n p (by rw [hpc]; rfl)
  obtain ⟨e, he⟩ := Option.ne_none_iff_exists'.mp hinv
  have hdue : Due p n s := by
    refine ⟨?_, hptr, EventLoop.signals_of_invoked he, Or.inl ?_⟩
    · rw [active_of_locked (by rw [hpc]; rfl)]
      omega
    · rw [hpc]
      simp [Pc.Passed]
  obtain ⟨q, left', fd', h', hrun⟩ := h.slots n hdue
  rw [hpc] at hrun
  simp at hrun

theorem Missed.step (h : Missed fd p s) (hs : Step s a s') (ha : Quiet a) : Missed fd p s' := by
  have hedges : s'.loop.kernel.edges = s.loop.kernel.edges := by
    cases hs with
    | execute | assign | assignFailed | lock | more | finished | enter | stop | again | done | invoke | skip => rfl
    | _ => exact absurd ha id
  refine ⟨by rw [hedges]; exact h.edges, fun i hdue => ?_⟩
  obtain ⟨q, left, fd', hd, hpc⟩ := h.slots i (hdue.of_quiet hs ha)
  -- the call for the slot ends
  obtain ⟨ev', hev', hsig⟩ := hdue.on
  cases hs with
  | more hrun hr =>
    change _ = _ at ha
    omega
  | finished hrun _ =>
    obtain ⟨rfl, _, rfl, _⟩ := Pc.running.inj (hpc.symm.trans hrun)
    obtain ⟨_, _, _, heq⟩ := EventLoop.clearSlot_signals hev'
    simp [heq] at hsig
  | execute hrun | assign hrun | assignFailed hrun | lock hrun | enter hrun | stop hrun | again hrun | done hrun
  | invoke hrun | skip hrun => simp [hpc] at hrun
  | _ => exact absurd ha id

theorem Missed.not_recalled (h : Missed fd p s) (hw : Watched fd stopFd p process s) : ¬ Recalled fd stopFd p s := by
  intro hrecalled
  obtain ⟨s', ⟨tr, hrun, hquiet⟩, hpc⟩ := can_wait hw.sound
  have hinv : Missed fd p s' ∧ Watched fd stopFd p process s' ∧ ∀ x ∈ tr, ¬ Calls p x := by
    refine hrun.trace_induction (P := fun tr s =>
      (∀ x ∈ tr, Quiet x.2) → Missed fd p s ∧ Watched fd stopFd p process s ∧ ∀ x ∈ tr, ¬ Calls p x)
      (fun _ => ⟨h, hw, List.forall_mem_nil _⟩) (fun tr s a s' _ ih hs hq => ?_) hquiet
    obtain ⟨h, hw, hno⟩ := ih fun x hx => hq x (List.mem_cons_of_mem _ hx)
    have ha : Quiet a := hq _ List.mem_cons_self
    exact ⟨h.step (exec_step hs) ha, hw.step (exec_step hs) ha.spares,
      List.forall_mem_cons.mpr ⟨h.not_calls hw.sound.positioned, hno⟩⟩
  rcases hrecalled tr s' hrun (fun x hx => ⟨(hquiet x hx).spares, (hquiet x hx).not_signals⟩) hpc with
    hreport | ⟨x, hx, hcall⟩
  · rw [hinv.2.1.report, hinv.1.edges] at hreport
    simp at hreport
  · exact hinv.2.2 x hx hcall

/-! ### When it comes -/

theorem recalled_iff (hw : Watched fd stopFd p process s) : Recalled fd stopFd p s ↔ Pending fd p s := by
  refine ⟨fun hrecalled => ?_, fun h => h.recalled hw⟩
  by_contra hno
  refine Missed.not_recalled ⟨?_, fun i hdue => ?_⟩ hw hrecalled
  · rw [← Bool.not_eq_true]
    exact fun hedge => hno (Or.inl hedge)
  · by_contra hidle
    exact hno (Or.inr ⟨i, hdue, fun q left fd' h hrun => hidle ⟨q, left, fd', h, hrun⟩⟩)

theorem slot_of_running (hw : Watched fd stopFd p process s) {n left : Nat} {fd' : Fd} {hd : H}
    (hpc : s.pc = .running n p .inp left fd' hd) :
    n < s.active ∧ s.loop.events[n]?.map EpollEvent.ptr = some (some p) ∧
      ∀ i < s.active, s.loop.events[i]?.map EpollEvent.ptr = some (some p) → i = n := by
  obtain ⟨hn, hptr⟩ := hw.sound.positioned n p (by rw [hpc]; rfl)
  have hactive : n < s.active := by
    rw [active_of_locked (by rw [hpc]; rfl)]
    omega
  exact ⟨hactive, hptr, fun i hi hpi => hw.sound.distinct i hi n hactive p hpi hptr⟩

/-- A handler that says that nothing is left is called again without a new edge exactly if the kernel holds another
edge already. -/
theorem recalled_returned_iff (hw : Watched fd stopFd p process s) {n left : Nat} {fd' : Fd} {hd : H}
    (hpc : s.pc = .running n p .inp left fd' hd) {r : Int} (hr : r ≤ 0) (hs : exec s (.ret r) = some s') :
    Recalled fd stopFd p s' ↔ signals (s.loop.kernel.edges fd) .inp = true := by
  obtain rfl : s' = ⟨s.loop.clearSlot n .inp, .after n p .inp left⟩ := by
    simp only [exec, hpc, if_neg (Int.not_lt.mpr hr), Option.some.injEq] at hs
    exact hs.symm
  rw [recalled_iff (hw.step (exec_step hs) trivial)]
  refine ⟨fun hpending => ?_, fun hedge => Or.inl hedge⟩
  rcases hpending with hedge | ⟨i, hdue, _⟩
  · exact hedge
  · have hsame : i = n := by
      refine (slot_of_running hw hpc).2.2 i ?_ ?_
      · rw [active_of_locked (by rw [hpc]; rfl)]
        exact hdue.active
      · rw [← hdue.ptr]
        exact (EventLoop.clearSlot_ptr _ _ _ _).symm
    obtain ⟨ev, hev, hsig⟩ := hdue.on
    obtain ⟨_, _, _, heq⟩ := EventLoop.clearSlot_signals hev
    simp [heq, hsame] at hsig

/-- A handler that throws is called again without a new edge exactly if the kernel holds another edge already, or a
handler called before in this pass wants to be called again. -/
theorem recalled_thrown_iff (hw : Watched fd stopFd p process s) {n left : Nat} {fd' : Fd} {hd : H}
    (hpc : s.pc = .running n p .inp left fd' hd) (hon : On s n .inp) (hs : exec s .throw = some s') :
    Recalled fd stopFd p s' ↔ signals (s.loop.kernel.edges fd) .inp = true ∨ 0 < left := by
  obtain rfl : s' = { s with pc := .after n p .inp left } := by
    simp only [exec, hpc, Option.some.injEq] at hs
    exact hs.symm
  rw [recalled_iff (hw.step (exec_step hs) trivial)]
  obtain ⟨hactive, hptr, honly⟩ := slot_of_running hw hpc
  have hsame : ({ s with pc := .after n p .inp left } : Sys H).active = s.active := by
    rw [active_of_locked (s := s) (by rw [hpc]; rfl)]
    rfl
  constructor
  · rintro (hedge | ⟨i, hdue, _⟩)
    · exact Or.inl hedge
    · obtain rfl := honly i (hsame ▸ hdue.active) hdue.ptr
      have hpassed : (Pc.after i p .inp left : Pc H).Passed i .inp := Pc.passed_after.mpr (Or.inr ⟨rfl, rfl⟩)
      exact Or.inr (hdue.ahead.resolve_left fun hn => hn hpassed)
  · rintro (hedge | hleft)
    · exact Or.inl hedge
    · refine Or.inr ⟨n, ⟨hsame ▸ hactive, hptr, hon, Or.inr ?_⟩, fun q left' fd'' h he => ?_⟩
      · rw [Pc.left_after]
        exact hleft
      · simp [Pc.after] at he

end Libhbk.Sys
