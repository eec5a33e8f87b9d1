import Libhbk.Sys.EventLoop.Execute

/-!
# Pending events point to registered handlers

`PendingOk l n` is what the dispatch relies on: each event that is on in one of the first `n` slots points
to an entry of the map with a handler for it, and no two of these slots point to the same entry. Every
operation keeps it whose erase finds the slot of its entry below `m_eventCount` (`Covered`), which is all
of them while the batch is dispatched: the handlers may register, erase and register again what they
like, and the memory of an erased entry may be used for a new one.
-/

namespace Libhbk

variable {K H : Type}

structure PendingOk (l : EventLoop K H) (n : Nat) : Prop where
  /-- An event that is on has a registered handler. -/
  registered : ∀ i < n, ∀ ev p d, l.events[i]? = some ev → ev.ptr = some p → signals ev.events d = true →
    ∃ fd, l.eventInfos.index fd = some p ∧ (l.handlerOf fd d).isSome = true
  /-- The slots point to different entries. -/
  distinct : ∀ i < n, ∀ j < n, ∀ p, l.events[i]?.map EpollEvent.ptr = some (some p) →
    l.events[j]?.map EpollEvent.ptr = some (some p) → i = j

/-- An erase clears the slots below `m_eventCount`; this one clears all of the first `n` it has to. -/
def Covered (l : EventLoop K H) (n : Nat) : Op H → Prop
  | .add .. => True
  | .erase _ fd => ∀ i < n, ∀ p, l.eventInfos.index fd = some p →
      l.events[i]?.map EpollEvent.ptr = some (some p) → (i : Int) < l.eventCount

theorem covered_of_le {l : EventLoop K H} {n : Nat} (h : n ≤ l.eventCount.toNat) (o : Op H) : Covered l n o := by
  cases o with
  | add => trivial
  | erase d fd =>
    intro i hi _ _ _
    omega

namespace PendingOk

variable {l l' : EventLoop K H} {n : Nat}

theorem zero (l : EventLoop K H) : PendingOk l 0 :=
  ⟨fun i hi => absurd hi (Nat.not_lt_zero i), fun i hi => absurd hi (Nat.not_lt_zero i)⟩

theorem change (h : PendingOk l n) {o : Op H} (hc : EventLoop.Change l l' o) (hcov : Covered l n o) :
    PendingOk l' n := by
  refine ⟨fun i hi ev' p d hev' hptr hs => ?_, fun i hi j hj p hpi hpj => ?_⟩
  · obtain ⟨ev, hev, hp, hle⟩ := hc.signals_le hev'
    rw [hp] at hptr
    obtain ⟨fd, hidx, hreg⟩ := h.registered i hi ev p d hev hptr (hle d hs)
    by_cases ho : o = .erase d fd
    · -- the erase has turned the event off in the only slot of its entry
      subst ho
      have hslot : l.events[i]?.map EpollEvent.ptr = some (some p) := by rw [hev, Option.map_some, hptr]
      have hfirst : ∀ j < i, l.events[j]?.bind EpollEvent.ptr ≠ some p := by
        intro j hj hbind
        obtain ⟨ev'', hev'', hptr''⟩ := Option.bind_eq_some_iff.mp hbind
        have := h.distinct i hi j (by omega) p hslot (by rw [hev'', Option.map_some, hptr''])
        omega
      rw [hc.erase_clears hidx hreg (hcov i hi p hidx hslot) hfirst hev' (by rw [hp, hptr])] at hs
      simp at hs
    · exact ⟨fd, hc.registered ho hidx hreg⟩
  · rw [hc.ptr] at hpi hpj
    exact h.distinct i hi j hj p hpi hpj

theorem clearSlot (h : PendingOk l n) (m : Nat) (d : Dir) : PendingOk (l.clearSlot m d) n := by
  refine ⟨fun i hi ev' p e hev' hptr hs => ?_, fun i hi j hj p hpi hpj => ?_⟩
  · obtain ⟨ev, hev, hp, heq⟩ := EventLoop.clearSlot_signals hev'
    rw [heq, Bool.and_eq_true] at hs
    exact h.registered i hi ev p e hev (by rw [← hp, hptr]) hs.1
  · rw [EventLoop.clearSlot_ptr] at hpi hpj
    exact h.distinct i hi j hj p hpi hpj

/-- The handler that the dispatch calls for an event that is on is the one registered. -/
theorem invoked (h : PendingOk l n) {i : Nat} (hi : i < n) {ev : EpollEvent} {p : Addr} {d : Dir}
    (hev : l.events[i]? = some ev) (hptr : ev.ptr = some p) (hs : signals ev.events d = true) :
    ∃ fd hd, l.eventInfos.index fd = some p ∧ l.handlerOf fd d = some hd ∧ l.invoked i p d = some (fd, hd) := by
  obtain ⟨fd, hidx, hreg⟩ := h.registered i hi ev p d hev hptr hs
  obtain ⟨hd, hh⟩ := Option.isSome_iff_exists.mp hreg
  obtain ⟨hs', hstorage, hget⟩ := l.eventInfos.storage_of_index hidx
  refine ⟨fd, hd, hidx, hh, ?_⟩
  rw [EventLoop.handlerOf, hget, Option.bind_some] at hh
  rw [EventLoop.invoked, hev, Option.bind_some, if_pos hs, hstorage, Option.bind_some, hh, Option.map_some]

end PendingOk

theorem EventLoop.signals_of_invoked {l : EventLoop K H} {n : Nat} {p : Addr} {d : Dir} {e : Fd × H}
    (h : l.invoked n p d = some e) : ∃ ev, l.events[n]? = some ev ∧ signals ev.events d = true := by
  obtain ⟨ev, hev, h⟩ := Option.bind_eq_some_iff.mp h
  rw [Option.ite_none_right_eq_some] at h
  exact ⟨ev, hev, h.1⟩

/-! ### The batch as `epoll_wait` returns it -/

theorem waited_slot {k k' : Kernel} {fds : List Fd} {evs : List EpollEvent} (h : k.Waited fds evs k')
    (old : List EpollEvent) {i : Nat} {fd : Fd} (hfd : fds[i]? = some fd) :
    (writeAt old 0 evs)[i]? = some (k.report fd) := by
  obtain ⟨hi, _⟩ := List.getElem?_eq_some_iff.mp hfd
  rw [getElem?_writeAt_zero _ _ (by rw [h.evs, List.length_map]; exact hi), h.evs, List.getElem?_map, hfd]
  rfl

/-- A slot that points to an entry holds the report for the descriptor of that entry. -/
theorem waited_agrees {l : EventLoop Kernel H} (hagree : l.Agrees) {fds : List Fd} {evs : List EpollEvent}
    {k : Kernel} (h : l.kernel.Waited fds evs k) {i : Nat} {fd : Fd} (hfd : fds[i]? = some fd) {p : Addr}
    (hptr : (l.kernel.report fd).ptr = some p) :
    l.eventInfos.index fd = some p ∧
      ∀ d, signals (l.kernel.report fd).events d = true → (l.handlerOf fd d).isSome = true := by
  obtain ⟨ev, hint, hp, hs⟩ := Kernel.report_eq (h.ready fd (List.mem_of_getElem? hfd))
  rw [hp] at hptr
  obtain ⟨hidx, hreg⟩ := hagree fd ev p hint hptr
  refine ⟨hidx, fun d hd => hreg d ?_⟩
  rw [hs, Bool.and_eq_true] at hd
  exact hd.2

theorem pending_of_wait {l : EventLoop Kernel H} (hagree : l.Agrees) {fds : List Fd} {evs : List EpollEvent}
    {k : Kernel} (h : l.kernel.Waited fds evs k) :
    PendingOk { l with events := writeAt l.events 0 evs, kernel := k } fds.length := by
  have hget : ∀ i < fds.length, ∃ fd, fds[i]? = some fd ∧ (writeAt l.events 0 evs)[i]? = some (l.kernel.report fd) :=
    fun i hi => ⟨fds[i], List.getElem?_eq_getElem hi, waited_slot h _ (List.getElem?_eq_getElem hi)⟩
  refine ⟨fun i hi ev p d hev hptr hs => ?_, fun i hi j hj p hpi hpj => ?_⟩
  · obtain ⟨fd, hfd, hslot⟩ := hget i hi
    obtain rfl := Option.some.inj (hslot.symm.trans hev)
    obtain ⟨hidx, hreg⟩ := waited_agrees hagree h hfd hptr
    exact ⟨fd, hidx, hreg d hs⟩
  · obtain ⟨fd, hfd, hslot⟩ := hget i hi
    obtain ⟨fd', hfd', hslot'⟩ := hget j hj
    simp only [hslot, hslot', Option.map_some, Option.some.injEq] at hpi hpj
    obtain rfl := l.eventInfos.index_inj (waited_agrees hagree h hfd hpi).1 (waited_agrees hagree h hfd' hpj).1
    exact (List.getElem?_inj hi h.nodup).mp (hfd.trans hfd'.symm)

/-! ### The steps of the machine -/

namespace Sys

variable {s s' : Sys H} {a : Act H}

/-- The number of slots of the batch that is still to be dispatched. -/
def active (s : Sys H) : Nat :=
  match s.pc with
  | .filled n => n
  | .counted => s.loop.eventCount.toNat
  | .slot .. => s.loop.eventCount.toNat
  | .test .. => s.loop.eventCount.toNat
  | .running .. => s.loop.eventCount.toNat
  | _ => 0

theorem active_of_locked (h : s.pc.locked = true) : s.active = s.loop.eventCount.toNat := by
  unfold active
  rcases hpc : s.pc <;> simp [hpc, Pc.locked] at h ⊢

/-- An erase from another thread finds the slot of its entry below `m_eventCount`. -/
def CoveredCall (s : Sys H) : Act H → Prop
  | .call (.user _) o => Covered s.loop s.active o
  | _ => True

theorem exec_wait {fds : List Fd} (h : exec s (.wait fds) = some s') :
    ∃ evs k, s.loop.kernel.Waited fds evs k ∧
      s' = ⟨{ s.loop with events := writeAt s.loop.events 0 evs, kernel := k }, .filled fds.length⟩ := by
  cases exec_step h with
  | wait _ hw => exact ⟨_, _, Kernel.wait_eq hw, rfl⟩

theorem Step.pending (hs : Step s a s') (hagree : s.loop.Agrees) (hcov : s.CoveredCall a)
    (h : PendingOk s.loop s.active) : PendingOk s'.loop s'.active := by
  -- in the dispatch nothing but a slot and the program counter changes
  have hlocked : ∀ pc, s.pc.locked = true → pc.locked = true →
      PendingOk s.loop (⟨s.loop, pc⟩ : Sys H).active := by
    intro pc hpc hpc'
    rw [active_of_locked hpc] at h
    rw [active_of_locked hpc']
    exact h
  have hafter : ∀ n p d left, (Pc.after n p d left : Pc H).locked = true := by
    intro n p d left
    cases d <;> rfl
  cases hs with
  | wait _ hw => exact pending_of_wait hagree (Kernel.wait_eq hw)
  | @assign n hpc =>
    rw [active, hpc] at h
    exact ⟨h.registered, h.distinct⟩
  | @assignFailed eintr _ => cases eintr <;> exact PendingOk.zero _
  | lock hpc =>
    rw [active, hpc] at h
    exact h
  | enter hpc _ _ _ => exact hlocked _ (by rw [hpc]; rfl) rfl
  | again hpc _ _ => exact hlocked _ (by rw [hpc]; rfl) rfl
  | invoke hpc _ => exact hlocked _ (by rw [hpc]; rfl) rfl
  | skip hpc _ => exact hlocked _ (by rw [hpc]; rfl) (hafter _ _ _ _)
  | more hpc _ => exact hlocked _ (by rw [hpc]; rfl) (hafter _ _ _ _)
  | throw hpc => exact hlocked _ (by rw [hpc]; rfl) (hafter _ _ _ _)
  | finished hpc _ =>
    rw [active_of_locked (by rw [hpc]; rfl)] at h
    rw [active_of_locked (hafter _ _ _ _)]
    exact h.clearSlot _ _
  | @call c o r hc hr =>
    obtain ⟨hchange, hcount⟩ := EventLoop.apply_change hr
    have hactive : (⟨r.loop, s.pc⟩ : Sys H).active = s.active := by
      unfold active
      rw [hcount]
    rw [hactive]
    refine h.change hchange ?_
    rcases c with _ | t
    · refine covered_of_le (Nat.le_of_eq (active_of_locked ?_)) o
      rcases hpc : s.pc <;> simp [hpc, Caller.admitted] at hc
      rfl
    · exact hcov
  | edge => exact ⟨h.registered, h.distinct⟩
  | close => exact ⟨h.registered, h.distinct⟩
  | execute | waitFails | stop | done => exact PendingOk.zero _

theorem registered_of_invokes (hpos : Positioned s) (h : PendingOk s.loop s.active) {fd : Fd} {d : Dir} {hd : H}
    (hi : Invokes (s, a) fd d hd) : s.loop.handlerOf fd d = some hd := by
  obtain ⟨_, n, p, left, hpc, hinv⟩ := hi
  obtain ⟨ev, hev, hsig⟩ := EventLoop.signals_of_invoked hinv
  obtain ⟨hn, hptr⟩ := hpos n p (by rw [hpc]; rfl)
  rw [hev, Option.map_some, Option.some.injEq] at hptr
  rw [active_of_locked (by rw [hpc]; rfl)] at h
  obtain ⟨fd', hd', _, hreg, hinv'⟩ := h.invoked (by omega) hev hptr hsig
  rw [hinv, Option.some.injEq, Prod.mk.injEq] at hinv'
  rw [hinv'.1, hinv'.2]
  exact hreg

/-- Runs whose erases from other threads are covered keep the pending events in order. -/
theorem exec_pending {s₀ : Sys H} (hagree : s₀.loop.Agrees) (hpending : PendingOk s₀.loop s₀.active)
    {tr : List (Sys H × Act H)} (hrun : exec.Run s₀ tr s) (hcov : ∀ x ∈ tr, x.1.CoveredCall x.2) :
    PendingOk s.loop s.active :=
  (hrun.guarded (P := fun s => s.loop.Agrees ∧ PendingOk s.loop s.active) (G := fun s a => s.CoveredCall a)
    ⟨hagree, hpending⟩ (fun _ _ _ h hc hs => ⟨(exec_step hs).agrees h.1, (exec_step hs).pending h.1 hc h.2⟩) hcov).2

/-! ### The dispatch of one batch -/

theorem Step.eventCount_locked (hs : Step s a s') (hl : s.pc.locked = true) :
    s'.loop.eventCount = s.loop.eventCount := by
  cases hs with
  | assign hpc => rw [hpc] at hl; simp [Pc.locked] at hl
  | assignFailed hpc => rw [hpc] at hl; simp [Pc.locked] at hl
  | call _ hr => exact (EventLoop.apply_change hr).2
  | _ => rfl

theorem Step.pending_locked (hs : Step s a s') (hl : s.pc.locked = true)
    (h : PendingOk s.loop s.loop.eventCount.toNat) : PendingOk s'.loop s'.loop.eventCount.toNat := by
  rw [hs.eventCount_locked hl]
  cases hs with
  | wait hpc _ => rw [hpc] at hl; simp [Pc.locked] at hl
  | finished _ _ => exact h.clearSlot _ _
  | call _ hr => exact h.change (EventLoop.apply_change hr).1 (covered_of_le (Nat.le_refl _) _)
  | _ => exact ⟨h.registered, h.distinct⟩

/-- From the lock on, whatever the handlers do, each event that is on points to its registered handler, and
that is the handler the dispatch calls. -/
theorem dispatch_calls_registered (s₀ s : Sys H) (tr : List (Sys H × Act H)) (hpc : s₀.pc = .slot 0 0)
    (hpending : PendingOk s₀.loop s₀.loop.eventCount.toNat) (hrun : exec.Run s₀ tr s)
    (hlocked : ∀ x ∈ tr, x.1.pc.locked = true) :
    PendingOk s.loop s.loop.eventCount.toNat ∧
      ∀ n p d left ev, s.pc = .test n p d left → s.loop.events[n]? = some ev → signals ev.events d = true →
        ∃ fd h, s.loop.eventInfos.index fd = some p ∧ s.loop.handlerOf fd d = some h ∧
          exec s .step = some { s with pc := .running n p d left fd h } := by
  have hok : PendingOk s.loop s.loop.eventCount.toNat :=
    hrun.guarded (P := fun s => PendingOk s.loop s.loop.eventCount.toNat) (G := fun s _ => s.pc.locked = true)
      hpending (fun _ _ _ h hl hs => (exec_step hs).pending_locked hl h) hlocked
  have hpos : Positioned s := by
    refine hrun.invariant (fun n p hat => ?_) fun _ _ _ h hs => (exec_step hs).positioned h
    rw [hpc] at hat
    simp [Pc.at?] at hat
  refine ⟨hok, fun n p d left ev hat hev hs => ?_⟩
  obtain ⟨hn, hptr⟩ := hpos n p (by rw [hat]; rfl)
  rw [hev, Option.map_some, Option.some.injEq] at hptr
  obtain ⟨fd, h, hidx, hh, hinv⟩ := hok.invoked (i := n) (by omega) hev hptr hs
  refine ⟨fd, h, hidx, hh, ?_⟩
  show s.dispatch = _
  simp only [dispatch, hat, hinv]

/-- Two descriptors are signalled. The handler of the first erases the second and registers a third one whose
entry is put where the second's was; the second slot is passed over. -/
theorem dispatch_calls_registered_reused :
    ∃ (tr₀ tr : List (Sys Nat × Act Nat)) (s₀ s : Sys Nat),
      exec.Run (start 3 []) tr₀ s₀ ∧ exec.Run s₀ tr s ∧
      tr.map Prod.snd = [.step, .step, .ret 0, .call .loop (.add .inp 7 (some 30) 1 true),
        .call .loop (.erase .inp 6), .step, .step] ∧
      PendingOk s.loop 2 ∧ s.loop.eventInfos.get? 7 = some ⟨some 30, none⟩ ∧
      s.loop.events.map EpollEvent.ptr = [some 0, some 1] := by
  have hrun₀ := Machine.run_of_exec exec (start 3 [] : Sys Nat)
    [.call (.user 0) (.add .inp 5 (some 10) 0 true), .call (.user 0) (.add .inp 6 (some 20) 1 true),
      .edge 5 EPOLLIN, .edge 6 EPOLLIN, .execute, .wait [5, 6], .assign, .lock] rfl
  have hpending := exec_pending (EventLoop.agrees_new 3 []) (PendingOk.zero _) hrun₀
    (by repeat (first | exact List.forall_mem_nil _ | refine List.forall_mem_cons.mpr ⟨trivial, ?_⟩))
  refine ⟨_, _, _, _, hrun₀, Machine.run_of_exec _ _ [.step, .step, .call .loop (.erase .inp 6),
    .call .loop (.add .inp 7 (some 30) 1 true), .ret 0, .step, .step] rfl, rfl, ?_, rfl, rfl⟩
  exact (dispatch_calls_registered _ _ _ rfl hpending
    (Machine.run_of_exec _ _ [.step, .step, .call .loop (.erase .inp 6),
      .call .loop (.add .inp 7 (some 30) 1 true), .ret 0, .step, .step] rfl) (by decide)).1

end Sys

end Libhbk
