import Libhbk.Sys.EventLoop.Pending

/-!
# One batch from `epoll_wait` to its end

A run that starts where `epoll_wait` has filled `m_events` and goes on until `execute` waits again or
returns. `lastOutcome` is what the last call for an event came to, `Serving` ties the events that are
still on to the outcomes in the trace: an event that was passed in this pass and is still on was called,
and threw or wants to be called again.
-/

namespace Libhbk

variable {H : Type}

namespace Pc

/-- `eventsLeft`. -/
def left : Pc H → Nat
  | slot _ left => left
  | test _ _ _ left => left
  | running _ _ _ left _ _ => left
  | _ => 0

/-- At the start of a pass over the batch. -/
def atStart : Pc H → Bool
  | slot 0 _ => true
  | _ => false

/-- This pass has passed the event `e` of slot `i`. -/
def Passed (pc : Pc H) (i : Nat) (e : Dir) : Prop :=
  match pc with
  | slot n _ => i < n
  | test n _ d _ => i < n ∨ (i = n ∧ e = .inp ∧ d = .out)
  | running n _ d .. => i < n ∨ (i = n ∧ e = .inp ∧ d = .out)
  | _ => False

theorem passed_after {n : Nat} {p : Addr} {d : Dir} {left : Nat} {i : Nat} {e : Dir} :
    (after n p d left : Pc H).Passed i e ↔ (test n p d left : Pc H).Passed i e ∨ (i = n ∧ e = d) := by
  cases d <;> cases e <;> simp [after, Passed] <;> omega

@[simp] theorem left_after (n : Nat) (p : Addr) (d : Dir) (left : Nat) : (after n p d left : Pc H).left = left := by
  cases d <;> rfl

theorem not_passed_running {n : Nat} {p : Addr} {d : Dir} {left : Nat} {fd : Fd} {h : H} :
    ¬ (running n p d left fd h).Passed n d := by
  cases d <;> simp [Passed]

theorem Passed.atStart {pc : Pc H} {i : Nat} {d : Dir} (h : pc.Passed i d) : pc.atStart = false := by
  unfold Pc.atStart
  split
  · exact absurd h (Nat.not_lt_zero i)
  · rfl

end Pc

namespace Sys

/-! ### Outcomes of calls -/

/-- The handler call that an entry of a trace ends: slot, direction, and the value returned, or `none` if the
handler threw. -/
def outcome? (x : Sys H × Act H) : Option (Nat × Dir × Option Int) :=
  match x.1.pc, x.2 with
  | .running n _ d .., .ret r => some (n, d, some r)
  | .running n _ d .., .throw => some (n, d, none)
  | _, _ => none

/-- What the last call for the event `d` of slot `n` came to. -/
def lastOutcome (n : Nat) (d : Dir) (tr : List (Sys H × Act H)) : Option (Option Int) :=
  tr.findSome? fun x => (outcome? x).bind fun c => if c.1 = n ∧ c.2.1 = d then some c.2.2 else none

/-- The last call for the event returned a value that says that nothing is left. -/
def Done (tr : List (Sys H × Act H)) (n : Nat) (d : Dir) : Prop := ∃ r ≤ 0, lastOutcome n d tr = some (some r)

/-- The action erases the handler for this direction of this descriptor. -/
def Erases (fd : Fd) (d : Dir) : Act H → Prop
  | .call _ (.erase d' fd') => fd' = fd ∧ d' = d
  | _ => False

instance (fd : Fd) (d : Dir) : (a : Act H) → Decidable (Erases fd d a)
  | .call _ (.erase d' fd') => inferInstanceAs (Decidable (fd' = fd ∧ d' = d))
  | .call _ (.add ..) | .execute | .wait _ | .waitFails _ | .assign | .lock | .step | .ret _ | .throw | .edge _ _
  | .close _ => isFalse id

/-- The registration was erased in the course of the trace. -/
def Erased (tr : List (Sys H × Act H)) (fd : Fd) (d : Dir) : Prop := ∃ x ∈ tr, Erases fd d x.2

/-- The entries of the current pass over the batch. -/
def pass (tr : List (Sys H × Act H)) : List (Sys H × Act H) := tr.takeWhile fun x => !x.1.pc.atStart

/-- The event `d` of slot `i` is on. -/
def On (s : Sys H) (i : Nat) (d : Dir) : Prop := ∃ ev, s.loop.events[i]? = some ev ∧ signals ev.events d = true

variable {s s' : Sys H} {a : Act H} {tr : List (Sys H × Act H)}

theorem lastOutcome_self {x : Sys H × Act H} {n : Nat} {d : Dir} {o : Option Int}
    (h : outcome? x = some (n, d, o)) : lastOutcome n d (x :: tr) = some o := by
  simp [lastOutcome, h]

theorem lastOutcome_of_ne {x : Sys H × Act H} {n : Nat} {d : Dir} (h : ∀ o, outcome? x ≠ some (n, d, o)) :
    lastOutcome n d (x :: tr) = lastOutcome n d tr := by
  rcases hx : outcome? x with _ | ⟨m, e, o⟩
  · simp [lastOutcome, hx]
  · have hne : ¬ (m = n ∧ e = d) := by
      rintro ⟨rfl, rfl⟩
      exact h o hx
    simp [lastOutcome, hx, hne]

theorem exists_of_lastOutcome {n : Nat} {d : Dir} {o : Option Int} (h : lastOutcome n d tr = some o) :
    ∃ x ∈ tr, outcome? x = some (n, d, o) := by
  obtain ⟨x, hx, hout⟩ := List.exists_of_findSome?_eq_some h
  obtain ⟨⟨m, e, o'⟩, hc, hout⟩ := Option.bind_eq_some_iff.mp hout
  simp only [Option.ite_none_right_eq_some, Option.some.injEq] at hout
  obtain ⟨⟨rfl, rfl⟩, rfl⟩ := hout
  exact ⟨x, hx, hc⟩

theorem running_of_outcome {n : Nat} {d : Dir} {o : Option Int} (h : outcome? (s, a) = some (n, d, o)) :
    ∃ p left fd hd, s.pc = .running n p d left fd hd := by
  unfold outcome? at h
  split at h
  · next hpc _ =>
    simp only [Option.some.injEq, Prod.mk.injEq] at h
    obtain ⟨rfl, rfl, _⟩ := h
    exact ⟨_, _, _, _, hpc⟩
  · next hpc _ =>
    simp only [Option.some.injEq, Prod.mk.injEq] at h
    obtain ⟨rfl, rfl, _⟩ := h
    exact ⟨_, _, _, _, hpc⟩
  · simp at h

theorem pass_cons (x : Sys H × Act H) : pass (x :: tr) = if x.1.pc.atStart then [] else x :: pass tr := by
  rw [pass, List.takeWhile_cons]
  cases x.1.pc.atStart <;> rfl

theorem Erased.cons {fd : Fd} {d : Dir} (h : Erased tr fd d) (x : Sys H × Act H) : Erased (x :: tr) fd d := by
  obtain ⟨y, hy, hc⟩ := h
  exact ⟨y, List.mem_cons_of_mem _ hy, hc⟩

theorem not_erased_cons {fd : Fd} {d : Dir} {x : Sys H × Act H} (h : ¬ Erased (x :: tr) fd d) :
    ¬ Erased tr fd d ∧ ¬ Erases fd d x.2 :=
  ⟨fun h' => h (h'.cons x), fun hx => h ⟨x, List.mem_cons_self, hx⟩⟩

/-! ### Steps and events -/

theorem Step.ptr (hs : Step s a s') (hpc : s.pc ≠ .wait) (i : Nat) :
    s'.loop.events[i]?.map EpollEvent.ptr = s.loop.events[i]?.map EpollEvent.ptr := by
  cases hs with
  | wait h _ => exact absurd h hpc
  | finished _ _ => exact EventLoop.clearSlot_ptr _ _ _ _
  | call _ hr => exact (EventLoop.apply_change hr).1.ptr i
  | _ => rfl

theorem Step.on_le (hs : Step s a s') (hpc : s.pc ≠ .wait) {i : Nat} {d : Dir} (h : On s' i d) : On s i d := by
  obtain ⟨ev', hev', hsig⟩ := h
  cases hs with
  | wait h _ => exact absurd h hpc
  | finished _ _ =>
    obtain ⟨ev, hev, _, heq⟩ := EventLoop.clearSlot_signals hev'
    rw [heq, Bool.and_eq_true] at hsig
    exact ⟨ev, hev, hsig.1⟩
  | call _ hr =>
    obtain ⟨ev, hev, _, hle⟩ := (EventLoop.apply_change hr).1.signals_le hev'
    exact ⟨ev, hev, hle d hsig⟩
  | _ => exact ⟨ev', hev', hsig⟩

theorem Step.registered (hs : Step s a s') {fd : Fd} {d : Dir} {p : Addr} (hne : ¬ Erases fd d a)
    (h : s.loop.eventInfos.index fd = some p ∧ (s.loop.handlerOf fd d).isSome = true) :
    s'.loop.eventInfos.index fd = some p ∧ (s'.loop.handlerOf fd d).isSome = true := by
  cases hs with
  | @call c o r _ hr =>
    have ho : o ≠ .erase d fd := fun ho => hne (by rw [ho]; exact ⟨rfl, rfl⟩)
    exact (EventLoop.apply_change hr).1.registered ho h.1 h.2
  | _ => exact h

/-- An event whose handler stays registered stays on until its handler returns that nothing is left. -/
theorem Step.on (hs : Step s a s') (hpc : s.pc ≠ .wait) {i : Nat} {fd : Fd} {d : Dir} {p : Addr}
    (hne : ¬ Erases fd d a)
    (hreg : s.loop.eventInfos.index fd = some p ∧ (s.loop.handlerOf fd d).isSome = true)
    (hptr : s.loop.events[i]?.map EpollEvent.ptr = some (some p)) (h : On s i d) :
    On s' i d ∨ ∃ r ≤ 0, outcome? (s, a) = some (i, d, some r) := by
  obtain ⟨ev, hev, hsig⟩ := h
  cases hs with
  | wait h _ => exact absurd h hpc
  | @finished n q e left fd' h r hrun hr =>
    by_cases hsame : i = n ∧ d = e
    · obtain ⟨rfl, rfl⟩ := hsame
      exact Or.inr ⟨r, hr, by simp [outcome?, hrun]⟩
    · left
      have hlen : ∃ ev', (s.loop.clearSlot n e).events[i]? = some ev' := by
        simp [EventLoop.clearSlot, List.getElem?_modify, hev]
      obtain ⟨ev', hev'⟩ := hlen
      obtain ⟨ev'', hev'', _, heq⟩ := EventLoop.clearSlot_signals hev'
      obtain rfl := Option.some.inj (hev.symm.trans hev'')
      exact ⟨ev', hev', by rw [heq, hsig, decide_eq_false hsame]; rfl⟩
  | @call c o r _ hr =>
    left
    have hchange := (EventLoop.apply_change hr).1
    have hsome := hchange.ptr i
    rw [hptr, Option.map_eq_some_iff] at hsome
    obtain ⟨ev', hev', _⟩ := hsome
    obtain ⟨ev'', hev'', _, heq⟩ := hchange.signals_registered
      (fun ho => hne (by rw [ho]; exact ⟨rfl, rfl⟩)) hreg.1 hreg.2 hev'
    obtain rfl := Option.some.inj (hev.symm.trans hev'')
    rw [hev, Option.map_some, Option.some.injEq] at hptr
    exact ⟨ev', hev', by rw [heq hptr, hsig]⟩
  | _ => exact Or.inl ⟨ev, hev, hsig⟩

theorem Step.passed (hs : Step s a s') {i : Nat} {d : Dir} (h : s'.pc.Passed i d) :
    (s.pc.Passed i d ∧ s.pc.left ≤ s'.pc.left) ∨
      (∃ p left, s.pc = .test i p d left ∧ s.loop.invoked i p d = none) ∨
      (outcome? (s, a) = some (i, d, none)) ∨
      (∃ r > 0, outcome? (s, a) = some (i, d, some r) ∧ 0 < s'.pc.left) ∨
      (∃ r ≤ 0, outcome? (s, a) = some (i, d, some r) ∧ s'.loop = s.loop.clearSlot i d) := by
  cases hs with
  | enter hpc _ _ _ =>
    rw [hpc]
    refine Or.inl ⟨?_, Nat.le_refl _⟩
    rcases h with h | ⟨_, _, h⟩
    · exact h
    · simp at h
  | invoke hpc _ =>
    rw [hpc]
    exact Or.inl ⟨h, Nat.le_refl _⟩
  | @skip n p e left hpc hinv =>
    rcases Pc.passed_after.mp h with h | ⟨rfl, rfl⟩
    · rw [hpc]
      exact Or.inl ⟨h, (Pc.left_after n p e left).symm ▸ Nat.le_refl left⟩
    · exact Or.inr (Or.inl ⟨p, left, hpc, hinv⟩)
  | @more n p e left fd hd r hpc hr =>
    rcases Pc.passed_after.mp h with h | ⟨rfl, rfl⟩
    · rw [hpc]
      exact Or.inl ⟨h, (Pc.left_after n p e (left + 1)).symm ▸ Nat.le_succ left⟩
    · exact Or.inr (Or.inr (Or.inr (Or.inl ⟨r, hr, by simp [outcome?, hpc], by simp⟩)))
  | @finished n p e left fd hd r hpc hr =>
    rcases Pc.passed_after.mp h with h | ⟨rfl, rfl⟩
    · rw [hpc]
      exact Or.inl ⟨h, (Pc.left_after n p e left).symm ▸ Nat.le_refl left⟩
    · exact Or.inr (Or.inr (Or.inr (Or.inr ⟨r, hr, by simp [outcome?, hpc], rfl⟩)))
  | @throw n p e left fd hd hpc =>
    rcases Pc.passed_after.mp h with h | ⟨rfl, rfl⟩
    · rw [hpc]
      exact Or.inl ⟨h, (Pc.left_after n p e left).symm ▸ Nat.le_refl left⟩
    · exact Or.inr (Or.inr (Or.inl (by simp [outcome?, hpc])))
  | call _ _ => exact Or.inl ⟨h, Nat.le_refl _⟩
  | edge => exact Or.inl ⟨h, Nat.le_refl _⟩
  | close => exact Or.inl ⟨h, Nat.le_refl _⟩
  | @assignFailed eintr _ => cases eintr <;> exact absurd h id
  | lock _ => exact absurd h (Nat.not_lt_zero i)
  | again _ _ _ => exact absurd h (Nat.not_lt_zero i)
  | execute | wait | waitFails | assign | stop | done => exact absurd h id

/-- A call that is in progress was in progress, or the dispatch starts it; it has not ended. -/
theorem Step.running (hs : Step s a s') {n : Nat} {p : Addr} {d : Dir} {left : Nat} {fd : Fd} {h : H}
    (hrun : s'.pc = .running n p d left fd h) :
    outcome? (s, a) = none ∧ (s.pc = .running n p d left fd h ∨
      a = .step ∧ s.pc = .test n p d left ∧ s.loop.invoked n p d = some (fd, h) ∧ s'.loop = s.loop) := by
  cases hs with
  | invoke hpc hinv =>
    obtain ⟨rfl, rfl, rfl, rfl, rfl, rfl⟩ := Pc.running.inj hrun
    exact ⟨by simp [outcome?, hpc], Or.inr ⟨rfl, hpc, hinv, rfl⟩⟩
  | call _ _ => exact ⟨by simp [outcome?], Or.inl hrun⟩
  | edge => exact ⟨by simp [outcome?], Or.inl hrun⟩
  | close => exact ⟨by simp [outcome?], Or.inl hrun⟩
  | @assignFailed eintr _ => cases eintr <;> simp at hrun
  | @skip n p e left _ _ => cases e <;> simp [Pc.after] at hrun
  | @more n p e left _ _ _ _ _ => cases e <;> simp [Pc.after] at hrun
  | @finished n p e left _ _ _ _ _ => cases e <;> simp [Pc.after] at hrun
  | @throw n p e left _ _ _ => cases e <;> simp [Pc.after] at hrun
  | execute | wait | waitFails | assign | lock | enter | stop | again | done => simp at hrun

theorem Step.passed_mono (hs : Step s a s') (hl : s'.pc.locked = true) (hstart : s'.pc.atStart = false) :
    s.pc.locked = true ∧ ∀ i d, s.pc.Passed i d → s'.pc.Passed i d := by
  cases hs with
  | enter hpc _ _ _ =>
    rw [hpc]
    exact ⟨rfl, fun i d h => Or.inl h⟩
  | invoke hpc _ =>
    rw [hpc]
    exact ⟨rfl, fun i d h => h⟩
  | skip hpc _ =>
    rw [hpc]
    exact ⟨rfl, fun i d h => Pc.passed_after.mpr (Or.inl h)⟩
  | more hpc _ =>
    rw [hpc]
    exact ⟨rfl, fun i d h => Pc.passed_after.mpr (Or.inl h)⟩
  | finished hpc _ =>
    rw [hpc]
    exact ⟨rfl, fun i d h => Pc.passed_after.mpr (Or.inl h)⟩
  | throw hpc =>
    rw [hpc]
    exact ⟨rfl, fun i d h => Pc.passed_after.mpr (Or.inl h)⟩
  | call _ _ => exact ⟨hl, fun i d h => h⟩
  | edge => exact ⟨hl, fun i d h => h⟩
  | close => exact ⟨hl, fun i d h => h⟩
  | @assignFailed eintr _ => cases eintr <;> simp [Pc.locked] at hl
  | lock _ => simp [Pc.atStart] at hstart
  | again _ _ _ => simp [Pc.atStart] at hstart
  | execute | wait | waitFails | assign | stop | done => simp [Pc.locked] at hl

/-! ### One event over a batch -/

/-- What the trace says about the event `d` of slot `i`, which `epoll_wait` reported for `fd` with the pointer
`p`. -/
structure Tracked (i : Nat) (fd : Fd) (d : Dir) (p : Addr) (tr : List (Sys H × Act H)) (s : Sys H) : Prop where
  ptr : s.loop.events[i]?.map EpollEvent.ptr = some (some p)
  registered : ¬ Erased tr fd d → s.loop.eventInfos.index fd = some p ∧ (s.loop.handlerOf fd d).isSome = true
  running : ¬ Erased tr fd d → ∀ q left fd' h, s.pc = .running i q d left fd' h → On s i d
  on_or_done : ¬ Erased tr fd d → On s i d ∨ Done tr i d
  /-- If it is on and this pass has passed it, its handler was called in this pass, and threw or wants to be
  called again. -/
  called : ¬ Erased tr fd d → On s i d → s.pc.Passed i d →
    ∃ o, lastOutcome i d (pass tr) = some o ∧ (o = none ∨ 0 < s.pc.left)

theorem invoked_of_on {i : Nat} {fd : Fd} {d : Dir} {p : Addr} (h : On s i d)
    (hreg : s.loop.eventInfos.index fd = some p ∧ (s.loop.handlerOf fd d).isSome = true) :
    s.loop.invoked i p d ≠ none := by
  obtain ⟨ev, hev, hsig⟩ := h
  obtain ⟨hidx, hsome⟩ := hreg
  obtain ⟨hs, hstorage, hget⟩ := s.loop.eventInfos.storage_of_index hidx
  rw [EventLoop.handlerOf, hget, Option.bind_some] at hsome
  obtain ⟨hd, hh⟩ := Option.isSome_iff_exists.mp hsome
  simp [EventLoop.invoked, hev, hsig, hstorage, hh]

theorem Tracked.step {i : Nat} {fd : Fd} {d : Dir} {p : Addr} (h : Tracked i fd d p tr s) (hpos : Positioned s)
    (hs : Step s a s') (hpc : s.pc ≠ .wait) : Tracked i fd d p ((s, a) :: tr) s' := by
  have hon : ¬ Erased ((s, a) :: tr) fd d → On s i d →
      On s' i d ∨ ∃ r ≤ 0, outcome? (s, a) = some (i, d, some r) := by
    intro hne hon
    obtain ⟨hne, ha⟩ := not_erased_cons hne
    exact hs.on hpc ha (h.registered hne) h.ptr hon
  refine ⟨?_, fun hne => ?_, fun hne q left fd' hd hrun => ?_, fun hne => ?_, fun hne hon' hpassed => ?_⟩
  · rw [hs.ptr hpc]
    exact h.ptr
  · obtain ⟨hne, ha⟩ := not_erased_cons hne
    exact hs.registered ha (h.registered hne)
  · -- a call starts where the event is on, and ends in another state
    have hbefore : On s i d ∧ outcome? (s, a) = none := by
      obtain ⟨hout, hold | ⟨_, _, hinv, _⟩⟩ := hs.running hrun
      · exact ⟨h.running (not_erased_cons hne).1 q left fd' hd hold, hout⟩
      · exact ⟨EventLoop.signals_of_invoked hinv, hout⟩
    rcases hon hne hbefore.1 with hon' | ⟨r, _, hout⟩
    · exact hon'
    · rw [hbefore.2] at hout
      simp at hout
  · have hold := not_erased_cons hne
    by_cases hout : ∃ o, outcome? (s, a) = some (i, d, o)
    · obtain ⟨o, hout⟩ := hout
      obtain ⟨q, left, fd', hd, hrun⟩ := running_of_outcome hout
      rcases hon hne (h.running hold.1 q left fd' hd hrun) with hon' | ⟨r, hr, hout'⟩
      · exact Or.inl hon'
      · exact Or.inr ⟨r, hr, lastOutcome_self hout'⟩
    · rcases h.on_or_done hold.1 with hon' | ⟨r, hr, hdone⟩
      · rcases hon hne hon' with hon' | ⟨r, _, hout'⟩
        · exact Or.inl hon'
        · exact absurd ⟨_, hout'⟩ hout
      · exact Or.inr ⟨r, hr, by rw [lastOutcome_of_ne fun o ho => hout ⟨o, ho⟩, hdone]⟩
  · have hold := not_erased_cons hne
    have hon := hs.on_le hpc hon'
    have hpass : ∀ o, outcome? (s, a) = some (i, d, o) → lastOutcome i d (pass ((s, a) :: tr)) = some o := by
      intro o hout
      obtain ⟨q, left, fd', hd, hrun⟩ := running_of_outcome hout
      rw [pass_cons, if_neg (by simp [hrun, Pc.atStart])]
      exact lastOutcome_self hout
    rcases hs.passed hpassed with ⟨hp, hleft⟩ | ⟨q, left, htest, hinv⟩ | hout | ⟨r, _, hout, hleft⟩ | ⟨r, _, _, hloop⟩
    · obtain ⟨o, hlast, ho⟩ := h.called hold.1 hon hp
      refine ⟨o, ?_, ho.imp id fun ho => by omega⟩
      rw [pass_cons, if_neg (by simp [hp.atStart]), lastOutcome_of_ne, hlast]
      intro o' hout
      obtain ⟨q, left, fd', hd, hrun⟩ := running_of_outcome hout
      rw [hrun] at hp
      exact Pc.not_passed_running hp
    · obtain ⟨_, hq⟩ := hpos i q (by rw [htest]; rfl)
      rw [h.ptr, Option.some.injEq, Option.some.injEq] at hq
      subst hq
      exact absurd hinv (invoked_of_on hon (h.registered hold.1))
    · exact ⟨none, hpass none hout, Or.inl rfl⟩
    · exact ⟨some r, hpass _ hout, Or.inr hleft⟩
    · obtain ⟨ev', hev', hsig⟩ := hon'
      rw [hloop] at hev'
      obtain ⟨_, _, _, heq⟩ := EventLoop.clearSlot_signals hev'
      rw [heq] at hsig
      simp at hsig

/-! ### The calls of a batch -/

/-- In one pass each event is called at most once, so its outcome in this pass is its last one. -/
structure Once (tr : List (Sys H × Act H)) (s : Sys H) : Prop where
  passed : s.pc.locked = true → s.pc.atStart = false →
    ∀ x ∈ pass tr, ∀ i d o, outcome? x = some (i, d, o) → s.pc.Passed i d
  last : ∀ x ∈ pass tr, ∀ i d o, outcome? x = some (i, d, o) → lastOutcome i d tr = some o

theorem Once.step (h : Once tr s) (hs : Step s a s') : Once ((s, a) :: tr) s' := by
  have hmem : ∀ x ∈ pass ((s, a) :: tr), s.pc.atStart = false ∧ (x = (s, a) ∨ x ∈ pass tr) := by
    intro x hx
    rw [pass_cons] at hx
    split at hx
    · simp at hx
    · next hstart => exact ⟨by simpa using hstart, List.mem_cons.mp hx⟩
  refine ⟨fun hl hstart x hx i d o hout => ?_, fun x hx i d o hout => ?_⟩
  · obtain ⟨hl₀, hmono⟩ := hs.passed_mono hl hstart
    obtain ⟨hstart₀, rfl | hx⟩ := hmem x hx
    · cases hs with
      | more hrun _ =>
        simp only [outcome?, hrun, Option.some.injEq, Prod.mk.injEq] at hout
        exact Pc.passed_after.mpr (Or.inr ⟨hout.1.symm, hout.2.1.symm⟩)
      | finished hrun _ =>
        simp only [outcome?, hrun, Option.some.injEq, Prod.mk.injEq] at hout
        exact Pc.passed_after.mpr (Or.inr ⟨hout.1.symm, hout.2.1.symm⟩)
      | throw hrun =>
        simp only [outcome?, hrun, Option.some.injEq, Prod.mk.injEq] at hout
        exact Pc.passed_after.mpr (Or.inr ⟨hout.1.symm, hout.2.1.symm⟩)
      | _ => simp [outcome?] at hout
    · exact hmono i d (h.passed hl₀ hstart₀ x hx i d o hout)
  · obtain ⟨hstart₀, rfl | hx⟩ := hmem x hx
    · exact lastOutcome_self hout
    · rw [lastOutcome_of_ne fun o' hout' => ?_]
      · exact h.last x hx i d o hout
      · obtain ⟨p, left, fd, hd, hrun⟩ := running_of_outcome hout'
        have hp := h.passed (by rw [hrun]; rfl) hstart₀ x hx i d o hout
        rw [hrun] at hp
        exact Pc.not_passed_running hp

/-- Only events that were on at the start of the batch are called. -/
structure Within (s₁ : Sys H) (tr : List (Sys H × Act H)) (s : Sys H) : Prop where
  on : ∀ i d, On s i d → On s₁ i d
  running : ∀ i p d left fd h, s.pc = .running i p d left fd h → On s₁ i d
  called : ∀ x ∈ tr, ∀ i d o, outcome? x = some (i, d, o) → On s₁ i d

theorem Within.step {s₁ : Sys H} (h : Within s₁ tr s) (hs : Step s a s') (hpc : s.pc ≠ .wait) :
    Within s₁ ((s, a) :: tr) s' := by
  refine ⟨fun i d hon => h.on i d (hs.on_le hpc hon), fun i p d left fd hd hrun => ?_, fun x hx i d o hout => ?_⟩
  · rcases (hs.running hrun).2 with hold | ⟨_, _, hinv, _⟩
    · exact h.running i p d left fd hd hold
    · exact h.on _ _ (EventLoop.signals_of_invoked hinv)
  · rcases List.mem_cons.mp hx with rfl | hx
    · obtain ⟨p, left, fd, hd, hrun⟩ := running_of_outcome hout
      exact h.running i p d left fd hd hrun
    · exact h.called x hx i d o hout

/-- A batch of `n` events is being worked on. -/
def InBatch (n : Nat) (s : Sys H) : Prop :=
  s.pc = .filled n ∨ ((s.pc = .counted ∨ s.pc.locked = true) ∧ s.loop.eventCount = n)

/-- A batch ends where all slots have been passed with nothing left, or at the stop event. -/
theorem Step.inBatch {n : Nat} (hs : Step s a s') (h : InBatch n s) :
    InBatch n s' ∨ (∃ m, s.pc = .slot m 0 ∧ n ≤ m ∧ a = .step ∧ s'.pc = .wait) ∨
      ∃ m < n, s.loop.events[m]?.map EpollEvent.ptr = some none ∧ s' = { s with pc := .out } := by
  have hlocked : s.pc.locked = true → s.loop.eventCount = n := by
    rcases h with h | h
    · rw [h]
      simp [Pc.locked]
    · exact fun _ => h.2
  have hafter : ∀ m p d left, (Pc.after m p d left : Pc H).locked = true := by
    intro m p d left
    cases d <;> rfl
  cases hs with
  | execute hpc => simp [InBatch, hpc, Pc.locked] at h
  | wait hpc _ => simp [InBatch, hpc, Pc.locked] at h
  | waitFails hpc => simp [InBatch, hpc, Pc.locked] at h
  | assignFailed hpc => simp [InBatch, hpc, Pc.locked] at h
  | assign hpc =>
    simp only [InBatch, hpc, Pc.filled.injEq, reduceCtorEq, Pc.locked, Bool.false_eq_true, or_false, false_and] at h
    exact Or.inl (Or.inr ⟨Or.inl rfl, congrArg Int.ofNat h⟩)
  | lock hpc =>
    simp only [InBatch, hpc, reduceCtorEq, Pc.locked, Bool.false_eq_true, or_false, true_and, false_or] at h
    exact Or.inl (Or.inr ⟨Or.inr rfl, h⟩)
  | enter hpc _ _ _ => exact Or.inl (Or.inr ⟨Or.inr rfl, hlocked (by rw [hpc]; rfl)⟩)
  | again hpc _ _ => exact Or.inl (Or.inr ⟨Or.inr rfl, hlocked (by rw [hpc]; rfl)⟩)
  | invoke hpc _ => exact Or.inl (Or.inr ⟨Or.inr rfl, hlocked (by rw [hpc]; rfl)⟩)
  | skip hpc _ => exact Or.inl (Or.inr ⟨Or.inr (hafter _ _ _ _), hlocked (by rw [hpc]; rfl)⟩)
  | more hpc _ => exact Or.inl (Or.inr ⟨Or.inr (hafter _ _ _ _), hlocked (by rw [hpc]; rfl)⟩)
  | finished hpc _ => exact Or.inl (Or.inr ⟨Or.inr (hafter _ _ _ _), hlocked (by rw [hpc]; rfl)⟩)
  | throw hpc => exact Or.inl (Or.inr ⟨Or.inr (hafter _ _ _ _), hlocked (by rw [hpc]; rfl)⟩)
  | call _ hr =>
    left
    rw [InBatch, (EventLoop.apply_change hr).2]
    exact h
  | edge => exact Or.inl h
  | close => exact Or.inl h
  | @stop m left ev hpc hm hev hp =>
    rw [hlocked (by rw [hpc]; rfl)] at hm
    exact Or.inr (Or.inr ⟨m, by omega, by rw [hev, Option.map_some, hp], rfl⟩)
  | done hpc hcount =>
    rw [hlocked (by rw [hpc]; rfl)] at hcount
    exact Or.inr (Or.inl ⟨_, hpc, by omega, rfl, rfl⟩)

/-! ### The batch that `epoll_wait` has returned -/

/-- The events of the batch are tracked in a run from the state `s₁` that `epoll_wait` left; `k` is the kernel
before it. -/
structure Serving (k : Kernel) (fds : List Fd) (s₁ : Sys H) (tr : List (Sys H × Act H)) (s : Sys H) : Prop where
  positioned : Positioned s
  once : Once tr s
  within : Within s₁ tr s
  ptr : ∀ i : Nat, s.loop.events[i]?.map EpollEvent.ptr = s₁.loop.events[i]?.map EpollEvent.ptr
  tracked : ∀ i fd d p, fds[i]? = some fd → (k.report fd).ptr = some p → signals (k.report fd).events d = true →
    Tracked i fd d p tr s

theorem Serving.step {k : Kernel} {fds : List Fd} {s₁ : Sys H} (h : Serving k fds s₁ tr s) (hs : Step s a s')
    (hpc : s.pc ≠ .wait) : Serving k fds s₁ ((s, a) :: tr) s' :=
  ⟨hs.positioned h.positioned, h.once.step hs, h.within.step hs hpc, fun i => (hs.ptr hpc i).trans (h.ptr i),
    fun i fd d p hfd hptr hsig => (h.tracked i fd d p hfd hptr hsig).step h.positioned hs hpc⟩

theorem serving_of_wait {s₀ s₁ : Sys H} (hagree : s₀.loop.Agrees) {fds : List Fd}
    (h : exec s₀ (.wait fds) = some s₁) : Serving s₀.loop.kernel fds s₁ [] s₁ ∧ InBatch fds.length s₁ := by
  obtain ⟨evs, k, hw, rfl⟩ := exec_wait h
  refine ⟨⟨?_, ⟨?_, ?_⟩, ⟨fun _ _ h => h, ?_, ?_⟩, fun _ => rfl, fun i fd d p hfd hptr hsig => ?_⟩, Or.inl rfl⟩
  · intro n p hat
    simp [Pc.at?] at hat
  · intro hl
    simp [Pc.locked] at hl
  · intro x hx
    simp [pass] at hx
  · intro i p d left fd hd hrun
    simp at hrun
  · intro x hx
    simp at hx
  · have hslot := waited_slot hw s₀.loop.events hfd
    obtain ⟨hidx, hreg⟩ := waited_agrees hagree hw hfd hptr
    refine ⟨by rw [hslot, Option.map_some, hptr], fun _ => ⟨hidx, hreg d hsig⟩, ?_,
      fun _ => Or.inl ⟨_, hslot, hsig⟩, ?_⟩
    · intro _ q left fd' hd hrun
      simp at hrun
    · intro _ _ hpassed
      exact absurd hpassed id

theorem ptr_of_wait {s₀ s₁ : Sys H} {fds : List Fd} (h : exec s₀ (.wait fds) = some s₁) {i : Nat}
    (hi : i < fds.length) :
    s₁.loop.events[i]?.map EpollEvent.ptr = some (s₀.loop.kernel.report fds[i]).ptr := by
  obtain ⟨evs, k, hw, rfl⟩ := exec_wait h
  rw [waited_slot hw s₀.loop.events (List.getElem?_eq_getElem hi), Option.map_some]

end Sys

end Libhbk
