import Libhbk.Sys.EventLoop.Registry

/-!
# What a registry operation changes

`Change` lists what one operation does to the map and to the slots of pending events, and everything
later modules need follows from it: the handlers of other registrations stay as they are, a pending
event whose handler stays registered stays on, and an erase turns its event off. `Agrees` is the part of
the agreement with the kernel that holds also where `epoll_ctl` fails.
-/

namespace Libhbk

namespace EventLoop

variable {K H : Type}

/-- What an operation does to the map and to the pending events. -/
inductive Change (l l' : EventLoop K H) : Op H → Prop
  | refused {d fd eh a grant} : l'.eventInfos = l.eventInfos → l'.events = l.events →
      Change l l' (.add d fd eh a grant)
  | emplace {d fd h a grant} (ha : l.eventInfos.live a = false) : l.eventInfos.index fd = none →
      l'.eventInfos = l.eventInfos.emplace fd (.set .empty d (some h)) a ha → l'.events = l.events →
      Change l l' (.add d fd (some h) a grant)
  | replace {d fd h a a' grant} : l.eventInfos.index fd = some a' →
      l'.eventInfos = l.eventInfos.modifyAt a' (·.set d (some h)) → l'.events = l.events →
      Change l l' (.add d fd (some h) a grant)
  | missing {d fd} : l.handlerOf fd d = none → l'.eventInfos = l.eventInfos → l'.events = l.events →
      Change l l' (.erase d fd)
  | keep {d fd a} : l.eventInfos.index fd = some a → l'.eventInfos = l.eventInfos.modifyAt a (·.set d none) →
      l'.events = clearPending a d.bit l.eventCount.toNat l.events → Change l l' (.erase d fd)
  | remove {d fd a} : l.eventInfos.index fd = some a → l.handlerOf fd d.other = none →
      l'.eventInfos = l.eventInfos.erase fd →
      l'.events = clearPending a (EPOLLIN ||| EPOLLOUT) l.eventCount.toNat l.events → Change l l' (.erase d fd)

theorem addHandler_change (ctl : EpollCtl K) (d : Dir) (l : EventLoop K H) (fresh : l.Free) (fd : Fd)
    (eh : Option H) (grant : Bool) :
    Change l (addHandler ctl d l fresh fd eh).loop (.add d fd eh fresh.1 grant) ∧
      (addHandler ctl d l fresh fd eh).loop.eventCount = l.eventCount := by
  rcases l.addHandler_cases ctl d fresh fd eh with
    ⟨_, hr⟩ | ⟨h, rfl, _, hidx, hr⟩ | ⟨h, a', rfl, _, hidx, hr⟩
  · rw [hr]
    exact ⟨.refused rfl rfl, rfl⟩
  · rw [hr]
    exact ⟨.emplace fresh.2 hidx (by simp) (by simp), by simp⟩
  · rw [hr]
    exact ⟨.replace hidx (by simp) (by simp), by simp⟩

theorem eraseHandler_change (ctl : EpollCtl K) (d : Dir) (l : EventLoop K H) (fd : Fd) :
    Change l (eraseHandler ctl d l fd).loop (.erase d fd) ∧
      (eraseHandler ctl d l fd).loop.eventCount = l.eventCount := by
  rcases l.eraseHandler_cases ctl d fd with
    ⟨hno, hr⟩ | ⟨a, h, h', hidx, _, _, hr⟩ | ⟨a, h, hidx, _, hother, hr⟩
  · rw [hr]
    exact ⟨.missing hno rfl rfl, rfl⟩
  · rw [hr]
    exact ⟨.keep hidx (by simp [clearEvents]) (by simp [clearEvents]), by simp [clearEvents]⟩
  · rw [hr]
    rw [← l.handlerOf_of_index hidx] at hother
    exact ⟨.remove hidx hother (by simp [clearEvents]) (by simp [clearEvents]), by simp [clearEvents]⟩

theorem apply_change {l : EventLoop Kernel H} {o : Op H} {r : OpResult Kernel H} (hr : l.apply o = some r) :
    Change l r.loop o ∧ r.loop.eventCount = l.eventCount := by
  rcases o with ⟨d, fd, eh, a, grant⟩ | ⟨d, fd⟩
  · simp only [apply, Option.dite_none_right_eq_some, Option.some.injEq] at hr
    obtain ⟨ha, rfl⟩ := hr
    exact addHandler_change (Kernel.ctl grant) d l ⟨a, ha⟩ fd eh grant
  · obtain rfl := Option.some.inj hr
    exact eraseHandler_change (Kernel.ctl true) d l fd

/-- The kernel after an operation: untouched where `epoll_ctl` fails or is not called. -/
theorem control_kernel {ctl : EpollCtl K} {l l₀ : EventLoop K H} (h : l₀.kernel = l.kernel) (op : CtlOp) (fd : Fd) :
    (control ctl l₀ op fd).loop.kernel = l.kernel ∨
      ctl l.kernel op fd = some (control ctl l₀ op fd).loop.kernel := by
  rcases control_eq ctl l₀ op fd with ⟨_, hc⟩ | ⟨k, hctl, hc⟩
  · rw [hc]
    exact Or.inl h
  · rw [hc]
    exact Or.inr (by rw [← h, hctl])

theorem addHandler_kernel (ctl : EpollCtl K) (d : Dir) (l : EventLoop K H) (fresh : l.Free) (fd : Fd)
    (eh : Option H) :
    (addHandler ctl d l fresh fd eh).loop.kernel = l.kernel ∨
      ∃ op, (∀ ev, op = .add ev → l.eventInfos.index fd = none) ∧
        ctl l.kernel op fd = some (addHandler ctl d l fresh fd eh).loop.kernel := by
  rcases l.addHandler_cases ctl d fresh fd eh with
    ⟨_, hr⟩ | ⟨h, rfl, _, hidx, hr⟩ | ⟨h, a', rfl, _, hidx, hr⟩
  · rw [hr]
    exact Or.inl rfl
  · rw [hr]
    exact (control_kernel rfl _ _).imp id fun hctl => ⟨_, fun _ _ => hidx, hctl⟩
  · rw [hr]
    exact (control_kernel rfl _ _).imp id fun hctl => ⟨_, fun _ he => by simp at he, hctl⟩

theorem eraseHandler_kernel (ctl : EpollCtl K) (d : Dir) (l : EventLoop K H) (fd : Fd) :
    (eraseHandler ctl d l fd).loop.kernel = l.kernel ∨
      ∃ op, l.handlerOf fd d ≠ none ∧ (∀ ev, op ≠ .add ev) ∧
        ctl l.kernel op fd = some (eraseHandler ctl d l fd).loop.kernel := by
  rcases l.eraseHandler_cases ctl d fd with
    ⟨_, hr⟩ | ⟨a, h, h', hidx, hh, _, hr⟩ | ⟨a, h, hidx, hh, _, hr⟩
  · rw [hr]
    exact Or.inl rfl
  · have hreg : l.handlerOf fd d ≠ none := by rw [l.handlerOf_of_index hidx, hh]; simp
    rcases control_eq ctl { l with eventInfos := l.eventInfos.modifyAt a (·.set d none) }
      (.mod ⟨d.other.bit ||| EPOLLET, some a⟩) fd with ⟨_, hc⟩ | ⟨k, hctl, hc⟩
    · exact Or.inl (by rw [hr, hc]; rfl)
    · exact Or.inr ⟨.mod ⟨d.other.bit ||| EPOLLET, some a⟩, hreg, by simp, by rw [hr, hc]; exact hctl⟩
  · have hreg : l.handlerOf fd d ≠ none := by rw [l.handlerOf_of_index hidx, hh]; simp
    rcases control_eq ctl l .del fd with ⟨_, hc⟩ | ⟨k, hctl, hc⟩
    · exact Or.inl (by rw [hr, hc]; rfl)
    · exact Or.inr ⟨.del, hreg, by simp, by rw [hr, hc]; exact hctl⟩

namespace Change

variable {l l' : EventLoop K H} {o : Op H}

/-- A handler that is set in an entry is not seen from other descriptors and the other direction. -/
theorem get?_set_other {m : NodeMap Fd (EventsHandlers H)} {fd fd' : Fd} {d d' : Dir} {a : Addr} {eh : Option H}
    (hidx : m.index fd' = some a) (hne : fd' ≠ fd ∨ d' ≠ d) :
    ((m.modifyAt a (·.set d' eh)).get? fd).bind (·.handler d) = (m.get? fd).bind (·.handler d) := by
  rw [NodeMap.get?_modifyAt _ hidx]
  by_cases hfd : fd = fd'
  · subst hfd
    have hd : d ≠ d' := fun e => hne.elim (fun h => h rfl) fun h => h e.symm
    rw [Function.update_self]
    cases m.get? fd <;> simp [hd]
  · rw [Function.update_of_ne hfd]

/-- The handler of one direction of one descriptor is changed by its own operations only. -/
theorem handlerOf (h : Change l l' o) {fd : Fd} {d : Dir} (hne : o.fd ≠ fd ∨ o.dir ≠ d) :
    l'.handlerOf fd d = l.handlerOf fd d := by
  unfold EventLoop.handlerOf
  cases h with
  | refused hi _ => rw [hi]
  | missing _ hi _ => rw [hi]
  | @emplace d' fd' h _ _ ha hidx hi _ =>
    rw [hi, NodeMap.get?_emplace]
    by_cases hfd : fd = fd'
    · subst hfd
      have hd : d ≠ d' := fun e => hne.elim (fun h => h rfl) fun h => h e.symm
      rw [Function.update_self, (l.eventInfos.get?_eq_none fd).mpr hidx]
      simp [hd]
    · rw [Function.update_of_ne hfd]
  | replace hidx hi _ =>
    rw [hi]
    exact get?_set_other hidx hne
  | keep hidx hi _ =>
    rw [hi]
    exact get?_set_other hidx hne
  | @remove d' fd' a hidx hother hi _ =>
    rw [hi, NodeMap.get?_erase]
    by_cases hfd : fd = fd'
    · subst hfd
      have hd : d = d'.other := (d'.eq_or_eq_other d).resolve_left
        fun e => hne.elim (fun h => h rfl) fun h => h e.symm
      rw [Function.update_self, hd]
      exact hother.symm
    · rw [Function.update_of_ne hfd]

theorem handlerOf_add {d : Dir} {fd : Fd} {eh : Option H} {a : Addr} {grant : Bool}
    (h : Change l l' (.add d fd eh a grant)) {e : Dir} {hd : H} (hh : l'.handlerOf fd e = some hd) :
    l.handlerOf fd e = some hd ∨ eh = some hd := by
  by_cases hd' : d = e
  · subst hd'
    unfold EventLoop.handlerOf at hh ⊢
    cases h with
    | refused hi _ =>
      rw [hi] at hh
      exact Or.inl hh
    | emplace _ _ hi _ =>
      rw [hi, NodeMap.get?_emplace, Function.update_self, Option.bind_some, EventsHandlers.handler_set,
        if_pos rfl] at hh
      exact Or.inr hh
    | replace hidx hi _ =>
      rw [hi, NodeMap.get?_modifyAt _ hidx, Function.update_self, l.handlersAt_of_index hidx, Option.map_some,
        Option.bind_some, EventsHandlers.handler_set, if_pos rfl] at hh
      exact Or.inr hh
  · rw [h.handlerOf (Or.inr hd')] at hh
    exact Or.inl hh

theorem erased {fd : Fd} {d : Dir} (h : Change l l' (.erase d fd)) : l'.handlerOf fd d = none := by
  unfold EventLoop.handlerOf
  cases h with
  | missing hnone hi _ =>
    rw [hi]
    exact hnone
  | keep hidx hi _ =>
    rw [hi, NodeMap.get?_modifyAt _ hidx, Function.update_self]
    cases l.eventInfos.get? fd <;> simp
  | remove _ _ hi _ => rw [hi, NodeMap.get?_erase, Function.update_self, Option.bind_none]

theorem registered (h : Change l l' o) {fd : Fd} {d : Dir} {a : Addr} (hne : o ≠ .erase d fd)
    (hidx : l.eventInfos.index fd = some a) (hreg : (l.handlerOf fd d).isSome = true) :
    l'.eventInfos.index fd = some a ∧ (l'.handlerOf fd d).isSome = true := by
  have hother : o.fd ≠ fd ∨ o.dir ≠ d → (l'.handlerOf fd d).isSome = true := fun hne => by rwa [h.handlerOf hne]
  cases h with
  | refused hi _ => rw [EventLoop.handlerOf, hi]; exact ⟨hidx, hreg⟩
  | missing _ hi _ => rw [EventLoop.handlerOf, hi]; exact ⟨hidx, hreg⟩
  | @emplace d' fd' h _ _ ha hidx' hi _ =>
    have hfd : fd ≠ fd' := by
      rintro rfl
      rw [hidx] at hidx'
      simp at hidx'
    refine ⟨?_, hother (Or.inl hfd.symm)⟩
    rw [hi, NodeMap.index_emplace, Function.update_of_ne hfd, hidx]
  | @replace d' fd' h _ a' _ hidx' hi _ =>
    refine ⟨by rw [hi, NodeMap.index_modifyAt, hidx], ?_⟩
    by_cases hsame : fd' = fd ∧ d' = d
    · obtain ⟨rfl, rfl⟩ := hsame
      rw [EventLoop.handlerOf, hi, NodeMap.get?_modifyAt _ hidx', l.handlersAt_of_index hidx']
      simp
    · exact hother (not_and_or.mp hsame)
  | @keep d' fd' a' hidx' hi _ =>
    refine ⟨by rw [hi, NodeMap.index_modifyAt, hidx], hother ?_⟩
    refine not_and_or.mp fun hsame => hne ?_
    show Op.erase d' fd' = _
    rw [show fd' = fd from hsame.1, show d' = d from hsame.2]
  | @remove d' fd' a' hidx' hnone hi _ =>
    have hfd : fd ≠ fd' := by
      rintro rfl
      rcases d'.eq_or_eq_other d with rfl | rfl
      · exact hne rfl
      · rw [hnone] at hreg
        simp at hreg
    refine ⟨?_, hother (Or.inl hfd.symm)⟩
    rw [hi, NodeMap.index_erase, Function.update_of_ne hfd, hidx]

end Change

theorem handlerOf_addHandler (ctl : EpollCtl K) (d : Dir) (l : EventLoop K H) (fresh : l.Free) {fd : Fd} (h : H)
    (hfd : fd ≠ -1) (fd' : Fd) (d' : Dir) :
    (addHandler ctl d l fresh fd (some h)).loop.handlerOf fd' d' =
      if fd' = fd ∧ d' = d then some h else l.handlerOf fd' d' := by
  by_cases hsame : fd' = fd ∧ d' = d
  · rw [if_pos hsame]
    obtain ⟨rfl, rfl⟩ := hsame
    rcases l.addHandler_cases ctl d' fresh fd' (some h) with
      ⟨hno, _⟩ | ⟨h', he, _, hidx, hr⟩ | ⟨h', a, he, _, hidx, hr⟩
    · exact absurd hno (by simp [hfd])
    · obtain rfl := Option.some.inj he
      rw [hr, handlerOf, control_eventInfos, NodeMap.get?_emplace, Function.update_self]
      simp
    · obtain rfl := Option.some.inj he
      rw [hr, handlerOf, control_eventInfos, NodeMap.get?_modifyAt _ hidx, Function.update_self,
        l.handlersAt_of_index hidx]
      simp
  · rw [if_neg hsame]
    refine (addHandler_change ctl d l fresh fd (some h) true).1.handlerOf ?_
    exact (not_and_or.mp hsame).imp (fun hne he => hne he.symm) fun hne he => hne he.symm

theorem handlerOf_eraseHandler (ctl : EpollCtl K) (d : Dir) (l : EventLoop K H) (fd fd' : Fd) (d' : Dir) :
    (eraseHandler ctl d l fd).loop.handlerOf fd' d' =
      if fd' = fd ∧ d' = d then none else l.handlerOf fd' d' := by
  have hchange := (eraseHandler_change ctl d l fd).1
  by_cases hsame : fd' = fd ∧ d' = d
  · rw [if_pos hsame, hsame.1, hsame.2]
    exact hchange.erased
  · rw [if_neg hsame]
    refine hchange.handlerOf ?_
    exact (not_and_or.mp hsame).imp (fun hne he => hne he.symm) fun hne he => hne he.symm

end EventLoop

/-! ### Pending events -/

theorem clearPending_getElem? (p : Addr) (removed : BitVec 32) (n : Nat) (evs : List EpollEvent) (i : Nat) :
    (clearPending p removed n evs)[i]? = evs[i]?.map fun ev =>
      if i < n ∧ ev.ptr = some p ∧ ∀ j < i, evs[j]?.bind EpollEvent.ptr ≠ some p then
        { ev with events := ev.events &&& ~~~removed }
      else ev := by
  induction evs generalizing n i with
  | nil => cases n <;> simp [clearPending]
  | cons ev evs ih =>
    cases n with
    | zero => simp [clearPending]
    | succ n =>
      by_cases hp : ev.ptr = some p
      · rw [clearPending, if_pos hp]
        cases i with
        | zero => simp [hp]
        | succ i =>
          rcases hi : evs[i]? with _ | ev'
          · simp [hi]
          · have hfirst : ¬ ∀ j < i + 1, (ev :: evs)[j]?.bind EpollEvent.ptr ≠ some p :=
              fun h => h 0 (Nat.succ_pos i) (by simpa using hp)
            rw [List.getElem?_cons_succ, List.getElem?_cons_succ, hi, Option.map_some,
              if_neg fun hc => hfirst hc.2.2]
      · rw [clearPending, if_neg hp]
        cases i with
        | zero => simp [hp]
        | succ i =>
          have hfirst : (∀ j < i + 1, (ev :: evs)[j]?.bind EpollEvent.ptr ≠ some p) ↔
              ∀ j < i, evs[j]?.bind EpollEvent.ptr ≠ some p := by
            constructor
            · intro h j hj
              simpa using h (j + 1) (Nat.succ_lt_succ hj)
            · intro h j hj
              cases j with
              | zero => simpa using hp
              | succ j => simpa using h j (Nat.lt_of_succ_lt_succ hj)
          simp only [List.getElem?_cons_succ, ih, hfirst, Nat.succ_lt_succ_iff]

theorem clearPending_ptr (p : Addr) (removed : BitVec 32) (n : Nat) (evs : List EpollEvent) (i : Nat) :
    (clearPending p removed n evs)[i]?.map EpollEvent.ptr = evs[i]?.map EpollEvent.ptr := by
  rw [clearPending_getElem?, Option.map_map]
  congr 1
  funext ev
  simp only [Function.comp]
  split <;> rfl

/-- Clearing only turns bits off, and only removed ones of slots that point to `p`. -/
theorem clearPending_signals {p : Addr} {removed : BitVec 32} {n i : Nat} {evs : List EpollEvent}
    {ev' : EpollEvent} (h : (clearPending p removed n evs)[i]? = some ev') :
    ∃ ev, evs[i]? = some ev ∧ ev'.ptr = ev.ptr ∧
      ∀ d, (signals ev'.events d = true → signals ev.events d = true) ∧
        (ev.ptr ≠ some p ∨ signals removed d = false → signals ev'.events d = signals ev.events d) := by
  rw [clearPending_getElem?, Option.map_eq_some_iff] at h
  obtain ⟨ev, hev, rfl⟩ := h
  refine ⟨ev, hev, ?_, fun d => ?_⟩
  · split <;> rfl
  · split
    · next hc =>
      simp only [signals_and, signals_not, Bool.and_eq_true, Bool.not_eq_true']
      refine ⟨fun h => h.1, ?_⟩
      rintro (hp | hr)
      · exact absurd hc.2.1 hp
      · rw [hr, Bool.not_false, Bool.and_true]
    · exact ⟨id, fun _ => rfl⟩

namespace EventLoop.Change

variable {K H : Type} {l l' : EventLoop K H} {o : Op H}

theorem ptr (h : Change l l' o) (i : Nat) :
    l'.events[i]?.map EpollEvent.ptr = l.events[i]?.map EpollEvent.ptr := by
  cases h with
  | refused _ he => rw [he]
  | emplace _ _ _ he => rw [he]
  | replace _ _ he => rw [he]
  | missing _ _ he => rw [he]
  | keep _ _ he => rw [he, clearPending_ptr]
  | remove _ _ _ he => rw [he, clearPending_ptr]

theorem signals_le (h : Change l l' o) {i : Nat} {ev' : EpollEvent} (hev' : l'.events[i]? = some ev') :
    ∃ ev, l.events[i]? = some ev ∧ ev'.ptr = ev.ptr ∧
      ∀ d, signals ev'.events d = true → signals ev.events d = true := by
  have hcleared : ∀ p removed, l'.events = clearPending p removed l.eventCount.toNat l.events →
      ∃ ev, l.events[i]? = some ev ∧ ev'.ptr = ev.ptr ∧
        ∀ d, signals ev'.events d = true → signals ev.events d = true := by
    intro p removed he
    rw [he] at hev'
    obtain ⟨ev, hev, hp, hs⟩ := clearPending_signals hev'
    exact ⟨ev, hev, hp, fun d => (hs d).1⟩
  cases h with
  | refused _ he => exact ⟨ev', by rw [← he, hev'], rfl, fun _ => id⟩
  | emplace _ _ _ he => exact ⟨ev', by rw [← he, hev'], rfl, fun _ => id⟩
  | replace _ _ he => exact ⟨ev', by rw [← he, hev'], rfl, fun _ => id⟩
  | missing _ _ he => exact ⟨ev', by rw [← he, hev'], rfl, fun _ => id⟩
  | keep _ _ he => exact hcleared _ _ he
  | remove _ _ _ he => exact hcleared _ _ he

theorem signals_registered (h : Change l l' o) {fd : Fd} {d : Dir} {a : Addr} (hne : o ≠ .erase d fd)
    (hidx : l.eventInfos.index fd = some a) (hreg : (l.handlerOf fd d).isSome = true) {i : Nat}
    {ev' : EpollEvent} (hev' : l'.events[i]? = some ev') :
    ∃ ev, l.events[i]? = some ev ∧ ev'.ptr = ev.ptr ∧
      (ev.ptr = some a → signals ev'.events d = signals ev.events d) := by
  cases h with
  | refused _ he => exact ⟨ev', by rw [← he, hev'], rfl, fun _ => rfl⟩
  | emplace _ _ _ he => exact ⟨ev', by rw [← he, hev'], rfl, fun _ => rfl⟩
  | replace _ _ he => exact ⟨ev', by rw [← he, hev'], rfl, fun _ => rfl⟩
  | missing _ _ he => exact ⟨ev', by rw [← he, hev'], rfl, fun _ => rfl⟩
  | @keep d' fd' a' hidx' hi he =>
    rw [he] at hev'
    obtain ⟨ev, hev, hp, hs⟩ := clearPending_signals hev'
    refine ⟨ev, hev, hp, fun hptr => (hs d).2 ?_⟩
    by_cases ha : a = a'
    · subst ha
      right
      obtain rfl := l.eventInfos.index_inj hidx hidx'
      rw [signals_bit, decide_eq_false_iff_not]
      rintro rfl
      exact hne rfl
    · left
      rw [hptr]
      simpa using ha
  | @remove d' fd' a' hidx' hnone hi he =>
    rw [he] at hev'
    obtain ⟨ev, hev, hp, hs⟩ := clearPending_signals hev'
    refine ⟨ev, hev, hp, fun hptr => (hs d).2 (Or.inl ?_)⟩
    rw [hptr]
    rintro ⟨rfl⟩
    obtain rfl := l.eventInfos.index_inj hidx hidx'
    rcases d'.eq_or_eq_other d with rfl | rfl
    · exact hne rfl
    · rw [hnone] at hreg
      simp at hreg

/-- An erase turns the event of its direction off in the first slot that points to the entry. -/
theorem erase_clears {fd : Fd} {d : Dir} {a : Addr} (h : Change l l' (.erase d fd))
    (hidx : l.eventInfos.index fd = some a) (hreg : (l.handlerOf fd d).isSome = true) {i : Nat}
    (hi : (i : Int) < l.eventCount) (hfirst : ∀ j < i, l.events[j]?.bind EpollEvent.ptr ≠ some a)
    {ev' : EpollEvent} (hev' : l'.events[i]? = some ev') (hptr : ev'.ptr = some a) :
    signals ev'.events d = false := by
  have hin : i < l.eventCount.toNat := by omega
  have hcleared : ∀ removed, l'.events = clearPending a removed l.eventCount.toNat l.events →
      signals removed d = true → signals ev'.events d = false := by
    intro removed he hr
    rw [he, clearPending_getElem?, Option.map_eq_some_iff] at hev'
    obtain ⟨ev, hev, rfl⟩ := hev'
    have hp : ev.ptr = some a := by
      split at hptr <;> exact hptr
    rw [if_pos ⟨hin, hp, hfirst⟩, signals_and, signals_not, hr, Bool.not_true, Bool.and_false]
  cases h with
  | missing hnone _ _ =>
    rw [hnone] at hreg
    simp at hreg
  | keep hidx' _ he =>
    obtain rfl := Option.some.inj (hidx.symm.trans hidx')
    exact hcleared _ he (by simp)
  | remove hidx' _ _ he =>
    obtain rfl := Option.some.inj (hidx.symm.trans hidx')
    exact hcleared _ he (by cases d <;> simp)

theorem key (h : Change l l' o) {fd : Fd} (hne : o.fd ≠ fd) {p : Addr}
    (hkey : (l'.eventInfos.storage p).map Prod.fst = some fd) :
    (l.eventInfos.storage p).map Prod.fst = some fd := by
  have hmodify : ∀ a f, l'.eventInfos = l.eventInfos.modifyAt a f →
      (l.eventInfos.storage p).map Prod.fst = some fd := by
    intro a f hi
    rw [hi, NodeMap.storage_modifyAt, Function.update_apply] at hkey
    split at hkey
    · next hp =>
      rw [hp, ← hkey]
      cases l.eventInfos.storage a <;> rfl
    · exact hkey
  cases h with
  | refused hi _ => rwa [hi] at hkey
  | missing _ hi _ => rwa [hi] at hkey
  | emplace _ _ hi _ =>
    rw [hi, NodeMap.storage_emplace, Function.update_apply] at hkey
    split at hkey
    · exact absurd (Option.some.inj hkey) hne
    · exact hkey
  | replace _ hi _ => exact hmodify _ _ hi
  | keep _ hi _ => exact hmodify _ _ hi
  | remove _ _ hi _ => rwa [hi, NodeMap.storage_erase] at hkey

theorem index (h : Change l l' o) {fd : Fd} (hne : o.fd ≠ fd) :
    l'.eventInfos.index fd = l.eventInfos.index fd := by
  cases h with
  | refused hi _ => rw [hi]
  | missing _ hi _ => rw [hi]
  | emplace _ _ hi _ =>
    rw [hi, NodeMap.index_emplace]
    exact Function.update_of_ne hne.symm _ _
  | replace _ hi _ => rw [hi, NodeMap.index_modifyAt]
  | keep _ hi _ => rw [hi, NodeMap.index_modifyAt]
  | remove _ _ hi _ =>
    rw [hi, NodeMap.index_erase]
    exact Function.update_of_ne hne.symm _ _

end EventLoop.Change

/-! ### Agreement with the kernel, also where `epoll_ctl` fails -/

namespace EventLoop

variable {H : Type}

/-- A registration that points to a node points to the one of its descriptor, and a direction in its mask
has a handler. -/
def Agrees (l : EventLoop Kernel H) : Prop :=
  ∀ fd ev a, l.kernel.interest fd = some ev → ev.ptr = some a →
    l.eventInfos.index fd = some a ∧ ∀ d, signals ev.events d = true → (l.handlerOf fd d).isSome = true

theorem agrees_new (stopFd : Fd) (events : List EpollEvent) :
    Agrees (EventLoop.new stopFd events : EventLoop Kernel H) := by
  intro fd ev a hint hptr
  simp only [EventLoop.new, Option.ite_none_right_eq_some, Option.some.injEq] at hint
  obtain ⟨_, rfl⟩ := hint
  simp at hptr

theorem apply_kernel {l : EventLoop Kernel H} {o : Op H} {r : OpResult Kernel H} (hr : l.apply o = some r) :
    r.loop.kernel = l.kernel ∨ ∃ grant op, Kernel.ctl grant l.kernel op o.fd = some r.loop.kernel := by
  rcases o with ⟨d, fd, eh, a, grant⟩ | ⟨d, fd⟩
  · simp only [apply, Option.dite_none_right_eq_some, Option.some.injEq] at hr
    obtain ⟨ha, rfl⟩ := hr
    exact (addHandler_kernel (Kernel.ctl grant) d l ⟨a, ha⟩ fd eh).imp id fun ⟨op, _, h⟩ => ⟨grant, op, h⟩
  · obtain rfl := Option.some.inj hr
    exact (eraseHandler_kernel (Kernel.ctl true) d l fd).imp id fun ⟨op, _, _, h⟩ => ⟨true, op, h⟩

theorem apply_interest {l : EventLoop Kernel H} {o : Op H} {r : OpResult Kernel H} (hr : l.apply o = some r)
    {fd : Fd} (hne : o.fd ≠ fd) : r.loop.kernel.interest fd = l.kernel.interest fd := by
  rcases apply_kernel hr with hk | ⟨grant, op, hctl⟩
  · rw [hk]
  · exact (Kernel.ctl_of_ne hctl hne.symm).1

theorem apply_edges_of_ne {l : EventLoop Kernel H} {o : Op H} {r : OpResult Kernel H} (hr : l.apply o = some r)
    {fd : Fd} (hne : o.fd ≠ fd) : r.loop.kernel.edges fd = l.kernel.edges fd := by
  rcases apply_kernel hr with hk | ⟨grant, op, hctl⟩
  · rw [hk]
  · exact (Kernel.ctl_of_ne hctl hne.symm).2

theorem control_ptr {grant : Bool} {l : EventLoop Kernel H} {op : CtlOp} {fd fd' : Fd} {ev : EpollEvent}
    (hint : (control (Kernel.ctl grant) l op fd').loop.kernel.interest fd = some ev)
    (hop : ∀ ev', op = .add ev' ∨ op = .mod ev' → ev'.ptr ≠ none) :
    l.kernel.interest fd = some ev ∨ ev.ptr ≠ none := by
  rcases control_eq (Kernel.ctl grant) l op fd' with ⟨_, hc⟩ | ⟨k, hctl, hc⟩
  · rw [hc] at hint
    exact Or.inl hint
  · rw [hc] at hint
    change k.interest fd = some ev at hint
    by_cases hfd : fd = fd'
    · subst hfd
      rcases op with ev' | ev' | _
      · rw [(Kernel.ctl_add hctl).2.1, Function.update_self, Option.some.injEq] at hint
        exact Or.inr (hint ▸ hop ev' (Or.inl rfl))
      · rw [(Kernel.ctl_mod hctl).2.1, Function.update_self, Option.some.injEq] at hint
        exact Or.inr (hint ▸ hop ev' (Or.inr rfl))
      · rw [(Kernel.ctl_del hctl).2.1, Function.update_self] at hint
        simp at hint
    · rw [(Kernel.ctl_of_ne hctl hfd).1] at hint
      exact Or.inl hint

theorem apply_ptr {l : EventLoop Kernel H} {o : Op H} {r : OpResult Kernel H} (hr : l.apply o = some r) {fd : Fd}
    {ev : EpollEvent} (hint : r.loop.kernel.interest fd = some ev) :
    l.kernel.interest fd = some ev ∨ ev.ptr ≠ none := by
  rcases o with ⟨d, fd', eh, a, grant⟩ | ⟨d, fd'⟩
  · simp only [apply, Option.dite_none_right_eq_some, Option.some.injEq] at hr
    obtain ⟨ha, rfl⟩ := hr
    rcases l.addHandler_cases (Kernel.ctl grant) d ⟨a, ha⟩ fd' eh with
      ⟨_, hr⟩ | ⟨h', _, _, _, hr⟩ | ⟨h', a', _, _, _, hr⟩ <;> rw [hr] at hint
    · exact Or.inl hint
    · have hptr := control_ptr hint (by simp)
      exact hptr
    · have hptr := control_ptr hint (by simp)
      exact hptr
  · obtain rfl := Option.some.inj hr
    rcases l.eraseHandler_cases (Kernel.ctl true) d fd' with
      ⟨_, hr⟩ | ⟨a, _, _, _, _, _, hr⟩ | ⟨a, _, _, _, _, hr⟩ <;> rw [hr] at hint
    · exact Or.inl hint
    · have hptr := control_ptr hint (by simp)
      exact hptr
    · have hptr := control_ptr hint (by simp)
      exact hptr

/-- An add for a descriptor that is not registered with the kernel succeeds for a new entry only: where one is left
behind by a descriptor of the same number, `EPOLL_CTL_MOD` fails. -/
theorem apply_new {l : EventLoop Kernel H} {d : Dir} {fd : Fd} {h : H} {a : Addr} {grant : Bool}
    {r : OpResult Kernel H} (hr : l.apply (.add d fd (some h) a grant) = some r)
    (hnew : l.kernel.interest fd = none) (hret : r.ret = 0) :
    r.loop.eventInfos.index fd = some a ∧ r.loop.handlerOf fd d = some h ∧
      r.loop.kernel.interest fd = some ⟨d.bit ||| EPOLLET, some a⟩ := by
  simp only [apply, Option.dite_none_right_eq_some, Option.some.injEq] at hr
  obtain ⟨ha, rfl⟩ := hr
  rcases l.addHandler_cases (Kernel.ctl grant) d ⟨a, ha⟩ fd (some h) with
    ⟨_, hr⟩ | ⟨h', he, _, _, hr⟩ | ⟨h', a', _, _, _, hr⟩
  · rw [hr] at hret
    simp at hret
  · obtain rfl := Option.some.inj he
    rw [hr] at hret ⊢
    refine ⟨by simp, by simp [handlerOf], ?_⟩
    rw [(Kernel.ctl_add (control_of_ret hret)).2.1, Function.update_self]
  · rw [hr] at hret
    obtain ⟨ev, hev⟩ := (Kernel.ctl_mod (control_of_ret hret)).1
    rw [show _ = none from hnew] at hev
    simp at hev

theorem apply_edges {l : EventLoop Kernel H} {o : Op H} {r : OpResult Kernel H} (hr : l.apply o = some r)
    {fd : Fd} (h : l.kernel.edges fd = 0) : r.loop.kernel.edges fd = 0 := by
  rcases apply_kernel hr with hk | ⟨grant, op, hctl⟩
  · rw [hk, h]
  · rcases op with ev | ev | _
    · rw [(Kernel.ctl_add hctl).2.2, h]
    · rw [(Kernel.ctl_mod hctl).2.2, h]
    · rw [(Kernel.ctl_del hctl).2.2, Function.update_apply, h, ite_self]

/-- A registration made by an operation agrees with the entry that the operation leaves. -/
theorem agrees_of_mask {l : EventLoop Kernel H} {fd : Fd} {hs : EventsHandlers H} {a : Addr} {ev : EpollEvent}
    (hidx : l.eventInfos.index fd = some a) (hget : l.eventInfos.get? fd = some hs) (hev : ⟨maskOf hs, some a⟩ = ev)
    {b : Addr} (hptr : ev.ptr = some b) :
    l.eventInfos.index fd = some b ∧ ∀ d, signals ev.events d = true → (l.handlerOf fd d).isSome = true := by
  subst hev
  obtain rfl := Option.some.inj hptr
  refine ⟨hidx, fun d hd => ?_⟩
  rw [handlerOf, hget, Option.bind_some]
  rwa [signals_maskOf] at hd

/-- With a registration behind it, an operation other than `EPOLL_CTL_ADD` has succeeded. -/
theorem control_succeeds {grant : Bool} {l : EventLoop Kernel H} {op : CtlOp} {fd : Fd} {ev : EpollEvent}
    (hop : ∀ ev', op ≠ .add ev') (hint : (control (Kernel.ctl grant) l op fd).loop.kernel.interest fd = some ev) :
    ∃ k, Kernel.ctl grant l.kernel op fd = some k ∧
      control (Kernel.ctl grant) l op fd = ⟨0, { l with kernel := k }, some (op, true)⟩ := by
  rcases control_eq (Kernel.ctl grant) l op fd with ⟨hno, hc⟩ | hsome
  · have hnone : l.kernel.interest fd = none := Kernel.ctl_eq_none hno hop
    rw [hc] at hint
    rw [hnone] at hint
    contradiction
  · exact hsome

theorem control_mod_agrees {grant : Bool} {l l' : EventLoop Kernel H} {fd : Fd} {a : Addr}
    {events : BitVec 32} (f : EventsHandlers H → EventsHandlers H) (hidx : l.eventInfos.index fd = some a)
    (hl' : l' = { l with eventInfos := l.eventInfos.modifyAt a f }) (hmask : events = maskOf (f (l.handlersAt a)))
    {ev : EpollEvent} {b : Addr}
    (hint : (control (Kernel.ctl grant) l' (.mod ⟨events, some a⟩) fd).loop.kernel.interest fd = some ev)
    (hptr : ev.ptr = some b) :
    (control (Kernel.ctl grant) l' (.mod ⟨events, some a⟩) fd).loop.eventInfos.index fd = some b ∧
      ∀ d, signals ev.events d = true →
        ((control (Kernel.ctl grant) l' (.mod ⟨events, some a⟩) fd).loop.handlerOf fd d).isSome = true := by
  obtain ⟨k, hk, hc⟩ := control_succeeds (by simp) hint
  obtain ⟨_, hnew, _⟩ := Kernel.ctl_mod hk
  rw [hc] at hint ⊢
  subst hl'
  simp only [hnew, Function.update_self, Option.some.injEq, hmask] at hint
  have hget : (l.eventInfos.modifyAt a f).get? fd = some (f (l.handlersAt a)) := by
    rw [NodeMap.get?_modifyAt _ hidx, Function.update_self, l.handlersAt_of_index hidx, Option.map_some]
  exact agrees_of_mask (l := { l with kernel := k, eventInfos := l.eventInfos.modifyAt a f }) hidx hget hint hptr

theorem addHandler_agrees {l : EventLoop Kernel H} (h : Agrees l) {grant : Bool} {d : Dir} {fresh : l.Free} {fd : Fd}
    {eh : Option H} {ev : EpollEvent} {b : Addr}
    (hint : (addHandler (Kernel.ctl grant) d l fresh fd eh).loop.kernel.interest fd = some ev) (hptr : ev.ptr = some b) :
    (addHandler (Kernel.ctl grant) d l fresh fd eh).loop.eventInfos.index fd = some b ∧
      ∀ d', signals ev.events d' = true →
        ((addHandler (Kernel.ctl grant) d l fresh fd eh).loop.handlerOf fd d').isSome = true := by
  rcases l.addHandler_cases (Kernel.ctl grant) d fresh fd eh with
    ⟨_, hr⟩ | ⟨h', rfl, _, hidx, hr⟩ | ⟨h', a', rfl, _, hidx, hr⟩
  · rw [hr] at hint ⊢
    exact h fd ev b hint hptr
  · rw [hr] at hint ⊢
    rcases control_eq (Kernel.ctl grant) _ _ fd with ⟨_, hc⟩ | ⟨k, hk, hc⟩
    · rw [hc] at hint
      rw [(h fd ev b hint hptr).1] at hidx
      simp at hidx
    · rw [hc] at hint ⊢
      obtain ⟨_, hnew, _⟩ := Kernel.ctl_add hk
      simp only [hnew, Function.update_self, Option.some.injEq] at hint
      have hmask := mask_add (EventsHandlers.empty : EventsHandlers H) d h'
      simp only [EventsHandlers.handler_empty, Option.isSome_none, Bool.false_eq_true, if_false] at hmask
      rw [hmask] at hint
      exact agrees_of_mask (by simp) (by simp) hint hptr
  · rw [hr] at hint ⊢
    exact control_mod_agrees (·.set d (some h')) hidx rfl (mask_add _ d h') hint hptr

theorem eraseHandler_agrees {l : EventLoop Kernel H} (h : Agrees l) {d : Dir} {fd : Fd} {ev : EpollEvent} {b : Addr}
    (hint : (eraseHandler (Kernel.ctl true) d l fd).loop.kernel.interest fd = some ev) (hptr : ev.ptr = some b) :
    (eraseHandler (Kernel.ctl true) d l fd).loop.eventInfos.index fd = some b ∧
      ∀ d', signals ev.events d' = true →
        ((eraseHandler (Kernel.ctl true) d l fd).loop.handlerOf fd d').isSome = true := by
  rcases l.eraseHandler_cases (Kernel.ctl true) d fd with
    ⟨_, hr⟩ | ⟨a, _, h', hidx, _, hother, hr⟩ | ⟨a, _, hidx, _, _, hr⟩
  · rw [hr] at hint ⊢
    exact h fd ev b hint hptr
  · rw [hr] at hint ⊢
    exact control_mod_agrees (·.set d none) hidx rfl (mask_erase hother) hint hptr
  · -- nothing is left
    rw [hr] at hint
    obtain ⟨k, hk, hc⟩ := control_succeeds (by simp) hint
    obtain ⟨_, hnew, _⟩ := Kernel.ctl_del hk
    simp [clearEvents, hc, hnew] at hint

theorem apply_agrees {l : EventLoop Kernel H} (h : Agrees l) {o : Op H} {r : OpResult Kernel H}
    (hr : l.apply o = some r) : Agrees r.loop := by
  intro fd ev b hint hptr
  by_cases hfd : o.fd = fd
  · subst hfd
    rcases o with ⟨d, fd, eh, a, grant⟩ | ⟨d, fd⟩
    · simp only [apply, Option.dite_none_right_eq_some, Option.some.injEq] at hr
      obtain ⟨ha, rfl⟩ := hr
      exact addHandler_agrees h hint hptr
    · obtain rfl := Option.some.inj hr
      exact eraseHandler_agrees h hint hptr
  · rw [apply_interest hr hfd] at hint
    obtain ⟨hidx, hreg⟩ := h fd ev b hint hptr
    have hchange := (apply_change hr).1
    rw [hchange.index hfd]
    refine ⟨hidx, fun d hd => ?_⟩
    rw [hchange.handlerOf (Or.inl hfd)]
    exact hreg d hd

end EventLoop

end Libhbk
