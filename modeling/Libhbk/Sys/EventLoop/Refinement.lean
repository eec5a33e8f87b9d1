import Libhbk.Base.Machine
import Libhbk.Sys.EventLoop.Registry

/-!
# The registry refines a map of handlers

What the registry is for: a map from descriptors to handlers (`Registered`), with at least one handler
for each descriptor in it. `Refines` relates it to the event loop and to the interest set of the
kernel, and every operation whose `epoll_ctl` call succeeds keeps the relation (`apply_refines`). The
relation fixes masks and pointers, so a mask bit follows the handler of its direction and nothing else.
-/

namespace Libhbk

variable {H : Type}

/-- The handlers of a descriptor that has one. -/
structure Registered (H : Type) where
  handlers : EventsHandlers H
  present : ∃ d, (handlers.handler d).isSome = true

namespace Registered

/-- The pair as an entry, if there is a handler in it. -/
def ofHandlers (hs : EventsHandlers H) : Option (Registered H) :=
  if h : (hs.handler .inp).isSome = true then some ⟨hs, .inp, h⟩
  else if h : (hs.handler .out).isSome = true then some ⟨hs, .out, h⟩
  else none

theorem ofHandlers_eq (e : Registered H) : ofHandlers e.handlers = some e := by
  obtain ⟨hs, d, h⟩ := e
  unfold ofHandlers
  cases d
  · simp [h]
  · by_cases hin : (hs.handler .inp).isSome = true <;> simp [hin, h]

theorem map_ofHandlers {hs : EventsHandlers H} {d : Dir} (h : (hs.handler d).isSome = true) :
    (ofHandlers hs).map Registered.handlers = some hs := by
  rw [ofHandlers_eq ⟨hs, d, h⟩]
  rfl

theorem ofHandlers_none {hs : EventsHandlers H} (h : ∀ d, hs.handler d = none) : ofHandlers hs = none := by
  simp [ofHandlers, h]

theorem handler_ofHandlers (hs : EventsHandlers H) (d : Dir) :
    ((ofHandlers hs).bind fun e => e.handlers.handler d) = hs.handler d := by
  by_cases h : ∃ d', (hs.handler d').isSome = true
  · rw [ofHandlers_eq ⟨hs, h⟩]
    rfl
  · have hnone : ∀ d', hs.handler d' = none := by simpa using h
    rw [ofHandlers_none hnone, hnone]
    rfl

end Registered

abbrev HandlerMap (H : Type) := Fd → Option (Registered H)

namespace HandlerMap

/-- The handler of one direction of a descriptor. -/
def handler (m : HandlerMap H) (fd : Fd) (d : Dir) : Option H := (m fd).bind fun e => e.handlers.handler d

/-- Set or clear one handler. -/
def set (m : HandlerMap H) (fd : Fd) (d : Dir) (h : Option H) : HandlerMap H :=
  Function.update m fd (Registered.ofHandlers (((m fd).elim .empty Registered.handlers).set d h))

def step (m : HandlerMap H) : Op H → HandlerMap H
  | .add d fd eh _ _ => if eh = none ∨ fd = -1 then m else m.set fd d eh
  | .erase d fd => if (m.handler fd d).isSome then m.set fd d none else m

/-- The map after the operations of a trace. -/
def after {S : Type} (tr : List (S × Op H)) : HandlerMap H := tr.foldr (fun x m => m.step x.2) fun _ => none

theorem handler_set (m : HandlerMap H) (fd fd' : Fd) (d d' : Dir) (h : Option H) :
    (m.set fd d h).handler fd' d' = if fd' = fd ∧ d' = d then h else m.handler fd' d' := by
  by_cases hfd : fd' = fd
  · subst hfd
    rw [handler, set, Function.update_self, Registered.handler_ofHandlers, EventsHandlers.handler_set, handler]
    rcases m fd' with _ | e <;> simp
  · rw [handler, set, Function.update_of_ne hfd, if_neg fun h => hfd h.1, handler]

theorem handler_step_other (m : HandlerMap H) (o : Op H) (fd : Fd) :
    (m.step o).handler fd o.dir.other = m.handler fd o.dir.other := by
  have hset : ∀ fd' h, (m.set fd' o.dir h).handler fd o.dir.other = m.handler fd o.dir.other := by
    intro fd' h
    rw [handler_set, if_neg fun h => o.dir.other_ne h.2]
  rcases o with ⟨d, fd', eh, a, grant⟩ | ⟨d, fd'⟩
  · rw [step]
    split
    · rfl
    · exact hset fd' eh
  · rw [step]
    split
    · exact hset fd' none
    · rfl

end HandlerMap

/-- The event loop and the kernel agree with a map of handlers. `stopFd` is the loop's own event. -/
structure Refines (stopFd : Fd) (l : EventLoop Kernel H) (m : HandlerMap H) : Prop where
  eventInfos : ∀ fd, l.eventInfos.get? fd = (m fd).map Registered.handlers
  kernel : ∀ fd, fd ≠ stopFd →
    l.kernel.interest fd = (m fd).map fun e => ⟨maskOf e.handlers, l.eventInfos.index fd⟩
  unused : m stopFd = none
  stop : l.kernel.interest stopFd = some ⟨EPOLLIN ||| EPOLLET, none⟩

theorem Refines.new (stopFd : Fd) (events : List EpollEvent) :
    Refines stopFd (EventLoop.new stopFd events : EventLoop Kernel H) fun _ => none := by
  refine ⟨fun fd => rfl, fun fd hfd => ?_, rfl, ?_⟩
  · simp [EventLoop.new, hfd]
  · simp [EventLoop.new]

theorem Refines.update {stopFd fd : Fd} {l l' : EventLoop Kernel H} {m : HandlerMap H}
    (h : Refines stopFd l m) (hfd : fd ≠ stopFd) (e : Option (Registered H))
    (hget : l'.eventInfos.get? = Function.update l.eventInfos.get? fd (e.map Registered.handlers))
    (hindex : ∀ fd', fd' ≠ fd → l'.eventInfos.index fd' = l.eventInfos.index fd')
    (hinterest : l'.kernel.interest = Function.update l.kernel.interest fd
      (e.map fun e => ⟨maskOf e.handlers, l'.eventInfos.index fd⟩)) :
    Refines stopFd l' (Function.update m fd e) := by
  refine ⟨fun fd' => ?_, fun fd' hfd' => ?_, ?_, ?_⟩
  · rw [hget]
    by_cases e' : fd' = fd
    · subst e'
      simp
    · rw [Function.update_of_ne e', Function.update_of_ne e', h.eventInfos]
  · rw [hinterest]
    by_cases e' : fd' = fd
    · subst e'
      simp
    · rw [Function.update_of_ne e', Function.update_of_ne e', h.kernel fd' hfd', hindex fd' e']
  · rw [Function.update_of_ne hfd.symm, h.unused]
  · rw [hinterest, Function.update_of_ne hfd.symm, h.stop]

/-! ### Each operation refines its step of the map -/

section Step

variable {stopFd : Fd} {l : EventLoop Kernel H} {m : HandlerMap H}

/-- The `epoll_ctl` call of the operation, if there is one, succeeds. -/
def CtlSucceeds (r : OpResult Kernel H) : Prop := r.ctl.all Prod.snd = true

instance (r : OpResult Kernel H) : Decidable (CtlSucceeds r) := inferInstanceAs (Decidable (_ = _))

theorem Refines.handler (h : Refines stopFd l m) (fd : Fd) (d : Dir) : m.handler fd d = l.handlerOf fd d := by
  rw [EventLoop.handlerOf, h.eventInfos, HandlerMap.handler]
  cases m fd <;> rfl

theorem Refines.of_index (h : Refines stopFd l m) {fd : Fd} {a : Addr}
    (ha : l.eventInfos.index fd = some a) : ∃ e, m fd = some e ∧ e.handlers = l.handlersAt a := by
  have hget := h.eventInfos fd
  rw [l.handlersAt_of_index ha] at hget
  obtain ⟨e, he, heq⟩ := Option.map_eq_some_iff.mp hget.symm
  exact ⟨e, he, heq⟩

theorem Refines.ne_stopFd (h : Refines stopFd l m) {fd : Fd} {a : Addr}
    (ha : l.eventInfos.index fd = some a) : fd ≠ stopFd := by
  rintro rfl
  obtain ⟨e, he, _⟩ := h.of_index ha
  rw [h.unused] at he
  simp at he

theorem addHandler_refines (h : Refines stopFd l m) (grant : Bool) (d : Dir) (fresh : l.Free) (fd : Fd)
    (eh : Option H) (hok : CtlSucceeds (l.addHandler (Kernel.ctl grant) d fresh fd eh)) :
    Refines stopFd (l.addHandler (Kernel.ctl grant) d fresh fd eh).loop
      (m.step (.add d fd eh fresh.1 grant)) := by
  rcases l.addHandler_cases (Kernel.ctl grant) d fresh fd eh with
    ⟨hno, hr⟩ | ⟨h', rfl, hfd, hidx, hr⟩ | ⟨h', a, rfl, hfd, hidx, hr⟩
  · rw [hr, HandlerMap.step, if_pos hno]
    exact h
  · rw [hr] at hok ⊢
    have hstep : m.step (.add d fd (some h') fresh.1 grant) = m.set fd d (some h') := if_neg (by simp [hfd])
    rw [hstep]
    have hm : m fd = none := by
      have hget := h.eventInfos fd
      rw [(l.eventInfos.get?_eq_none fd).mpr hidx] at hget
      exact Option.map_eq_none_iff.mp hget.symm
    rcases EventLoop.control_eq (Kernel.ctl grant) _ _ fd with ⟨_, hc⟩ | ⟨k, hk, hc⟩
    · rw [hc] at hok
      exact absurd hok Bool.false_ne_true
    rw [hc]
    obtain ⟨hfree, hint, _⟩ := Kernel.ctl_add hk
    have hstop : fd ≠ stopFd := by
      rintro rfl
      rw [h.stop] at hfree
      simp at hfree
    have hof := Registered.ofHandlers_eq (H := H)
      ⟨(EventsHandlers.empty : EventsHandlers H).set d (some h'), d, by simp⟩
    rw [HandlerMap.set, hm]
    refine h.update hstop _ ?_ (fun fd' hne => ?_) ?_
    · rw [NodeMap.get?_emplace]
      exact congrArg _ (Registered.map_ofHandlers (d := d) (by simp)).symm
    · simp [Function.update_of_ne hne]
    · have hmask := mask_add (EventsHandlers.empty : EventsHandlers H) d h'
      simp only [EventsHandlers.handler_empty, Option.isSome_none, Bool.false_eq_true, if_false] at hmask
      show k.interest = _
      rw [hint, hmask]
      show _ = Function.update l.kernel.interest fd ((Registered.ofHandlers (H := H) _).map _)
      rw [Option.elim_none, hof]
      simp only [Option.map_some, NodeMap.index_emplace, Function.update_self]
  · rw [hr] at hok ⊢
    have hstep : m.step (.add d fd (some h') fresh.1 grant) = m.set fd d (some h') := if_neg (by simp [hfd])
    rw [hstep]
    obtain ⟨e, hm, he⟩ := h.of_index hidx
    rcases EventLoop.control_eq (Kernel.ctl grant) _ _ fd with ⟨_, hc⟩ | ⟨k, hk, hc⟩
    · rw [hc] at hok
      exact absurd hok Bool.false_ne_true
    rw [hc]
    obtain ⟨_, hint, _⟩ := Kernel.ctl_mod hk
    have hof := Registered.ofHandlers_eq (H := H) ⟨e.handlers.set d (some h'), d, by simp⟩
    rw [HandlerMap.set, hm]
    refine h.update (h.ne_stopFd hidx) _ ?_ (fun fd' hne => rfl) ?_
    · rw [NodeMap.get?_modifyAt _ hidx, l.handlersAt_of_index hidx, ← he]
      exact congrArg _ (Registered.map_ofHandlers (d := d) (by simp)).symm
    · show k.interest = _
      rw [hint, mask_add _ d h', ← he]
      show _ = Function.update l.kernel.interest fd ((Registered.ofHandlers (H := H) _).map _)
      rw [Option.elim_some, hof]
      simp only [Option.map_some, NodeMap.index_modifyAt, hidx]

theorem eraseHandler_refines (h : Refines stopFd l m) (d : Dir) (fd : Fd)
    (hok : CtlSucceeds (l.eraseHandler (Kernel.ctl true) d fd)) :
    Refines stopFd (l.eraseHandler (Kernel.ctl true) d fd).loop (m.step (.erase d fd)) ∧
      (l.eraseHandler (Kernel.ctl true) d fd).ret = if (m.handler fd d).isSome then 0 else -1 := by
  rcases l.eraseHandler_cases (Kernel.ctl true) d fd with
    ⟨hno, hr⟩ | ⟨a, hd, ho, hidx, hhd, hho, hr⟩ | ⟨a, hd, hidx, hhd, hho, hr⟩
  · have hm : m.handler fd d = none := by rw [h.handler, hno]
    rw [hr, HandlerMap.step, hm]
    exact ⟨h, rfl⟩
  · obtain ⟨e, hm, he⟩ := h.of_index hidx
    have hmd : m.handler fd d = some hd := by rw [HandlerMap.handler, hm, Option.bind_some, he, hhd]
    have hstep : m.step (.erase d fd) = m.set fd d none := if_pos (by rw [hmd]; rfl)
    rw [hstep, hmd]
    have hof := Registered.ofHandlers_eq (H := H)
      ⟨e.handlers.set d none, d.other, by simp [Dir.other_ne, he, hho]⟩
    rcases EventLoop.control_eq (Kernel.ctl true)
      { l with eventInfos := l.eventInfos.modifyAt a (·.set d none) } (.mod ⟨d.other.bit ||| EPOLLET, some a⟩) fd
      with ⟨_, hc⟩ | ⟨k, hk, hc⟩
    · rw [hr, hc] at hok
      exact absurd hok Bool.false_ne_true
    rw [hr, hc]
    refine ⟨?_, rfl⟩
    obtain ⟨_, hint, _⟩ := Kernel.ctl_mod hk
    rw [HandlerMap.set, hm, Option.elim_some, hof]
    refine h.update (h.ne_stopFd hidx) _ ?_ (fun fd' hne => rfl) ?_
    · show (l.eventInfos.modifyAt a (·.set d none)).get? =
        Function.update l.eventInfos.get? fd (some (e.handlers.set d none))
      rw [NodeMap.get?_modifyAt _ hidx, l.handlersAt_of_index hidx, he]
      rfl
    · show k.interest = Function.update l.kernel.interest fd
        (some ⟨maskOf (e.handlers.set d none), l.eventInfos.index fd⟩)
      rw [hint, mask_erase hho, hidx, he]
  · obtain ⟨e, hm, he⟩ := h.of_index hidx
    have hmd : m.handler fd d = some hd := by rw [HandlerMap.handler, hm, Option.bind_some, he, hhd]
    have hstep : m.step (.erase d fd) = m.set fd d none := if_pos (by rw [hmd]; rfl)
    rw [hstep, hmd]
    have hof : Registered.ofHandlers (e.handlers.set d none) = none := by
      refine Registered.ofHandlers_none fun d' => ?_
      rcases d.eq_or_eq_other d' with rfl | rfl
      · simp
      · simp [Dir.other_ne, he, hho]
    rcases EventLoop.control_eq (Kernel.ctl true) l .del fd with ⟨_, hc⟩ | ⟨k, hk, hc⟩
    · rw [hr, hc] at hok
      exact absurd hok Bool.false_ne_true
    rw [hr, hc]
    refine ⟨?_, rfl⟩
    obtain ⟨_, hint, _⟩ := Kernel.ctl_del hk
    rw [HandlerMap.set, hm, Option.elim_some, hof]
    refine h.update (h.ne_stopFd hidx) none ?_ (fun fd' hne => ?_) hint
    · exact NodeMap.get?_erase _ _
    · exact Function.update_of_ne hne _ _

theorem apply_refines (h : Refines stopFd l m) {o : Op H} {r : OpResult Kernel H} (hr : l.apply o = some r)
    (hok : CtlSucceeds r) : Refines stopFd r.loop (m.step o) := by
  rcases o with ⟨d, fd, eh, a, grant⟩ | ⟨d, fd⟩
  · simp only [EventLoop.apply, Option.dite_none_right_eq_some, Option.some.injEq] at hr
    obtain ⟨ha, rfl⟩ := hr
    exact addHandler_refines h grant d ⟨a, ha⟩ fd eh hok
  · obtain rfl := Option.some.inj hr
    exact (eraseHandler_refines h d fd hok).1

theorem Refines.signals (h : Refines stopFd l m) {fd : Fd} (hfd : fd ≠ stopFd) (d : Dir) :
    (l.kernel.interest fd).any (fun ev => Libhbk.signals ev.events d) = (m.handler fd d).isSome := by
  rw [h.kernel fd hfd, HandlerMap.handler]
  rcases m fd with _ | e
  · rfl
  · exact signals_maskOf e.handlers d

end Step

/-! ### Runs -/

/-- The machine of the registry operations. -/
def registry : Machine (EventLoop Kernel H) (Op H) := fun l o => (l.apply o).map (·.loop)

theorem registry_refines {stopFd : Fd} {events : List EpollEvent} {tr : List (EventLoop Kernel H × Op H)}
    {l : EventLoop Kernel H} (hrun : registry.Run (.new stopFd events) tr l)
    (hok : ∀ x ∈ tr, ∀ r ∈ x.1.apply x.2, CtlSucceeds r) :
    Refines stopFd l (HandlerMap.after tr) := by
  induction hrun with
  | nil => exact Refines.new stopFd events
  | @snoc tr l o l' _ hstep ih =>
    obtain ⟨r, hr, rfl⟩ := Option.map_eq_some_iff.mp hstep
    exact apply_refines (ih fun x hx => hok x (List.mem_cons_of_mem _ hx)) hr (hok _ List.mem_cons_self r hr)

/-- The registry and the interest set of the kernel follow the map of handlers over every sequence of
operations; an erase tells whether there was a handler, and no operation touches the handlers or the mask
bits of the other direction. -/
theorem registry_agrees_with_kernel (stopFd : Fd) (events : List EpollEvent)
    (tr : List (EventLoop Kernel H × Op H)) (l : EventLoop Kernel H)
    (hrun : registry.Run (.new stopFd events) tr l)
    (hok : ∀ x ∈ tr, ∀ r ∈ x.1.apply x.2, CtlSucceeds r) :
    Refines stopFd l (HandlerMap.after tr) ∧
    ∀ o r, l.apply o = some r → CtlSucceeds r →
      Refines stopFd r.loop ((HandlerMap.after tr).step o) ∧
      (∀ d fd, o = .erase d fd → r.ret = if ((HandlerMap.after tr).handler fd d).isSome then 0 else -1) ∧
      ∀ fd,
        r.loop.handlerOf fd o.dir.other = l.handlerOf fd o.dir.other ∧
        (r.loop.kernel.interest fd).any (fun ev => signals ev.events o.dir.other) =
          (l.kernel.interest fd).any fun ev => signals ev.events o.dir.other := by
  have h := registry_refines hrun hok
  refine ⟨h, fun o r hr hsucc => ?_⟩
  have h' := apply_refines h hr hsucc
  refine ⟨h', ?_, fun fd => ⟨?_, ?_⟩⟩
  · rintro d fd rfl
    obtain rfl := Option.some.inj hr
    exact (eraseHandler_refines h d fd hsucc).2
  · rw [← h'.handler, ← h.handler, HandlerMap.handler_step_other]
  · by_cases hfd : fd = stopFd
    · rw [hfd, h'.stop, h.stop]
    · rw [h'.signals hfd, h.signals hfd, HandlerMap.handler_step_other]

/-- Both directions of a descriptor, then the input direction alone is erased. -/
theorem registry_agrees_with_kernel_erase_one :
    ∃ (tr : List (EventLoop Kernel Nat × Op Nat)) (l : EventLoop Kernel Nat),
      tr.map Prod.snd = [.erase .inp 5, .add .out 5 (some 2) 1 true, .add .inp 5 (some 1) 0 true] ∧
        Refines 3 l (HandlerMap.after tr) ∧ (HandlerMap.after tr).handler 5 .inp = none ∧
        (HandlerMap.after tr).handler 5 .out = some 2 :=
  ⟨_, _, rfl, (registry_agrees_with_kernel 3 [] _ _ (Machine.run_of_exec _ _
    [.add .inp 5 (some 1) 0 true, .add .out 5 (some 2) 1 true, .erase .inp 5] rfl) (by decide)).1,
    by decide, by decide⟩

/-! ### A registration that fails -/

theorem EventLoop.control_failed {K : Type} {ctl : EpollCtl K} {l : EventLoop K H} {op op' : CtlOp} {fd : Fd}
    (h : (EventLoop.control ctl l op fd).ctl = some (op', false)) :
    EventLoop.control ctl l op fd = ⟨-1, l, some (op', false)⟩ := by
  rcases EventLoop.control_eq ctl l op fd with ⟨_, hc⟩ | ⟨k, _, hc⟩
  · rw [hc] at h ⊢
    simp only [Option.some.injEq, Prod.mk.injEq] at h
    rw [h.1]
  · rw [hc] at h
    simp at h

/-- The event loop is as it was before a failed add: the call returned -1, `m_eventInfos` is the same, and
for a descriptor without an entry the next add is an `EPOLL_CTL_ADD`. -/
structure Unaffected {K : Type} (l : EventLoop K H) (fd : Fd) (r : OpResult K H) : Prop where
  ret : r.ret = -1
  eventInfos : r.loop.eventInfos = l.eventInfos
  next_add : l.eventInfos.index fd = none → ∀ (ctl : EpollCtl K) d (fresh : r.loop.Free) (h : H),
    ∃ ev ok, (r.loop.addHandler ctl d fresh fd (some h)).ctl = some (.add ev, ok)

/-- An add whose `epoll_ctl` call fails has changed the map already. The map stays the same only where
the handler was registered for this direction before. -/
theorem failed_add_unaffected_iff {K : Type} (ctl : EpollCtl K) (d : Dir) (l : EventLoop K H) (fresh : l.Free)
    (fd : Fd) (eventHandler : Option H) (op : CtlOp)
    (hfail : (l.addHandler ctl d fresh fd eventHandler).ctl = some (op, false)) :
    Unaffected l fd (l.addHandler ctl d fresh fd eventHandler) ↔
      ∃ hs h, eventHandler = some h ∧ l.eventInfos.get? fd = some hs ∧ hs.handler d = some h := by
  rcases l.addHandler_cases ctl d fresh fd eventHandler with
    ⟨_, hr⟩ | ⟨h, rfl, hfd, hidx, hr⟩ | ⟨h, a, rfl, hfd, hidx, hr⟩
  · rw [hr] at hfail
    simp at hfail
  · rw [hr] at hfail ⊢
    rw [EventLoop.control_failed hfail, (l.eventInfos.get?_eq_none fd).mpr hidx]
    constructor
    · intro hu
      have hindex := congrArg (fun m => m.index fd) hu.eventInfos
      simp [hidx] at hindex
    · rintro ⟨_, _, _, hget, _⟩
      simp at hget
  · rw [hr] at hfail ⊢
    rw [EventLoop.control_failed hfail, l.handlersAt_of_index hidx]
    constructor
    · intro hu
      refine ⟨_, h, rfl, rfl, ?_⟩
      have hget := congrArg (fun m => m.get? fd) hu.eventInfos
      simp only [NodeMap.get?_modifyAt _ hidx, l.handlersAt_of_index hidx, Function.update_self, Option.map_some,
        Option.some.injEq] at hget
      rw [← hget, EventsHandlers.handler_set, if_pos rfl]
    · rintro ⟨hs, h', he, hget, hh⟩
      obtain rfl := Option.some.inj he
      obtain rfl := Option.some.inj hget
      refine ⟨rfl, ?_, fun hnone => ?_⟩
      · refine l.eventInfos.modifyAt_id a fun v hv => EventsHandlers.set_handler ?_
        rw [EventLoop.handlersAt, hv] at hh
        exact hh
      · rw [hidx] at hnone
        simp at hnone

/-- A refused `EPOLL_CTL_ADD` leaves the entry behind; the next add of the descriptor is an
`EPOLL_CTL_MOD`, which fails though the kernel would grant the registration. -/
theorem failed_add_leaves_entry :
    let l : EventLoop Kernel Nat := .new 3 []
    let r := l.addEvent (Kernel.ctl false) ⟨0, rfl⟩ 5 (some 1)
    r.ctl.map Prod.snd = some false ∧ r.ret = -1 ∧ l.eventInfos.get? 5 = none ∧
      r.loop.eventInfos.get? 5 = some ⟨some 1, none⟩ ∧
      (r.loop.addEvent (Kernel.ctl true) ⟨1, rfl⟩ 5 (some 1)).ret = -1 := by
  decide

/-- The same handler is registered again for a descriptor whose registration the kernel has dropped. -/
theorem failed_add_unaffected_again :
    let l : EventLoop Unit Nat := ((EventLoop.mk NodeMap.empty [] 0 ()).addEvent (fun k _ _ => some k) ⟨0, rfl⟩ 5
      (some 1)).loop
    Unaffected l 5 (l.addEvent (fun _ _ _ => none) ⟨1, rfl⟩ 5 (some 1)) :=
  (failed_add_unaffected_iff (fun _ _ _ => none) .inp _ ⟨1, rfl⟩ 5 (some 1) _ rfl).mpr
    ⟨⟨some 1, none⟩, 1, rfl, rfl, rfl⟩

end Libhbk
