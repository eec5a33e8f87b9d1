import Libhbk.Base.Machine
import Libhbk.Communication.NetadapterList
import Libhbk.Communication.Netlink.Bounds
import Libhbk.Communication.Netlink.Decode

/-!
# The adapter list follows the kernel

The kernel announces every change of the interfaces on the netlink socket; `Netlink::process` receives the telegrams
one after the other, and for each message `NetadapterList::update` enumerates the interfaces again before the
callback is told what has changed. The kernel goes on changing things meanwhile.

`follows` says how far behind the list can be: where nothing is pending it lacks only changes whose datagrams did not
fit into the socket, and whenever the callback is called it was enumerated after the change that is announced.
-/

namespace Libhbk

open Machine

namespace Netlink

/-- The interfaces at one moment, and what `getifaddrs` returns then. -/
structure Config where
  sys : Interfaces
  entries : List Ifaddrs

def Config.adapters (c : Config) : Adapters := Adapters.update c.sys .empty (some c.entries)

/-- What the kernel sends for a change: one datagram, which says something. -/
structure Announcement where
  msgs : List Message
  wellFormed : ∀ m ∈ msgs, m.payload.WellFormed
  fits : (encode msgs).length ≤ maxDatagramSize
  speaks : events msgs ≠ []

/-- The calls of the callback among what is done. -/
def calls (acts : List Act) : List Act :=
  acts.filter fun
    | .event .. => true
    | _ => false

/-- A configuration, and whether there was room in the socket for what announces it. -/
structure Moment where
  config : Config
  heard : Bool

/-- The kernel, with what there has been `before` the `present` and the datagrams in the socket, each with the number of
changes up to the one it announces; the program in `processNetlinkTelegram`, with the `work` that is left of the
telegram that was `announced` last; the list and the calls of the callback. -/
structure Observer where
  before : List Moment
  present : Moment
  queue : List (Nat × Announcement)
  work : List Act
  announced : Nat
  adapters : Adapters
  called : List Act

/-- The interfaces change; they change while the socket is full, which `recvmsg` only reports as an error; `process`
receives a telegram; `processNetlinkTelegram` goes on, where `getifaddrs` may fail. -/
inductive Observer.Act where
  | change (config : Config) (a : Announcement)
  | overrun (config : Config)
  | receive
  | proceed (enumerated : Bool)

namespace Observer

/-- After `start`, with a list that was made at some time before the socket. -/
def start (adapters : Adapters) (present : Config) : Observer where
  before := []
  present := ⟨present, true⟩
  queue := []
  work := []
  announced := 0
  adapters := adapters
  called := [.event .complete 0 ""]

/-- What `processNetlinkTelegram` does with a datagram. -/
def telegram (datagram : List UInt8) : List Netlink.Act :=
  (processNetlinkTelegram (memoryOf datagram) datagram.length true (datagram.length + 1)).getD []

/-- `update`, a call of the callback, or something that neither of them sees. -/
def perform (s : Observer) (enumerated : Bool) : Netlink.Act → Observer
  | .update =>
    let interfaces := if enumerated then some s.present.config.entries else none
    { s with adapters := Adapters.update s.present.config.sys s.adapters interfaces }
  | .event event adapterIndex ipv4Address => { s with called := s.called ++ [.event event adapterIndex ipv4Address] }
  | _ => s

def step : Machine Observer Act
  | s, .change config a =>
    some { s with
      before := s.before ++ [s.present]
      present := ⟨config, true⟩
      queue := s.queue ++ [(s.before.length + 1, a)] }
  | s, .overrun config => some { s with before := s.before ++ [s.present], present := ⟨config, false⟩ }
  | s, .receive =>
    match s.work, s.queue with
    | [], (announced, a) :: queue =>
      some { s with queue := queue, work := telegram (encode a.msgs), announced := announced }
    | _, _ => none
  | s, .proceed enumerated =>
    match s.work with
    | [] => none
    | act :: work => some ({ s with work := work }.perform enumerated act)

/-- All there has been, the oldest first. -/
def history (s : Observer) : List Moment := s.before ++ [s.present]

/-- Nothing is left to read or to do. -/
def Drained (s : Observer) : Prop := s.queue = [] ∧ s.work = []

/-! ### Telegrams -/

theorem effects_telegram (a : Announcement) : effects (telegram (encode a.msgs)) = events a.msgs := by
  have hfits := a.fits
  unfold maxDatagramSize at hfits
  obtain ⟨acts, hacts, heffects⟩ := messages_events
    (holds_memoryOf (encode a.msgs)) a.wellFormed (by omega) (Nat.lt_succ_self _)
  rw [telegram, processNetlinkTelegram, hacts, Option.getD_some, heffects]

theorem calls_effects (acts : List Netlink.Act) : calls (effects acts) = calls acts := by
  rw [calls, calls, effects, List.filter_filter]
  congr 1
  funext act
  cases act <;> rfl

theorem update_mem_effects {acts : List Netlink.Act} : .update ∈ effects acts ↔ .update ∈ acts := by
  rw [effects, List.mem_filter, and_iff_left rfl]

theorem events_head {msgs : List Message} (h : events msgs ≠ []) : ∃ rest, events msgs = .update :: rest := by
  rw [events] at h ⊢
  cases hmsgs : msgs.takeWhile fun m => !m.payload.ends with
  | nil => rw [hmsgs] at h; exact absurd rfl h
  | cons m rest => exact ⟨_, rfl⟩

/-! ### Steps -/

variable {s s' : Observer} {first : Adapters}

/-- What is done next, apart from reading and logging, is an update. -/
def AtUpdate (work : List Netlink.Act) : Prop := ∀ act, (effects work).head? = some act → act = .update

/-- The list is what an enumeration gave at moment `j`. -/
def Shows (s : Observer) (j : Nat) : Prop := ∃ m, s.history[j]? = some m ∧ s.adapters = m.config.adapters

/-- Nothing that has been announced has happened after moment `j`. -/
def UnheardAfter (s : Observer) (j : Nat) : Prop := ∀ k m, j < k → s.history[k]? = some m → m.heard = false

/-- The list is going to be updated, or nothing has been announced since the moment it shows; only a list from before
the socket may show none. -/
structure Inv (first : Adapters) (s : Observer) : Prop where
  current : .update ∈ s.work ∨ s.queue ≠ [] ∨ ∃ j, (s.Shows j ∨ j = 0 ∧ s.adapters = first) ∧ s.UnheardAfter j
  heard : AtUpdate s.work ∨ ∃ j, s.announced ≤ j ∧ s.Shows j
  announced : s.announced ≤ s.before.length
  queue : ∀ x ∈ s.queue, x.1 ≤ s.before.length

theorem start_inv (first : Adapters) (present : Config) : Inv first (start first present) := by
  refine ⟨Or.inr (Or.inr ⟨0, Or.inr ⟨rfl, rfl⟩, fun k m hk hm => ?_⟩), Or.inl (fun _ h => nomatch h), Nat.le_refl _,
    List.forall_mem_nil _⟩
  have hlt := (List.getElem?_eq_some_iff.mp hm).1
  change k < 1 at hlt
  omega

theorem Shows.next {j : Nat} (h : s.Shows j) (m : Moment) (queue : List (Nat × Announcement)) :
    Shows { s with before := s.before ++ [s.present], present := m, queue := queue } j := by
  obtain ⟨m', hm', hadapters⟩ := h
  refine ⟨m', ?_, hadapters⟩
  change (s.history ++ [m])[j]? = some m'
  rw [List.getElem?_append_left]
  · exact hm'
  · exact (List.getElem?_eq_some_iff.mp hm').1

theorem UnheardAfter.next {j : Nat} (h : s.UnheardAfter j) (config : Config) :
    UnheardAfter { s with before := s.before ++ [s.present], present := ⟨config, false⟩ } j := by
  intro k m hk hm
  change (s.history ++ [⟨config, false⟩])[k]? = some m at hm
  rw [List.getElem?_append] at hm
  split at hm
  · exact h k m hk hm
  · rw [List.getElem?_singleton] at hm
    split at hm
    · obtain rfl := Option.some.inj hm
      rfl
    · cases hm

theorem shows_present (s : Observer) (work : List Netlink.Act) :
    let s' := { s with work := work, adapters := s.present.config.adapters }
    s'.Shows s.before.length ∧ s'.UnheardAfter s.before.length := by
  refine ⟨⟨s.present, List.getElem?_concat_length, rfl⟩, fun k m hk hm => ?_⟩
  have hlt := (List.getElem?_eq_some_iff.mp hm).1
  change k < (s.before ++ [s.present]).length at hlt
  rw [List.length_append, List.length_singleton] at hlt
  omega

theorem proceed_cases (hstep : step s (.proceed true) = some s') :
    (∃ work, s.work = .update :: work ∧ s' = { s with work := work, adapters := s.present.config.adapters }) ∨
    (∃ event i ip work, s.work = .event event i ip :: work ∧
      s' = { s with work := work, called := s.called ++ [.event event i ip] }) ∨
    (∃ act work, s.work = act :: work ∧ effects [act] = [] ∧ s' = { s with work := work }) := by
  simp only [step] at hstep
  split at hstep
  · cases hstep
  · next act work hwork =>
    obtain rfl := Option.some.inj hstep
    cases act with
    | update => exact Or.inl ⟨work, hwork, rfl⟩
    | event event i ip => exact Or.inr (Or.inl ⟨event, i, ip, work, hwork, rfl⟩)
    | inspect => exact Or.inr (Or.inr ⟨_, work, hwork, rfl, rfl⟩)
    | wrap => exact Or.inr (Or.inr ⟨_, work, hwork, rfl, rfl⟩)
    | syslog => exact Or.inr (Or.inr ⟨_, work, hwork, rfl, rfl⟩)

theorem receive_cases (hstep : step s .receive = some s') :
    ∃ announced a queue, s.work = [] ∧ s.queue = (announced, a) :: queue ∧
      s' = { s with queue := queue, work := telegram (encode a.msgs), announced := announced } := by
  simp only [step] at hstep
  split at hstep
  · next announced a queue hwork hqueue => exact ⟨announced, a, queue, hwork, hqueue, (Option.some.inj hstep).symm⟩
  · cases hstep

theorem Inv.heard_at (h : Inv first s) {event : Event} {i : Nat} {ip : String} {work : List Netlink.Act}
    (hwork : s.work = .event event i ip :: work) : ∃ j, s.announced ≤ j ∧ s.Shows j := by
  refine h.heard.resolve_left fun hupdate => ?_
  rw [hwork] at hupdate
  exact nomatch hupdate (.event event i ip) rfl

theorem Inv.receive (h : Inv first s) (hstep : step s .receive = some s') : Inv first s' := by
  obtain ⟨announced, a, queue, _, hqueue, rfl⟩ := receive_cases hstep
  obtain ⟨rest, hevents⟩ := events_head a.speaks
  have heffects : effects (telegram (encode a.msgs)) = .update :: rest := (effects_telegram a).trans hevents
  refine ⟨Or.inl ?_, Or.inl ?_, ?_, ?_⟩
  · rw [← update_mem_effects]
    change .update ∈ effects (telegram (encode a.msgs))
    rw [heffects]
    exact List.mem_cons_self
  · intro act hact
    rw [heffects] at hact
    exact (Option.some.inj hact).symm
  · exact h.queue _ (hqueue ▸ List.mem_cons_self)
  · exact fun x hx => h.queue x (hqueue ▸ List.mem_cons_of_mem _ hx)

theorem Inv.proceed (h : Inv first s) (hstep : step s (.proceed true) = some s') : Inv first s' := by
  rcases proceed_cases hstep with ⟨work, _, rfl⟩ | ⟨event, i, ip, work, hwork, rfl⟩ | ⟨act, work, hwork, hnone, rfl⟩
  · obtain ⟨hshows, hunheard⟩ := s.shows_present work
    exact ⟨Or.inr (Or.inr ⟨_, Or.inl hshows, hunheard⟩), Or.inr ⟨_, h.announced, hshows⟩, h.announced, h.queue⟩
  · refine ⟨?_, Or.inr (h.heard_at hwork), h.announced, h.queue⟩
    refine h.current.imp (fun hmem => ?_) id
    rw [hwork, List.mem_cons] at hmem
    exact hmem.resolve_left Netlink.Act.noConfusion
  · have hsame : effects s.work = effects work := by
      rw [hwork, ← List.singleton_append, effects_append, hnone, List.nil_append]
    refine ⟨?_, ?_, h.announced, h.queue⟩
    · refine h.current.imp (fun hmem => ?_) id
      rw [← update_mem_effects, hsame] at hmem
      exact update_mem_effects.mp hmem
    · refine h.heard.imp (fun hupdate => ?_) id
      exact fun act hact => hupdate act (hsame ▸ hact)

/-- **Step rule**, as long as `getifaddrs` succeeds. -/
theorem step_inv {a : Act} (h : Inv first s) (ha : a ≠ .proceed false) (hstep : step s a = some s') : Inv first s' := by
  have hlen : (s.before ++ [s.present]).length = s.before.length + 1 := by
    rw [List.length_append, List.length_singleton]
  have hannounced : s.announced ≤ (s.before ++ [s.present]).length := by
    have := h.announced
    omega
  have hqueue : ∀ x ∈ s.queue, x.1 ≤ (s.before ++ [s.present]).length := by
    intro x hx
    have := h.queue x hx
    omega
  cases a with
  | change config a =>
    obtain rfl := Option.some.inj hstep
    refine ⟨Or.inr (Or.inl (List.concat_ne_nil _ _)), ?_, hannounced, fun x hx => ?_⟩
    · exact h.heard.imp id fun ⟨j, hj, hshows⟩ => ⟨j, hj, hshows.next _ _⟩
    · rcases List.mem_append.mp hx with hx | hx
      · exact hqueue x hx
      · rw [List.mem_singleton] at hx
        subst hx
        exact Nat.le_of_eq hlen.symm
  | overrun config =>
    obtain rfl := Option.some.inj hstep
    refine ⟨?_, ?_, hannounced, hqueue⟩
    · refine h.current.imp id (Or.imp id ?_)
      rintro ⟨j, hshows, hunheard⟩
      exact ⟨j, hshows.imp (fun hs => hs.next _ _) id, hunheard.next config⟩
    · exact h.heard.imp id fun ⟨j, hj, hshows⟩ => ⟨j, hj, hshows.next _ _⟩
  | receive => exact h.receive hstep
  | proceed enumerated =>
    cases enumerated with
    | true => exact h.proceed hstep
    | false => exact absurd rfl ha

/-! ### Runs -/

/-- The events that a change is announced by. -/
def told : Act → List Netlink.Act
  | .change _ a => calls (events a.msgs)
  | _ => []

/-- What the callback has been told and is going to be told. -/
def telling (s : Observer) : List Netlink.Act :=
  s.called ++ calls s.work ++ s.queue.flatMap fun x => calls (events x.2.msgs)

theorem step_telling {a : Act} (ha : a ≠ .proceed false) (hstep : step s a = some s') :
    s'.telling = s.telling ++ told a := by
  cases a with
  | change config a =>
    obtain rfl := Option.some.inj hstep
    simp only [telling, told, List.flatMap_append, List.flatMap_cons, List.flatMap_nil, List.append_nil,
      List.append_assoc]
  | overrun config =>
    obtain rfl := Option.some.inj hstep
    exact (List.append_nil _).symm
  | receive =>
    obtain ⟨announced, a, queue, hwork, hqueue, rfl⟩ := receive_cases hstep
    have hcalls : calls (telegram (encode a.msgs)) = calls (events a.msgs) := by
      rw [← calls_effects, effects_telegram]
    simp only [telling, told, hwork, hqueue, hcalls, List.flatMap_cons, List.append_nil, List.append_assoc]
    rfl
  | proceed enumerated =>
    cases enumerated with
    | false => exact absurd rfl ha
    | true =>
      rcases proceed_cases hstep with
        ⟨work, hwork, rfl⟩ | ⟨event, i, ip, work, hwork, rfl⟩ | ⟨act, work, hwork, hnone, rfl⟩
      · simp only [telling, told, hwork, List.append_nil]
        rfl
      · simp only [telling, told, hwork, List.append_nil, List.append_assoc]
        rfl
      · have hsame : calls s.work = calls work := by
          rw [← calls_effects, hwork, ← List.singleton_append, effects_append, hnone, List.nil_append, calls_effects]
        simp only [telling, told, hsame, List.append_nil]

/-- **The list follows the kernel.** In every run in which `getifaddrs` succeeds, whatever changes in between: where
nothing is left to read or to do, the list shows a moment after which only changes have come that found the socket
full, or, if there have been no others, is still the one from before the socket; whenever the callback is called, the
list was enumerated after the change that is announced; and the callback is told the events of all announced changes,
each once and in their order. -/
theorem follows (first : Adapters) (present : Config) {tr : List (Observer × Act)}
    (h : step.Run (start first present) tr s) (hok : ∀ x ∈ tr, x.2 ≠ .proceed false) :
    (s.Drained → ∃ j, (s.Shows j ∨ j = 0 ∧ s.adapters = first) ∧ s.UnheardAfter j) ∧
      (∀ event i ip work, s.work = .event event i ip :: work → ∃ j, s.announced ≤ j ∧ s.Shows j) ∧
      s.telling = .event .complete 0 "" :: tr.reverse.flatMap fun x => told x.2 := by
  have hinv := h.guarded (G := fun _ a => a ≠ .proceed false) (start_inv first present)
    (fun _ _ _ hs ha hstep => step_inv hs ha hstep) hok
  refine ⟨fun hdrained => ?_, fun event i ip work => hinv.heard_at, ?_⟩
  · obtain ⟨hqueue, hwork⟩ := hdrained
    have hcurrent := hinv.current
    rw [hwork] at hcurrent
    exact (hcurrent.resolve_left List.not_mem_nil).resolve_left fun hne => hne hqueue
  · have htelling : (∀ x ∈ tr, x.2 ≠ .proceed false) →
        s.telling = .event .complete 0 "" :: tr.reverse.flatMap fun x => told x.2 := by
      refine h.trace_induction (P := fun tr s => (∀ x ∈ tr, x.2 ≠ .proceed false) →
        s.telling = .event .complete 0 "" :: tr.reverse.flatMap fun x => told x.2) (fun _ => rfl) ?_
      intro tr s a s' _ ih hstep hok
      obtain ⟨ha, hok⟩ := List.forall_mem_cons.mp hok
      rw [step_telling ha hstep, ih hok, List.reverse_cons, List.flatMap_append, List.flatMap_singleton,
        List.cons_append]
    exact htelling hok

/-- One interface; it has got the address that is announced. -/
def eth0 : Config where
  sys :=
    { inet := .reference false
      inet6 := .reference
      hwaddr := fun _ => some (0, ⟨Netadapter.ARPHRD_ETHER, List.replicate 14 1, List.replicate 8 0, rfl, rfl⟩)
      ifNametoindex := fun _ => 2
      masterIfindex := fun _ => none }
  entries := [⟨"eth0".toList, Adapters.IFF_MULTICAST, some (.inet 0x0600000A 0x00FFFFFF)⟩]

def eth0Address : Announcement where
  msgs := [⟨0, 1, 0, .newaddr ⟨2, 24, 0, 0, 2⟩ [⟨1, [10, 0, 0, 6], by decide⟩, ⟨2, [10, 0, 0, 6], by decide⟩]⟩]
  wellFormed := List.forall_mem_singleton.mpr fun _ => by decide
  fits := by decide +kernel
  speaks := by decide +kernel

/-- The list is empty, then the interface gets its address, and the list is drained again. -/
theorem follows_eth0 : ∃ tr s, step.Run (start .empty ⟨eth0.sys, []⟩) tr s ∧
    s.called = [.event .complete 0 "", .event .addressAdded 2 "10.0.0.6"] ∧
    (Adapters.getArray s.adapters).map (·.name) = ["eth0".toList] ∧
    ∃ j, (s.Shows j ∨ j = 0 ∧ s.adapters = .empty) ∧ s.UnheardAfter j := by
  have hexec : (step.exec [] (start .empty ⟨eth0.sys, []⟩)
      (.change eth0 eth0Address :: .receive :: List.replicate 9 (.proceed true))).map (fun x => (x.2.called,
        (x.2.work.length, x.2.queue.length), (Adapters.getArray x.2.adapters).map (·.name),
        x.1.all fun y => match y.2 with | .proceed enumerated => enumerated | _ => true)) =
      some ([.event .complete 0 "", .event .addressAdded 2 "10.0.0.6"], (0, 0), ["eth0".toList], true) := by
    decide +kernel
  obtain ⟨⟨tr, s⟩, hrun, hend⟩ := Option.map_eq_some_iff.mp hexec
  simp only [Prod.mk.injEq, List.length_eq_zero_iff, List.all_eq_true] at hend
  obtain ⟨hcalled, ⟨hwork, hqueue⟩, hnames, hall⟩ := hend
  have hok : ∀ x ∈ tr, x.2 ≠ .proceed false := by
    intro x hx he
    have htrue := hall x hx
    rw [he] at htrue
    cases htrue
  have hfollows := follows .empty ⟨eth0.sys, []⟩ (run_of_exec _ _ _ hrun) hok
  exact ⟨tr, s, run_of_exec _ _ _ hrun, hcalled, hnames, hfollows.1 ⟨hqueue, hwork⟩⟩

end Observer

end Netlink

end Libhbk
