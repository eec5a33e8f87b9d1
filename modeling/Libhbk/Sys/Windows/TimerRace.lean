import Mathlib.Data.Finset.Basic
import Libhbk.Base.Machine
import Libhbk.Sys.Windows.Timer

/-!
# The timer thread against the user of a timer

On Windows the handle of the timer is its key in the event loop and what `timerCb` posts, and the null handle is
what `EventLoop::stop` posts. `timerCb` reads the handle on the timer thread, while `set` and `cancel` delete the
timer, clear the handle and create the next timer; the deletion does not wait for a callback that runs. The model
numbers the timers created, and an expiry belongs to the timer whose callback posted it.
-/

namespace Libhbk.Windows

open Machine

/-- A `HANDLE`, null if 0. -/
abbrev Handle := Nat

/-- What `timerCb` posts: the completion key, and the number of the timer it runs for. -/
structure Packet where
  key : Handle
  timer : Nat
  deriving DecidableEq, Repr

/-- Where the user's thread is: in no call; in `set` or `cancel`, with the event erased, the timer deleted; in
`set`, with the handle cleared, the timer created. `next` is what `set` wants, none in `cancel`. -/
inductive Race.User where
  | idle
  | erased (next : Option (UInt32 × Bool))
  | deleted (next : Option (UInt32 × Bool))
  | cleared (periodMs : UInt32) (repeated : Bool)
  | created
  deriving DecidableEq, Repr

/-- Where the timer thread is: in no callback; in `timerCb` for a timer; there, with the handle read. -/
inductive Race.Callback where
  | none
  | started (timer : Nat)
  | read (timer : Nat) (key : Handle)
  deriving DecidableEq, Repr

/-- The timer, with the timer of the timer queue if it is not deleted and the number of timers created, the keys
under which the event loop has `process`, the threads, and the completion port. -/
structure Race where
  hEvent : Handle
  queueTimer : Option QueueTimer
  created : Nat
  eventInfos : Finset Handle
  user : Race.User
  callback : Race.Callback
  port : Multiset Packet
  executing : Bool
  deriving DecidableEq

namespace Race

/-- The constructor. -/
def new : Race := ⟨0, none, 0, ∅, .idle, .none, 0, false⟩

/-- Behind `if (m_fd.overlapped.hEvent)`. -/
def User.next : Option (UInt32 × Bool) → User
  | some (periodMs, repeated) => .cleared periodMs repeated
  | none => .idle

/-- `erase` starts a `set` or a `cancel`; `create` with the handle that the system gives, null if it fails. -/
inductive Act where
  | erase (next : Option (UInt32 × Bool))
  | delete
  | clear
  | create (handle : Handle)
  | addEvent
  | fire
  | read
  | post
  | execute
  | dispatch (p : Packet)
  deriving DecidableEq, Repr

def step : Machine Race Act
  | s, .erase next =>
    match s.user with
    | .idle =>
      some { s with
        eventInfos := s.eventInfos.erase s.hEvent
        user := if s.hEvent ≠ 0 then .erased next else .next next }
    | _ => none
  | s, .delete =>
    match s.user with
    | .erased next => some { s with queueTimer := none, user := .deleted next }
    | _ => none
  | s, .clear =>
    match s.user with
    | .deleted next => some { s with hEvent := 0, user := .next next }
    | _ => none
  | s, .create handle =>
    match s.user with
    | .cleared periodMs repeated =>
      if handle = 0 then some { s with user := .idle }
      else
        some { s with
          hEvent := handle
          queueTimer := some ⟨periodMs, if repeated then periodMs else 0, false⟩
          created := s.created + 1
          user := .created }
    | _ => none
  | s, .addEvent =>
    match s.user with
    | .created => some { s with eventInfos := insert s.hEvent s.eventInfos, user := .idle }
    | _ => none
  | s, .fire =>
    -- `WT_EXECUTEINTIMERTHREAD`: one callback after the other
    match s.callback, s.queueTimer with
    | .none, some q =>
      if q.Running then
        some { s with queueTimer := some { q with signaled := true }, callback := .started s.created }
      else none
    | _, _ => none
  | s, .read =>
    match s.callback with
    | .started timer => some { s with callback := .read timer s.hEvent }
    | _ => none
  | s, .post =>
    match s.callback with
    | .read timer key => some { s with port := ⟨key, timer⟩ ::ₘ s.port, callback := .none }
    | _ => none
  | s, .execute => if s.executing then none else some { s with executing := true }
  | s, .dispatch p =>
    if s.executing ∧ p ∈ s.port then
      -- `execute` returns for `WSA_INVALID_EVENT`
      some { s with port := s.port.erase p, executing := p.key ≠ 0 }
    else none

/-- An expiry of the one-shot timer that is set, with no `set` or `cancel` begun since. -/
def OfCurrent (s : Race) (p : Packet) : Prop :=
  p.timer = s.created ∧ (∃ q, s.queueTimer = some q ∧ q.period = 0) ∧ (s.user = .idle ∨ s.user = .created)

/-- `timerCb` does not post the key of `stop`, the event loop goes on, and an expiry finds `process`. -/
def Fine (s : Race) : Act → Prop
  | .post => ∀ timer key, s.callback = .read timer key → key ≠ 0
  | .dispatch p => p.key ≠ 0 ∧ (s.OfCurrent p → p.key ∈ s.eventInfos)
  | _ => True

/-- The handle has been cleared since the callback started, and no timer has been created after that. -/
def Cleared : List (Race × Act) → Prop
  | [] => False
  | (_, .clear) :: _ => True
  | (_, .create handle) :: tr => handle = 0 ∧ Cleared tr
  | (_, .fire) :: _ => False
  | _ :: tr => Cleared tr

/-- It was so when the callback read the handle. -/
def ReadCleared : List (Race × Act) → Prop
  | [] => False
  | (_, .read) :: tr => Cleared tr
  | _ :: tr => ReadCleared tr

/-- No callback reads a handle cleared since it started, and no expiry is dispatched between the creation of its
timer and `addEvent`. -/
def Timely : List (Race × Act) → Prop
  | [] => True
  | (_, .post) :: tr => ¬ ReadCleared tr ∧ Timely tr
  | (s, .dispatch p) :: tr => (s.OfCurrent p → s.user = .idle) ∧ Timely tr
  | _ :: tr => Timely tr

variable {tr : List (Race × Act)} {s s' : Race} {a : Act} {p : Packet}

/-- What a step does, and when. -/
inductive Step (s : Race) : Act → Race → Prop
  | erase (next : Option (UInt32 × Bool)) (huser : s.user = .idle) :
      Step s (.erase next) { s with
        eventInfos := s.eventInfos.erase s.hEvent
        user := if s.hEvent ≠ 0 then .erased next else .next next }
  | delete (next : Option (UInt32 × Bool)) (huser : s.user = .erased next) :
      Step s .delete { s with queueTimer := none, user := .deleted next }
  | clear (next : Option (UInt32 × Bool)) (huser : s.user = .deleted next) :
      Step s .clear { s with hEvent := 0, user := .next next }
  | refused (periodMs : UInt32) (repeated : Bool) (huser : s.user = .cleared periodMs repeated) :
      Step s (.create 0) { s with user := .idle }
  | create (periodMs : UInt32) (repeated : Bool) (huser : s.user = .cleared periodMs repeated) (handle : Handle)
      (hhandle : handle ≠ 0) :
      Step s (.create handle) { s with
        hEvent := handle
        queueTimer := some ⟨periodMs, if repeated then periodMs else 0, false⟩
        created := s.created + 1
        user := .created }
  | addEvent (huser : s.user = .created) :
      Step s .addEvent { s with eventInfos := insert s.hEvent s.eventInfos, user := .idle }
  | fire (q : QueueTimer) (hcallback : s.callback = .none) (hq : s.queueTimer = some q) (hrunning : q.Running) :
      Step s .fire { s with queueTimer := some { q with signaled := true }, callback := .started s.created }
  | read (timer : Nat) (hcallback : s.callback = .started timer) :
      Step s .read { s with callback := .read timer s.hEvent }
  | post (timer : Nat) (key : Handle) (hcallback : s.callback = .read timer key) :
      Step s .post { s with port := ⟨key, timer⟩ ::ₘ s.port, callback := .none }
  | execute (hout : s.executing = false) : Step s .execute { s with executing := true }
  | dispatch (p : Packet) (hin : s.executing) (hp : p ∈ s.port) :
      Step s (.dispatch p) { s with port := s.port.erase p, executing := p.key ≠ 0 }

theorem step_cases (h : step s a = some s') : Step s a s' := by
  cases a with
  | erase | delete | clear | addEvent | read | post =>
    simp only [step] at h
    split at h
    · obtain rfl := Option.some.inj h
      constructor
      assumption
    · cases h
  | create handle =>
    simp only [step] at h
    split at h
    · next periodMs repeated huser =>
      split at h
      · next hzero =>
        subst hzero
        obtain rfl := Option.some.inj h
        exact .refused periodMs repeated huser
      · next hhandle =>
        obtain rfl := Option.some.inj h
        exact .create periodMs repeated huser handle hhandle
    · cases h
  | fire =>
    simp only [step] at h
    split at h
    · next q hcallback hq =>
      obtain ⟨hrunning, h⟩ := Option.ite_none_right_eq_some.mp h
      obtain rfl := Option.some.inj h
      exact .fire q hcallback hq hrunning
    · cases h
  | execute =>
    obtain ⟨hout, h⟩ := Option.ite_none_left_eq_some.mp h
    obtain rfl := Option.some.inj h
    exact .execute (Bool.eq_false_of_not_eq_true hout)
  | dispatch p =>
    obtain ⟨⟨hin, hp⟩, h⟩ := Option.ite_none_right_eq_some.mp h
    obtain rfl := Option.some.inj h
    exact .dispatch p hin hp

/-! ### The handle and the event loop -/

/-- The handle is that of the timer, and in no call the event loop has `process` under it and nothing else. -/
structure Handles (s : Race) : Prop where
  live : s.queueTimer ≠ none → s.hEvent ≠ 0
  idle : s.user = .idle → ∀ k, k ∈ s.eventInfos ↔ k = s.hEvent ∧ k ≠ 0
  busy : s.user ≠ .idle → s.eventInfos = ∅
  deleted : ∀ next, s.user = .deleted next → s.queueTimer = none
  cleared : ∀ periodMs repeated, s.user = .cleared periodMs repeated → s.hEvent = 0
  created : s.user = .created → s.hEvent ≠ 0

/-- With the handle null and nothing registered, `set` goes on and `cancel` is done. -/
theorem Handles.next (hnone : s.queueTimer = none) (hhandle : s.hEvent = 0) (hinfos : s.eventInfos = ∅)
    (next : Option (UInt32 × Bool)) (huser : s.user = .next next) : Handles s := by
  refine ⟨fun h => absurd hnone h, fun _ k => ?_, fun _ => hinfos, fun _ _ => hnone, fun _ _ _ => hhandle, ?_⟩
  · rw [hinfos, hhandle]
    exact iff_of_false (Finset.notMem_empty k) fun h => h.2 h.1
  · rw [huser]
    rcases next with _ | ⟨periodMs, repeated⟩ <;> exact nofun

theorem Handles.congr (h : Handles s) (hhandle : s'.hEvent = s.hEvent)
    (hlive : s'.queueTimer = none ↔ s.queueTimer = none) (hinfos : s'.eventInfos = s.eventInfos)
    (huser : s'.user = s.user) : Handles s' := by
  constructor
  · rw [Ne, hlive, hhandle]
    exact h.live
  · rw [huser, hinfos, hhandle]
    exact h.idle
  · rw [huser, hinfos]
    exact h.busy
  · rw [huser, hlive]
    exact h.deleted
  · rw [huser, hhandle]
    exact h.cleared
  · rw [huser, hhandle]
    exact h.created

theorem step_handles (h : Handles s) (hstep : step s a = some s') : Handles s' := by
  cases step_cases hstep with
  | erase next huser =>
    have hempty : s.eventInfos.erase s.hEvent = ∅ := by
      rw [Finset.eq_empty_iff_forall_notMem]
      intro k hk
      obtain ⟨hne, hk⟩ := Finset.mem_erase.mp hk
      exact hne ((h.idle huser k).mp hk).1
    by_cases hhandle : s.hEvent = 0
    · have hnone : s.queueTimer = none := by
        by_contra hlive
        exact h.live hlive hhandle
      exact Handles.next hnone hhandle hempty next (if_neg (not_not.mpr hhandle))
    · rw [if_pos hhandle]
      exact ⟨h.live, nofun, fun _ => hempty, nofun, nofun, nofun⟩
  | delete next huser =>
    exact ⟨fun he => absurd rfl he, nofun, fun _ => h.busy (huser ▸ nofun), fun _ _ => rfl, nofun, nofun⟩
  | clear next huser =>
    exact Handles.next (h.deleted next huser) rfl (h.busy (huser ▸ nofun)) next rfl
  | refused periodMs repeated huser =>
    have hzero := h.cleared periodMs repeated huser
    have hnone : s.queueTimer = none := by
      by_contra hlive
      exact h.live hlive hzero
    exact Handles.next hnone hzero (h.busy (huser ▸ nofun)) none rfl
  | create periodMs repeated huser handle hhandle =>
    have hempty := h.busy (huser ▸ nofun)
    exact ⟨fun _ => hhandle, nofun, fun _ => hempty, nofun, nofun, fun _ => hhandle⟩
  | addEvent huser =>
    refine ⟨h.live, fun _ k => ?_, fun he => absurd rfl he, nofun, nofun, nofun⟩
    rw [h.busy (huser ▸ nofun), Finset.mem_insert, or_iff_left (Finset.notMem_empty k)]
    exact ⟨fun hk => ⟨hk, hk ▸ h.created huser⟩, fun hk => hk.1⟩
  | fire q _ hq => exact h.congr rfl (by simp [hq]) rfl rfl
  | read | post | execute | dispatch => exact h.congr rfl Iff.rfl rfl rfl

theorem run_handles (h : step.Run new tr s) : Handles s := by
  exact h.invariant (Handles.next rfl rfl rfl none rfl) fun _ _ _ => step_handles

/-! ### What is posted -/

/-- The callback's handle is null if it was cleared too early, and the key of an expiry is the handle of its timer
as long as that lives. -/
structure Keys (tr : List (Race × Act)) (s : Race) : Prop where
  started : ∀ n, s.callback = .started n → n ≤ s.created ∧ (s.hEvent = 0 ↔ Cleared tr)
  read : ∀ n key, s.callback = .read n key →
    n ≤ s.created ∧ (key = 0 ↔ ReadCleared tr) ∧ (n = s.created → s.queueTimer ≠ none → key = s.hEvent)
  port : ∀ p ∈ s.port, p.timer ≤ s.created ∧ (p.timer = s.created → s.queueTimer ≠ none → p.key = s.hEvent)

theorem Keys.congr {tr' : List (Race × Act)} (h : Keys tr s) (hcleared : Cleared tr' ↔ Cleared tr)
    (hread : ReadCleared tr' ↔ ReadCleared tr) (hhandle : s'.hEvent = s.hEvent)
    (hlive : s'.queueTimer ≠ none → s.queueTimer ≠ none) (hcreated : s'.created = s.created)
    (hcallback : s'.callback = s.callback) (hport : ∀ p ∈ s'.port, p ∈ s.port) : Keys tr' s' := by
  constructor
  · rw [hcallback, hcreated, hhandle, hcleared]
    exact h.started
  · intro n key hn
    rw [hcallback] at hn
    obtain ⟨hle, hkey, hown⟩ := h.read n key hn
    rw [hcreated, hhandle, hread]
    exact ⟨hle, hkey, fun he hl => hown he (hlive hl)⟩
  · intro p hp
    obtain ⟨hle, hown⟩ := h.port p (hport p hp)
    rw [hcreated, hhandle]
    exact ⟨hle, fun he hl => hown he (hlive hl)⟩

theorem step_keys (hh : Handles s) (h : Keys tr s) (hstep : step s a = some s') : Keys ((s, a) :: tr) s' := by
  cases step_cases hstep with
  | erase | addEvent | execute => exact h.congr Iff.rfl Iff.rfl rfl id rfl rfl fun _ => id
  | delete => exact h.congr Iff.rfl Iff.rfl rfl (fun he => absurd rfl he) rfl rfl fun _ => id
  | clear next huser =>
    have hnone := hh.deleted next huser
    refine ⟨fun n hn => ⟨(h.started n hn).1, iff_of_true rfl trivial⟩, fun n key hn => ?_, fun p hp => ?_⟩
    · obtain ⟨hle, hkey, _⟩ := h.read n key hn
      exact ⟨hle, hkey, fun _ hlive => absurd hnone hlive⟩
    · exact ⟨(h.port p hp).1, fun _ hlive => absurd hnone hlive⟩
  | refused => exact h.congr (and_iff_right rfl) Iff.rfl rfl id rfl rfl fun _ => id
  | create periodMs repeated huser handle hhandle =>
    -- the expiries so far belong to older timers
    refine ⟨fun n hn => ⟨Nat.le_succ_of_le (h.started n hn).1, iff_of_false hhandle fun hc => hhandle hc.1⟩,
      fun n key hn => ?_, fun p hp => ?_⟩
    · obtain ⟨hle, hkey, _⟩ := h.read n key hn
      exact ⟨Nat.le_succ_of_le hle, hkey, fun he => absurd he (Nat.ne_of_lt (Nat.lt_succ_of_le hle))⟩
    · have hle := (h.port p hp).1
      exact ⟨Nat.le_succ_of_le hle, fun he => absurd he (Nat.ne_of_lt (Nat.lt_succ_of_le hle))⟩
  | fire q _ hq =>
    have hlive : s.queueTimer ≠ none := hq ▸ Option.some_ne_none q
    refine ⟨fun n hn => ?_, nofun, fun p hp => ?_⟩
    · obtain rfl := Callback.started.inj hn
      exact ⟨Nat.le_refl _, iff_of_false (hh.live hlive) fun hc => hc⟩
    · obtain ⟨hle, hown⟩ := h.port p hp
      exact ⟨hle, fun he _ => hown he hlive⟩
  | read n hn =>
    obtain ⟨hle, hkey⟩ := h.started n hn
    refine ⟨fun _ he => (nomatch he), fun n' key hn' => ?_, h.port⟩
    obtain ⟨rfl, rfl⟩ := Callback.read.inj hn'
    exact ⟨hle, hkey, fun _ _ => rfl⟩
  | post n key hn =>
    obtain ⟨hle, _, hown⟩ := h.read n key hn
    refine ⟨fun _ he => (nomatch he), fun _ _ he => (nomatch he), fun p hp => ?_⟩
    rcases Multiset.mem_cons.mp hp with rfl | hp
    · exact ⟨hle, hown⟩
    · exact h.port p hp
  | dispatch => exact h.congr Iff.rfl Iff.rfl rfl id rfl rfl fun _ => Multiset.mem_of_mem_erase

theorem run_keys (h : step.Run new tr s) : Keys tr s := by
  refine h.trace_induction ⟨?_, ?_, fun p hp => absurd hp (Multiset.notMem_zero p)⟩ ?_
  · exact fun n hn => nomatch (hn : Callback.none = .started n)
  · exact fun n key hn => nomatch (hn : Callback.none = .read n key)
  intro tr s a s' hrun hk hstep
  exact step_keys (run_handles hrun) hk hstep

/-! ### In time -/

/-- The next step is in time. -/
def InTime (tr : List (Race × Act)) (s : Race) : Act → Prop
  | .post => ¬ ReadCleared tr
  | .dispatch p => s.OfCurrent p → s.user = .idle
  | _ => True

theorem timely_cons (tr : List (Race × Act)) (s : Race) (a : Act) :
    Timely ((s, a) :: tr) ↔ InTime tr s a ∧ Timely tr := by
  cases a <;> simp [Timely, InTime]

theorem mem_port (hstep : step s a = some s') (hp : p ∈ s'.port) :
    p ∈ s.port ∨ a = .post ∧ s.callback = .read p.timer p.key := by
  cases step_cases hstep with
  | post n key hn =>
    rcases Multiset.mem_cons.mp hp with rfl | hp
    · exact Or.inr ⟨rfl, hn⟩
    · exact Or.inl hp
  | dispatch => exact Or.inl (Multiset.mem_of_mem_erase hp)
  | erase | delete | clear | refused | create | addEvent | fire | read | execute => exact Or.inl hp

theorem port_ne_zero (h : step.Run new tr s) : Timely tr → ∀ p ∈ s.port, p.key ≠ 0 := by
  refine h.trace_induction (P := fun tr s => Timely tr → ∀ p ∈ s.port, p.key ≠ 0) ?_ ?_
  · exact fun _ p hp => absurd hp (Multiset.notMem_zero p)
  · intro tr s a s' hrun ih hstep htimely p hp
    obtain ⟨htime, htr⟩ := (timely_cons tr s a).mp htimely
    rcases mem_port hstep hp with hp | ⟨rfl, hread⟩
    · exact ih htr p hp
    · exact fun hzero => htime (((run_keys hrun).read _ _ hread).2.1.mp hzero)

theorem fine_iff (hrun : step.Run new tr s) (htimely : Timely tr) (hstep : step s a = some s') :
    s.Fine a ↔ InTime tr s a := by
  have hh := run_handles hrun
  have hk := run_keys hrun
  cases step_cases hstep with
  | post n key hn =>
    obtain ⟨_, hkey, _⟩ := hk.read n key hn
    refine ⟨fun hfine hc => hfine n key hn (hkey.mpr hc), fun hc n' key' hn' hzero => ?_⟩
    obtain ⟨rfl, rfl⟩ := Callback.read.inj (hn.symm.trans hn')
    exact hc (hkey.mp hzero)
  | dispatch p _ hp =>
    have hne := port_ne_zero hrun htimely p hp
    refine (and_iff_right hne).trans (forall_congr' fun hcurrent => ?_)
    obtain ⟨hlatest, ⟨q, hq, _⟩, huser⟩ := hcurrent
    have hkey := (hk.port p hp).2 hlatest (hq ▸ Option.some_ne_none q)
    constructor
    · intro hmem
      refine huser.resolve_right fun hcreated => ?_
      rw [hh.busy (hcreated ▸ nofun)] at hmem
      exact Finset.notMem_empty _ hmem
    · exact fun hidle => (hh.idle hidle p.key).mpr ⟨hkey, hne⟩
  | erase | delete | clear | refused | create | addEvent | fire | read | execute => exact Iff.rfl

/-- **No expiry stops the event loop or is lost.** In a run this holds of every step exactly if no callback reads
a handle that was cleared since it started, and no expiry of a one-shot timer is dispatched before `addEvent`. -/
theorem fine_iff_timely (h : step.Run new tr s) : (∀ x ∈ tr, x.1.Fine x.2) ↔ Timely tr := by
  induction h with
  | nil => exact iff_of_true (List.forall_mem_nil _) trivial
  | snoc hrun hstep ih =>
    rw [List.forall_mem_cons, ih, timely_cons]
    exact and_congr_left fun htimely => fine_iff hrun htimely hstep

/-- A one-shot timer is replaced after its expiry was posted, and the second one expires. -/
theorem fine_replaced :
    ∃ tr s, step.Run new tr s ∧ s.created = 2 ∧ s.port = {⟨7, 1⟩} ∧ ∀ x ∈ tr, x.1.Fine x.2 := by
  have h := run_of_exec step new
    [.execute, .erase (some (50, false)), .create 7, .addEvent, .fire, .read, .post, .erase (some (20, false)),
      .delete, .clear, .create 8, .addEvent, .fire, .read, .post, .dispatch ⟨8, 2⟩] rfl
  refine ⟨_, _, h, rfl, rfl, (fine_iff_timely h).mpr ?_⟩
  simp only [Timely, ReadCleared, Cleared]
  exact ⟨fun _ => trivial, not_false, not_false, trivial⟩

/-- `cancel` clears the handle while `timerCb` runs, and the event loop returns. Or `set` is not done when its
timer expires, and the expiry is dropped. -/
theorem cleared_or_early :
    (¬ ∀ tr s, step.Run new tr s → ∀ x ∈ tr, x.2 = .post → x.1.Fine x.2) ∧
      ¬ ∀ tr s, step.Run new tr s → ∀ x ∈ tr, ∀ p, x.2 = .dispatch p → x.1.Fine x.2 := by
  constructor
  · intro h
    have hrun := run_of_exec step new
      [.execute, .erase (some (50, false)), .create 7, .addEvent, .fire, .erase none, .delete, .clear, .read, .post,
        .dispatch ⟨0, 1⟩] rfl
    exact h _ _ hrun _ (List.mem_cons_of_mem _ List.mem_cons_self) rfl 1 0 rfl rfl
  · intro h
    have hrun := run_of_exec step new
      [.execute, .erase (some (0, false)), .create 7, .fire, .read, .post, .dispatch ⟨7, 1⟩] rfl
    have hfine := h _ _ hrun _ List.mem_cons_self _ rfl
    exact Finset.notMem_empty _ (hfine.2 ⟨rfl, ⟨_, rfl, rfl⟩, Or.inr rfl⟩)

end Race

end Libhbk.Windows
