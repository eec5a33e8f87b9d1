import Libhbk.Base.Machine
import Libhbk.Sys.EventLoop.Descriptors

/-!
# Disconnecting sockets that share an event loop

`SocketNonblocking::disconnect` closes the descriptor first and then erases its events by number. Between
these steps other threads may open sockets, register handlers and disconnect, and a forked child may hold
the open file. Each socket has its own thread here; its `addEvent` and `addOutEvent` calls and the three
steps of its `disconnect` interleave with those of the others.
-/

namespace Libhbk

/-- A handler is bound to its socket. -/
structure SocketHandler where
  owner : Nat
  callback : Nat
  deriving DecidableEq, Repr

/-- Where a socket is in its life; `closed` and `erased` are inside of `disconnect`, before the input event
and before the output event is erased. -/
inductive Phase where
  | fresh
  | opened (fd : Fd)
  | closed (fd : Fd)
  | erased (fd : Fd)
  | gone
  deriving DecidableEq, Repr

/-- The process: the event loop with the kernel behind it, and the sockets. -/
structure Host where
  loop : EventLoop Files SocketHandler
  phase : Nat → Phase

inductive HostAct where
  | socket (σ : Nat)
  | add (σ : Nat) (d : Dir) (callback : Nat) (a : Addr) (grant : Bool)
  | close (σ : Nat)
  | eraseIn (σ : Nat)
  | eraseOut (σ : Nat)
  | fork
  | exit (i : Nat)

namespace Host

/-- A process with `base` open and the loop's own event registered. -/
def start (base : List Nat) (stopFd : Nat) : Host where
  loop :=
    { eventInfos := .empty
      events := []
      eventCount := 0
      kernel :=
        { table := base.map fun n => some (.other n)
          children := []
          interest := fun f fd =>
            if fd = stopFd ∧ base[stopFd]?.map .other = some f then some ⟨EPOLLIN ||| EPOLLET, none⟩ else none } }
  phase := fun _ => .fresh

def file (s : Host) (fd : Fd) : Option File := s.loop.kernel.file fd

def interest (s : Host) (f : File) (fd : Fd) : Option EpollEvent := s.loop.kernel.interest f fd

def setKernel (s : Host) (k : Files) : Host := { s with loop := { s.loop with kernel := k } }

def setPhase (s : Host) (σ : Nat) (p : Phase) : Host := { s with phase := Function.update s.phase σ p }

/-- The machine. -/
def step : Machine Host HostAct := fun s a =>
  match a with
  | .socket σ =>
    if s.phase σ = .fresh then
      some ((s.setKernel (s.loop.kernel.openFile (.socket σ))).setPhase σ
        (.opened (FdTable.lowestFree s.loop.kernel.table)))
    else none
  | .add σ d callback a grant =>
    match s.phase σ with
    | .opened fd =>
      if ha : s.loop.eventInfos.live a = false then
        some { s with loop := (s.loop.addHandler (Files.ctl grant) d ⟨a, ha⟩ fd (some ⟨σ, callback⟩)).loop }
      else none
    | _ => none
  | .close σ =>
    match s.phase σ with
    | .opened fd => some ((s.setKernel (s.loop.kernel.close fd)).setPhase σ (.closed fd))
    | _ => none
  | .eraseIn σ =>
    match s.phase σ with
    | .closed fd => some ({ s with loop := (s.loop.eraseEvent (Files.ctl true) fd).loop }.setPhase σ (.erased fd))
    | _ => none
  | .eraseOut σ =>
    match s.phase σ with
    | .erased fd => some ({ s with loop := (s.loop.eraseOutEvent (Files.ctl true) fd).loop }.setPhase σ .gone)
    | _ => none
  | .fork => some (s.setKernel s.loop.kernel.fork)
  | .exit i => some (s.setKernel (s.loop.kernel.exit i))

/-- No registered file that a child holds is closed, and no handler of another socket is erased by a number that
was closed before. -/
def Clean (s : Host) : HostAct → Prop
  | .close σ => ∀ fd, s.phase σ = .opened fd →
      (∀ c ∈ s.loop.kernel.children, some (.socket σ) ∉ c) ∨ s.interest (.socket σ) fd = none
  | .eraseIn σ => ∀ fd h, s.phase σ = .closed fd → s.loop.handlerOf fd .inp = some h → h.owner = σ
  | .eraseOut σ => ∀ fd h, s.phase σ = .erased fd → s.loop.handlerOf fd .out = some h → h.owner = σ
  | _ => True

/-- The steps of a socket's `disconnect`. -/
def Disconnects (σ : Nat) : HostAct → Prop
  | .close τ => τ = σ
  | .eraseIn τ => τ = σ
  | .eraseOut τ => τ = σ
  | _ => False

/-- No registration, handler or descriptor of anyone else changes. -/
structure OthersKept (σ : Nat) (s s' : Host) : Prop where
  interest : ∀ f fd, f ≠ .socket σ → s'.interest f fd = s.interest f fd
  handlers : ∀ fd d h, h.owner ≠ σ → (s'.loop.handlerOf fd d = some h ↔ s.loop.handlerOf fd d = some h)
  files : ∀ fd f, f ≠ .socket σ → (s'.file fd = some f ↔ s.file fd = some f)

/-! ### The invariant -/

/-- In a clean run a registration belongs to the file behind its number, and where the socket of a handler has
left its number nothing is registered: with the entry in the map, an add modifies, and `epoll_ctl` fails. -/
structure Inv (s : Host) : Prop where
  table : ∀ σ fd, s.file fd = some (.socket σ) ↔ s.phase σ = .opened fd
  interest : ∀ f fd, s.interest f fd ≠ none → s.file fd = some f
  left : ∀ fd d h, s.loop.handlerOf fd d = some h → s.phase h.owner = .opened fd ∨ ∀ f, s.interest f fd = none

@[simp] theorem setPhase_phase_self (s : Host) (σ : Nat) (p : Phase) : (s.setPhase σ p).phase σ = p := by
  simp [setPhase]

theorem setPhase_phase_of_ne (s : Host) {σ τ : Nat} (p : Phase) (h : τ ≠ σ) :
    (s.setPhase σ p).phase τ = s.phase τ := by
  simp [setPhase, h]

theorem start_inv (base : List Nat) (stopFd : Nat) : Inv (start base stopFd) := by
  have hfile : ∀ (n : Nat) f,
      (start base stopFd).file (Int.ofNat n) = some f ↔ ∃ m, base[n]? = some m ∧ f = .other m := by
    intro n f
    show ((base.map fun n => some (File.other n))[n]?).join = some f ↔ _
    rw [List.getElem?_map]
    rcases base[n]? with _ | m
    · simp
    · simp [eq_comm]
  refine ⟨fun σ fd => ?_, fun f fd hint => ?_, fun fd d h hh => ?_⟩
  · refine ⟨fun h => ?_, fun h => by simp [start] at h⟩
    rcases fd with n | n
    · obtain ⟨m, _, hm⟩ := (hfile n _).mp h
      simp at hm
    · simp [file, Files.file, FdTable.file] at h
  · simp only [Host.interest, start, ne_eq, ite_eq_right_iff, reduceCtorEq, imp_false, not_not] at hint
    obtain ⟨rfl, hbase⟩ := hint
    obtain ⟨n, hn, rfl⟩ := Option.map_eq_some_iff.mp hbase
    exact (hfile stopFd _).mpr ⟨n, hn, rfl⟩
  · simp [start, EventLoop.handlerOf, NodeMap.get?, NodeMap.empty] at hh

section Steps

variable {s s' : Host} {σ : Nat} {fd : Fd}

theorem Inv.of_same_map (h : Inv s) (hmap : s'.loop.eventInfos = s.loop.eventInfos)
    (table : ∀ σ fd, s'.file fd = some (.socket σ) ↔ s'.phase σ = .opened fd)
    (interest : ∀ f fd, s'.interest f fd ≠ none → s.interest f fd ≠ none ∧ s'.file fd = some f)
    (left : ∀ τ fd, s.phase τ = .opened fd → s'.phase τ = .opened fd ∨ ∀ f, s'.interest f fd = none) : Inv s' := by
  refine ⟨table, fun f fd hi => (interest f fd hi).2, fun fd d hd hh => ?_⟩
  rw [EventLoop.handlerOf, hmap] at hh
  rcases h.left fd d hd hh with hopen | hnone
  · exact left _ _ hopen
  · refine Or.inr fun f => ?_
    by_contra hi
    exact (interest f fd hi).1 (hnone f)

theorem socket_inv (h : Inv s) (hσ : s.phase σ = .fresh) :
    Inv ((s.setKernel (s.loop.kernel.openFile (.socket σ))).setPhase σ
      (.opened (FdTable.lowestFree s.loop.kernel.table))) := by
  generalize hs' : (s.setKernel (s.loop.kernel.openFile (.socket σ))).setPhase σ
    (.opened (FdTable.lowestFree s.loop.kernel.table)) = s'
  have hself : s'.phase σ = .opened (FdTable.lowestFree s.loop.kernel.table) := by
    rw [← hs', setPhase_phase_self]
  have hphase : ∀ τ, τ ≠ σ → s'.phase τ = s.phase τ := fun τ hτ => by
    rw [← hs', setPhase_phase_of_ne _ _ hτ]
    rfl
  have hfile : ∀ fd, s'.file fd =
      if fd = FdTable.lowestFree s.loop.kernel.table then some (.socket σ) else s.file fd := by
    intro fd
    rw [← hs']
    exact FdTable.file_allocate _ _ _
  have hfree : s.file (FdTable.lowestFree s.loop.kernel.table) = none := FdTable.file_lowestFree _
  refine h.of_same_map (by rw [← hs']; rfl) (fun τ fd => ?_) (fun f fd hi => ?_) fun τ fd hτ => Or.inl ?_
  · rw [hfile]
    by_cases hτ : τ = σ
    · subst hτ
      rw [hself]
      have hnot : s.file fd ≠ some (.socket τ) := fun hf => by
        rw [(h.table τ fd).mp hf] at hσ
        simp at hσ
      by_cases hfd : fd = FdTable.lowestFree s.loop.kernel.table
      · simp [hfd]
      · simp [hfd, hnot, Ne.symm hfd]
    · rw [hphase τ hτ, ← h.table τ fd]
      by_cases hfd : fd = FdTable.lowestFree s.loop.kernel.table
      · rw [if_pos hfd, hfd, hfree]
        simp [Ne.symm hτ]
      · rw [if_neg hfd]
  · have hold : s.interest f fd ≠ none := by rw [← hs'] at hi; exact hi
    have hf := h.interest f fd hold
    refine ⟨hold, ?_⟩
    rw [hfile, if_neg fun hfd => by rw [hfd, hfree] at hf; simp at hf, hf]
  · rw [hphase τ, hτ]
    rintro rfl
    rw [hσ] at hτ
    simp at hτ

theorem ctl_interest {grant : Bool} {k k' : Files} {op : CtlOp} (h : Files.ctl grant k op fd = some k')
    {f : File} (hf : k.file fd = some f) :
    k'.table = k.table ∧ ∀ f' fd', fd' ≠ fd ∨ f' ≠ f → k'.interest f' fd' = k.interest f' fd' := by
  obtain ⟨f₁, ev, hf₁, _, rfl⟩ := Files.ctl_eq h
  obtain rfl := Option.some.inj (hf.symm.trans hf₁)
  refine ⟨rfl, fun f' fd' hne => ?_⟩
  show Function.update k.interest f (Function.update (k.interest f) fd ev) f' fd' = _
  by_cases hf' : f' = f
  · subst hf'
    rw [Function.update_self, Function.update_of_ne (hne.resolve_right fun h => h rfl)]
  · rw [Function.update_of_ne hf']

theorem add_inv (h : Inv s) (hσ : s.phase σ = .opened fd) (grant : Bool) (d : Dir) (fresh : s.loop.Free)
    (callback : Nat) :
    Inv { s with loop := (s.loop.addHandler (Files.ctl grant) d fresh fd (some ⟨σ, callback⟩)).loop } := by
  have hchange := (s.loop.addHandler_change (Files.ctl grant) d fresh fd (some ⟨σ, callback⟩) grant).1
  have hkernel := s.loop.addHandler_kernel (Files.ctl grant) d fresh fd (some ⟨σ, callback⟩)
  generalize (s.loop.addHandler (Files.ctl grant) d fresh fd (some ⟨σ, callback⟩)).loop = l' at hchange hkernel ⊢
  have hfd : s.loop.kernel.file fd = some (.socket σ) := (h.table σ fd).mpr hσ
  have hframe : l'.kernel.table = s.loop.kernel.table ∧
      ∀ f fd', fd' ≠ fd ∨ f ≠ .socket σ → l'.kernel.interest f fd' = s.interest f fd' := by
    rcases hkernel with hk | ⟨op, _, hctl⟩
    · rw [hk]
      exact ⟨rfl, fun _ _ _ => rfl⟩
    · exact ctl_interest hctl hfd
  have hfile : ∀ fd', l'.kernel.file fd' = s.file fd' := fun fd' => by rw [Files.file, hframe.1]; rfl
  refine ⟨fun τ fd' => ?_, fun f fd' hi => ?_, fun fd' e hd hh => ?_⟩
  · rw [← h.table τ fd']
    exact Eq.congr_left (hfile fd')
  · show l'.kernel.file fd' = _
    rw [hfile]
    by_cases hsame : fd' = fd ∧ f = .socket σ
    · rw [hsame.1, hsame.2]
      exact hfd
    · refine h.interest f fd' ?_
      rwa [← hframe.2 f fd' (not_and_or.mp hsame)]
  · by_cases hne : fd' = fd
    · subst hne
      rcases hchange.handlerOf_add hh with hold | hnew
      · rcases h.left fd' e hd hold with hopen | hnone
        · exact Or.inl hopen
        · -- the entry of the earlier handler is still there
          rcases hkernel with hk | ⟨op, hop, hctl⟩
          · exact Or.inr fun f => by show l'.kernel.interest f fd' = none; rw [hk]; exact hnone f
          · obtain ⟨f, _, _, hint, _⟩ := Files.ctl_eq hctl
            refine absurd (hnone f) (hint fun ev he => ?_)
            rw [s.loop.handlerOf_eq_none (hop ev he) e] at hold
            simp at hold
      · obtain rfl := Option.some.inj hnew
        exact Or.inl hσ
    · rw [show ({ s with loop := l' } : Host).loop = l' from rfl, hchange.handlerOf (Or.inl (Ne.symm hne))] at hh
      refine (h.left fd' e hd hh).imp id fun hnone f => ?_
      exact (hframe.2 f fd' (Or.inl hne)).trans (hnone f)

/-- A clean close leaves no registration at the number: what was registered there was the socket's own file,
which nobody holds afterwards. -/
theorem close_clears (h : Inv s) (hσ : s.phase σ = .opened fd) (hc : s.Clean (.close σ)) (f : File) :
    (s.loop.kernel.close fd).interest f fd = none := by
  by_contra hi
  obtain ⟨hheld, hold⟩ := Files.sweep_interest _ hi
  have hf := h.interest f fd hold
  rw [(h.table σ fd).mpr hσ] at hf
  obtain rfl := Option.some.inj hf
  rcases hheld with hmem | ⟨c, hcc, hmem⟩
  · obtain ⟨fd', hfd'⟩ := (FdTable.mem_iff _ _).mp hmem
    rw [FdTable.file_release] at hfd'
    by_cases he : fd' = fd
    · rw [if_pos he] at hfd'
      simp at hfd'
    · rw [if_neg he] at hfd'
      have hopen := (h.table σ fd').mp hfd'
      rw [hσ, Phase.opened.injEq] at hopen
      exact he hopen.symm
  · rcases hc fd hσ with hchild | hnone
    · exact hchild c hcc hmem
    · exact hold hnone

theorem close_inv (h : Inv s) (hσ : s.phase σ = .opened fd) (hc : s.Clean (.close σ)) :
    Inv ((s.setKernel (s.loop.kernel.close fd)).setPhase σ (.closed fd)) := by
  have hclears := close_clears h hσ hc
  generalize hs' : (s.setKernel (s.loop.kernel.close fd)).setPhase σ (.closed fd) = s'
  have hself : s'.phase σ = .closed fd := by rw [← hs', setPhase_phase_self]
  have hphase : ∀ τ, τ ≠ σ → s'.phase τ = s.phase τ := fun τ hτ => by
    rw [← hs', setPhase_phase_of_ne _ _ hτ]
    rfl
  have hfile : ∀ fd', s'.file fd' = if fd' = fd then none else s.file fd' :=
    fun fd' => by rw [← hs']; exact Files.file_close _ _ _
  have hint : ∀ f fd', s'.interest f fd' = (s.loop.kernel.close fd).interest f fd' := fun f fd' => by rw [← hs']; rfl
  refine h.of_same_map (by rw [← hs']; rfl) (fun τ fd' => ?_) (fun f fd' hi => ?_) fun τ fd' hτ => ?_
  · rw [hfile]
    by_cases hτ : τ = σ
    · subst hτ
      rw [hself]
      by_cases he : fd' = fd
      · simp [he]
      · rw [if_neg he, h.table, hσ]
        simp [Ne.symm he]
    · rw [hphase τ hτ, ← h.table τ fd']
      by_cases he : fd' = fd
      · rw [if_pos he, he, (h.table σ fd).mpr hσ]
        simp [Ne.symm hτ]
      · rw [if_neg he]
  · rw [hint] at hi
    have hold := (Files.sweep_interest _ hi).2
    have he : fd' ≠ fd := by
      rintro rfl
      exact hi (hclears f)
    exact ⟨hold, by rw [hfile, if_neg he, h.interest f fd' hold]⟩
  · by_cases he : fd' = fd
    · exact Or.inr fun f => by rw [hint, he, hclears]
    · refine Or.inl ?_
      rw [hphase τ, hτ]
      rintro rfl
      rw [hσ, Phase.opened.injEq] at hτ
      exact he hτ.symm

/-- Erasing by a closed number whose handler, if there is one, is the socket's own leaves the kernel alone. -/
theorem erase_kernel (h : Inv s) (hσ : s.phase σ ≠ .opened fd) {d : Dir}
    (hown : ∀ hd, s.loop.handlerOf fd d = some hd → hd.owner = σ) :
    (s.loop.eraseHandler (Files.ctl true) d fd).loop.kernel = s.loop.kernel := by
  rcases s.loop.eraseHandler_kernel (Files.ctl true) d fd with hk | ⟨op, hreg, hop, hctl⟩
  · exact hk
  · obtain ⟨hd, hhd⟩ := Option.ne_none_iff_exists'.mp hreg
    obtain ⟨f, _, _, hint, _⟩ := Files.ctl_eq hctl
    rcases h.left fd d hd hhd with hopen | hnone
    · rw [hown hd hhd] at hopen
      exact absurd hopen hσ
    · exact absurd (hnone f) (hint hop)

theorem erase_inv (h : Inv s) {p q : Phase} (hσ : s.phase σ = p) (hp : ∀ fd', p ≠ .opened fd')
    (hq : ∀ fd', q ≠ .opened fd') {d : Dir} (hown : ∀ hd, s.loop.handlerOf fd d = some hd → hd.owner = σ) :
    Inv ({ s with loop := (s.loop.eraseHandler (Files.ctl true) d fd).loop }.setPhase σ q) ∧
      OthersKept σ s ({ s with loop := (s.loop.eraseHandler (Files.ctl true) d fd).loop }.setPhase σ q) := by
  have hkernel := erase_kernel h (show s.phase σ ≠ .opened fd by rw [hσ]; exact hp fd) hown
  have hchange := (s.loop.eraseHandler_change (Files.ctl true) d fd).1
  generalize (s.loop.eraseHandler (Files.ctl true) d fd).loop = l' at hkernel hchange ⊢
  generalize hs' : ({ s with loop := l' } : Host).setPhase σ q = s'
  have hloop : s'.loop = l' := by rw [← hs']; rfl
  have hopened : ∀ τ fd', s'.phase τ = .opened fd' ↔ s.phase τ = .opened fd' := by
    intro τ fd'
    by_cases hτ : τ = σ
    · subst hτ
      rw [hσ, ← hs', setPhase_phase_self]
      exact iff_of_false (hq fd') (hp fd')
    · rw [← hs', setPhase_phase_of_ne _ _ hτ]
  have hother : ∀ fd' e hd, s'.loop.handlerOf fd' e = some hd → s.loop.handlerOf fd' e = some hd := by
    intro fd' e hd hh
    rw [hloop] at hh
    by_cases hsame : fd = fd' ∧ d = e
    · obtain ⟨rfl, rfl⟩ := hsame
      rw [hchange.erased] at hh
      simp at hh
    · rwa [hchange.handlerOf (not_and_or.mp hsame)] at hh
  have hfile : ∀ fd', s'.file fd' = s.file fd' := fun fd' => by rw [file, hloop, hkernel]; rfl
  have hint : ∀ f fd', s'.interest f fd' = s.interest f fd' := fun f fd' => by
    rw [Host.interest, hloop, hkernel]
    rfl
  refine ⟨⟨fun τ fd' => ?_, fun f fd' hi => ?_, fun fd' e hd hh => ?_⟩, fun f fd' _ => hint f fd',
    fun fd' e hd hne => ⟨hother fd' e hd, fun hh => ?_⟩, fun fd' f _ => by rw [hfile]⟩
  · rw [hfile, hopened]
    exact h.table τ fd'
  · rw [hint] at hi
    rw [hfile]
    exact h.interest f fd' hi
  · refine (h.left fd' e hd (hother fd' e hd hh)).imp (hopened _ _).mpr fun hnone f => ?_
    rw [hint]
    exact hnone f
  · rw [hloop, hchange.handlerOf, hh]
    refine not_and_or.mp ?_
    rintro ⟨rfl, rfl⟩
    exact hne (hown hd hh)

theorem close_kept (h : Inv s) (hσ : s.phase σ = .opened fd) :
    OthersKept σ s ((s.setKernel (s.loop.kernel.close fd)).setPhase σ (.closed fd)) := by
  have hown := (h.table σ fd).mpr hσ
  refine ⟨fun f fd' hf => ?_, fun fd' e hd _ => Iff.rfl, fun fd' f hf => ?_⟩
  · show (s.loop.kernel.close fd).interest f fd' = s.interest f fd'
    refine Files.close_interest fun hi => ⟨fd', ?_, h.interest f fd' hi⟩
    rintro rfl
    rw [h.interest f fd' hi] at hown
    exact hf (Option.some.inj hown)
  · show (s.loop.kernel.close fd).file fd' = some f ↔ _
    rw [Files.file_close]
    by_cases he : fd' = fd
    · rw [if_pos he, he, hown]
      simp [Ne.symm hf]
    · rw [if_neg he]
      rfl

theorem setKernel_inv (h : Inv s) {k : Files} (htable : k.table = s.loop.kernel.table)
    (hint : ∀ f fd, k.interest f fd ≠ none → s.interest f fd ≠ none) : Inv (s.setKernel k) := by
  have hfile : ∀ fd, (s.setKernel k).file fd = s.file fd := fun fd => by
    show k.table.file fd = _
    rw [htable]
    rfl
  refine h.of_same_map rfl (fun τ fd => ?_) (fun f fd hi => ?_) fun τ fd hτ => Or.inl hτ
  · rw [hfile]
    exact h.table τ fd
  · rw [hfile]
    exact ⟨hint f fd hi, h.interest f fd (hint f fd hi)⟩

end Steps

theorem step_inv {s s' : Host} {a : HostAct} (h : Inv s) (hc : s.Clean a) (hs : step s a = some s') :
    Inv s' ∧ ∀ σ, Disconnects σ a → OthersKept σ s s' := by
  rcases a with σ | ⟨σ, d, callback, a, grant⟩ | σ | σ | σ | _ | i
  · simp only [step, Option.ite_none_right_eq_some, Option.some.injEq] at hs
    obtain ⟨hσ, rfl⟩ := hs
    exact ⟨socket_inv h hσ, fun _ hd => absurd hd id⟩
  · rcases hσ : s.phase σ with _ | fd | fd | fd | _
    case opened =>
      simp only [step, hσ, Option.dite_none_right_eq_some, Option.some.injEq] at hs
      obtain ⟨ha, rfl⟩ := hs
      exact ⟨add_inv h hσ grant d ⟨a, ha⟩ callback, fun _ hd => absurd hd id⟩
    all_goals simp [step, hσ] at hs
  · rcases hσ : s.phase σ with _ | fd | fd | fd | _
    case opened =>
      simp only [step, hσ, Option.some.injEq] at hs
      subst hs
      refine ⟨close_inv h hσ hc, ?_⟩
      rintro τ rfl
      exact close_kept h hσ
    all_goals simp [step, hσ] at hs
  · rcases hσ : s.phase σ with _ | fd | fd | fd | _
    case closed =>
      simp only [step, hσ, Option.some.injEq] at hs
      subst hs
      obtain ⟨hinv, hkept⟩ := erase_inv (q := .erased fd) h hσ (by simp) (by simp) fun hd hh => hc fd hd hσ hh
      refine ⟨hinv, ?_⟩
      rintro τ rfl
      exact hkept
    all_goals simp [step, hσ] at hs
  · rcases hσ : s.phase σ with _ | fd | fd | fd | _
    case erased =>
      simp only [step, hσ, Option.some.injEq] at hs
      subst hs
      obtain ⟨hinv, hkept⟩ := erase_inv (q := .gone) h hσ (by simp) (by simp) fun hd hh => hc fd hd hσ hh
      refine ⟨hinv, ?_⟩
      rintro τ rfl
      exact hkept
    all_goals simp [step, hσ] at hs
  · obtain rfl := Option.some.inj hs
    exact ⟨setKernel_inv h rfl fun f fd hi => hi, fun _ hd => absurd hd id⟩
  · obtain rfl := Option.some.inj hs
    exact ⟨setKernel_inv h rfl fun f fd hi => (Files.sweep_interest _ hi).2, fun _ hd => absurd hd id⟩

/-- **Disconnecting.** In a run whose disconnects close nothing that a child holds and erase nobody else's
handlers by number, a disconnected socket has no registration left, and no step of a disconnect changed
anything of another socket. -/
theorem disconnect_removes_own (base : List Nat) (stopFd : Nat) {tr : List (Host × HostAct)} {s : Host}
    (h : step.Run (start base stopFd) tr s) (hclean : ∀ x ∈ tr, x.1.Clean x.2) :
    (∀ σ fd, s.phase σ = .gone → s.interest (.socket σ) fd = none) ∧
      ∀ x ∈ tr, ∀ σ s', Disconnects σ x.2 → step x.1 x.2 = some s' → OthersKept σ x.1 s' := by
  have hinv : ∀ {tr s}, step.Run (start base stopFd) tr s → (∀ x ∈ tr, x.1.Clean x.2) → Inv s := fun h hclean =>
    h.guarded (G := Clean) (start_inv base stopFd) (fun _ _ _ hi hc hs => (step_inv hi hc hs).1) hclean
  refine ⟨fun σ fd hσ => ?_, fun x hx σ s' hd hs => ?_⟩
  · by_contra hi
    have hfile := (hinv h hclean).interest _ _ hi
    rw [(hinv h hclean).table, hσ] at hfile
    simp at hfile
  · obtain ⟨tr₁, h₁, hsub⟩ := h.of_mem hx
    have hbefore := hinv h₁ fun y hy => hclean y (hsub y hy)
    exact (step_inv hbefore (hclean x hx) hs).2 σ hd

/-- Two sockets register, and the first one disconnects. -/
theorem disconnect_removes_own_of_two :
    ∃ (tr : List (Host × HostAct)) (s : Host), step.Run (start [0] 0) tr s ∧ s.phase 0 = .gone ∧
      s.loop.handlerOf 2 .inp = some ⟨1, 8⟩ ∧ ∀ fd, s.interest (.socket 0) fd = none := by
  have hrun := Machine.run_of_exec step (start [0] 0) [.socket 0, .add 0 .inp 7 0 true, .socket 1,
    .add 1 .inp 8 1 true, .fork, .exit 0, .close 0, .eraseIn 0, .eraseOut 0] rfl
  refine ⟨_, _, hrun, rfl, rfl, fun fd => (disconnect_removes_own [0] 0 hrun ?_).1 0 fd rfl⟩
  -- no handler is left when the output event is erased, and the one of the input event is the socket's own
  have herased : ∀ h : SocketHandler, none = some h → h.owner = 0 := fun h hh => absurd hh (by simp)
  have hclosed : ∀ h, some (⟨0, 7⟩ : SocketHandler) = some h → h.owner = 0 := fun h hh => by rw [← Option.some.inj hh]
  refine List.forall_mem_cons.mpr ⟨fun fd h hp hh => herased h ?_,
    List.forall_mem_cons.mpr ⟨fun fd h hp hh => hclosed h ?_,
      List.forall_mem_cons.mpr ⟨fun fd _ => Or.inl (List.forall_mem_nil _), ?_⟩⟩⟩
  · obtain rfl := Phase.erased.inj hp
    exact hh
  · obtain rfl := Phase.closed.inj hp
    exact hh
  · repeat (first | exact List.forall_mem_nil _ | refine List.forall_mem_cons.mpr ⟨trivial, ?_⟩)

/-- A socket that is registered nowhere is closed, another gets its number and registers, and the first one
erases that registration; and a child that holds the file keeps the registration of a disconnected socket. -/
theorem disconnect_erases_reused :
    (∃ (tr : List (Host × HostAct)) (s s' : Host), step.Run (start [0] 0) tr s ∧ step s (.eraseIn 0) = some s' ∧
      s.interest (.socket 1) 1 = some ⟨EPOLLIN ||| EPOLLET, some 0⟩ ∧ s'.interest (.socket 1) 1 = none ∧
      s.loop.handlerOf 1 .inp = some ⟨1, 7⟩ ∧ s'.loop.handlerOf 1 .inp = none) ∧
    ∃ (tr : List (Host × HostAct)) (s : Host), step.Run (start [0] 0) tr s ∧ s.phase 0 = .gone ∧
      s.interest (.socket 0) 1 = some ⟨EPOLLIN ||| EPOLLET, some 0⟩ :=
  ⟨⟨_, _, _, Machine.run_of_exec _ _ [.socket 0, .close 0, .socket 1, .add 1 .inp 7 0 true] rfl,
      rfl, rfl, rfl, rfl, rfl⟩,
    _, _, Machine.run_of_exec _ _ [.socket 0, .add 0 .inp 7 0 true, .fork, .close 0, .eraseIn 0, .eraseOut 0] rfl,
      rfl, rfl⟩

end Host

end Libhbk
