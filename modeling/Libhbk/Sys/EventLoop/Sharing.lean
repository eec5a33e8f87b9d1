import Libhbk.Base.Machine
import Libhbk.Sys.EventLoop.Descriptors

/-!
# Objects that share an event loop

One object of the process opens the files `socket σ`, and the handlers with `own` are bound to it. All other files and
handlers belong to others, which open and close descriptors and register handlers for them. `Holding` says where the
object may have descriptors and handlers, `Owning` what holds as long as nobody has closed a number that is not its own,
and `Kept` that a step of the object leaves the others alone.
-/

namespace Libhbk

/-- The descriptor is open and belongs to someone else. -/
def Files.others (k : Files) (fd : Fd) : Bool :=
  match k.file fd with
  | some (.other _) => true
  | _ => false

theorem Files.others_iff {k : Files} {fd : Fd} : k.others fd = true ↔ ∃ n, k.file fd = some (.other n) := by
  unfold Files.others
  split
  · next n hfile => exact iff_of_true rfl ⟨n, hfile⟩
  · next hno => exact iff_of_false (by simp) fun ⟨n, hfile⟩ => hno n hfile

theorem Files.ne_of_file {k : Files} {fd : Fd} {f : File} (h : k.file fd = some f) : fd ≠ -1 := by
  rintro rfl
  change none = some f at h
  simp at h

namespace EventLoop

variable {H : Type} {l l' : EventLoop Files H}

/-! ### Closing a descriptor -/

/-- Close a descriptor, then erase its events. -/
def disconnect (l : EventLoop Files H) (fd : Fd) : EventLoop Files H :=
  let l := { l with kernel := l.kernel.close fd }
  let l := (l.eraseEvent (Files.ctl true) fd).loop
  (l.eraseOutEvent (Files.ctl true) fd).loop

/-- Erase the input event of a descriptor, then close it. -/
def shut (l : EventLoop Files H) (fd : Fd) : EventLoop Files H :=
  let l := (l.eraseEvent (Files.ctl true) fd).loop
  { l with kernel := l.kernel.close fd }

theorem disconnect_file (l : EventLoop Files H) (fd fd' : Fd) :
    (l.disconnect fd).kernel.file fd' = if fd' = fd then none else l.kernel.file fd' := by
  rw [disconnect, eraseOutEvent, eraseHandler_file, eraseEvent, eraseHandler_file]
  exact l.kernel.file_close fd fd'

theorem disconnect_handlerOf (l : EventLoop Files H) (fd fd' : Fd) (d : Dir) :
    (l.disconnect fd).handlerOf fd' d = if fd' = fd then none else l.handlerOf fd' d := by
  rw [disconnect, eraseOutEvent, handlerOf_eraseHandler, eraseEvent, handlerOf_eraseHandler]
  by_cases hfd : fd' = fd
  · cases d <;> simp [hfd]
  · simp only [hfd, false_and, if_false]
    rfl

theorem shut_file (l : EventLoop Files H) (fd fd' : Fd) :
    (l.shut fd).kernel.file fd' = if fd' = fd then none else l.kernel.file fd' := by
  refine (Files.file_close _ fd fd').trans ?_
  rw [eraseEvent, eraseHandler_file]

theorem shut_handlerOf (l : EventLoop Files H) (fd fd' : Fd) (d : Dir) :
    (l.shut fd).handlerOf fd' d = if fd' = fd ∧ d = .inp then none else l.handlerOf fd' d :=
  l.handlerOf_eraseHandler (Files.ctl true) .inp fd fd' d

end EventLoop

/-! ### What the others do -/

inductive Other (H : Type) where
  | opens (n : Nat)
  | adds (fd : Fd) (d : Dir) (h : H) (a : Addr) (grant : Bool)
  | erases (fd : Fd) (d : Dir)
  /-- Its events are erased as well. -/
  | closes (fd : Fd)

namespace Other

variable {H : Type}

def step (own : H → Bool) (l : EventLoop Files H) : Other H → Option (EventLoop Files H)
  | .opens n => some { l with kernel := l.kernel.openFile (.other n) }
  | .adds fd d h a grant =>
    if l.kernel.others fd = true ∧ own h = false then
      if ha : l.eventInfos.live a = false then some (l.addHandler (Files.ctl grant) d ⟨a, ha⟩ fd (some h)).loop
      else none
    else none
  | .erases fd d => if l.kernel.others fd then some (l.eraseHandler (Files.ctl true) d fd).loop else none
  | .closes fd => if l.kernel.others fd then some (l.disconnect fd) else none

variable {own : H → Bool} {l l' : EventLoop Files H} {o : Other H}

theorem file_socket (hs : o.step own l = some l') (fd : Fd) (σ : Nat) :
    l'.kernel.file fd = some (.socket σ) ↔ l.kernel.file fd = some (.socket σ) := by
  cases o with
  | opens n =>
    obtain rfl := Option.some.inj hs
    exact l.kernel.table.socket_allocate_other n fd σ
  | adds fd' d h a grant =>
    simp only [step, Option.ite_none_right_eq_some, Option.dite_none_right_eq_some, Option.some.injEq] at hs
    obtain ⟨_, ha, rfl⟩ := hs
    rw [EventLoop.addHandler_file]
  | erases fd' d =>
    simp only [step, Option.ite_none_right_eq_some, Option.some.injEq] at hs
    obtain ⟨_, rfl⟩ := hs
    rw [EventLoop.eraseHandler_file]
  | closes fd' =>
    simp only [step, Option.ite_none_right_eq_some, Option.some.injEq] at hs
    obtain ⟨hothers, rfl⟩ := hs
    obtain ⟨n, hfile⟩ := Files.others_iff.mp hothers
    rw [EventLoop.disconnect_file, ← Files.file_close]
    exact FdTable.socket_release_other hfile fd σ

theorem handlerOf_cases (hs : o.step own l = some l') {fd : Fd} {d : Dir} {cb : H}
    (hcb : l'.handlerOf fd d = some cb) :
    l.handlerOf fd d = some cb ∨ own cb = false ∧ ∃ n, l.kernel.file fd = some (.other n) := by
  cases o with
  | opens n =>
    obtain rfl := Option.some.inj hs
    exact Or.inl hcb
  | adds fd' d' h a grant =>
    simp only [step, Option.ite_none_right_eq_some, Option.dite_none_right_eq_some, Option.some.injEq] at hs
    obtain ⟨⟨hothers, hh⟩, ha, rfl⟩ := hs
    obtain ⟨n, hfile⟩ := Files.others_iff.mp hothers
    rw [EventLoop.handlerOf_addHandler _ _ _ _ _ (Files.ne_of_file hfile)] at hcb
    split at hcb
    · next hsame =>
      obtain rfl := Option.some.inj hcb
      exact Or.inr ⟨hh, n, by rw [hsame.1, hfile]⟩
    · exact Or.inl hcb
  | erases fd' d' =>
    simp only [step, Option.ite_none_right_eq_some, Option.some.injEq] at hs
    obtain ⟨_, rfl⟩ := hs
    rw [EventLoop.handlerOf_eraseHandler, Option.ite_none_left_eq_some] at hcb
    exact Or.inl hcb.2
  | closes fd' =>
    simp only [step, Option.ite_none_right_eq_some, Option.some.injEq] at hs
    obtain ⟨_, rfl⟩ := hs
    rw [EventLoop.disconnect_handlerOf, Option.ite_none_left_eq_some] at hcb
    exact Or.inl hcb.2

theorem attached (hs : o.step own l = some l') (h : l.Attached) : l'.Attached := by
  cases o with
  | opens n =>
    obtain rfl := Option.some.inj hs
    exact h.openFile (.other n)
  | adds fd d cb a grant =>
    simp only [step, Option.ite_none_right_eq_some, Option.dite_none_right_eq_some, Option.some.injEq] at hs
    obtain ⟨⟨hothers, _⟩, ha, rfl⟩ := hs
    obtain ⟨n, hfile⟩ := Files.others_iff.mp hothers
    exact h.addHandler (by rw [hfile]; simp)
  | erases fd d =>
    simp only [step, Option.ite_none_right_eq_some, Option.some.injEq] at hs
    obtain ⟨_, rfl⟩ := hs
    exact h.eraseHandler
  | closes fd =>
    simp only [step, Option.ite_none_right_eq_some, Option.some.injEq] at hs
    obtain ⟨_, rfl⟩ := hs
    intro fd' hfile d
    rw [EventLoop.disconnect_handlerOf]
    rw [EventLoop.disconnect_file] at hfile
    split
    · rfl
    · next hne =>
      rw [if_neg hne] at hfile
      exact h fd' hfile d

end Other

/-! ### What the object has -/

section Object

variable {H : Type} {own : H → Bool} {l l' : EventLoop Files H} {M : Fd → Prop} {W : Fd → Dir → Prop}

/-- The object has descriptors at most at the numbers `M`, and handlers at most for the events `W` of descriptors that
it has open. -/
structure Holding (own : H → Bool) (l : EventLoop Files H) (M : Fd → Prop) (W : Fd → Dir → Prop) : Prop where
  files : ∀ fd σ, l.kernel.file fd = some (.socket σ) → M fd
  handlers : ∀ fd d h, l.handlerOf fd d = some h → own h = true → W fd d ∧ ∃ σ, l.kernel.file fd = some (.socket σ)

/-- Every descriptor that is open on behalf of the object is stored in one of its members. -/
def Stored (l : EventLoop Files H) (members : List Fd) : Prop :=
  ∀ fd σ, l.kernel.file fd = some (.socket σ) → fd ∈ members

/-- No descriptor of the object is open, and no handler of the event loop is bound to it. -/
def Released (own : H → Bool) (l : EventLoop Files H) : Prop :=
  (∀ fd σ, l.kernel.file fd ≠ some (.socket σ)) ∧ ∀ fd d h, l.handlerOf fd d = some h → own h = false

theorem Released.holding (h : Released own l) : Holding own l M W := by
  refine ⟨fun fd σ hfile => absurd hfile (h.1 fd σ), fun fd d cb hcb hown => ?_⟩
  rw [h.2 fd d cb hcb] at hown
  simp at hown

namespace Holding

theorem mono {M' : Fd → Prop} {W' : Fd → Dir → Prop} (h : Holding own l M W) (hM : ∀ fd, M fd → M' fd)
    (hW : ∀ fd d, W fd d → W' fd d) : Holding own l M' W' :=
  ⟨fun fd σ hfile => hM fd (h.files fd σ hfile), fun fd d cb hcb hown => (h.handlers fd d cb hcb hown).imp (hW fd d) id⟩

theorem released (h : Holding own l M W) (hM : ∀ fd, M fd → ∀ σ, l.kernel.file fd ≠ some (.socket σ)) :
    Released own l := by
  have hfiles : ∀ fd σ, l.kernel.file fd ≠ some (.socket σ) := fun fd σ hfile => hM fd (h.files fd σ hfile) σ hfile
  refine ⟨hfiles, fun fd d cb hcb => ?_⟩
  by_contra hown
  obtain ⟨_, σ, hfile⟩ := h.handlers fd d cb hcb (by simpa using hown)
  exact hfiles fd σ hfile

theorem drop (h : Holding own l M W) (hfile : ∀ fd σ, l'.kernel.file fd = some (.socket σ) →
      l.kernel.file fd = some (.socket σ) ∧ ¬ M fd)
    (hhandler : ∀ fd d cb, l'.handlerOf fd d = some cb → l.handlerOf fd d = some cb ∧ ¬ W fd d) : Released own l' := by
  refine ⟨fun fd σ hf => (hfile fd σ hf).2 (h.files fd σ (hfile fd σ hf).1), fun fd d cb hcb => ?_⟩
  obtain ⟨hold, hno⟩ := hhandler fd d cb hcb
  by_contra hown
  exact hno (h.handlers fd d cb hold (by simpa using hown)).1

theorem openFile (h : Holding own l M W) (σ : Nat) :
    Holding own { l with kernel := l.kernel.openFile (.socket σ) }
      (fun fd => fd = FdTable.lowestFree l.kernel.table ∨ M fd) W := by
  refine ⟨fun fd τ hfile => ?_, fun fd d cb hcb hown => ?_⟩
  · change (l.kernel.openFile _).file fd = _ at hfile
    rw [Files.file_openFile] at hfile
    split at hfile
    · next hfd => exact Or.inl hfd
    · exact Or.inr (h.files fd τ hfile)
  · obtain ⟨hW, τ, hfile⟩ := h.handlers fd d cb hcb hown
    refine ⟨hW, τ, ?_⟩
    show (l.kernel.openFile _).file fd = _
    rw [Files.file_openFile, if_neg, hfile]
    rintro rfl
    rw [Files.file_next] at hfile
    simp at hfile

theorem openFirst (h : Released own l) (σ : Nat) :
    Holding own { l with kernel := l.kernel.openFile (.socket σ) }
      (fun fd => fd = FdTable.lowestFree l.kernel.table) W :=
  ((h.holding (M := fun _ => False)).openFile σ).mono (fun _ hfd => hfd.resolve_right id) fun _ _ => id

theorem addHandler (h : Holding own l M W) {grant : Bool} {d : Dir} {fresh : l.Free} {fd : Fd} {cb : H} {σ : Nat}
    (hfile : l.kernel.file fd = some (.socket σ)) (hW : W fd d) :
    Holding own (l.addHandler (Files.ctl grant) d fresh fd (some cb)).loop M W := by
  have hfd := Files.ne_of_file hfile
  refine ⟨fun fd' τ hf => h.files fd' τ (by rwa [EventLoop.addHandler_file] at hf), fun fd' d' cb' hcb hown => ?_⟩
  rw [EventLoop.addHandler_file]
  rw [EventLoop.handlerOf_addHandler _ _ _ _ _ hfd] at hcb
  split at hcb
  · next hsame =>
    rw [hsame.1, hsame.2]
    exact ⟨hW, σ, hfile⟩
  · exact h.handlers fd' d' cb' hcb hown

theorem eraseHandler (h : Holding own l M W) (d : Dir) (fd : Fd) :
    Holding own (l.eraseHandler (Files.ctl true) d fd).loop M W := by
  refine ⟨fun fd' τ hf => h.files fd' τ (by rwa [EventLoop.eraseHandler_file] at hf), fun fd' d' cb hcb hown => ?_⟩
  rw [EventLoop.eraseHandler_file]
  rw [EventLoop.handlerOf_eraseHandler] at hcb
  split at hcb
  · simp at hcb
  · exact h.handlers fd' d' cb hcb hown

theorem other (h : Holding own l M W) {o : Other H} (hs : o.step own l = some l') : Holding own l' M W := by
  refine ⟨fun fd σ hfile => h.files fd σ ((Other.file_socket hs fd σ).mp hfile), fun fd d cb hcb hown => ?_⟩
  have hold := (Other.handlerOf_cases hs hcb).resolve_right fun hno => by simp [hown] at hno
  obtain ⟨hW, σ, hfile⟩ := h.handlers fd d cb hold hown
  exact ⟨hW, σ, (Other.file_socket hs fd σ).mpr hfile⟩

end Holding

/-! ### What the others keep -/

/-- The descriptors, the handlers and the registrations with epoll that the others have are as before. -/
structure Kept (own : H → Bool) (l l' : EventLoop Files H) : Prop where
  files : ∀ fd n, l.kernel.file fd = some (.other n) → l'.kernel.file fd = some (.other n)
  handlers : ∀ fd d h, l.handlerOf fd d = some h → own h = false → l'.handlerOf fd d = some h
  interest : ∀ fd fd' n, l.kernel.file fd = some (.other n) →
    l'.kernel.interest (.other n) fd' = l.kernel.interest (.other n) fd'

/-- Erasing and closing by number leaves the others alone exactly if the number is neither open for someone else nor has
the input handler of someone else. -/
theorem shut_kept_iff {fd : Fd} :
    Kept own l (l.shut fd) ↔
      (∀ n, l.kernel.file fd ≠ some (.other n)) ∧ ∀ h, l.handlerOf fd .inp = some h → own h = true := by
  constructor
  · refine fun hkept => ⟨fun n hfile => ?_, fun h hh => ?_⟩
    · have hclosed := hkept.files fd n hfile
      rw [EventLoop.shut_file, if_pos rfl] at hclosed
      simp at hclosed
    · by_contra hown
      have herased := hkept.handlers fd .inp h hh (by simpa using hown)
      rw [EventLoop.shut_handlerOf, if_pos ⟨rfl, rfl⟩] at herased
      simp at herased
  · rintro ⟨hfile, hhandler⟩
    have hne : ∀ {fd' n}, l.kernel.file fd' = some (.other n) → fd' ≠ fd := by
      rintro fd' n hf rfl
      exact hfile n hf
    refine ⟨fun fd' n hf => ?_, fun fd' d h hh hown => ?_, fun fd' fd'' n hf => ?_⟩
    · rw [EventLoop.shut_file, if_neg (hne hf), hf]
    · rw [EventLoop.shut_handlerOf, if_neg, hh]
      rintro ⟨rfl, rfl⟩
      rw [hhandler h hh] at hown
      simp at hown
    · have herase :
          (l.eraseEvent (Files.ctl true) fd).loop.kernel.interest (.other n) = l.kernel.interest (.other n) := by
        rcases l.eraseHandler_kernel (Files.ctl true) .inp fd with hk | ⟨op, _, _, hctl⟩
        · rw [EventLoop.eraseEvent, hk]
        · obtain ⟨f, ev, hf', _, hk⟩ := Files.ctl_eq hctl
          rw [EventLoop.eraseEvent, hk]
          refine Function.update_of_ne ?_ _ _
          rintro rfl
          exact hfile n hf'
      refine (Files.close_interest fun _ => ⟨fd', hne hf, ?_⟩).trans (congrFun herase fd'')
      rw [EventLoop.eraseEvent, EventLoop.eraseHandler_file, hf]

/-! ### Before anything was closed -/

/-- Handlers belong to open descriptors, those for a descriptor of the object are bound to it, and the number `fd` that
it has stored is one of them. -/
structure Owning (own : H → Bool) (l : EventLoop Files H) (fd : Fd) : Prop where
  attached : l.Attached
  handlers : ∀ fd' σ d h, l.kernel.file fd' = some (.socket σ) → l.handlerOf fd' d = some h → own h = true
  stored : fd = -1 ∨ ∃ σ, l.kernel.file fd = some (.socket σ)

namespace Owning

variable {fd : Fd}

theorem reset (h : Owning own l fd) : Owning own l (-1) := ⟨h.attached, h.handlers, Or.inl rfl⟩

theorem openFile (h : Owning own l fd) (σ : Nat) :
    Owning own { l with kernel := l.kernel.openFile (.socket σ) } (FdTable.lowestFree l.kernel.table) := by
  have hfile := Files.file_openFile l.kernel (.socket σ)
  refine ⟨h.attached.openFile _, fun fd' τ d cb hf hcb => ?_, Or.inr ⟨σ, (hfile _).trans (if_pos rfl)⟩⟩
  replace hf := (hfile fd').symm.trans hf
  split at hf
  · next hfd =>
    have hnone := h.attached fd' (by rw [hfd]; exact l.kernel.file_next) d
    exact absurd (hnone.symm.trans hcb) (by simp)
  · exact h.handlers fd' τ d cb hf hcb

theorem addHandler (h : Owning own l fd) {grant : Bool} {d : Dir} {fresh : l.Free} {cb : H} {σ : Nat}
    (hfile : l.kernel.file fd = some (.socket σ)) (hown : own cb = true) :
    Owning own (l.addHandler (Files.ctl grant) d fresh fd (some cb)).loop fd := by
  have hkeep := l.addHandler_file grant d fresh fd (some cb)
  refine ⟨h.attached.addHandler (by rw [hfile]; simp), fun fd' τ d' cb' hf hcb => ?_, Or.inr ⟨σ, (hkeep fd).trans hfile⟩⟩
  rw [EventLoop.handlerOf_addHandler _ _ _ _ _ (Files.ne_of_file hfile)] at hcb
  split at hcb
  · obtain rfl := Option.some.inj hcb
    exact hown
  · exact h.handlers fd' τ d' cb' ((hkeep fd').symm.trans hf) hcb

theorem other (h : Owning own l fd) {o : Other H} (hs : o.step own l = some l') : Owning own l' fd := by
  refine ⟨Other.attached hs h.attached, fun fd' σ d cb hf hcb => ?_, h.stored.imp id fun ⟨σ, hfile⟩ => ?_⟩
  · have hold := (Other.file_socket hs fd' σ).mp hf
    refine h.handlers fd' σ d cb hold ((Other.handlerOf_cases hs hcb).resolve_right ?_)
    rintro ⟨_, n, hn⟩
    rw [hold] at hn
    simp at hn
  · exact ⟨σ, (Other.file_socket hs fd σ).mpr hfile⟩

theorem shut_kept (h : Owning own l fd) : Kept own l (l.shut fd) := by
  refine shut_kept_iff.mpr ?_
  rcases h.stored with rfl | ⟨σ, hfile⟩
  · refine ⟨fun n hfile => Files.ne_of_file hfile rfl, fun cb hcb => ?_⟩
    rw [h.attached (-1) rfl .inp] at hcb
    simp at hcb
  · exact ⟨fun n hn => by rw [hfile] at hn; simp at hn, fun cb hcb => h.handlers fd σ .inp cb hfile hcb⟩

end Owning

end Object

end Libhbk
