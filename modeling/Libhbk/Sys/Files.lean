import Libhbk.Sys.Epoll

/-!
# Descriptors, open files and epoll

The kernel as far as closing and forking matter. A process has a table of descriptors, a new file gets the
lowest free number, and a forked child holds what the table held. A registration with epoll belongs to a
descriptor number and the open file behind it; it goes when no process holds the file any more.
-/

namespace Libhbk

/-- An open file: of a socket, or something else that the process has open. -/
inductive File where
  | socket (σ : Nat)
  | other (n : Nat)
  deriving DecidableEq, Repr

abbrev FdTable := List (Option File)

namespace FdTable

def file (t : FdTable) : Fd → Option File
  | .ofNat n => t[n]?.join
  | .negSucc _ => none

def lowestFree (t : FdTable) : Nat := t.findIdx Option.isNone

/-- Put a file at the lowest free number. -/
def allocate : FdTable → File → FdTable
  | [], f => [some f]
  | none :: t, f => some f :: t
  | some g :: t, f => some g :: allocate t f

def release (t : FdTable) : Fd → FdTable
  | .ofNat n => t.set n none
  | .negSucc _ => t

theorem file_lowestFree (t : FdTable) : t.file (lowestFree t) = none := by
  show t[lowestFree t]?.join = none
  unfold lowestFree
  rcases h : t[t.findIdx Option.isNone]? with _ | o
  · rfl
  · have hget := List.getElem?_eq_some_iff.mp h
    obtain ⟨hlt, rfl⟩ := hget
    have hnone : t[t.findIdx Option.isNone].isNone = true := List.findIdx_getElem
    simpa using hnone

theorem getElem?_allocate (t : FdTable) (f : File) (n : Nat) :
    (n = lowestFree t → (t.allocate f)[n]?.join = some f) ∧
      (n ≠ lowestFree t → (t.allocate f)[n]?.join = t[n]?.join) := by
  induction t generalizing n with
  | nil => cases n <;> simp [allocate, lowestFree]
  | cons o t ih =>
    cases o with
    | none => cases n <;> simp [allocate, lowestFree, List.findIdx_cons]
    | some g =>
      cases n with
      | zero => simp [allocate, lowestFree, List.findIdx_cons]
      | succ n => simpa [allocate, lowestFree, List.findIdx_cons] using ih n

theorem file_allocate (t : FdTable) (f : File) (fd : Fd) :
    (t.allocate f).file fd = if fd = lowestFree t then some f else t.file fd := by
  rcases fd with n | n
  · obtain ⟨hself, hother⟩ := getElem?_allocate t f n
    by_cases h : Int.ofNat n = (lowestFree t : Int)
    · rw [if_pos h]
      exact hself (Int.ofNat.inj h)
    · rw [if_neg h]
      exact hother fun hn => h (congrArg Int.ofNat hn)
  · rfl

theorem file_release (t : FdTable) (fd fd' : Fd) :
    (t.release fd).file fd' = if fd' = fd then none else t.file fd' := by
  rcases fd with n | n
  · rcases fd' with m | m
    · show (t.set n none)[m]?.join = _
      rw [List.getElem?_set]
      by_cases h : n = m
      · subst h
        rw [if_pos rfl, if_pos rfl]
        split <;> rfl
      · rw [if_neg h, if_neg fun he => h (Int.ofNat.inj he).symm]
        rfl
    · simp [file]
  · rcases fd' with m | m
    · simp [release]
    · simp [file]

theorem socket_allocate_other (t : FdTable) (n : Nat) (fd : Fd) (σ : Nat) :
    (t.allocate (.other n)).file fd = some (.socket σ) ↔ t.file fd = some (.socket σ) := by
  rw [file_allocate]
  split
  · next hfd => simp [hfd, file_lowestFree]
  · rfl

theorem socket_release_other {t : FdTable} {fd' : Fd} {n : Nat} (h : t.file fd' = some (.other n)) (fd : Fd) (σ : Nat) :
    (t.release fd').file fd = some (.socket σ) ↔ t.file fd = some (.socket σ) := by
  rw [file_release]
  split
  · next hfd => simp [hfd, h]
  · rfl

theorem mem_iff (t : FdTable) (f : File) : some f ∈ t ↔ ∃ fd, t.file fd = some f := by
  constructor
  · intro h
    obtain ⟨n, hn⟩ := List.mem_iff_getElem?.mp h
    exact ⟨.ofNat n, by rw [file, hn]; rfl⟩
  · rintro ⟨n | n, h⟩
    · rw [file, Option.join_eq_some_iff] at h
      exact List.mem_of_getElem? h
    · simp [file] at h

end FdTable

/-- The process, the children it has forked, and the interest set of `m_epollfd`. -/
structure Files where
  table : FdTable
  children : List FdTable
  interest : File → Fd → Option EpollEvent

namespace Files

def file (k : Files) (fd : Fd) : Option File := k.table.file fd

/-- Some process holds the file. -/
def Held (k : Files) (f : File) : Prop := some f ∈ k.table ∨ ∃ c ∈ k.children, some f ∈ c

instance (k : Files) (f : File) : Decidable (k.Held f) := inferInstanceAs (Decidable (_ ∨ _))

/-- The registrations of files that nobody holds go. -/
def sweep (k : Files) : Files := { k with interest := fun f fd => if k.Held f then k.interest f fd else none }

def openFile (k : Files) (f : File) : Files := { k with table := k.table.allocate f }

def close (k : Files) (fd : Fd) : Files := { k with table := k.table.release fd }.sweep

def fork (k : Files) : Files := { k with children := k.table :: k.children }

/-- A child ends. -/
def exit (k : Files) (i : Nat) : Files := { k with children := k.children.eraseIdx i }.sweep

/-- `epoll_ctl`; the number has to be open, and the registration is the one of the file behind it. -/
def ctl (grant : Bool) : EpollCtl Files := fun k op fd =>
  (k.file fd).bind fun f =>
    let set ev := some { k with interest := Function.update k.interest f (Function.update (k.interest f) fd ev) }
    match op, k.interest f fd with
    | .add ev, none => if grant then set (some ev) else none
    | .mod ev, some _ => set (some ev)
    | .del, some _ => set none
    | _, _ => none

theorem ctl_eq {grant : Bool} {k k' : Files} {op : CtlOp} {fd : Fd} (h : ctl grant k op fd = some k') :
    ∃ f ev, k.file fd = some f ∧ ((∀ ev, op ≠ .add ev) → k.interest f fd ≠ none) ∧
      k' = { k with interest := Function.update k.interest f (Function.update (k.interest f) fd ev) } := by
  obtain ⟨f, hf, h⟩ := Option.bind_eq_some_iff.mp h
  rcases hi : k.interest f fd with _ | ev₀
  · rcases op with ev | ev | _
    · simp only [hi, Option.ite_none_right_eq_some, Option.some.injEq] at h
      exact ⟨f, _, hf, fun hop => absurd rfl (hop ev), h.2.symm⟩
    · simp [hi] at h
    · simp [hi] at h
  · rcases op with ev | ev | _
    · simp [hi] at h
    · simp only [hi, Option.some.injEq] at h
      exact ⟨f, _, hf, fun _ => by simp [hi], h.symm⟩
    · simp only [hi, Option.some.injEq] at h
      exact ⟨f, _, hf, fun _ => by simp [hi], h.symm⟩

theorem sweep_interest (k : Files) {f : File} {fd : Fd} (h : k.sweep.interest f fd ≠ none) :
    k.Held f ∧ k.interest f fd ≠ none := by
  simp only [sweep] at h
  split at h
  · next hheld => exact ⟨hheld, h⟩
  · exact absurd rfl h

/-- The registration of a file that is open elsewhere in the table survives a close. -/
theorem close_interest {k : Files} {f : File} {fd fd' : Fd}
    (h : k.interest f fd' ≠ none → ∃ fd'', fd'' ≠ fd ∧ k.file fd'' = some f) :
    (k.close fd).interest f fd' = k.interest f fd' := by
  rcases hi : k.interest f fd' with _ | ev
  · by_contra hne
    exact (sweep_interest _ hne).2 hi
  · obtain ⟨fd'', hne, hf⟩ := h (by simp [hi])
    have hheld : ({ k with table := k.table.release fd } : Files).Held f := by
      refine Or.inl ((FdTable.mem_iff _ _).mpr ⟨fd'', ?_⟩)
      rw [FdTable.file_release, if_neg hne]
      exact hf
    show (if _ then k.interest f fd' else none) = _
    rw [if_pos hheld, hi]

end Files

end Libhbk
