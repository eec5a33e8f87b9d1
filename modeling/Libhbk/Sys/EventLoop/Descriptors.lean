import Libhbk.Sys.EventLoop.Change
import Libhbk.Sys.Files

/-!
# The event loop over a table of descriptors

Registry operations do not open or close anything, and what opens and closes does not touch the map. Between
the two stands `Attached`: handlers belong to descriptors that are open.
-/

namespace Libhbk

namespace Files

theorem file_openFile (k : Files) (f : File) (fd : Fd) :
    (k.openFile f).file fd = if fd = FdTable.lowestFree k.table then some f else k.file fd :=
  FdTable.file_allocate k.table f fd

theorem file_close (k : Files) (fd fd' : Fd) : (k.close fd).file fd' = if fd' = fd then none else k.file fd' :=
  FdTable.file_release k.table fd fd'

theorem file_next (k : Files) : k.file (FdTable.lowestFree k.table) = none := FdTable.file_lowestFree k.table

theorem ctl_file {grant : Bool} {k k' : Files} {op : CtlOp} {fd : Fd} (h : ctl grant k op fd = some k') (fd' : Fd) :
    k'.file fd' = k.file fd' := by
  obtain ⟨f, ev, _, _, rfl⟩ := ctl_eq h
  rfl

end Files

namespace EventLoop

variable {H : Type}

theorem addHandler_file (grant : Bool) (d : Dir) (l : EventLoop Files H) (fresh : l.Free) (fd : Fd) (eh : Option H)
    (fd' : Fd) : (l.addHandler (Files.ctl grant) d fresh fd eh).loop.kernel.file fd' = l.kernel.file fd' := by
  rcases l.addHandler_kernel (Files.ctl grant) d fresh fd eh with hk | ⟨op, _, hctl⟩
  · rw [hk]
  · exact Files.ctl_file hctl fd'

theorem eraseHandler_file (d : Dir) (l : EventLoop Files H) (fd fd' : Fd) :
    (l.eraseHandler (Files.ctl true) d fd).loop.kernel.file fd' = l.kernel.file fd' := by
  rcases l.eraseHandler_kernel (Files.ctl true) d fd with hk | ⟨op, _, _, hctl⟩
  · rw [hk]
  · exact Files.ctl_file hctl fd'

/-- Handlers belong to descriptors that are open. -/
def Attached (l : EventLoop Files H) : Prop := ∀ fd, l.kernel.file fd = none → ∀ d, l.handlerOf fd d = none

namespace Attached

variable {l : EventLoop Files H}

theorem openFile (h : l.Attached) (f : File) : Attached { l with kernel := l.kernel.openFile f } := by
  intro fd hfile d
  change (l.kernel.openFile f).file fd = none at hfile
  rw [Files.file_openFile] at hfile
  split at hfile
  · simp at hfile
  · exact h fd hfile d

theorem addHandler (h : l.Attached) {grant : Bool} {d : Dir} {fresh : l.Free} {fd : Fd} {eh : Option H}
    (hopen : l.kernel.file fd ≠ none) : Attached (l.addHandler (Files.ctl grant) d fresh fd eh).loop := by
  intro fd' hfile d'
  rw [addHandler_file] at hfile
  have hne : fd ≠ fd' := fun he => hopen (he ▸ hfile)
  rw [(l.addHandler_change (Files.ctl grant) d fresh fd eh grant).1.handlerOf (Or.inl hne)]
  exact h fd' hfile d'

theorem eraseHandler (h : l.Attached) {d : Dir} {fd : Fd} :
    Attached (l.eraseHandler (Files.ctl true) d fd).loop := by
  intro fd' hfile d'
  rw [eraseHandler_file] at hfile
  rw [handlerOf_eraseHandler, h fd' hfile d', ite_self]

end Attached

end EventLoop

end Libhbk
