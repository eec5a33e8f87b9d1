import Libhbk.Sys.Timer
import Mathlib.Algebra.Group.Int.Defs

/-!
# The period of a timer

Both `set` functions hand the period to the timerfd in seconds and nanoseconds. The one for `std::chrono::milliseconds`
narrows the count to `unsigned int` before.
-/

namespace Libhbk

/-- Exactly this many milliseconds. -/
def Timespec.Is (ts : Timespec) (ms : Int) : Prop :=
  ts.tvSec * 10 ^ 9 + ts.tvNsec = ms * 10 ^ 6 ∧ 0 ≤ ts.tvNsec ∧ ts.tvNsec < 10 ^ 9

namespace Timer

variable {H : Type}

/-- The timerfd is armed for `ms` milliseconds, again and again if repeated. -/
def Arms (t : Timer H) (ms : Int) (repeated : Bool) : Prop :=
  ∃ fd, t.fd = some fd ∧ fd.spec.itValue.Is ms ∧
    if repeated then fd.spec.itInterval.Is ms else fd.spec.itInterval = .zero

/-- `set` returned a negative value and the timerfd is as it was, or the period was set. -/
def SetsExactly (t : Timer H) (ms : Int) (repeated : Bool) (r : Int × Timer H) : Prop :=
  (r.1 < 0 ∧ r.2.fd = t.fd) ∨ (r.1 = 0 ∧ r.2.Arms ms repeated)

variable {t : Timer H} {ms : Int} {repeated : Bool} {eventHandler : Option H}

theorem timespecOf_is (periodMs : UInt32) (repeated : Bool) : (timespecOf periodMs repeated).itValue.Is periodMs.toNat := by
  have hsec : (periodMs / 1000).toNat = periodMs.toNat / 1000 := UInt32.toNat_div _ _
  have hnsec := nsec_eq periodMs
  simp only [timespecOf, Timespec.Is, hsec, hnsec]
  omega

theorem Timespec.Is.unique {ts : Timespec} {m n : Int} (hm : ts.Is m) (hn : ts.Is n) : m = n := by
  have h := hm.1.symm.trans hn.1
  omega

theorem neg_one_lt : (-1 : Int) < 0 := by decide

theorem set_arms (hfd : t.fd ≠ none) {periodMs : UInt32} (hp : periodMs ≠ 0) (repeated : Bool) (eventHandler : Option H) :
    (t.set periodMs repeated eventHandler).1 = 0 ∧
      (t.set periodMs repeated eventHandler).2.fd = some ⟨timespecOf periodMs repeated, 0⟩ := by
  obtain ⟨fd, hfd⟩ := Option.ne_none_iff_exists'.mp hfd
  rw [set_eq hfd hp]
  exact ⟨rfl, rfl⟩

theorem set_arms_iff (hfd : t.fd ≠ none) {periodMs : UInt32} (hp : periodMs ≠ 0) :
    (t.set periodMs repeated eventHandler).2.Arms ms repeated ↔ ms = periodMs.toNat := by
  obtain ⟨-, harmed⟩ := set_arms hfd hp repeated eventHandler
  have his := timespecOf_is periodMs repeated
  constructor
  · rintro ⟨fd, hspec, hvalue, -⟩
    rw [harmed, Option.some.injEq] at hspec
    subst hspec
    exact Timespec.Is.unique hvalue his
  · rintro rfl
    refine ⟨_, harmed, his, ?_⟩
    cases repeated
    · rfl
    · exact his

theorem toNat_narrowed (count : Int) : ((UInt32.ofInt count).toNat : Int) = count % 2 ^ 32 := by
  rw [UInt32.ofInt, UInt32.toNat_ofNat']
  omega

theorem setMilliseconds_exact (hfd : t.fd ≠ none) (count : Int) :
    t.SetsExactly count repeated (t.setMilliseconds count repeated eventHandler) ↔
      count % 2 ^ 32 = 0 ∨ (0 < count ∧ count < 2 ^ 32) := by
  have hnarrow := toNat_narrowed count
  rw [SetsExactly, setMilliseconds]
  generalize UInt32.ofInt count = periodMs at hnarrow
  by_cases hp : periodMs = 0
  · subst hp
    exact iff_of_true (Or.inl ⟨neg_one_lt, rfl⟩) (Or.inl hnarrow.symm)
  · have hpos : periodMs.toNat ≠ 0 := fun hzero => hp (UInt32.toNat_inj.mp hzero)
    have hlt := periodMs.toNat_lt
    obtain ⟨hret, -⟩ := set_arms hfd hp repeated eventHandler
    rw [hret, set_arms_iff hfd hp]
    omega

/-- **The exact period**: `set` refuses a count of milliseconds or arms for it exactly if the count is a positive
`unsigned int`, or nothing is left of it when it is narrowed; the other `set` arms for every period but zero. -/
theorem setMilliseconds_exact_iff {tr : List (Timer H × Act H)} (h : (step (H := H)).Run new tr t) (repeated : Bool)
    (eventHandler : Option H) :
    (∀ count : Int, t.SetsExactly count repeated (t.setMilliseconds count repeated eventHandler) ↔
      count % 2 ^ 32 = 0 ∨ (0 < count ∧ count < 2 ^ 32)) ∧
    ∀ periodMs : UInt32, 0 < periodMs.toNat → (t.set periodMs repeated eventHandler).1 = 0 ∧
      (t.set periodMs repeated eventHandler).2.Arms periodMs.toNat repeated := by
  have hfd := (run_kept h).fd
  refine ⟨fun count => setMilliseconds_exact hfd count, fun periodMs hpos => ?_⟩
  have hp : periodMs ≠ 0 := by
    rintro rfl
    exact Nat.lt_irrefl 0 hpos
  exact ⟨(set_arms hfd hp repeated eventHandler).1, (set_arms_iff hfd hp).mpr rfl⟩

theorem setMilliseconds_exact_new :
    (∀ count : Int, (new (H := Nat)).SetsExactly count true (new.setMilliseconds count true (some 1)) ↔
      count % 2 ^ 32 = 0 ∨ (0 < count ∧ count < 2 ^ 32)) ∧
    ∀ periodMs : UInt32, 0 < periodMs.toNat → ((new (H := Nat)).set periodMs true (some 1)).1 = 0 ∧
      ((new (H := Nat)).set periodMs true (some 1)).2.Arms periodMs.toNat true :=
  setMilliseconds_exact_iff (.nil) true (some 1)

/-- Armed for one millisecond. -/
theorem setMilliseconds_wraps :
    ¬ (new (H := Nat)).SetsExactly (2 ^ 32 + 1) false (new.setMilliseconds (2 ^ 32 + 1) false none) := by
  rw [setMilliseconds_exact (Option.some_ne_none _)]
  decide

end Timer

end Libhbk
