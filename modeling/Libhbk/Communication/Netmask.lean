import Libhbk.Communication.Ipv4Address
import Libhbk.Base.Loop
import Mathlib.Data.Nat.Bitwise

/-!
# Netmasks and prefixes

`getPrefixFromNetmask` counts the one bits from the left with a mask of one bit, and goes on with this mask to look for
further one bits. Together both loops see every bit once. `isValidNetmask` looks at no bits but all of them at once.
-/

namespace Libhbk.Ipv4Address

open Decimal Loop

/-- `k` one bits, then zero bits. -/
structure IsMask (k n : Nat) : Prop where
  le : k ≤ 32
  bits : ∀ i < 32, n.testBit (31 - i) = decide (i < k)

/-- A one bit after a zero bit. -/
def HasGap (n : Nat) : Prop := ∃ i j, i < j ∧ j < 32 ∧ n.testBit (31 - i) = false ∧ n.testBit (31 - j) = true

structure CountState where
  mask : UInt32
  prefixLen : Nat
  deriving DecidableEq

/-- `do .. while(mask!=0)` -/
def countBody (ipv4Subnetmask : UInt32) : Loop CountState CountState
  | ⟨mask, prefixLen⟩ =>
    if ipv4Subnetmask &&& mask ≠ 0 then
      if mask >>> 1 ≠ 0 then .inl ⟨mask >>> 1, prefixLen + 1⟩ else .inr ⟨mask >>> 1, prefixLen + 1⟩
    else .inr ⟨mask, prefixLen⟩

/-- The loop that looks for gaps, for the iterations that are left: is there one? -/
def gapLoop (ipv4Subnetmask : UInt32) : Nat → UInt32 → Bool
  | 0, _ => false
  | n + 1, mask =>
    let mask := mask >>> 1
    if ipv4Subnetmask &&& mask ≠ 0 then true else gapLoop ipv4Subnetmask n mask

/-! ### One bit masks -/

variable {mask : UInt32} {i k n : Nat}

theorem and_mask_iff (a : UInt32) (hmask : mask.toNat = 2 ^ k) : a &&& mask ≠ 0 ↔ a.toNat.testBit k = true := by
  rw [ne_eq, ← UInt32.toNat_inj, UInt32.toNat_and, hmask, Nat.and_two_pow]
  cases a.toNat.testBit k <;> simp

theorem toNat_shiftRight_one (hmask : mask.toNat = 2 ^ (k + 1)) : (mask >>> 1).toNat = 2 ^ k := by
  have hone : (1 : UInt32).toNat % 32 = 1 := rfl
  rw [UInt32.toNat_shiftRight, hmask, hone, Nat.shiftRight_eq_div_pow, Nat.pow_succ]
  simp

theorem ne_zero_of_toNat (hmask : mask.toNat = 2 ^ k) : mask ≠ 0 := by
  rintro rfl
  have hpos := Nat.two_pow_pos k
  rw [← hmask] at hpos
  exact absurd hpos (by decide)

/-! ### Counting -/

/-- The mask is at the bit behind those that are counted, and these are ones. -/
structure Counting (a : UInt32) (x : CountState) : Prop where
  le : x.prefixLen ≤ 31
  mask : x.mask.toNat = 2 ^ (31 - x.prefixLen)
  ones : ∀ i < x.prefixLen, a.toNat.testBit (31 - i) = true

/-- Where counting ends: at a zero bit, or behind the last bit. -/
structure Counted (a : UInt32) (x : CountState) : Prop where
  le : x.prefixLen ≤ 32
  ones : ∀ i < x.prefixLen, a.toNat.testBit (31 - i) = true
  zero : x.prefixLen < 32 → a.toNat.testBit (31 - x.prefixLen) = false ∧ x.mask.toNat = 2 ^ (31 - x.prefixLen)

theorem countBody_cases {a : UInt32} {x : CountState} (hx : Counting a x) :
    (∃ x', countBody a x = .inl x' ∧ Counting a x' ∧ x'.prefixLen = x.prefixLen + 1) ∨
      ∃ x', countBody a x = .inr x' ∧ Counted a x' := by
  obtain ⟨mask, prefixLen⟩ := x
  obtain ⟨hle, hmask, hones⟩ := hx
  simp only at hle hmask hones
  rw [countBody]
  by_cases hbit : a.toNat.testBit (31 - prefixLen) = true
  · rw [if_pos ((and_mask_iff a hmask).mpr hbit)]
    have hones' : ∀ i < prefixLen + 1, a.toNat.testBit (31 - i) = true := by
      intro i hi
      rcases Nat.lt_succ_iff_lt_or_eq.mp hi with hlt | rfl
      · exact hones i hlt
      · exact hbit
    by_cases hlast : prefixLen = 31
    · subst hlast
      have hzero : mask >>> 1 = 0 := by
        rw [← UInt32.toNat_inj, UInt32.toNat_shiftRight, hmask]
        rfl
      rw [if_neg (not_not.mpr hzero)]
      exact Or.inr ⟨_, rfl, by simp, hones', by simp⟩
    · have hnext : (mask >>> 1).toNat = 2 ^ (31 - (prefixLen + 1)) := by
        apply toNat_shiftRight_one
        rw [hmask]
        congr 1
        omega
      rw [if_pos (ne_zero_of_toNat hnext)]
      exact Or.inl ⟨_, rfl, ⟨by simp only; omega, hnext, hones'⟩, rfl⟩
  · rw [if_neg (fun h => hbit ((and_mask_iff a hmask).mp h))]
    exact Or.inr ⟨_, rfl, by simp only; omega, hones, fun _ => ⟨by simpa using hbit, hmask⟩⟩

theorem Counting.next {a : UInt32} {x x' : CountState} (hx : Counting a x) (h : countBody a x = .inl x') :
    Counting a x' ∧ x'.prefixLen = x.prefixLen + 1 := by
  obtain ⟨y, hnext, hy⟩ | ⟨y, hleave, -⟩ := countBody_cases hx
  · rw [h] at hnext
    rwa [Sum.inl.inj hnext]
  · rw [h] at hleave
    contradiction

theorem Counting.leave {a : UInt32} {x x' : CountState} (hx : Counting a x) (h : countBody a x = .inr x') :
    Counted a x' := by
  obtain ⟨y, hnext, -⟩ | ⟨y, hleave, hy⟩ := countBody_cases hx
  · rw [h] at hnext
    contradiction
  · rw [h] at hleave
    rwa [Sum.inr.inj hleave]

theorem counting_start (a : UInt32) : Counting a ⟨0x80000000, 0⟩ :=
  ⟨Nat.zero_le _, rfl, fun i hi => absurd hi (Nat.not_lt_zero i)⟩

theorem count_ends (a : UInt32) : (run (countBody a) 33 ⟨0x80000000, 0⟩).isSome := by
  apply run_isSome (I := Counting a) (μ := fun x => 32 - x.prefixLen) _ (counting_start a) (by decide)
  intro x x' hx hnext
  obtain ⟨hx', hlen⟩ := hx.next hnext
  have hle := hx'.le
  exact ⟨hx', by omega⟩

def countOnes (ipv4Subnetmask : UInt32) : CountState :=
  (run (countBody ipv4Subnetmask) 33 ⟨0x80000000, 0⟩).get (count_ends ipv4Subnetmask)

theorem counted (a : UInt32) : Counted a (countOnes a) := by
  have hret : Returns (countBody a) ⟨0x80000000, 0⟩ (countOnes a) := returns_of_run (Option.some_get _).symm
  obtain ⟨x, hx, hleave⟩ := hret.invariant (fun x x' hx hnext => (hx.next hnext).1) (counting_start a)
  exact hx.leave hleave

/-! ### Gaps -/

theorem gapLoop_iff (a : UInt32) (hmask : mask.toNat = 2 ^ k) (hn : n ≤ k) :
    gapLoop a n mask = true ↔ ∃ i, k - n ≤ i ∧ i < k ∧ a.toNat.testBit i = true := by
  induction n generalizing mask k with
  | zero =>
    rw [gapLoop]
    constructor
    · intro h
      contradiction
    · rintro ⟨i, hge, hlt, -⟩
      omega
  | succ n ih =>
    obtain ⟨k, rfl⟩ : ∃ j, k = j + 1 := ⟨k - 1, by omega⟩
    have hnext := toNat_shiftRight_one hmask
    rw [gapLoop]
    by_cases hbit : a.toNat.testBit k = true
    · rw [if_pos ((and_mask_iff a hnext).mpr hbit)]
      exact iff_of_true rfl ⟨k, by omega, by omega, hbit⟩
    · rw [if_neg (fun h => hbit ((and_mask_iff a hnext).mp h)), ih hnext (by omega)]
      constructor
      · rintro ⟨i, hge, hlt, hi⟩
        exact ⟨i, by omega, by omega, hi⟩
      · rintro ⟨i, hge, hlt, hi⟩
        have hne : i ≠ k := by
          rintro rfl
          exact hbit hi
        exact ⟨i, by omega, by omega, hi⟩

/-- What `getPrefixFromNetmask` does with the bits of an address. -/
def prefixOf (ipv4Subnetmask : UInt32) : Int :=
  let x := countOnes ipv4Subnetmask
  -- for(pos=prefix+1; pos<32; ++pos)
  if gapLoop ipv4Subnetmask (32 - (x.prefixLen + 1)) x.mask then -1 else x.prefixLen

theorem IsMask.not_hasGap (h : IsMask k n) : ¬ HasGap n := by
  rintro ⟨i, j, hlt, hj, hzero, hone⟩
  rw [h.bits i (by omega)] at hzero
  rw [h.bits j hj] at hone
  simp only [decide_eq_false_iff_not, decide_eq_true_eq] at hzero hone
  omega

/-- **Both loops see every bit once**: a mask is counted, anything else has a gap. -/
theorem prefixOf_cases (a : UInt32) :
    (∃ k, IsMask k a.toNat ∧ prefixOf a = k) ∨ (HasGap a.toNat ∧ prefixOf a = -1) := by
  obtain ⟨hle, hones, hzero⟩ := counted a
  rw [prefixOf]
  generalize countOnes a = x at hle hones hzero
  obtain ⟨mask, p⟩ := x
  simp only at hle hones hzero
  rcases Nat.lt_or_eq_of_le hle with hlt | rfl
  · obtain ⟨hbit, hmask⟩ := hzero hlt
    have hgap := gapLoop_iff a hmask (n := 32 - (p + 1)) (by omega)
    by_cases hsome : gapLoop a (32 - (p + 1)) mask = true
    · obtain ⟨i, -, hi, hone⟩ := hgap.mp hsome
      refine Or.inr ⟨⟨p, 31 - i, by omega, by omega, hbit, ?_⟩, by simp only [hsome, if_true]⟩
      rwa [Nat.sub_sub_self (by omega)]
    · refine Or.inl ⟨p, ⟨hle, fun i hi => ?_⟩, by simp only [hsome, Bool.false_eq_true, if_false]⟩
      rcases Nat.lt_trichotomy i p with hlt' | rfl | hgt
      · rw [hones i hlt', decide_eq_true hlt']
      · rw [hbit, decide_eq_false (Nat.lt_irrefl i)]
      · rw [decide_eq_false (by omega), Bool.eq_false_iff]
        intro hone
        exact hsome (hgap.mpr ⟨31 - i, by omega, by omega, hone⟩)
  · refine Or.inl ⟨32, ⟨hle, fun i hi => ?_⟩, rfl⟩
    rw [hones i hi, decide_eq_true hi]

theorem IsMask.unique_left {j : Nat} (hj : IsMask j n) (hk : IsMask k n) : j = k := by
  have hle {j k : Nat} (hj : IsMask j n) (hk : IsMask k n) : k ≤ j := by
    by_contra hlt
    have hbit := hk.bits j (by have := hk.le; omega)
    rw [hj.bits j (by have := hk.le; omega)] at hbit
    simp only [Nat.lt_irrefl, decide_false] at hbit
    have hfalse := of_decide_eq_false hbit.symm
    omega
  exact Nat.le_antisymm (hle hk hj) (hle hj hk)

theorem IsMask.unique_right {m : Nat} (hm : IsMask k m) (hn : IsMask k n) (hltm : m < 2 ^ 32) (hltn : n < 2 ^ 32) :
    m = n := by
  apply Nat.eq_of_testBit_eq
  intro i
  by_cases hi : i < 32
  · have hbit := hm.bits (31 - i) (by omega)
    rw [← hn.bits (31 - i) (by omega)] at hbit
    rwa [Nat.sub_sub_self (by omega)] at hbit
  · have hpow : 2 ^ 32 ≤ 2 ^ i := Nat.pow_le_pow_right (by decide) (by omega)
    rw [Nat.testBit_lt_two_pow (Nat.lt_of_lt_of_le hltm hpow), Nat.testBit_lt_two_pow (Nat.lt_of_lt_of_le hltn hpow)]

theorem prefixOf_of_isMask {a : UInt32} (h : IsMask k a.toNat) : prefixOf a = k := by
  obtain ⟨j, hj, heq⟩ | ⟨hgap, -⟩ := prefixOf_cases a
  · rw [heq, hj.unique_left h]
  · exact absurd hgap h.not_hasGap

theorem prefixOf_of_hasGap {a : UInt32} (h : HasGap a.toNat) : prefixOf a = -1 := by
  obtain ⟨j, hj, -⟩ | ⟨-, heq⟩ := prefixOf_cases a
  · exact absurd h hj.not_hasGap
  · exact heq

theorem isMask_of_prefixOf {a : UInt32} (h : prefixOf a = k) : IsMask k a.toNat := by
  obtain ⟨j, hj, heq⟩ | ⟨-, heq⟩ := prefixOf_cases a
  · rw [h] at heq
    rwa [Int.ofNat_inj.mp heq]
  · rw [h] at heq
    omega

/-! ### From the prefix to the mask -/

/-- The loop of `getNetmaskFromPrefix`, for the iterations that are left. -/
def netmaskLoop : Nat → UInt32 → Nat → UInt32
  | 0, subnet, _ => subnet
  | n + 1, subnet, prefixLen =>
    let subnet := subnet <<< 1
    if prefixLen ≠ 0 then netmaskLoop n (subnet ||| 1) (prefixLen - 1) else netmaskLoop n subnet prefixLen

theorem testBit_shiftLeft_one (s : UInt32) (hi : i < 32) :
    (s <<< 1).toNat.testBit i = (decide (1 ≤ i) && s.toNat.testBit (i - 1)) := by
  have hone : (1 : UInt32).toNat % 32 = 1 := rfl
  rw [UInt32.toNat_shiftLeft, hone, Nat.testBit_mod_two_pow, Nat.testBit_shiftLeft, decide_eq_true hi, Bool.true_and]

theorem testBit_netmaskLoop (n : Nat) (s : UInt32) (p : Nat) (hi : i < 32) :
    (netmaskLoop n s p).toNat.testBit i = if i < n then decide (n ≤ i + p) else s.toNat.testBit (i - n) := by
  induction n generalizing s p with
  | zero => rw [netmaskLoop, if_neg (Nat.not_lt_zero i), Nat.sub_zero]
  | succ n ih =>
    rw [netmaskLoop]
    rcases Nat.lt_trichotomy i n with hlt | rfl | hgt
    · rw [if_pos (Nat.lt_succ_of_lt hlt)]
      split
      · rw [ih, if_pos hlt]
        congr 1
        rw [eq_iff_iff]
        omega
      · rw [ih, if_pos hlt, decide_eq_false (by omega), decide_eq_false (by omega)]
    · rw [if_pos (Nat.lt_succ_self i)]
      split
      · rw [ih, if_neg (Nat.lt_irrefl i), Nat.sub_self, UInt32.toNat_or, Nat.testBit_or, decide_eq_true (by omega)]
        exact Bool.or_true _
      · rw [ih, if_neg (Nat.lt_irrefl i), Nat.sub_self, testBit_shiftLeft_one s (by decide), decide_eq_false (by omega),
          decide_eq_false (by omega)]
        rfl
    · have hone : (1 : UInt32).toNat.testBit (i - n) = false := by
        rw [Bool.eq_false_iff]
        intro h
        have hzero := Nat.testBit_one_eq_true_iff_self_eq_zero.mp h
        omega
      have hbit : (s <<< 1).toNat.testBit (i - n) = s.toNat.testBit (i - (n + 1)) := by
        rw [testBit_shiftLeft_one s (by omega), decide_eq_true (by omega), Bool.true_and, Nat.sub_sub]
      rw [if_neg (Nat.not_lt.mpr hgt)]
      split
      · rw [ih, if_neg (by omega), UInt32.toNat_or, Nat.testBit_or, hbit]
        rw [hone, Bool.or_false]
      · rw [ih, if_neg (by omega), hbit]

theorem isMask_netmaskLoop (hk : k ≤ 32) : IsMask k (netmaskLoop 32 0 k).toNat := by
  refine ⟨hk, fun i hi => ?_⟩
  rw [testBit_netmaskLoop 32 0 k (by omega), if_pos (by omega)]
  congr 1
  rw [eq_iff_iff]
  omega

/-! ### The functions -/

/-- `inAddr` is not initialised: `uninitialised` is what it holds. -/
def getPrefixFromNetmask (inet : Inet) (uninitialised : UInt32) (netmask : List Char) : Int :=
  match inet.inetPton (cStr netmask) with
  | some inAddr => prefixOf (inet.ntohl inAddr)
  | none => if netmask ≠ "255.255.255.255".toList then -1 else prefixOf (inet.ntohl uninitialised)

def getNetmaskFromPrefix (inet : Inet) (prefixLen : Nat) : List Char :=
  if prefixLen > 32 then [] else inet.inetNtoa (inet.htonl (netmaskLoop 32 0 prefixLen))

def isValidNetmask (inet : Inet) (ip : List Char) : Bool :=
  if ip.count '.' ≠ 3 then false
  else
    match inet.inetPton (cStr ip) with
    | none => false
    | some s_addr =>
      let bigAddress := inet.htonl s_addr
      if bigAddress = 0 then false
      else if bigAddress = 0xffffffff then false
      else true

variable {s : List Char} {uninitialised : UInt32}

theorem denotes_getNetmaskFromPrefix (inet : Inet) (hk : k ≤ 32) :
    Denotes (getNetmaskFromPrefix inet k) (netmaskLoop 32 0 k).toNat := by
  have hdenotes := inet.inetNtoa_denotes (inet.htonl (netmaskLoop 32 0 k))
  rw [Inet.htonl, swapOrder_swapOrder] at hdenotes
  rwa [getNetmaskFromPrefix, if_neg (by omega)]

theorem getPrefixFromNetmask_cases (inet : Inet) (uninitialised : UInt32) (h : '\x00' ∉ s) :
    (∃ x : UInt32, Denotes s x.toNat ∧ getPrefixFromNetmask inet uninitialised s = prefixOf x) ∨
      (∀ n, ¬ Denotes s n) ∧ getPrefixFromNetmask inet uninitialised s = -1 := by
  rw [getPrefixFromNetmask]
  obtain ⟨x, hpton, hx⟩ | ⟨hpton, hnot⟩ := inet.inetPton_cases s h
  · refine Or.inl ⟨x, hx, ?_⟩
    rw [hpton]
    simp only [Inet.ntohl, Inet.htonl, swapOrder_swapOrder]
  · refine Or.inr ⟨hnot, ?_⟩
    rw [hpton]
    dsimp only
    rw [if_pos]
    rintro rfl
    have hall : dotted (2 ^ 32 - 1) = "255.255.255.255".toList := by decide
    apply hnot (2 ^ 32 - 1)
    rw [← hall]
    exact denotes_dotted (by decide)

theorem Denotes.nul_not_mem (h : Denotes s n) : '\x00' ∉ s := h.not_mem rfl (by decide)

theorem Denotes.ne_nil (h : Denotes s n) : s ≠ [] := by
  rintro rfl
  exact absurd h.count_dot (by decide)

theorem getPrefixFromNetmask_eq_iff (inet : Inet) (h : '\x00' ∉ s) :
    getPrefixFromNetmask inet uninitialised s = k ↔ ∃ n, Denotes s n ∧ IsMask k n := by
  obtain ⟨x, hx, heq⟩ | ⟨hnot, heq⟩ := getPrefixFromNetmask_cases inet uninitialised h
  · rw [heq, hx.exists_iff]
    exact ⟨isMask_of_prefixOf, prefixOf_of_isMask⟩
  · rw [heq]
    constructor
    · intro hneg
      omega
    · rintro ⟨n, hn, -⟩
      exact absurd hn (hnot n)

theorem getPrefixFromNetmask_of_hasGap (inet : Inet) (h : '\x00' ∉ s) (hn : Denotes s n) (hgap : HasGap n) :
    getPrefixFromNetmask inet uninitialised s = -1 := by
  obtain ⟨x, hx, heq⟩ | ⟨-, heq⟩ := getPrefixFromNetmask_cases inet uninitialised h
  · rw [← hx.quad.unique hn.quad] at hgap
    rw [heq, prefixOf_of_hasGap hgap]
  · exact heq

theorem getNetmaskFromPrefix_ne_nil_iff (inet : Inet) : getNetmaskFromPrefix inet k ≠ [] ↔ k ≤ 32 := by
  constructor
  · intro h
    by_contra hlt
    rw [getNetmaskFromPrefix, if_pos (by omega)] at h
    exact h rfl
  · exact fun hk => (denotes_getNetmaskFromPrefix inet hk).ne_nil

/-- **Netmasks and prefixes are inverse**: a prefix is returned for the masks without gaps and for nothing else. -/
theorem netmask_prefix_inverse (inet : Inet) (uninitialised : UInt32) :
    (∀ s, '\x00' ∉ s →
      (∀ k : Nat, getPrefixFromNetmask inet uninitialised s = k ↔ ∃ n, Denotes s n ∧ IsMask k n) ∧
      (∀ k : Nat, getPrefixFromNetmask inet uninitialised s = k → getNetmaskFromPrefix inet k = s) ∧
      ((∀ n, ¬ Denotes s n) → getPrefixFromNetmask inet uninitialised s = -1) ∧
      ∀ n, Denotes s n → HasGap n → getPrefixFromNetmask inet uninitialised s = -1) ∧
    ∀ k, (getNetmaskFromPrefix inet k ≠ [] ↔ k ≤ 32) ∧
      (k ≤ 32 → getPrefixFromNetmask inet uninitialised (getNetmaskFromPrefix inet k) = k) := by
  refine ⟨fun s h => ⟨fun k => getPrefixFromNetmask_eq_iff inet h, fun k hk => ?_, fun hnot => ?_,
    fun n hn hgap => getPrefixFromNetmask_of_hasGap inet h hn hgap⟩,
    fun k => ⟨getNetmaskFromPrefix_ne_nil_iff inet, fun hk => ?_⟩⟩
  · obtain ⟨n, hn, hmask⟩ := (getPrefixFromNetmask_eq_iff inet h).mp hk
    have hback := denotes_getNetmaskFromPrefix inet hmask.le
    have hsame : (netmaskLoop 32 0 k).toNat = n :=
      (isMask_netmaskLoop hmask.le).unique_right hmask (UInt32.toNat_lt _) (denotes_iff.mp hn).2
    rw [hsame] at hback
    rw [(denotes_iff.mp hback).1, (denotes_iff.mp hn).1]
  · obtain ⟨x, hx, -⟩ | ⟨-, heq⟩ := getPrefixFromNetmask_cases inet uninitialised h
    · exact absurd hx (hnot _)
    · exact heq
  · have hdenotes := denotes_getNetmaskFromPrefix inet hk
    exact (getPrefixFromNetmask_eq_iff inet hdenotes.nul_not_mem).mpr ⟨_, hdenotes, isMask_netmaskLoop hk⟩

theorem netmask_prefix_inverse_16 :
    getNetmaskFromPrefix (.reference false) 16 = "255.255.0.0".toList ∧
      getPrefixFromNetmask (.reference false) 0 (getNetmaskFromPrefix (.reference false) 16) = 16 :=
  ⟨((netmask_prefix_inverse (.reference false) 0).1 "255.255.0.0".toList (by decide)).2.1 16 (by decide +kernel),
    ((netmask_prefix_inverse (.reference false) 0).2 16).2 (by decide)⟩

/-! ### Validation -/

theorem isMask_zero : IsMask 0 0 := ⟨Nat.zero_le _, fun i _ => by simp⟩

theorem isMask_all : IsMask 32 (2 ^ 32 - 1) := by
  refine ⟨Nat.le_refl _, fun i hi => ?_⟩
  rw [Nat.testBit_two_pow_sub_one]
  congr 1
  rw [eq_iff_iff]
  omega

theorem isValidNetmask_iff (inet : Inet) (h : '\x00' ∉ s) :
    isValidNetmask inet s = true ↔ ∃ n, Denotes s n ∧ (n ≠ 0 ∧ n ≠ 2 ^ 32 - 1) := by
  rw [isValidNetmask]
  obtain ⟨x, hpton, hx⟩ | ⟨hpton, hnot⟩ := inet.inetPton_cases s h
  · have hzero : x = 0 ↔ x.toNat = 0 := UInt32.toNat_inj.symm
    have hall : x = 0xffffffff ↔ x.toNat = 2 ^ 32 - 1 := UInt32.toNat_inj.symm
    rw [hx.exists_iff, if_neg (not_not.mpr hx.count_dot), hpton]
    simp only [Inet.htonl, swapOrder_swapOrder, hzero, hall]
    split_ifs <;> simp only [true_iff, false_iff] <;> omega
  · rw [hpton]
    simp [hnot]

/-- **Validation agrees with decoding** exactly for what is no mask with gaps. -/
theorem isValidNetmask_agrees_iff (inet : Inet) (uninitialised : UInt32) (s : List Char) (h : '\x00' ∉ s) :
    (isValidNetmask inet s = true ↔
        1 ≤ getPrefixFromNetmask inet uninitialised s ∧ getPrefixFromNetmask inet uninitialised s ≤ 31) ↔
      ¬ ∃ n, Denotes s n ∧ HasGap n := by
  rw [isValidNetmask_iff inet h]
  obtain ⟨x, hx, heq⟩ | ⟨hnot, heq⟩ := getPrefixFromNetmask_cases inet uninitialised h
  · rw [hx.exists_iff, hx.exists_iff, heq]
    obtain ⟨k, hk, hresult⟩ | ⟨hgap, hresult⟩ := prefixOf_cases x
    · have hzero : k = 0 ↔ x.toNat = 0 := by
        constructor
        · rintro rfl
          exact hk.unique_right isMask_zero x.toNat_lt (by decide)
        · intro hx
          exact hk.unique_left (hx ▸ isMask_zero)
      have hall : k = 32 ↔ x.toNat = 2 ^ 32 - 1 := by
        constructor
        · rintro rfl
          exact hk.unique_right isMask_all x.toNat_lt (by decide)
        · intro hx
          exact hk.unique_left (hx ▸ isMask_all)
      have hle := hk.le
      refine iff_of_true ?_ hk.not_hasGap
      rw [hresult]
      omega
    · have hzero : x.toNat ≠ 0 := by
        intro hx
        exact isMask_zero.not_hasGap (hx ▸ hgap)
      have hall : x.toNat ≠ 2 ^ 32 - 1 := by
        intro hx
        exact isMask_all.not_hasGap (hx ▸ hgap)
      refine iff_of_false ?_ (not_not.mpr hgap)
      rw [hresult]
      omega
  · rw [heq]
    simp [hnot]

theorem isValidNetmask_agrees_24 :
    (isValidNetmask (.reference false) "255.255.255.0".toList = true ↔
        1 ≤ getPrefixFromNetmask (.reference false) 0 "255.255.255.0".toList ∧
          getPrefixFromNetmask (.reference false) 0 "255.255.255.0".toList ≤ 31) ↔
      ¬ ∃ n, Denotes "255.255.255.0".toList n ∧ HasGap n :=
  isValidNetmask_agrees_iff (.reference false) 0 "255.255.255.0".toList (by decide)

/-- A mask with a gap is valid and has no prefix. -/
theorem isValidNetmask_gap :
    ¬ (isValidNetmask (.reference false) "255.0.255.0".toList = true ↔
      1 ≤ getPrefixFromNetmask (.reference false) 0 "255.0.255.0".toList ∧
        getPrefixFromNetmask (.reference false) 0 "255.0.255.0".toList ≤ 31) := by
  decide +kernel

end Libhbk.Ipv4Address
