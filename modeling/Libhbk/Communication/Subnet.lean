import Libhbk.Communication.Ipv4Address
import Mathlib.Data.Nat.Bitwise

/-!
# The subnet of an address

`getSubnet` splits address and netmask, converts the parts with `std::stoul` and prints the octets of the subnet.
`std::stoul` skips white space, takes a sign, stops at what is no digit, and throws.
-/

namespace Libhbk.Ipv4Address

open Decimal Occurrence Strings

/-- What `std::stoul` throws. -/
inductive StdError
  | invalidArgument
  | outOfRange
  deriving DecidableEq

/-- `isspace` -/
def isSpace (c : Char) : Bool := " \t\n\x0b\x0c\r".toList.contains c

/-- `std::stoul(s, nullptr, 10)`, with an `unsigned long` of 64 bits. A minus sign negates the unsigned number. -/
def stoul (s : List Char) : Except StdError Nat :=
  let s := s.dropWhile isSpace
  let digits := (if s.head? = some '-' ∨ s.head? = some '+' then s.tail else s).takeWhile Char.isDigit
  if digits = [] then .error .invalidArgument
  else if 2 ^ 64 ≤ value digits then .error .outOfRange
  else .ok (if s.head? = some '-' then (2 ^ 64 - value digits) % 2 ^ 64 else value digits)

/-- The loop over the parts of address and netmask; a value is narrowed to `unsigned int`. -/
def subnetLoop : List (List Char × List Char) → List Char → Except StdError (List Char)
  | [], subnet => .ok subnet.dropLast
  | (addressPart, netmaskPart) :: parts, subnet => do
    let addressByte := (← stoul addressPart) % 2 ^ 32
    let netmaskByte := (← stoul netmaskPart) % 2 ^ 32
    if addressByte > 255 ∨ netmaskByte > 255 then return []
    subnetLoop parts (subnet ++ (print (addressByte &&& netmaskByte) ++ ['.']))

def getSubnet (ip : Ipv4Address) : Except StdError (List Char) :=
  let addressParts := splitChar ip.address '.'
  let netmaskParts := splitChar ip.netmask '.'
  if addressParts.length ≠ 4 ∨ netmaskParts.length ≠ 4 then .ok []
  else subnetLoop (addressParts.zip netmaskParts) []

variable {s p : List Char} {a m n : Nat} {parts : List (List Char × List Char)} {subnet : List Char}

/-! ### Numbers -/

theorem digit_no_other : ∀ d < 10, isSpace d.digitChar = false ∧ d.digitChar ≠ '-' ∧ d.digitChar ≠ '+' := by
  decide

theorem stoul_of_isNumber (hp : IsNumber p) (hlt : value p < 2 ^ 64) : stoul p = .ok (value p) := by
  obtain ⟨c, t, rfl⟩ := List.exists_cons_of_ne_nil hp.ne_nil
  obtain ⟨d, hd, rfl⟩ := exists_digitChar (hp.digits c List.mem_cons_self)
  obtain ⟨hspace, hminus, hplus⟩ := digit_no_other d hd
  have hskip : (d.digitChar :: t).dropWhile isSpace = d.digitChar :: t :=
    List.dropWhile_cons_of_neg (by rw [hspace]; exact Bool.false_ne_true)
  have hall : (d.digitChar :: t).takeWhile Char.isDigit = d.digitChar :: t :=
    List.takeWhile_eq_self_iff.mpr hp.digits
  rw [stoul, hskip]
  simp only [List.head?_cons, Option.some.injEq, hminus, hplus, or_self, if_false, hall, reduceCtorEq]
  rw [if_neg (Nat.not_le.mpr hlt)]

/-! ### Octets -/

theorem octets_and (a m : Nat) : octets (a &&& m) = (octets a).zipWith (· &&& ·) (octets m) := by
  have hoctet (k : Nat) : (a &&& m) / 2 ^ k % 256 = a / 2 ^ k % 256 &&& m / 2 ^ k % 256 := by
    have hbits : 256 = 2 ^ 8 := rfl
    rw [Nat.and_div_two_pow, hbits, Nat.and_mod_two_pow]
  have hlast := hoctet 0
  simp only [Nat.pow_zero, Nat.div_one] at hlast
  simp only [octets, hoctet, hlast, List.zipWith_cons_cons, List.zipWith_nil_left]

/-- The octets as the loop puts them together, each with a dot behind. -/
def withDots (os : List Nat) : List Char := (os.map fun o => print o ++ ['.']).flatten

theorem dropLast_withDots {os : List Nat} (hos : os ≠ []) :
    (withDots os).dropLast = ['.'].intercalate (os.map print) := by
  induction os with
  | nil => contradiction
  | cons o os ih =>
    by_cases hnil : os = []
    · subst hnil
      simp [withDots]
    · have hne : withDots os ≠ [] := by
        obtain ⟨o', os', rfl⟩ := List.exists_cons_of_ne_nil hnil
        simp [withDots]
      have hrest : withDots (o :: os) = print o ++ ['.'] ++ withDots os := by
        rw [withDots, List.map_cons, List.flatten_cons, withDots]
      rw [hrest, List.dropLast_append_of_ne_nil hne, ih hnil, List.map_cons, List.intercalate_cons_of_ne_nil]
      simpa using hnil

theorem subnetLoop_of_numbers (subnet : List Char)
    (h : ∀ x ∈ parts, (IsNumber x.1 ∧ value x.1 < 256) ∧ IsNumber x.2 ∧ value x.2 < 256) :
    subnetLoop parts subnet = .ok (subnet ++ withDots (parts.map fun x => value x.1 &&& value x.2)).dropLast := by
  induction parts generalizing subnet with
  | nil => simp [subnetLoop, withDots]
  | cons x parts ih =>
    obtain ⟨hx, hparts⟩ := List.forall_mem_cons.mp h
    obtain ⟨⟨ha, halt⟩, hm, hmlt⟩ := hx
    rw [subnetLoop, stoul_of_isNumber ha (by omega), stoul_of_isNumber hm (by omega)]
    dsimp only [bind, Except.bind]
    rw [Nat.mod_eq_of_lt (by omega), Nat.mod_eq_of_lt (by omega), if_neg (by omega)]
    rw [ih _ hparts]
    simp [withDots]

/-! ### The subnet of two quads -/

theorem getSubnet_of_quads {address netmask : List Char} (ha : Quad address a) (hm : Quad netmask m) :
    getSubnet ⟨address, netmask⟩ = .ok (dotted (a &&& m)) := by
  obtain ⟨as, has⟩ := ha
  obtain ⟨ms, hms⟩ := hm
  have hparts : ∀ x ∈ as.zip ms, (IsNumber x.1 ∧ value x.1 < 256) ∧ IsNumber x.2 ∧ value x.2 < 256 := by
    intro x hx
    exact ⟨has.octet x.1 (List.of_mem_zip hx).1, hms.octet x.2 (List.of_mem_zip hx).2⟩
  have hvalues : (as.zip ms).map (fun x => value x.1 &&& value x.2) = octets (a &&& m) := by
    rw [octets_and, ← has.values, ← hms.values, List.zipWith_map, List.zip, List.map_zipWith]
  have hne : octets (a &&& m) ≠ [] := List.cons_ne_nil _ _
  have hlengtha := has.length
  have hlengthm := hms.length
  rw [getSubnet]
  dsimp only
  rw [has.splitChar_eq, hms.splitChar_eq, if_neg (by omega), subnetLoop_of_numbers [] hparts, hvalues, List.nil_append,
    dropLast_withDots hne]
  rfl

theorem Quad.lt {s : List Char} (h : Quad s n) : n < 2 ^ 32 := by
  obtain ⟨parts, hparts⟩ := h
  exact hparts.lt

theorem and_eq_and_iff {a b m : Nat} :
    a &&& m = b &&& m ↔ ∀ i, m.testBit i = true → a.testBit i = b.testBit i := by
  constructor
  · intro h i hi
    have hbit := congrArg (·.testBit i) h
    simpa only [Nat.testBit_and, hi, Bool.and_true] using hbit
  · intro h
    apply Nat.eq_of_testBit_eq
    intro i
    rw [Nat.testBit_and, Nat.testBit_and]
    cases hi : m.testBit i with
    | false => rw [Bool.and_false, Bool.and_false]
    | true => rw [h i hi]

/-- **The subnet**: the address bits under the netmask. Taking it again changes nothing, and two addresses have the
same subnet if they agree under the netmask. -/
theorem getSubnet_network (address netmask : List Char) (a m : Nat) (ha : Quad address a) (hm : Quad netmask m) :
    getSubnet ⟨address, netmask⟩ = .ok (dotted (a &&& m)) ∧
      (∀ subnet, getSubnet ⟨address, netmask⟩ = .ok subnet → getSubnet ⟨subnet, netmask⟩ = .ok subnet) ∧
      ∀ address' netmask' b, Quad address' b → Quad netmask' m →
        (getSubnet ⟨address, netmask⟩ = getSubnet ⟨address', netmask'⟩ ↔
          ∀ i, m.testBit i = true → a.testBit i = b.testBit i) := by
  have hsubnet := getSubnet_of_quads ha hm
  have hlt : a &&& m < 2 ^ 32 := Nat.lt_of_le_of_lt Nat.and_le_left ha.lt
  refine ⟨hsubnet, fun subnet h => ?_, fun address' netmask' b hb hm' => ?_⟩
  · rw [hsubnet, Except.ok.injEq] at h
    subst h
    rw [getSubnet_of_quads (denotes_dotted hlt).quad hm, Nat.and_assoc, Nat.and_self]
  · have hlt' : b &&& m < 2 ^ 32 := Nat.lt_of_le_of_lt Nat.and_le_left hb.lt
    rw [hsubnet, getSubnet_of_quads hb hm', Except.ok.injEq, ← and_eq_and_iff]
    constructor
    · exact dotted_injective hlt hlt'
    · exact congrArg dotted

theorem getSubnet_network_gap :
    getSubnet ⟨"172.130.1.2".toList, "255.128.0.2".toList⟩ =
      .ok (dotted (ofOctets [172, 130, 1, 2] &&& ofOctets [255, 128, 0, 2])) :=
  (getSubnet_network "172.130.1.2".toList "255.128.0.2".toList (ofOctets [172, 130, 1, 2]) (ofOctets [255, 128, 0, 2])
    (denotes_iff_split.mpr (by decide +kernel)).quad (denotes_iff_split.mpr (by decide +kernel)).quad).1

/-! ### Anything else -/

/-- `std::stoul` does not throw. -/
def Converts (p : List Char) : Prop := ∃ v, stoul p = .ok v

/-- The value, narrowed to 32 bits, is no octet. -/
def TooLarge (p : List Char) : Prop := ∃ v, stoul p = .ok v ∧ 255 < v % 2 ^ 32

/-- A pair of parts is found too large before anything is thrown. -/
def Rejects (parts : List (List Char × List Char)) : Prop :=
  ∃ before x after, parts = before ++ x :: after ∧ (∀ y ∈ before, Converts y.1 ∧ Converts y.2) ∧
    (Converts x.1 ∧ Converts x.2) ∧ (TooLarge x.1 ∨ TooLarge x.2)

theorem tooLarge_iff {v : Nat} (h : stoul p = .ok v) : TooLarge p ↔ 255 < v % 2 ^ 32 := by
  constructor
  · rintro ⟨w, hw, hlarge⟩
    rw [h, Except.ok.injEq] at hw
    rwa [hw]
  · exact fun hlarge => ⟨v, h, hlarge⟩

theorem rejects_cons_iff {x : List Char × List Char} : Rejects (x :: parts) ↔
    (Converts x.1 ∧ Converts x.2) ∧ ((TooLarge x.1 ∨ TooLarge x.2) ∨ Rejects parts) := by
  constructor
  · rintro ⟨before, y, after, heq, hbefore, hy, hlarge⟩
    cases before with
    | nil =>
      obtain ⟨rfl, rfl⟩ := List.cons.inj heq
      exact ⟨hy, Or.inl hlarge⟩
    | cons z before =>
      obtain ⟨rfl, rfl⟩ := List.cons.inj heq
      obtain ⟨hz, hbefore⟩ := List.forall_mem_cons.mp hbefore
      exact ⟨hz, Or.inr ⟨before, y, after, rfl, hbefore, hy, hlarge⟩⟩
  · rintro ⟨hx, hlarge | ⟨before, y, after, rfl, hbefore, hy, hlarge⟩⟩
    · exact ⟨[], x, parts, rfl, List.forall_mem_nil _, hx, hlarge⟩
    · exact ⟨x :: before, y, after, rfl, List.forall_mem_cons.mpr ⟨hx, hbefore⟩, hy, hlarge⟩

/-- Once there is an octet the loop returns nothing but for parts that are too large. -/
theorem subnetLoop_eq_nil_iff (hsubnet : parts ≠ [] ∨ 2 ≤ subnet.length) :
    subnetLoop parts subnet = .ok [] ↔ Rejects parts := by
  induction parts generalizing subnet with
  | nil =>
    have hlength : 2 ≤ subnet.length := hsubnet.resolve_left (not_not.mpr rfl)
    rw [subnetLoop, Except.ok.injEq]
    constructor
    · intro h
      have hdrop := congrArg List.length h
      rw [List.length_dropLast, List.length_nil] at hdrop
      omega
    · rintro ⟨before, x, after, heq, -⟩
      exact absurd heq.symm (by simp)
  | cons x parts ih =>
    rw [rejects_cons_iff, subnetLoop]
    cases ha : stoul x.1 with
    | error e =>
      refine iff_of_false (fun h => by contradiction) ?_
      rintro ⟨⟨⟨v, hv⟩, -⟩, -⟩
      rw [ha] at hv
      contradiction
    | ok v =>
      cases hm : stoul x.2 with
      | error e =>
        refine iff_of_false (fun h => by contradiction) ?_
        rintro ⟨⟨-, w, hw⟩, -⟩
        rw [hm] at hw
        contradiction
      | ok w =>
        have hnext : 2 ≤ (subnet ++ (print (v % 2 ^ 32 &&& w % 2 ^ 32) ++ ['.'])).length := by
          have hpos := List.length_pos_of_ne_nil (isNumber_print (v % 2 ^ 32 &&& w % 2 ^ 32)).ne_nil
          simp only [List.length_append, List.length_singleton]
          omega
        rw [and_iff_right ⟨⟨v, ha⟩, w, hm⟩, tooLarge_iff ha, tooLarge_iff hm, ← ih (Or.inr hnext)]
        dsimp only [bind, Except.bind]
        by_cases hlarge : 255 < v % 2 ^ 32 ∨ 255 < w % 2 ^ 32
        · rw [if_pos hlarge]
          exact iff_of_true rfl (Or.inl hlarge)
        · rw [if_neg hlarge]
          exact (or_iff_right hlarge).symm

/-- **What `getSubnet` rejects quietly**: strings without four parts, and parts that are too large where all parts up to
them are numbers to `std::stoul`. -/
theorem getSubnet_rejects_iff (ip : Ipv4Address) :
    getSubnet ip = .ok [] ↔ (splitChar ip.address '.').length ≠ 4 ∨ (splitChar ip.netmask '.').length ≠ 4 ∨
      Rejects ((splitChar ip.address '.').zip (splitChar ip.netmask '.')) := by
  rw [getSubnet, ← or_assoc]
  by_cases hlength : (splitChar ip.address '.').length ≠ 4 ∨ (splitChar ip.netmask '.').length ≠ 4
  · rw [if_pos hlength]
    exact iff_of_true rfl (Or.inl hlength)
  · have hne : (splitChar ip.address '.').zip (splitChar ip.netmask '.') ≠ [] := by
      intro hnil
      have hzip := congrArg List.length hnil
      rw [List.length_zip, List.length_nil] at hzip
      omega
    rw [if_neg hlength, or_iff_right hlength, subnetLoop_eq_nil_iff (Or.inl hne)]

theorem Quad.octet {s : List Char} (h : Quad s n) : ∀ p ∈ splitChar s '.', IsNumber p ∧ value p < 256 := by
  obtain ⟨parts, hparts⟩ := h
  rw [hparts.splitChar_eq]
  exact hparts.octet

/-- Letters throw; `2 ^ 32 + 1` and trailing characters are taken for an address. -/
theorem getSubnet_no_quad :
    (¬ ∃ n, Quad "a.2.3.4".toList n) ∧ (¬ ∃ n, Quad "4294967297.2.3.4x".toList n) ∧
      getSubnet ⟨"a.2.3.4".toList, "255.255.255.255".toList⟩ ≠ .ok [] ∧
      getSubnet ⟨"4294967297.2.3.4x".toList, "255.255.255.255".toList⟩ ≠ .ok [] := by
  refine ⟨?_, ?_, by decide +kernel, by decide +kernel⟩
  · rintro ⟨n, hn⟩
    exact absurd hn.octet (by decide +kernel)
  · rintro ⟨n, hn⟩
    exact absurd hn.octet (by decide +kernel)

end Libhbk.Ipv4Address
