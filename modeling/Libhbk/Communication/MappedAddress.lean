import Libhbk.Communication.Ipv6Address
import Libhbk.Communication.Subnet

/-!
# IPv4 mapped addresses

`getIpv4MappedAddress` looks for `::ffff:` in front and leaves the rest to `inet_aton` or to `inet_pton`. Both count three
dots first, but `inet_aton` takes other numbers than decimal ones, and anything behind a white space.
-/

namespace Libhbk.Ipv6Address

open BigEndian Occurrence Strings
open Ipv4Address (Inet Quad isSpace cStr cStr_eq ofOctets octets)

/-- A part of an address to `inet_aton`: decimal, octal behind `0`, hexadecimal behind `0x`. -/
def atonPart : List Char → Option Nat
  | '0' :: x :: digits =>
    if x = 'x' ∨ x = 'X' then if Hex.IsNumber digits then some (Hex.value digits) else none
    else if (x :: digits).all fun c => c.isDigit && decide (c < '8') then some (Nat.ofDigitChars 8 (x :: digits) 0)
    else none
  | p => if Decimal.IsNumber p then some (Decimal.value p) else none

/-- `inet_aton`: the last part has all the bits that are left. What is behind a white space does not matter. -/
def inetAton (s : List Char) : Option Nat :=
  match (splitChar (s.takeWhile fun c => !isSpace c) '.').mapM atonPart with
  | some [a] => if a < 2 ^ 32 then some a else none
  | some [a, b] => if a < 256 ∧ b < 2 ^ 24 then some (a * 2 ^ 24 + b) else none
  | some [a, b, c] => if a < 256 ∧ b < 256 ∧ c < 2 ^ 16 then some ((a * 256 + b) * 2 ^ 16 + c) else none
  | some [a, b, c, d] =>
    if a < 256 ∧ b < 256 ∧ c < 256 ∧ d < 256 then some (ofOctets [a, b, c, d]) else none
  | _ => none

def hybridIpv4AddressPrefix : List Char := "::ffff:".toList

/-- The conversion that is tried differs between the platforms. -/
def mappedAddress (converts : List Char → Bool) (address : List Char) : List Char :=
  let addressPrefix := substr address 0 (some hybridIpv4AddressPrefix.length)
  if addressPrefix ≠ hybridIpv4AddressPrefix then []
  else
    let ipv4Address := substr address hybridIpv4AddressPrefix.length none
    if ipv4Address.count '.' ≠ 3 then []
    else if ¬ converts (cStr ipv4Address) then []
    else ipv4Address

/-- `getIpv4MappedAddress` on Linux. -/
def getIpv4MappedAddress (address : List Char) : List Char := mappedAddress (fun s => (inetAton s).isSome) address

/-- `getIpv4MappedAddress` on Windows. -/
def getIpv4MappedAddressWindows (inet : Inet) (address : List Char) : List Char :=
  mappedAddress (fun s => (inet.inetPton s).isSome) address

/-- `s` is an IPv6 text for an IPv4 mapped address that ends in the quad `r`. -/
structure Maps (s r : List Char) (n : Nat) : Prop where
  address : Denotes s (0xffff * 2 ^ 32 + n)
  quad : Ipv4Address.Denotes r n
  suffix : r <:+ s

variable {converts : List Char → Bool} {s t p : List Char} {n : Nat}

/-! ### Both conversions take quads -/

theorem atonPart_of_octet (hp : Decimal.IsNumber p) (hzero : Decimal.NoLeadingZero p) :
    atonPart p = some (Decimal.value p) := by
  unfold atonPart
  split
  · have hsingle := hzero rfl
    simp at hsingle
  · rw [if_pos hp]

theorem inetAton_of_denotes (h : Ipv4Address.Denotes s n) : inetAton s = some n := by
  have hspace : s.takeWhile (fun c => !isSpace c) = s := by
    have hall : " \t\n\x0b\x0c\r".toList.all (fun c => !c.isDigit && decide (c ≠ '.')) = true := by decide
    rw [List.takeWhile_eq_self_iff]
    intro c hc
    by_contra hspace
    rw [Bool.not_eq_true, Bool.not_eq_false'] at hspace
    have hother := List.all_eq_true.mp hall c (List.contains_iff_mem.mp hspace)
    rw [Bool.and_eq_true, Bool.not_eq_true', decide_eq_true_eq] at hother
    exact h.not_mem hother.1 hother.2 hc
  obtain ⟨parts, hparts, hzero⟩ := h
  have hmap : parts.mapM atonPart = some (parts.map Decimal.value) := by
    have hnumber := hparts.number
    clear hparts
    induction parts with
    | nil => rfl
    | cons p parts ih =>
      obtain ⟨hp, hparts⟩ := List.forall_mem_cons.mp hnumber
      obtain ⟨hpzero, hpartszero⟩ := List.forall_mem_cons.mp hzero
      rw [List.mapM_cons, atonPart_of_octet hp hpzero, ih hpartszero hparts]
      rfl
  rw [inetAton, hspace, hparts.splitChar_eq, hmap, hparts.values]
  simp only [octets]
  rw [if_pos (by omega)]
  exact congrArg some (Ipv4Address.ofOctets_octets hparts.lt)

theorem inetPton_isSome_iff (inet : Inet) (h : '\x00' ∉ s) :
    (inet.inetPton (cStr s)).isSome = true ↔ ∃ n, Ipv4Address.Denotes s n := by
  obtain ⟨x, hpton, hx⟩ | ⟨hpton, hnot⟩ := inet.inetPton_cases s h
  · rw [hpton]
    exact iff_of_true rfl ⟨_, hx⟩
  · rw [hpton]
    simp [hnot]

/-! ### The texts that are accepted -/

theorem mappedAddress_append (converts : List Char → Bool) (h : '\x00' ∉ t) :
    mappedAddress converts (hybridIpv4AddressPrefix ++ t) =
      if t.count '.' = 3 ∧ converts t = true then t else [] := by
  have htake : substr (hybridIpv4AddressPrefix ++ t) 0 (some hybridIpv4AddressPrefix.length) =
      hybridIpv4AddressPrefix := List.take_left
  have hdrop : substr (hybridIpv4AddressPrefix ++ t) hybridIpv4AddressPrefix.length none = t := List.drop_left
  rw [mappedAddress]
  simp only [htake, hdrop, cStr_eq h]
  split_ifs <;> simp_all

theorem mappedAddress_other (converts : List Char → Bool) (h : ∀ t, s ≠ hybridIpv4AddressPrefix ++ t) :
    mappedAddress converts s = [] := by
  rw [mappedAddress, if_pos]
  intro htake
  apply h (s.drop hybridIpv4AddressPrefix.length)
  conv_lhs => rw [← List.take_append_drop hybridIpv4AddressPrefix.length s]
  exact congrArg (· ++ _) htake

theorem maps_of_denotes (h : Ipv4Address.Denotes t n) : Maps (hybridIpv4AddressPrefix ++ t) t n := by
  refine ⟨?_, h, List.suffix_append _ _⟩
  have hlt := (Ipv4Address.denotes_iff.mp h).2
  have htail : Half true ("ffff".toList ++ ':' :: t) [0xffff, n / 2 ^ 16, n % 2 ^ 16] :=
    ⟨["ffff".toList, t], .group (by decide) (.quad rfl h), by simp⟩
  have hdenotes := Denotes.compressed (l := []) ⟨[], .nil, rfl⟩ htail (by simp)
  have hvalue : ofDigits (2 ^ 16) (fill [] [0xffff, n / 2 ^ 16, n % 2 ^ 16]) = 0xffff * 2 ^ 32 + n := by
    simp only [fill, ofDigits, List.length_cons, List.length_nil, List.replicate, List.nil_append, List.cons_append,
      List.foldl_cons, List.foldl_nil]
    omega
  rwa [hvalue] at hdenotes

theorem forall_append_iff {P : List Char → Prop} :
    (∀ u, hybridIpv4AddressPrefix ++ t = hybridIpv4AddressPrefix ++ u → P u) ↔ P t := by
  constructor
  · exact fun h => h t rfl
  · intro h u hu
    rwa [← List.append_cancel_left hu]

theorem getIpv4MappedAddress_append_iff (inet : Inet) (h : '\x00' ∉ t) :
    ((getIpv4MappedAddress (hybridIpv4AddressPrefix ++ t) ≠ [] →
          ∃ n, Maps (hybridIpv4AddressPrefix ++ t) (getIpv4MappedAddress (hybridIpv4AddressPrefix ++ t)) n) ∧
        (getIpv4MappedAddressWindows inet (hybridIpv4AddressPrefix ++ t) ≠ [] →
          ∃ n, Maps (hybridIpv4AddressPrefix ++ t) (getIpv4MappedAddressWindows inet (hybridIpv4AddressPrefix ++ t)) n) ∧
        getIpv4MappedAddress (hybridIpv4AddressPrefix ++ t) =
          getIpv4MappedAddressWindows inet (hybridIpv4AddressPrefix ++ t)) ↔
      (t.count '.' = 3 → (inetAton t).isSome = true → ∃ n, Ipv4Address.Denotes t n) := by
  have hpton : (inet.inetPton t).isSome = true ↔ ∃ n, Ipv4Address.Denotes t n := by
    rw [← cStr_eq h, inetPton_isSome_iff inet h, cStr_eq h]
  rw [getIpv4MappedAddress, getIpv4MappedAddressWindows, mappedAddress_append _ h, mappedAddress_append _ h]
  by_cases hquad : ∃ n, Ipv4Address.Denotes t n
  · -- both take it
    obtain ⟨n, hn⟩ := hquad
    rw [if_pos ⟨hn.count_dot, by rw [inetAton_of_denotes hn]; rfl⟩,
      if_pos ⟨hn.count_dot, hpton.mpr ⟨n, hn⟩⟩]
    exact iff_of_true ⟨fun _ => ⟨n, maps_of_denotes hn⟩, fun _ => ⟨n, maps_of_denotes hn⟩, rfl⟩ fun _ _ => ⟨n, hn⟩
  · have hwindows : ¬ (t.count '.' = 3 ∧ (inet.inetPton t).isSome = true) := fun hcond => hquad (hpton.mp hcond.2)
    rw [if_neg hwindows]
    by_cases hcond : t.count '.' = 3 ∧ (inetAton t).isSome = true
    · rw [if_pos hcond]
      refine iff_of_false (fun hall => ?_) fun hall => hquad (hall hcond.1 hcond.2)
      have hne : t ≠ [] := by
        rintro rfl
        exact absurd hcond.1 (by decide)
      exact hne hall.2.2
    · rw [if_neg hcond]
      exact iff_of_true ⟨fun hne => absurd rfl hne, fun hne => absurd rfl hne, rfl⟩ fun hcount haton =>
        absurd ⟨hcount, haton⟩ hcond

/-- **Mapped addresses**: what is returned is a quad that the text maps, the same on both platforms, exactly if
`inet_aton` takes nothing but quads for what is behind `::ffff:`. -/
theorem getIpv4MappedAddress_iff (inet : Inet) (s : List Char) (h : '\x00' ∉ s) :
    ((getIpv4MappedAddress s ≠ [] → ∃ n, Maps s (getIpv4MappedAddress s) n) ∧
        (getIpv4MappedAddressWindows inet s ≠ [] → ∃ n, Maps s (getIpv4MappedAddressWindows inet s) n) ∧
        getIpv4MappedAddress s = getIpv4MappedAddressWindows inet s) ↔
      ∀ t, s = hybridIpv4AddressPrefix ++ t → t.count '.' = 3 → (inetAton t).isSome = true →
        ∃ n, Ipv4Address.Denotes t n := by
  by_cases hpre : ∃ t, s = hybridIpv4AddressPrefix ++ t
  · obtain ⟨t, rfl⟩ := hpre
    rw [forall_append_iff, getIpv4MappedAddress_append_iff inet fun hmem => h (List.mem_append_right _ hmem)]
  · have hnot : ∀ t, s ≠ hybridIpv4AddressPrefix ++ t := fun t heq => hpre ⟨t, heq⟩
    rw [getIpv4MappedAddress, getIpv4MappedAddressWindows, mappedAddress_other _ hnot, mappedAddress_other _ hnot]
    exact iff_of_true ⟨fun hne => absurd rfl hne, fun hne => absurd rfl hne, rfl⟩ fun t heq => absurd heq (hnot t)

theorem getIpv4MappedAddress_quad :
    (getIpv4MappedAddress "::ffff:192.0.2.128".toList ≠ [] →
        ∃ n, Maps "::ffff:192.0.2.128".toList (getIpv4MappedAddress "::ffff:192.0.2.128".toList) n) ∧
      (getIpv4MappedAddressWindows (.reference false) "::ffff:192.0.2.128".toList ≠ [] →
        ∃ n, Maps "::ffff:192.0.2.128".toList
          (getIpv4MappedAddressWindows (.reference false) "::ffff:192.0.2.128".toList) n) ∧
      getIpv4MappedAddress "::ffff:192.0.2.128".toList =
        getIpv4MappedAddressWindows (.reference false) "::ffff:192.0.2.128".toList := by
  apply (getIpv4MappedAddress_iff (.reference false) "::ffff:192.0.2.128".toList (by decide)).mpr
  intro t heq _ _
  have hsplit : hybridIpv4AddressPrefix ++ "192.0.2.128".toList = hybridIpv4AddressPrefix ++ t := heq
  rw [← List.append_cancel_left hsplit]
  exact ⟨Ipv4Address.ofOctets [192, 0, 2, 128], Ipv4Address.denotes_iff_split.mpr (by decide +kernel)⟩

/-- Octal to `inet_aton`, nothing to `inet_pton`. -/
theorem getIpv4MappedAddress_octal :
    getIpv4MappedAddress "::ffff:010.0.0.1".toList ≠
      getIpv4MappedAddressWindows (.reference false) "::ffff:010.0.0.1".toList := by
  decide +kernel

end Libhbk.Ipv6Address
