import Libhbk.Communication.Ipv6Address
import Libhbk.Communication.Subnet

/-!
# Link local addresses from MAC addresses

`linkLocalFromMac` reads only the first part of a MAC address as a number and copies the other parts. The text is put
together from groups of which the first one may have lost its leading zeros.
-/

namespace Libhbk.Ipv6Address

open BigEndian Occurrence Strings
open Ipv4Address (StdError isSpace cStr cStr_eq)

/-- Behind the sign, `0x` is skipped if there is a digit behind it. -/
def skipHexMark : List Char → List Char
  | '0' :: x :: c :: s => if (x = 'x' ∨ x = 'X') ∧ Hex.isDigit c then c :: s else '0' :: x :: c :: s
  | s => s

/-- `std::stoul(s, 0, 16)`, with an `unsigned long` of 64 bits. A minus sign negates the unsigned number. -/
def stoulHex (s : List Char) : Except StdError Nat :=
  let s := s.dropWhile isSpace
  let digits := (skipHexMark (if s.head? = some '-' ∨ s.head? = some '+' then s.tail else s)).takeWhile Hex.isDigit
  if digits = [] then .error .invalidArgument
  else if 2 ^ 64 ≤ Hex.value digits then .error .outOfRange
  else .ok (if s.head? = some '-' then (2 ^ 64 - Hex.value digits) % 2 ^ 64 else Hex.value digits)

inductive Thrown
  /-- `std::runtime_error` -/
  | runtimeError (what : String)
  /-- What `std::stoul` throws is no `std::runtime_error`. -/
  | std (e : StdError)
  deriving DecidableEq

def linkLocalFromMac (macAddress : List Char) : Except Thrown (List Char) :=
  match splitChar macAddress ':' with
  | [t0, t1, t2, t3, t4, t5] =>
    match stoulHex t0 with
    | .error e => .error (.std e)
    | .ok number =>
      -- narrowed to `unsigned int`
      let part := number % 2 ^ 32 ^^^ 1 <<< 1
      .ok ("fe80::".toList ++ (Hex.print part ++ t1 ++ ":".toList ++ (t2 ++ "ff:fe".toList ++ t3 ++ ":".toList ++ (t4 ++ t5))))
  | _ => .error (.runtimeError "not a valid MAC address")

/-- Six parts of two hexadecimal digits, separated by colons. -/
structure MacParts (macAddress : List Char) (parts : List (List Char)) : Prop where
  eq : macAddress = [':'].intercalate parts
  length : parts.length = 6
  octet : ∀ p ∈ parts, Hex.IsNumber p ∧ p.length = 2

def IsMac (macAddress : List Char) : Prop := ∃ parts, MacParts macAddress parts

/-- The interface identifier of six octets behind fe80::/64. -/
def eui64 (os : List Nat) : Nat :=
  ofDigits 256 ([0xfe, 0x80, 0, 0, 0, 0, 0, 0] ++ ((os.take 3).modifyHead (· ^^^ 2) ++ ([0xff, 0xfe] ++ os.drop 3)))

variable {s p mac : List Char} {parts : List (List Char)}

/-! ### The first part -/

theorem skipHexMark_pair (c d : Char) : skipHexMark [c, d] = [c, d] := by
  unfold skipHexMark
  split
  · next heq => simp at heq
  · rfl

theorem digit_no_space {c : Char} (hc : Hex.isDigit c) : isSpace c = false := by
  have hall : " \t\n\x0b\x0c\r".toList.all (fun c => !Hex.isDigit c) = true := by decide
  rw [Bool.eq_false_iff]
  intro hspace
  have hnot := List.all_eq_true.mp hall c (List.contains_iff_mem.mp hspace)
  rw [hc] at hnot
  contradiction

theorem value_lt_256 (hlength : p.length = 2) : Hex.value p < 256 := by
  have hlt := Hex.value_lt p
  rwa [hlength] at hlt

theorem stoulHex_of_octet (hp : Hex.IsNumber p) (hlength : p.length = 2) : stoulHex p = .ok (Hex.value p) := by
  have hlt : Hex.value p < 2 ^ 64 := Nat.lt_trans (value_lt_256 hlength) (by decide)
  match p, hlength with
  | [c, d], _ =>
    have hc := hp.digits c List.mem_cons_self
    have hminus : c ≠ '-' := by
      rintro rfl
      exact absurd hc (by decide)
    have hplus : c ≠ '+' := by
      rintro rfl
      exact absurd hc (by decide)
    have hskip : [c, d].dropWhile isSpace = [c, d] :=
      List.dropWhile_cons_of_neg (by rw [digit_no_space hc]; exact Bool.false_ne_true)
    have hall : [c, d].takeWhile Hex.isDigit = [c, d] := List.takeWhile_eq_self_iff.mpr hp.digits
    rw [stoulHex, hskip]
    simp only [List.head?_cons, Option.some.injEq, hminus, hplus, or_self, if_false, skipHexMark_pair, hall,
      reduceCtorEq]
    rw [if_neg (Nat.not_le.mpr hlt)]

/-! ### The text -/

theorem MacParts.splitChar_eq (h : MacParts mac parts) : splitChar mac ':' = parts := by
  have hne : parts ≠ [] := by
    rintro rfl
    exact absurd h.length (by decide)
  rw [Strings.splitChar_eq, h.eq]
  exact (pieces_split (List.cons_ne_nil _ _) _).unique
    (pieces_intercalate_singleton hne fun p hp => (h.octet p hp).1.not_mem (by decide))

/-- The groups behind `fe80::`. -/
def interfaceGroups : List (List Char) → List (List Char)
  | [t0, t1, t2, t3, t4, t5] =>
    [Hex.print (Hex.value t0 ^^^ 2) ++ t1, t2 ++ "ff".toList, "fe".toList ++ t3, t4 ++ t5]
  | _ => []

theorem linkLocalFromMac_eq (h : MacParts mac parts) :
    linkLocalFromMac mac = .ok ("fe80".toList ++ ([':', ':'] ++ [':'].intercalate (interfaceGroups parts))) := by
  have hsplit := h.splitChar_eq
  have hoctet := h.octet
  match parts, h.length with
  | [t0, t1, t2, t3, t4, t5], _ =>
    obtain ⟨h0, l0⟩ := hoctet t0 List.mem_cons_self
    have hlt := value_lt_256 l0
    have hpart : Hex.value t0 % 2 ^ 32 ^^^ 1 <<< 1 = Hex.value t0 ^^^ 2 := by
      rw [Nat.mod_eq_of_lt (by omega)]
      rfl
    rw [linkLocalFromMac, hsplit]
    simp only [stoulHex_of_octet h0 l0, hpart, interfaceGroups]
    simp

theorem words_interfaceGroups (h : MacParts mac parts) :
    Words true (interfaceGroups parts) ((interfaceGroups parts).map Hex.value) ∧ (interfaceGroups parts).length = 4 := by
  have hoctet := h.octet
  match parts, h.length with
  | [t0, t1, t2, t3, t4, t5], _ =>
    simp only [List.forall_mem_cons, List.not_mem_nil, false_imp_iff, implies_true, and_true] at hoctet
    obtain ⟨⟨-, l0⟩, ⟨h1, l1⟩, ⟨h2, l2⟩, ⟨h3, l3⟩, ⟨h4, l4⟩, h5, l5⟩ := hoctet
    have hprint : (Hex.print (Hex.value t0 ^^^ 2)).length ≤ 2 :=
      (Hex.length_print_le (by decide)).mpr (Nat.xor_lt_two_pow (n := 8) (value_lt_256 l0) (by decide))
    have hff : Hex.IsNumber "ff".toList := by decide
    have hfe : Hex.IsNumber "fe".toList := by decide
    refine ⟨.group ⟨(Hex.isNumber_print _).append h1, ?_⟩ (.group ⟨h2.append hff, ?_⟩
      (.group ⟨hfe.append h3, ?_⟩ (.group ⟨h4.append h5, ?_⟩ .nil))), rfl⟩
    · rw [List.length_append]
      omega
    · rw [List.length_append, l2]
      decide
    · rw [List.length_append, l3]
      decide
    · rw [List.length_append, l4, l5]

theorem ofDigits_interfaceGroups (h : MacParts mac parts) :
    ofDigits (2 ^ 16) (fill [0xfe80] ((interfaceGroups parts).map Hex.value)) = eui64 (parts.map Hex.value) := by
  have hoctet := h.octet
  match parts, h.length with
  | [t0, t1, t2, t3, t4, t5], _ =>
    simp only [List.forall_mem_cons, List.not_mem_nil, false_imp_iff, implies_true, and_true] at hoctet
    obtain ⟨-, ⟨-, l1⟩, -, ⟨-, l3⟩, -, -, l5⟩ := hoctet
    have hff : Hex.value "ff".toList = 0xff ∧ "ff".toList.length = 2 := by decide
    have hfe : Hex.value "fe".toList = 0xfe := by decide
    simp only [interfaceGroups, List.map_cons, List.map_nil, Hex.value_append, Hex.value_print, l1, l3, l5, hff, hfe]
    simp only [fill, eui64, ofDigits, List.length_cons, List.length_nil, List.replicate, List.cons_append,
      List.nil_append, List.foldl_cons, List.foldl_nil, List.take, List.drop, List.modifyHead_cons]
    omega

theorem denotes_linkLocal (h : MacParts mac parts) :
    Denotes ("fe80".toList ++ ([':', ':'] ++ [':'].intercalate (interfaceGroups parts))) (eui64 (parts.map Hex.value)) := by
  obtain ⟨hwords, hlength⟩ := words_interfaceGroups h
  have hleft : Half false "fe80".toList [0xfe80] := ⟨["fe80".toList], .group (by decide) .nil, rfl⟩
  rw [← ofDigits_interfaceGroups h]
  exact .compressed hleft ⟨_, hwords, rfl⟩ (by rw [List.length_map, hlength]; decide)

/-! ### The 128 bits -/

theorem eui64_injective {os os' : List Nat} (hlength : os.length = os'.length) (hos : ∀ o ∈ os, o < 256)
    (hos' : ∀ o ∈ os', o < 256) (h : eui64 os = eui64 os') : os = os' := by
  have hflip {os : List Nat} (hos : ∀ o ∈ os, o < 256) : ∀ o ∈ (os.take 3).modifyHead (· ^^^ 2), o < 256 := by
    cases os with
    | nil => simp
    | cons o os =>
      obtain ⟨ho, hos⟩ := List.forall_mem_cons.mp hos
      rw [List.take_succ_cons, List.modifyHead_cons, List.forall_mem_cons]
      exact ⟨Nat.xor_lt_two_pow (n := 8) ho (by decide), fun o h => hos o (List.mem_of_mem_take h)⟩
  have hlt {os : List Nat} (hos : ∀ o ∈ os, o < 256) : ∀ o ∈ [0xfe, 0x80, 0, 0, 0, 0, 0, 0] ++
      ((os.take 3).modifyHead (· ^^^ 2) ++ ([0xff, 0xfe] ++ os.drop 3)), o < 256 := by
    simp only [List.forall_mem_append]
    exact ⟨by decide, hflip hos, by decide, fun o h => hos o (List.mem_of_mem_drop h)⟩
  have hunflip (os : List Nat) : ((os.modifyHead (· ^^^ 2)).modifyHead (· ^^^ 2)) = os := by
    rw [List.modifyHead_modifyHead]
    cases os with
    | nil => rfl
    | cons o os => simp
  rw [eui64, eui64, ofDigits_injective (by decide) (by simp [hlength]) (hlt hos) (hlt hos')] at h
  obtain ⟨hhead, htail⟩ := List.append_inj (List.append_cancel_left h) (by simp [hlength])
  have htake := congrArg (List.modifyHead (· ^^^ 2)) hhead
  rw [hunflip, hunflip] at htake
  rw [← List.take_append_drop 3 os, htake, List.append_cancel_left htail, List.take_append_drop]

theorem MacParts.toLower_eq {mac' : List Char} {parts' : List (List Char)} (h : MacParts mac parts)
    (h' : MacParts mac' parts') (hvalues : parts.map Hex.value = parts'.map Hex.value) :
    mac.map Char.toLower = mac'.map Char.toLower := by
  have hlower : parts.map (List.map Char.toLower) = parts'.map (List.map Char.toLower) := by
    have hpair {p q : List Char} (hp : Hex.IsNumber p ∧ p.length = 2) (hq : Hex.IsNumber q ∧ q.length = 2)
        (heq : Hex.value p = Hex.value q) : p.map Char.toLower = q.map Char.toLower :=
      (Hex.value_eq_iff (by rw [hp.2, hq.2]) hp.1.digits hq.1.digits).mp heq
    have hp := h.octet
    have hq := h'.octet
    clear h h'
    induction parts generalizing parts' with
    | nil => rw [List.map_eq_nil_iff.mp hvalues.symm]
    | cons p parts ih =>
      obtain ⟨q, parts', rfl, heq, htail⟩ := List.map_eq_cons_iff.mp hvalues.symm
      obtain ⟨hp, hparts⟩ := List.forall_mem_cons.mp hp
      obtain ⟨hq, hparts'⟩ := List.forall_mem_cons.mp hq
      rw [List.map_cons, List.map_cons, hpair hp hq heq.symm, ih htail.symm hparts hparts']
  have hjoin (ps : List (List Char)) :
      ([':'].intercalate ps).map Char.toLower = [':'].intercalate (ps.map (List.map Char.toLower)) := by
    induction ps with
    | nil => rfl
    | cons p ps ih =>
      by_cases hnil : ps = []
      · subst hnil
        simp
      · rw [List.map_cons, List.intercalate_cons_of_ne_nil hnil, List.intercalate_cons_of_ne_nil (by simpa using hnil),
          List.map_append, List.map_append, ih]
        rfl
  rw [h.eq, h'.eq, hjoin, hjoin, hlower]

theorem MacParts.octet_lt (h : MacParts mac parts) : ∀ o ∈ parts.map Hex.value, o < 256 :=
  List.forall_mem_map.mpr fun p hp => value_lt_256 (h.octet p hp).2

/-- **EUI-64**: the text is an IPv6 address that begins with `fe80::`, its 128 bits tell MAC addresses apart. -/
theorem linkLocalFromMac_eui64 (inet : Inet6) (mac : List Char) (parts : List (List Char)) (h : MacParts mac parts) :
    ∃ text, linkLocalFromMac mac = .ok text ∧ Denotes text (eui64 (parts.map Hex.value)) ∧
      isLinkLocalAddress inet text = true ∧
      ∀ mac' text' n, IsMac mac' → linkLocalFromMac mac' = .ok text' → Denotes text n → Denotes text' n →
        mac.map Char.toLower = mac'.map Char.toLower := by
  have hdenotes := denotes_linkLocal h
  refine ⟨_, linkLocalFromMac_eq h, hdenotes, ?_, ?_⟩
  · rw [isLinkLocalAddress_iff, cStr_eq (hdenotes.not_mem (by decide) (by decide) (by decide))]
    exact ⟨⟨_, hdenotes⟩, rfl⟩
  · rintro mac' text' n ⟨parts', h'⟩ htext hn hn'
    rw [linkLocalFromMac_eq h', Except.ok.injEq] at htext
    subst htext
    have heq := (hdenotes.unique hn).trans (hn'.unique (denotes_linkLocal h'))
    refine h.toLower_eq h' (eui64_injective ?_ h.octet_lt h'.octet_lt heq)
    rw [List.length_map, List.length_map, h.length, h'.length]

theorem isMac_iff : IsMac mac ↔
    (splitChar mac ':').length = 6 ∧ ∀ p ∈ splitChar mac ':', Hex.IsNumber p ∧ p.length = 2 := by
  constructor
  · rintro ⟨parts, h⟩
    rw [h.splitChar_eq]
    exact ⟨h.length, h.octet⟩
  · rintro ⟨hlength, hoctet⟩
    refine ⟨splitChar mac ':', ?_, hlength, hoctet⟩
    rw [Strings.splitChar_eq]
    exact (pieces_split (List.cons_ne_nil _ _) mac).intercalate.symm

instance (mac : List Char) : Decidable (IsMac mac) := decidable_of_iff _ isMac_iff.symm

theorem linkLocalFromMac_eui64_example :
    ∃ text, linkLocalFromMac "02:00:0e:74:00:08".toList = .ok text ∧
      Denotes text (eui64 [0x02, 0x00, 0x0e, 0x74, 0x00, 0x08]) ∧ isLinkLocalAddress .reference text = true ∧
      ∀ mac' text' n, IsMac mac' → linkLocalFromMac mac' = .ok text' → Denotes text n → Denotes text' n →
        "02:00:0e:74:00:08".toList = mac'.map Char.toLower :=
  linkLocalFromMac_eui64 .reference "02:00:0e:74:00:08".toList
    ["02".toList, "00".toList, "0e".toList, "74".toList, "00".toList, "08".toList]
    ⟨by decide, by decide, by decide +kernel⟩

example : linkLocalFromMac "cA:00:0e:74:00:08".toList = .ok "fe80::c800:0eff:fe74:0008".toList := by decide +kernel

/-! ### What is no MAC address -/

theorem linkLocalFromMac_runtimeError_iff :
    (∃ what, linkLocalFromMac mac = .error (.runtimeError what)) ↔ (splitChar mac ':').length ≠ 6 := by
  unfold linkLocalFromMac
  split
  · next heq =>
    rw [heq]
    refine iff_of_false ?_ (not_not.mpr rfl)
    rintro ⟨what, h⟩
    split at h
    · simp at h
    · simp at h
  · next hother =>
    refine iff_of_true ⟨_, rfl⟩ fun hlength => ?_
    match hparts : splitChar mac ':', hlength with
    | [t0, t1, t2, t3, t4, t5], _ => exact hother t0 t1 t2 t3 t4 t5 hparts

/-- **Only parts are counted**: a text that is no MAC address is rejected as documented exactly if it has other than
five colons. -/
theorem linkLocalFromMac_rejects_iff (mac : List Char) :
    (¬ IsMac mac → ∃ what, linkLocalFromMac mac = .error (.runtimeError what)) ↔ IsMac mac ∨ mac.count ':' ≠ 5 := by
  have hcount : (splitChar mac ':').length ≠ 6 ↔ mac.count ':' ≠ 5 := by
    rw [length_splitChar]
    omega
  rw [linkLocalFromMac_runtimeError_iff, hcount]
  exact Decidable.or_iff_not_imp_left.symm

/-- The last part is no number, and its text is returned. -/
theorem linkLocalFromMac_takes_letters :
    ¬ (¬ IsMac "11:22:33:44:55:6g".toList →
      ∃ what, linkLocalFromMac "11:22:33:44:55:6g".toList = .error (.runtimeError what)) := by
  rw [linkLocalFromMac_runtimeError_iff]
  decide +kernel

end Libhbk.Ipv6Address
