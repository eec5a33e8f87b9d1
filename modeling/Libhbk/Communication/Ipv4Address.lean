import Libhbk.Base.Decimal
import Libhbk.Strings.Split
import Mathlib.Data.List.TakeWhile

/-!
# IPv4 addresses

`Quad`: four decimal numbers up to 255, separated by dots, stand for 32 bits. `Denotes` leaves out numbers with
leading zeros; what an address is denoted by is `dotted`. `Inet` are the functions of the C library.
-/

namespace Libhbk

structure Ipv4Address where
  address : List Char
  netmask : List Char
  deriving DecidableEq

namespace Ipv4Address

open Decimal Occurrence Strings

/-- The octets of 32 bits, the uppermost first. -/
def octets (n : Nat) : List Nat := [n / 2 ^ 24 % 256, n / 2 ^ 16 % 256, n / 2 ^ 8 % 256, n % 256]

def ofOctets (l : List Nat) : Nat := l.foldl (fun n o => 256 * n + o) 0

theorem ofOctets_octets {n : Nat} (hn : n < 2 ^ 32) : ofOctets (octets n) = n := by
  simp only [ofOctets, octets, List.foldl_cons, List.foldl_nil]
  omega

theorem octets_ofOctets {l : List Nat} (hlength : l.length = 4) (hl : ∀ o ∈ l, o < 256) :
    octets (ofOctets l) = l ∧ ofOctets l < 2 ^ 32 := by
  match l, hlength with
  | [a, b, c, d], _ =>
    simp only [List.forall_mem_cons] at hl
    simp only [ofOctets, octets, List.foldl_cons, List.foldl_nil, List.cons.injEq, and_true]
    omega

theorem octets_injective {m n : Nat} (hm : m < 2 ^ 32) (hn : n < 2 ^ 32) (h : octets m = octets n) : m = n := by
  rw [← ofOctets_octets hm, h, ofOctets_octets hn]

theorem lt_of_mem_octets {n o : Nat} (h : o ∈ octets n) : o < 256 := by
  simp only [octets, List.mem_cons, List.not_mem_nil, or_false] at h
  omega

/-! ### Dotted quads -/

/-- `parts` are decimal numbers, separated by dots, whose values are the octets of `n`. -/
structure QuadParts (s : List Char) (n : Nat) (parts : List (List Char)) : Prop where
  eq : s = ['.'].intercalate parts
  number : ∀ p ∈ parts, IsNumber p
  values : parts.map value = octets n
  lt : n < 2 ^ 32

/-- `s` is four decimal numbers up to 255, separated by dots. -/
def Quad (s : List Char) (n : Nat) : Prop := ∃ parts, QuadParts s n parts

/-- The same without leading zeros. -/
def Denotes (s : List Char) (n : Nat) : Prop := ∃ parts, QuadParts s n parts ∧ ∀ p ∈ parts, NoLeadingZero p

def dotted (n : Nat) : List Char := (((octets n).map print).intersperse ['.']).flatten

variable {s : List Char} {m n : Nat} {parts : List (List Char)}

theorem Denotes.quad (h : Denotes s n) : Quad s n := by
  obtain ⟨parts, hparts, -⟩ := h
  exact ⟨parts, hparts⟩

theorem denotes_dotted (hn : n < 2 ^ 32) : Denotes (dotted n) n := by
  refine ⟨(octets n).map print, ⟨rfl, ?_, ?_, hn⟩, ?_⟩
  · rw [List.forall_mem_map]
    exact fun o _ => isNumber_print o
  · have hid : value ∘ print = id := funext value_print
    rw [List.map_map, hid, List.map_id]
  · rw [List.forall_mem_map]
    exact fun o _ => noLeadingZero_print o

theorem denotes_iff : Denotes s n ↔ s = dotted n ∧ n < 2 ^ 32 := by
  constructor
  · rintro ⟨parts, ⟨rfl, hnumber, hvalues, hn⟩, hzero⟩
    refine ⟨?_, hn⟩
    have hprint : parts.map (fun p => print (value p)) = parts := by
      conv_rhs => rw [← List.map_id' parts]
      exact List.map_congr_left fun p hp => (eq_print_iff.mpr ⟨hnumber p hp, hzero p hp, rfl⟩).symm
    rw [dotted, ← hvalues, List.map_map]
    exact congrArg ['.'].intercalate hprint.symm
  · rintro ⟨rfl, hn⟩
    exact denotes_dotted hn

theorem QuadParts.splitChar_eq (h : QuadParts s n parts) : splitChar s '.' = parts := by
  have hne : parts ≠ [] := by
    rintro rfl
    exact absurd h.values (List.cons_ne_nil _ _).symm
  have hdot : ∀ p ∈ parts, '.' ∉ p := fun p hp => (h.number p hp).not_mem rfl
  rw [Strings.splitChar_eq, h.eq]
  exact (pieces_split (List.cons_ne_nil _ _) _).unique (pieces_intercalate_singleton hne hdot)

theorem QuadParts.length (h : QuadParts s n parts) : parts.length = 4 := by
  rw [← List.length_map (f := value), h.values]
  rfl

theorem QuadParts.octet (h : QuadParts s n parts) : ∀ p ∈ parts, IsNumber p ∧ value p < 256 := by
  intro p hp
  refine ⟨h.number p hp, lt_of_mem_octets (n := n) ?_⟩
  rw [← h.values]
  exact List.mem_map_of_mem hp

theorem Quad.unique (hm : Quad s m) (hn : Quad s n) : m = n := by
  obtain ⟨parts, hparts⟩ := hm
  obtain ⟨parts', hparts'⟩ := hn
  apply octets_injective hparts.lt hparts'.lt
  rw [← hparts.values, ← hparts'.values, ← hparts.splitChar_eq, ← hparts'.splitChar_eq]

theorem Denotes.exists_iff (hm : Denotes s m) {P : Nat → Prop} : (∃ n, Denotes s n ∧ P n) ↔ P m := by
  constructor
  · rintro ⟨n, hn, hP⟩
    rwa [hm.quad.unique hn.quad]
  · exact fun hP => ⟨m, hm, hP⟩

theorem dotted_injective (hm : m < 2 ^ 32) (hn : n < 2 ^ 32) (h : dotted m = dotted n) : m = n :=
  (denotes_dotted hm).quad.unique (h ▸ (denotes_dotted hn).quad)

/-! ### The functions of the C library -/

/-- The bytes of 32 bits in the other order. -/
def byteSwap (x : UInt32) : UInt32 := UInt32.ofNat (ofOctets (octets x.toNat).reverse)

theorem octets_byteSwap (x : UInt32) : octets (byteSwap x).toNat = (octets x.toNat).reverse := by
  have hswap : octets (ofOctets (octets x.toNat).reverse) = (octets x.toNat).reverse ∧
      ofOctets (octets x.toNat).reverse < 2 ^ 32 :=
    octets_ofOctets rfl fun o ho => lt_of_mem_octets (List.mem_reverse.mp ho)
  rw [byteSwap, UInt32.toNat_ofNat', Nat.mod_eq_of_lt hswap.2, hswap.1]

theorem byteSwap_byteSwap (x : UInt32) : byteSwap (byteSwap x) = x := by
  rw [← UInt32.toNat_inj]
  apply octets_injective (UInt32.toNat_lt _) (UInt32.toNat_lt _)
  rw [octets_byteSwap, octets_byteSwap, List.reverse_reverse]

/-- The string `c_str()` points to. -/
def cStr (s : List Char) : List Char := s.takeWhile (· ≠ '\x00')

theorem cStr_eq (h : '\x00' ∉ s) : cStr s = s := by
  rw [cStr, List.takeWhile_eq_self_iff]
  intro c hc
  exact decide_eq_true (ne_of_mem_of_not_mem hc h)

/-- From the byte order of the host to that of the network, or back. -/
def swapOrder (bigEndian : Bool) (x : UInt32) : UInt32 := if bigEndian then x else byteSwap x

@[simp] theorem swapOrder_swapOrder (bigEndian : Bool) (x : UInt32) :
    swapOrder bigEndian (swapOrder bigEndian x) = x := by
  cases bigEndian
  · exact byteSwap_byteSwap x
  · rfl

/-- `inet_pton` accepts four decimal octets without leading zeros and leaves them in network byte order; `inet_ntoa`
prints them so. -/
structure Inet where
  bigEndian : Bool
  inetPton : List Char → Option UInt32
  inetNtoa : UInt32 → List Char
  inetPton_iff : ∀ s a, inetPton s = some a ↔ Denotes s (swapOrder bigEndian a).toNat
  inetNtoa_denotes : ∀ a, Denotes (inetNtoa a) (swapOrder bigEndian a).toNat

namespace Inet

variable (inet : Inet)

def htonl (x : UInt32) : UInt32 := swapOrder inet.bigEndian x

def ntohl (x : UInt32) : UInt32 := swapOrder inet.bigEndian x

theorem inetPton_cases (s : List Char) (h : '\x00' ∉ s) :
    (∃ x, inet.inetPton (cStr s) = some (inet.htonl x) ∧ Denotes s x.toNat) ∨
      inet.inetPton (cStr s) = none ∧ ∀ n, ¬ Denotes s n := by
  rw [cStr_eq h]
  cases hpton : inet.inetPton s with
  | some a =>
    refine Or.inl ⟨inet.ntohl a, ?_, (inet.inetPton_iff s a).mp hpton⟩
    rw [htonl, ntohl, swapOrder_swapOrder]
  | none =>
    refine Or.inr ⟨rfl, fun n hn => ?_⟩
    have hsome : inet.inetPton s = some (inet.htonl (UInt32.ofNat n)) := by
      rw [inet.inetPton_iff, htonl, swapOrder_swapOrder, UInt32.toNat_ofNat', Nat.mod_eq_of_lt (denotes_iff.mp hn).2]
      exact hn
    rw [hpton] at hsome
    contradiction

theorem inetNtoa_injective {a b : UInt32} (h : inet.inetNtoa a = inet.inetNtoa b) : a = b := by
  have hdenotes := inet.inetNtoa_denotes a
  rw [h] at hdenotes
  have heq := UInt32.toNat_inj.mp (hdenotes.quad.unique (inet.inetNtoa_denotes b).quad)
  rw [← swapOrder_swapOrder inet.bigEndian a, heq, swapOrder_swapOrder]

end Inet

/-! The library by what it is documented to do -/

def IsOctet (p : List Char) : Prop := IsNumber p ∧ NoLeadingZero p ∧ value p < 256

instance (p : List Char) : Decidable (IsOctet p) := inferInstanceAs (Decidable (_ ∧ _))

theorem denotes_iff_split :
    Denotes s n ↔ ((splitChar s '.').length = 4 ∧ ∀ p ∈ splitChar s '.', IsOctet p) ∧
      ofOctets ((splitChar s '.').map value) = n := by
  constructor
  · rintro ⟨parts, hparts, hzero⟩
    rw [hparts.splitChar_eq, hparts.values]
    exact ⟨⟨hparts.length, fun p hp => ⟨hparts.number p hp, hzero p hp, (hparts.octet p hp).2⟩⟩,
      ofOctets_octets hparts.lt⟩
  · rintro ⟨⟨hlength, hoctet⟩, rfl⟩
    have hvalues := octets_ofOctets (by rw [List.length_map, hlength])
      (List.forall_mem_map.mpr fun p hp => (hoctet p hp).2.2)
    have hjoin : ['.'].intercalate (splitChar s '.') = s := by
      rw [Strings.splitChar_eq]
      exact (pieces_split (List.cons_ne_nil _ _) s).intercalate
    exact ⟨splitChar s '.', ⟨hjoin.symm, fun p hp => (hoctet p hp).1, hvalues.1.symm, hvalues.2⟩,
      fun p hp => (hoctet p hp).2.1⟩

def Inet.reference (bigEndian : Bool) : Inet where
  bigEndian := bigEndian
  inetPton s :=
    if (splitChar s '.').length = 4 ∧ ∀ p ∈ splitChar s '.', IsOctet p then
      some (swapOrder bigEndian (UInt32.ofNat (ofOctets ((splitChar s '.').map value))))
    else none
  inetNtoa a := dotted (swapOrder bigEndian a).toNat
  inetPton_iff s a := by
    rw [denotes_iff_split]
    split
    · next hparts =>
      have hlt := (denotes_iff.mp (denotes_iff_split.mpr ⟨hparts, rfl⟩)).2
      rw [and_iff_right hparts, Option.some.injEq]
      constructor
      · rintro rfl
        rw [swapOrder_swapOrder, UInt32.toNat_ofNat', Nat.mod_eq_of_lt hlt]
      · intro h
        rw [h, UInt32.ofNat_toNat, swapOrder_swapOrder]
    · next hparts => simp [hparts]
  inetNtoa_denotes a := denotes_dotted (UInt32.toNat_lt _)

/-! ### Address classes -/

def isApipaAddress (inet : Inet) (address : List Char) : Bool :=
  if address.count '.' ≠ 3 then false
  else if (inet.inetPton (cStr address)).isNone then false
  else find address "169.254".toList 0 == some 0

def isValidManualAddress (inet : Inet) (ip : List Char) : Bool :=
  if ip.count '.' ≠ 3 then false
  else
    match inet.inetPton (cStr ip) with
    | none => false
    | some s_addr =>
      let bigAddress := inet.htonl s_addr
      -- "0.0.0.0" is allowed
      if bigAddress = 0 then true
      else
        let upperMost : UInt8 := (bigAddress >>> 24).toUInt8
        if upperMost = 0 then false
        else if upperMost = 127 then false
        else if upperMost ≥ 224 then false
        else if isApipaAddress inet ip then false
        else true

theorem dotted_eq (n : Nat) : dotted n = print (n / 2 ^ 24 % 256) ++ '.' :: (print (n / 2 ^ 16 % 256) ++
    '.' :: (print (n / 2 ^ 8 % 256) ++ '.' :: print (n % 256))) := by
  simp [dotted, octets]

theorem dot_not_mem_print (n : Nat) : '.' ∉ print n := (isNumber_print n).not_mem rfl

theorem Denotes.not_mem {c : Char} (h : Denotes s n) (hc : c.isDigit = false) (hdot : c ≠ '.') : c ∉ s := by
  have hprint (m : Nat) : c ∉ print m := (isNumber_print m).not_mem hc
  rw [(denotes_iff.mp h).1, dotted_eq]
  simp [hprint, hdot]

theorem Denotes.count_dot (h : Denotes s n) : s.count '.' = 3 := by
  rw [(denotes_iff.mp h).1, dotted_eq]
  simp [List.count_append, List.count_eq_zero_of_not_mem (dot_not_mem_print _)]

theorem apipa_iff (hn : n < 2 ^ 32) : "169.254".toList <+: dotted n ↔ n / 2 ^ 16 = 169 * 256 + 254 := by
  have hnet : "169.254".toList = print 169 ++ '.' :: print 254 := by decide
  rw [hnet, dotted_eq, append_cons_prefix_iff (dot_not_mem_print _) (dot_not_mem_print _),
    prefix_append_cons_iff (dot_not_mem_print _)]
  have hsecond : print 254 <+: print (n / 2 ^ 16 % 256) ↔ 254 = n / 2 ^ 16 % 256 := by
    constructor
    · intro h
      apply print_injective
      apply h.eq_of_length_le
      have hlength : (print (n / 2 ^ 16 % 256)).length ≤ 3 := (length_print_le (by decide)).mpr (by omega)
      exact hlength
    · intro h
      rw [← h]
  rw [hsecond, print_injective.eq_iff]
  omega

theorem isApipaAddress_iff (inet : Inet) (h : '\x00' ∉ s) :
    isApipaAddress inet s = true ↔ ∃ n, Denotes s n ∧ n / 2 ^ 16 = 169 * 256 + 254 := by
  rw [isApipaAddress]
  obtain ⟨x, hpton, hx⟩ | ⟨hpton, hnot⟩ := inet.inetPton_cases s h
  · obtain ⟨hs, hlt⟩ := denotes_iff.mp hx
    rw [if_neg (not_not.mpr hx.count_dot), hpton, if_neg (by simp), beq_iff_eq, find_zero_iff, hx.exists_iff, hs]
    exact apipa_iff hlt
  · rw [hpton]
    simp [hnot]

/-- The uppermost octet decides, but for 0.0.0.0 and the addresses in 169.254.0.0/16. -/
theorem isValidManualAddress_iff (inet : Inet) (h : '\x00' ∉ s) :
    isValidManualAddress inet s = true ↔ ∃ n, Denotes s n ∧
      (n = 0 ∨ (1 ≤ n / 2 ^ 24 ∧ n / 2 ^ 24 ≤ 223 ∧ n / 2 ^ 24 ≠ 127 ∧ n / 2 ^ 16 ≠ 169 * 256 + 254)) := by
  rw [isValidManualAddress]
  obtain ⟨x, hpton, hx⟩ | ⟨hpton, hnot⟩ := inet.inetPton_cases s h
  · have hapipa : isApipaAddress inet s = true ↔ x.toNat / 2 ^ 16 = 169 * 256 + 254 := by
      rw [isApipaAddress_iff inet h, hx.exists_iff]
    have hlt := x.toNat_lt
    have hupper : (x >>> 24).toUInt8.toNat = x.toNat / 2 ^ 24 := by
      rw [UInt32.toNat_toUInt8, UInt32.toNat_shiftRight, Nat.shiftRight_eq_div_pow]
      exact Nat.mod_eq_of_lt (Nat.div_lt_of_lt_mul hlt)
    rw [hx.exists_iff, if_neg (not_not.mpr hx.count_dot), hpton]
    simp only [Inet.htonl, swapOrder_swapOrder]
    generalize (x >>> 24).toUInt8 = upperMost at hupper
    have hzero : x = 0 ↔ x.toNat = 0 := UInt32.toNat_inj.symm
    have hthis : upperMost = 0 ↔ upperMost.toNat = 0 := UInt8.toNat_inj.symm
    have hloopback : upperMost = 127 ↔ upperMost.toNat = 127 := UInt8.toNat_inj.symm
    have hmulticast : upperMost ≥ 224 ↔ 224 ≤ upperMost.toNat := UInt8.le_iff_toNat_le
    simp only [hzero, hthis, hloopback, hmulticast, hapipa, ← hupper]
    split_ifs <;> simp only [true_iff, false_iff] <;> omega
  · rw [hpton]
    simp [hnot]

/-- **The address classes**: a prefix of the text and a range of the uppermost octet are the classes of numbers. -/
theorem address_classes (inet : Inet) (s : List Char) (h : '\x00' ∉ s) :
    (isApipaAddress inet s = true ↔ ∃ n, Denotes s n ∧ n / 2 ^ 16 = 169 * 256 + 254) ∧
      (isValidManualAddress inet s = true ↔ ∃ n, Denotes s n ∧
        (n = 0 ∨ (1 ≤ n / 2 ^ 24 ∧ n / 2 ^ 24 ≤ 223 ∧ n / 2 ^ 24 ≠ 127 ∧ n / 2 ^ 16 ≠ 169 * 256 + 254))) :=
  ⟨isApipaAddress_iff inet h, isValidManualAddress_iff inet h⟩

theorem address_classes_apipa :
    (isApipaAddress (.reference false) "169.254.2.6".toList = true ↔
        ∃ n, Denotes "169.254.2.6".toList n ∧ n / 2 ^ 16 = 169 * 256 + 254) ∧
      (isValidManualAddress (.reference false) "169.254.2.6".toList = true ↔
        ∃ n, Denotes "169.254.2.6".toList n ∧
          (n = 0 ∨ (1 ≤ n / 2 ^ 24 ∧ n / 2 ^ 24 ≤ 223 ∧ n / 2 ^ 24 ≠ 127 ∧ n / 2 ^ 16 ≠ 169 * 256 + 254))) :=
  address_classes (.reference false) "169.254.2.6".toList (by decide)

example : isApipaAddress (.reference false) "169.254.2.6".toList = true := by decide

end Ipv4Address

end Libhbk
