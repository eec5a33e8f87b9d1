import Libhbk.Base.Hex
import Libhbk.Communication.Ipv6Address
import Mathlib.Tactic.IntervalCases

/-!
# Network adapters and their hardware addresses

`getHardwareInfo` takes the hardware address of an interface out of the `char`s of `sa_data`. The string is made from
unsigned characters; the FireWire GUID is put together from signed ones.
-/

namespace Libhbk

structure Netadapter where
  name : List Char
  ipv4Addresses : List Ipv4Address
  ipv6Addresses : List Ipv6Address
  macAddress : List Char
  fwGuid : UInt64
  index : Nat
  masterIndex : Int
  deriving DecidableEq

/-- `ifr_hwaddr` of a `struct ifreq`, and the 8 bytes of the union that are behind it. -/
structure Ifreq where
  saFamily : Nat
  saData : List UInt8
  behind : List UInt8
  saData_length : saData.length = 14
  behind_length : behind.length = 8

/-- `sa_data[i]`, also where `i` is too large. -/
def Ifreq.byte (ifr : Ifreq) (i : Nat) : UInt8 := (ifr.saData ++ ifr.behind).getD i 0

structure HardwareInfo where
  hwAddrString : List Char
  fwGuid : UInt64
  isHardware : Bool
  deriving DecidableEq

namespace Netadapter

open BigEndian

/-- The constructor. -/
def new : Netadapter := ⟨[], [], [], [], 0, 0, -1⟩

def ARPHRD_ETHER : Nat := 1

def ARPHRD_IEEE1394 : Nat := 24

/-- One iteration of the loop for `fwGuid`: `char` is signed. -/
def guidStep (fwGuid : UInt64) (c : UInt8) : UInt64 := fwGuid <<< 8 ||| UInt64.ofInt c.toInt8.toInt

/-- What `std::uppercase`, `std::setfill('0')`, `std::setw(2)` and `std::hex` make of a byte. -/
def putHex (c : UInt8) : List Char := (Hex.print c.toNat).leftpad 2 '0' |>.map Char.toUpper

def hwAddress (ifr : Ifreq) (macLen : Nat) : List Char :=
  (List.range macLen).foldl
    (fun stream i => (if 0 < i then stream ++ [':'] else stream) ++ putHex (ifr.byte i)) []

/-- What is done with the answer to `SIOCGIFHWADDR`; `none` if there is no socket. -/
def getHardwareInfo : Option (Int × Ifreq) → HardwareInfo
  | none => ⟨[], 0, false⟩
  | some (ret, ifr) =>
    if ret = 1 then ⟨[], 0, false⟩
    else if ifr.saFamily = ARPHRD_ETHER then ⟨hwAddress ifr 6, 0, true⟩
    else if ifr.saFamily = ARPHRD_IEEE1394 then
      ⟨hwAddress ifr 16, (List.range 8).foldl (fun fwGuid i => guidStep fwGuid (ifr.byte i)) 0, true⟩
    else ⟨hwAddress ifr 0, 0, false⟩

/-! ### The GUID -/

variable {l : List UInt8} {c : UInt8}

theorem or_ones {a n : Nat} (h : a < 2 ^ n) : a ||| (2 ^ n - 1) = 2 ^ n - 1 := by
  apply Nat.eq_of_testBit_eq
  intro i
  rw [Nat.testBit_or, Nat.testBit_two_pow_sub_one]
  by_cases hi : i < n
  · rw [decide_eq_true hi, Bool.or_true]
  · have hpow : 2 ^ n ≤ 2 ^ i := Nat.pow_le_pow_right (by decide) (by omega)
    rw [Nat.testBit_lt_two_pow (Nat.lt_of_lt_of_le h hpow), Bool.false_or]

theorem toNat_castChar (c : UInt8) :
    (UInt64.ofInt c.toInt8.toInt).toNat = if c.toNat < 128 then c.toNat else 2 ^ 64 - 256 + c.toNat := by
  have hlt := c.toNat_lt
  have hint : c.toInt8.toInt = Int.bmod c.toNat 256 := by
    rw [Int8.toInt, BitVec.toInt_eq_toNat_bmod]
    rfl
  rw [UInt64.ofInt, UInt64.toNat_ofNat', hint]
  simp only [Int.bmod]
  split_ifs <;> omega

/-- The lower bits of a shifted number are free; a sign extends over all that was shifted. -/
theorem toNat_guidStep (g : UInt64) (c : UInt8) :
    (guidStep g c).toNat = if c.toNat < 128 then g.toNat % 2 ^ 56 * 256 + c.toNat else 2 ^ 64 - 256 + c.toNat := by
  have hlt := c.toNat_lt
  have hshift : (g <<< 8).toNat = (g.toNat % 2 ^ 56) <<< 8 := by
    have height : (8 : UInt64).toNat % 64 = 8 := rfl
    rw [UInt64.toNat_shiftLeft, height, Nat.shiftLeft_eq, Nat.shiftLeft_eq]
    omega
  rw [guidStep, UInt64.toNat_or, hshift, toNat_castChar]
  split
  · rw [← Nat.shiftLeft_add_eq_or_of_lt hlt, Nat.shiftLeft_eq]
  · have hones : 2 ^ 64 - 256 + c.toNat = (2 ^ 56 - 1) <<< 8 ||| c.toNat := by
      rw [← Nat.shiftLeft_add_eq_or_of_lt hlt, Nat.shiftLeft_eq]
      omega
    rw [hones, ← Nat.or_assoc, ← Nat.shiftLeft_or_distrib, or_ones (Nat.mod_lt _ (by decide))]

/-- The number of the bytes, the first one uppermost. -/
def number (l : List UInt8) : Nat := ofDigits 256 (l.map UInt8.toNat)

theorem number_concat (l : List UInt8) (c : UInt8) : number (l ++ [c]) = 256 * number l + c.toNat := by
  rw [number, List.map_append, List.map_singleton, ofDigits_concat, number]

theorem number_lt (l : List UInt8) : number l < 256 ^ l.length := by
  rw [number, ← List.length_map (f := UInt8.toNat)]
  apply ofDigits_lt (by decide)
  exact List.forall_mem_map.mpr fun c _ => c.toNat_lt

theorem number_ones_iff : number l + 1 = 256 ^ l.length ↔ ∀ c ∈ l, c = 255 := by
  induction l using List.reverseRecOn with
  | nil => simp [number, ofDigits]
  | append_singleton l c ih =>
    have hc : c = 255 ↔ c.toNat = 255 := UInt8.toNat_inj.symm
    have hlt := c.toNat_lt
    have hbound := number_lt l
    rw [number_concat, List.length_append, List.length_singleton, Nat.pow_succ, List.forall_mem_append,
      List.forall_mem_singleton, ← ih, hc]
    omega

/-- No byte from 0x80 on comes behind other bytes than 0xff. -/
def SignFree (l : List UInt8) : Prop := l.Pairwise fun a b => 128 ≤ b.toNat → a = 255

instance (l : List UInt8) : Decidable (SignFree l) := inferInstanceAs (Decidable (List.Pairwise _ l))

/-- One more byte `c` behind `k` bytes with the number `n`, all of them at most eight. -/
theorem shifted_mod_iff {k n c : Nat} (hk : k < 8) (g : Nat) (hn : n < 256 ^ k) (hc : c < 256) :
    ((g % 2 ^ 56 * 256 + c) % 256 ^ (k + 1) = 256 * n + c ↔ g % 256 ^ k = n) ∧
      ((2 ^ 64 - 256 + c) % 256 ^ (k + 1) = 256 * n + c ↔ n + 1 = 256 ^ k) := by
  interval_cases k <;> omega

theorem guid_mod_iff (hlength : l.length ≤ 8) :
    (l.foldl guidStep 0).toNat % 256 ^ l.length = number l ↔ SignFree l := by
  induction l using List.reverseRecOn with
  | nil => exact iff_of_true rfl .nil
  | append_singleton l c ih =>
    rw [List.length_append, List.length_singleton] at hlength
    have ih := ih (by omega)
    have hones := number_ones_iff (l := l)
    have hbound := number_lt l
    have hlt := c.toNat_lt
    have hsign : SignFree (l ++ [c]) ↔ SignFree l ∧ (128 ≤ c.toNat → ∀ a ∈ l, a = 255) := by
      rw [SignFree, List.pairwise_append]
      simp only [List.pairwise_singleton, true_and, List.mem_singleton, forall_eq]
      exact and_congr_right fun _ => ⟨fun h hc a ha => h a ha hc, fun h a ha hc => h hc a ha⟩
    obtain ⟨hplain, hextended⟩ := shifted_mod_iff (k := l.length) (by omega) (l.foldl guidStep 0).toNat hbound hlt
    rw [hsign, List.foldl_append, List.foldl_cons, List.foldl_nil, toNat_guidStep, number_concat, List.length_append,
      List.length_singleton]
    split
    · next hsmall => rw [hplain, ih, and_iff_left (fun hc => absurd hsmall (Nat.not_lt.mpr hc))]
    · next hsmall =>
      rw [hextended, hones, and_iff_right_of_imp fun h => ?_]
      · exact ⟨fun h _ => h, fun h => h (Nat.not_lt.mp hsmall)⟩
      · exact List.pairwise_of_forall_mem_list fun a ha _ _ _ => h (Nat.not_lt.mp hsmall) a ha

/-! ### The address string -/

/-- Two upper case digits. -/
def upperHex (c : UInt8) : List Char :=
  ["0123456789ABCDEF".toList.getD (c.toNat / 16) '0', "0123456789ABCDEF".toList.getD (c.toNat % 16) '0']

def colonHex (l : List UInt8) : List Char := [':'].intercalate (l.map upperHex)

theorem putHex_eq (c : UInt8) : putHex c = upperHex c := by
  have hall : ∀ n < 256, ((Hex.print n).leftpad 2 '0').map Char.toUpper =
      ["0123456789ABCDEF".toList.getD (n / 16) '0', "0123456789ABCDEF".toList.getD (n % 16) '0'] := by decide +kernel
  exact hall c.toNat c.toNat_lt

theorem colonHex_concat (l : List UInt8) (c : UInt8) :
    colonHex (l ++ [c]) = (if l = [] then [] else colonHex l ++ [':']) ++ upperHex c := by
  induction l with
  | nil => simp [colonHex]
  | cons d l ih =>
    simp only [colonHex] at ih ⊢
    rw [if_neg (List.cons_ne_nil d l), List.cons_append, List.map_cons, List.map_cons,
      List.intercalate_cons_of_ne_nil (by simp), ih]
    by_cases hnil : l = []
    · subst hnil
      simp
    · rw [if_neg hnil, List.intercalate_cons_of_ne_nil (by simpa using hnil)]
      simp

theorem length_colonHex (l : List UInt8) : (colonHex l).length = 3 * l.length - 1 := by
  induction l using List.reverseRecOn with
  | nil => rfl
  | append_singleton l c ih =>
    rw [colonHex_concat]
    by_cases hnil : l = []
    · subst hnil
      rfl
    · have hpos := List.length_pos_of_ne_nil hnil
      rw [if_neg hnil]
      simp only [List.length_append, ih, upperHex, List.length_cons, List.length_nil]
      omega

theorem hwAddress_eq (ifr : Ifreq) (n : Nat) : hwAddress ifr n = colonHex ((List.range n).map ifr.byte) := by
  induction n with
  | zero => rfl
  | succ n ih =>
    rw [hwAddress] at ih ⊢
    rw [List.range_succ, List.foldl_append, List.foldl_cons, List.foldl_nil, ih, List.map_append, List.map_singleton,
      colonHex_concat, putHex_eq]
    cases n with
    | zero => rfl
    | succ n => simp [List.range_succ]

theorem map_byte_range (ifr : Ifreq) {n : Nat} (hn : n ≤ 14) :
    (List.range n).map ifr.byte = ifr.saData.take n := by
  have hlength := ifr.saData_length
  apply List.ext_getElem
  · rw [List.length_map, List.length_range, List.length_take]
    omega
  · intro i hi _
    rw [List.length_map, List.length_range] at hi
    rw [List.getElem_map, List.getElem_range, List.getElem_take, Ifreq.byte, List.getD_eq_getElem?_getD,
      List.getElem?_append_left (by omega), List.getElem?_eq_getElem (by omega), Option.getD_some]

theorem foldl_guidStep (ifr : Ifreq) : (List.range 8).foldl (fun fwGuid i => guidStep fwGuid (ifr.byte i)) 0 =
    (ifr.saData.take 8).foldl guidStep 0 := by
  rw [← map_byte_range ifr (by decide), List.foldl_map]

/-! ### What is decoded -/

/-- What `getHardwareInfo` makes of an answer is the hardware address, and depends on nothing behind it. -/
structure Faithful (ifr : Ifreq) : Prop where
  guid : ifr.saFamily = ARPHRD_IEEE1394 → (getHardwareInfo (some (0, ifr))).fwGuid.toNat = number (ifr.saData.take 8)
  address : ∃ n ≤ 14, (ifr.saFamily = ARPHRD_ETHER → n = 6) ∧
    (getHardwareInfo (some (0, ifr))).hwAddrString = colonHex (ifr.saData.take n)
  inside : ∀ ifr' : Ifreq, ifr'.saFamily = ifr.saFamily → ifr'.saData = ifr.saData →
    getHardwareInfo (some (0, ifr')) = getHardwareInfo (some (0, ifr))

theorem getHardwareInfo_ether {ifr : Ifreq} (h : ifr.saFamily = ARPHRD_ETHER) :
    getHardwareInfo (some (0, ifr)) = ⟨colonHex (ifr.saData.take 6), 0, true⟩ := by
  rw [getHardwareInfo, if_neg (by decide), if_pos h, hwAddress_eq, map_byte_range ifr (by decide)]

theorem getHardwareInfo_ieee1394 {ifr : Ifreq} (h : ifr.saFamily = ARPHRD_IEEE1394) :
    getHardwareInfo (some (0, ifr)) =
      ⟨colonHex ((List.range 16).map ifr.byte), (ifr.saData.take 8).foldl guidStep 0, true⟩ := by
  rw [getHardwareInfo, if_neg (by decide), if_neg (by rw [h]; decide), if_pos h, hwAddress_eq, foldl_guidStep]

theorem getHardwareInfo_other {ifr : Ifreq} (hether : ifr.saFamily ≠ ARPHRD_ETHER)
    (hieee : ifr.saFamily ≠ ARPHRD_IEEE1394) : getHardwareInfo (some (0, ifr)) = ⟨[], 0, false⟩ := by
  rw [getHardwareInfo, if_neg (by decide), if_neg hether, if_neg hieee]
  rfl

theorem faithful_of_ne {ifr : Ifreq} (hieee : ifr.saFamily ≠ ARPHRD_IEEE1394) : Faithful ifr := by
  by_cases hether : ifr.saFamily = ARPHRD_ETHER
  · refine ⟨fun h => absurd h hieee, ⟨6, by decide, fun _ => rfl, ?_⟩, fun ifr' hfamily hdata => ?_⟩
    · rw [getHardwareInfo_ether hether]
    · rw [getHardwareInfo_ether hether, getHardwareInfo_ether (hfamily.trans hether), hdata]
  · refine ⟨fun h => absurd h hieee, ⟨0, by decide, fun h => absurd h hether, ?_⟩, fun ifr' hfamily hdata => ?_⟩
    · rw [getHardwareInfo_other hether hieee]
      rfl
    · rw [getHardwareInfo_other hether hieee,
        getHardwareInfo_other (fun h => hether (hfamily ▸ h)) (fun h => hieee (hfamily ▸ h))]

theorem not_faithful_of_ieee1394 {ifr : Ifreq} (h : ifr.saFamily = ARPHRD_IEEE1394) : ¬ Faithful ifr := by
  rintro ⟨-, ⟨n, hn, -, haddress⟩, -⟩
  have hlength := congrArg List.length haddress
  rw [getHardwareInfo_ieee1394 h, length_colonHex, length_colonHex, List.length_map, List.length_range,
    List.length_take] at hlength
  omega

/-- **Hardware addresses** are decoded faithfully but for FireWire. There the GUID is right unless a sign gets into it. -/
theorem getHardwareInfo_faithful_iff (ifr : Ifreq) :
    (Faithful ifr ↔ ifr.saFamily ≠ ARPHRD_IEEE1394) ∧
      (ifr.saFamily = ARPHRD_IEEE1394 →
        ((getHardwareInfo (some (0, ifr))).fwGuid.toNat = number (ifr.saData.take 8) ↔ SignFree (ifr.saData.take 8))) := by
  constructor
  · exact ⟨fun h hieee => not_faithful_of_ieee1394 hieee h, faithful_of_ne⟩
  · intro hieee
    have hlength : (ifr.saData.take 8).length = 8 := by
      rw [List.length_take, ifr.saData_length]
      decide
    have hpow : 256 ^ 8 = 2 ^ 64 := by decide
    have hiff := guid_mod_iff (l := ifr.saData.take 8) (by omega)
    rw [hlength, hpow, Nat.mod_eq_of_lt (UInt64.toNat_lt _)] at hiff
    rw [getHardwareInfo_ieee1394 hieee, hiff]

/-- The sign of the second byte covers the first one. -/
theorem getHardwareInfo_sign :
    ¬ Faithful ⟨24, [0, 0x80, 0, 0, 0, 0, 0, 1, 0, 0, 0, 0, 0, 0], List.replicate 8 0, rfl, rfl⟩ := by
  intro h
  exact absurd (h.guid rfl) (by decide +kernel)

end Netadapter

end Libhbk
