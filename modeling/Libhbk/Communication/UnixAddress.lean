import Libhbk.Base.Bytes
import Mathlib.Algebra.Group.Nat.Defs
import Mathlib.Data.List.TakeWhile

/-!
# Addresses of unix domain sockets

Client and server copy the path with `strncpy` and leave the last byte of `sun_path` zero. The client takes the length of
the address from `length()`, the server takes it from `strlen`.
-/

namespace Libhbk

/-- `sockaddr_un` -/
structure SockaddrUn where
  sunFamily : UInt16
  sunPath : List UInt8
  size : sunPath.length = 108
  deriving DecidableEq

namespace SockaddrUn

def AF_UNIX : UInt16 := 1

/-- The string `c_str()` points to. -/
def cStr (path : List UInt8) : List UInt8 := path.takeWhile (· ≠ 0)

def strlen (path : List UInt8) : Nat := (cStr path).length

/-- The `n` bytes that `strncpy` writes. -/
def strncpy (path : List UInt8) (n : Nat) : List UInt8 :=
  (cStr path).take n ++ List.replicate (n - strlen path) 0

theorem length_strncpy (path : List UInt8) (n : Nat) : (strncpy path n).length = n := by
  rw [strncpy, List.length_append, List.length_take, List.length_replicate, strlen]
  omega

/-- `sockaddr_un` with the family only. -/
def cleared : SockaddrUn := ⟨AF_UNIX, List.replicate 108 0, List.length_replicate⟩

/-- Bytes are copied over those from `pos` on. -/
def copy (sockaddr : SockaddrUn) (pos : Nat) (bytes : List UInt8) (h : pos + bytes.length ≤ 108) : SockaddrUn where
  sunFamily := sockaddr.sunFamily
  sunPath := writeAt sockaddr.sunPath pos bytes
  size := by rw [length_writeAt (by rw [sockaddr.size]; exact h), sockaddr.size]

/-- The address and its `socklen_t`. -/
def address (pathLength : Nat) (path : List UInt8) (useAbstractNamespace : Bool) : SockaddrUn × UInt32 :=
  if useAbstractNamespace then
    (cleared.copy 1 (strncpy path (108 - 2)) (by rw [length_strncpy]; omega), UInt32.ofNat (1 + pathLength + 2))
  else
    (cleared.copy 0 (strncpy path (108 - 1)) (by rw [length_strncpy]; omega), UInt32.ofNat (pathLength + 2))

/-- `SocketNonblocking::connect(path, useAbstractNamespace)` -/
def connectAddress (path : List UInt8) (useAbstractNamespace : Bool) : SockaddrUn × UInt32 :=
  address path.length path useAbstractNamespace

/-- `TcpServer::start(path, useAbstractNamespace, ...)`; `bind` gets the `size_t` as a `socklen_t`. -/
def startAddress (path : List UInt8) (useAbstractNamespace : Bool) : SockaddrUn × UInt32 :=
  address (strlen path) path useAbstractNamespace

/-! ### Addresses of both calls -/

/-- The bytes of `sun_path` in front of the path. -/
def offset (useAbstractNamespace : Bool) : Nat := if useAbstractNamespace then 1 else 0

variable {useAbstractNamespace : Bool} {p q path : List UInt8} {k j n : Nat}

theorem offset_le (useAbstractNamespace : Bool) : offset useAbstractNamespace ≤ 1 := by
  cases useAbstractNamespace <;> decide

theorem zero_not_mem_cStr (path : List UInt8) : 0 ∉ cStr path := by
  intro hmem
  have hne := List.mem_takeWhile_imp hmem
  simp at hne

theorem strlen_le (path : List UInt8) : strlen path ≤ path.length :=
  (List.takeWhile_prefix _).length_le

theorem cStr_eq (h : 0 ∉ path) : cStr path = path := by
  rw [cStr, List.takeWhile_eq_self_iff]
  intro byte hbyte
  exact decide_eq_true (ne_of_mem_of_not_mem hbyte h)

theorem strlen_eq_iff : strlen path = path.length ↔ 0 ∉ path := by
  constructor
  · intro h
    have hall : cStr path = path := (List.takeWhile_prefix _).eq_of_length h
    rw [← hall]
    exact zero_not_mem_cStr path
  · intro h
    rw [strlen, cStr_eq h]

theorem cStr_strncpy (path : List UInt8) (n : Nat) : cStr (strncpy path n) = (cStr path).take n := by
  have hcopied : ∀ byte ∈ (cStr path).take n, byte ≠ 0 := by
    rintro byte hbyte rfl
    exact zero_not_mem_cStr path (List.mem_of_mem_take hbyte)
  rw [strncpy, cStr, List.takeWhile_append_of_pos fun byte hbyte => decide_eq_true (hcopied byte hbyte)]
  cases n - strlen path with
  | zero => exact List.append_nil _
  | succ m =>
    rw [List.replicate_succ, List.takeWhile_cons_of_neg (by simp)]
    exact List.append_nil _

theorem strncpy_eq_iff : strncpy p n = strncpy q n ↔ (cStr p).take n = (cStr q).take n := by
  constructor
  · intro h
    rw [← cStr_strncpy, ← cStr_strncpy, h]
  · intro h
    have hlength := congrArg List.length h
    rw [List.length_take, List.length_take, ← strlen, ← strlen] at hlength
    rw [strncpy, strncpy, h, show n - strlen p = n - strlen q by omega]

theorem copy_eq_iff {sockaddr : SockaddrUn} {pos : Nat} {bytes bytes' : List UInt8} {h : pos + bytes.length ≤ 108}
    {h' : pos + bytes'.length ≤ 108} (hlength : bytes.length = bytes'.length) :
    sockaddr.copy pos bytes h = sockaddr.copy pos bytes' h' ↔ bytes = bytes' := by
  constructor
  · intro heq
    have hpath : writeAt sockaddr.sunPath pos bytes = writeAt sockaddr.sunPath pos bytes' := congrArg sunPath heq
    have hpos : pos ≤ sockaddr.sunPath.length := by
      rw [sockaddr.size]
      omega
    have hcopied := congrArg (List.take (pos + bytes.length)) hpath
    rw [take_writeAt hpos, hlength, take_writeAt hpos] at hcopied
    exact List.append_cancel_left hcopied
  · rintro rfl
    rfl

theorem ofNat_eq_iff : UInt32.ofNat k = UInt32.ofNat j ↔ k % 2 ^ 32 = j % 2 ^ 32 := by
  rw [← UInt32.toNat_inj, UInt32.toNat_ofNat', UInt32.toNat_ofNat']

theorem address_eq_iff : address k p useAbstractNamespace = address j q useAbstractNamespace ↔
    k % 2 ^ 32 = j % 2 ^ 32 ∧
      (cStr p).take (107 - offset useAbstractNamespace) = (cStr q).take (107 - offset useAbstractNamespace) := by
  have hlength (m : Nat) : (strncpy p m).length = (strncpy q m).length := by
    rw [length_strncpy, length_strncpy]
  cases useAbstractNamespace with
  | true =>
    rw [address, if_pos rfl, address, if_pos rfl, Prod.mk.injEq, copy_eq_iff (hlength _), strncpy_eq_iff, ofNat_eq_iff,
      and_comm]
    refine and_congr_left' ?_
    omega
  | false =>
    rw [address, if_neg Bool.false_ne_true, address, if_neg Bool.false_ne_true, Prod.mk.injEq,
      copy_eq_iff (hlength _), strncpy_eq_iff, ofNat_eq_iff, and_comm]
    refine and_congr_left' ?_
    omega

theorem address_length (k : Nat) (path : List UInt8) (useAbstractNamespace : Bool) :
    (address k path useAbstractNamespace).2.toNat = (offset useAbstractNamespace + k + 2) % 2 ^ 32 := by
  cases useAbstractNamespace with
  | true => exact UInt32.toNat_ofNat'
  | false =>
    rw [offset, if_neg Bool.false_ne_true, Nat.zero_add]
    exact UInt32.toNat_ofNat'

/-! ### What the paths must be like -/

/-- Client and server have one address for the path, and no length is more than that of `sockaddr_un`; neither of the
calls checks it. -/
def Agree (useAbstractNamespace : Bool) (path : List UInt8) : Prop :=
  connectAddress path useAbstractNamespace = startAddress path useAbstractNamespace ∧
    (connectAddress path useAbstractNamespace).2.toNat ≤ 110 ∧ (startAddress path useAbstractNamespace).2.toNat ≤ 110

/-- Different paths have different addresses, whoever uses them. -/
def Apart (useAbstractNamespace : Bool) (p q : List UInt8) : Prop :=
  p ≠ q →
    connectAddress p useAbstractNamespace ≠ connectAddress q useAbstractNamespace ∧
    connectAddress p useAbstractNamespace ≠ startAddress q useAbstractNamespace ∧
    startAddress p useAbstractNamespace ≠ connectAddress q useAbstractNamespace ∧
    startAddress p useAbstractNamespace ≠ startAddress q useAbstractNamespace

/-- `length()` and `strlen` are the same in a `socklen_t`, and the path fits, or the sum of the lengths wraps around. -/
def Fits (useAbstractNamespace : Bool) (path : List UInt8) : Prop :=
  path.length % 2 ^ 32 = strlen path % 2 ^ 32 ∧
    (path.length % 2 ^ 32 ≤ 108 - offset useAbstractNamespace ∨
      2 ^ 32 ≤ path.length % 2 ^ 32 + offset useAbstractNamespace + 2)

/-- The paths are of one length, and what is copied of them is the same. -/
def Collide (useAbstractNamespace : Bool) (p q : List UInt8) : Prop :=
  p ≠ q ∧ p.length % 2 ^ 32 = q.length % 2 ^ 32 ∧
    (cStr p).take (107 - offset useAbstractNamespace) = (cStr q).take (107 - offset useAbstractNamespace)

theorem agree_iff : Agree useAbstractNamespace path ↔ Fits useAbstractNamespace path := by
  have hoffset := offset_le useAbstractNamespace
  rw [Agree, Fits, connectAddress, startAddress, address_eq_iff, address_length, address_length]
  constructor
  · rintro ⟨⟨hlength, -⟩, hfits, -⟩
    exact ⟨hlength, by omega⟩
  · rintro ⟨hlength, hfits⟩
    exact ⟨⟨hlength, rfl⟩, by omega, by omega⟩

theorem apart_iff (hp : Agree useAbstractNamespace p) (hq : Agree useAbstractNamespace q) :
    Apart useAbstractNamespace p q ↔ ¬ Collide useAbstractNamespace p q := by
  rw [Apart, ← hp.1, ← hq.1, and_self, and_self, and_self, Collide, not_and]
  refine imp_congr_right fun _ => ?_
  rw [connectAddress, connectAddress, ne_eq, address_eq_iff]

/-- No zero byte, and at most the last byte of `sun_path` is not copied. -/
def Plain (useAbstractNamespace : Bool) (path : List UInt8) : Prop :=
  0 ∉ path ∧ path.length ≤ 108 - offset useAbstractNamespace

/-- The paths differ in just the byte that is not copied. -/
def LastOnly (useAbstractNamespace : Bool) (p q : List UInt8) : Prop :=
  p ≠ q ∧ p.length = 108 - offset useAbstractNamespace ∧ q.length = 108 - offset useAbstractNamespace ∧
    p.dropLast = q.dropLast

theorem fits_iff_plain (h : path.length + 3 < 2 ^ 32) :
    Fits useAbstractNamespace path ↔ Plain useAbstractNamespace path := by
  have hoffset := offset_le useAbstractNamespace
  have hle := strlen_le path
  rw [Fits, Plain, ← strlen_eq_iff]
  omega

theorem collide_iff_lastOnly (hp : Plain useAbstractNamespace p) (hq : Plain useAbstractNamespace q) :
    Collide useAbstractNamespace p q ↔ LastOnly useAbstractNamespace p q := by
  have hoffset := offset_le useAbstractNamespace
  obtain ⟨hzerop, hlep⟩ := hp
  obtain ⟨hzeroq, hleq⟩ := hq
  rw [Collide, LastOnly, cStr_eq hzerop, cStr_eq hzeroq]
  refine and_congr_right fun hne => ?_
  rw [Nat.mod_eq_of_lt (by omega), Nat.mod_eq_of_lt (by omega), List.dropLast_eq_take, List.dropLast_eq_take]
  constructor
  · rintro ⟨hlength, htake⟩
    have hlast : p.length = 108 - offset useAbstractNamespace := by
      by_contra hless
      rw [List.take_of_length_le (by omega), List.take_of_length_le (by omega)] at htake
      exact hne htake
    refine ⟨hlast, by omega, ?_⟩
    rw [← hlength, hlast, show 108 - offset useAbstractNamespace - 1 = 107 - offset useAbstractNamespace by omega]
    exact htake
  · rintro ⟨hlastp, hlastq, htake⟩
    rw [hlastp, hlastq, show 108 - offset useAbstractNamespace - 1 = 107 - offset useAbstractNamespace by omega] at htake
    exact ⟨by omega, htake⟩

/-- **One address for client and server**, and different ones for different paths, exactly if both paths fit and do not
collide. For paths shorter than 4 GiB: no zero byte, no more than `sun_path` holds, and not the last byte alone. -/
theorem address_agrees_iff (useAbstractNamespace : Bool) (p q : List UInt8) :
    (Agree useAbstractNamespace p ∧ Agree useAbstractNamespace q ∧ Apart useAbstractNamespace p q ↔
        Fits useAbstractNamespace p ∧ Fits useAbstractNamespace q ∧ ¬ Collide useAbstractNamespace p q) ∧
      (p.length + 3 < 2 ^ 32 ∧ q.length + 3 < 2 ^ 32 →
        (Agree useAbstractNamespace p ∧ Agree useAbstractNamespace q ∧ Apart useAbstractNamespace p q ↔
          Plain useAbstractNamespace p ∧ Plain useAbstractNamespace q ∧ ¬ LastOnly useAbstractNamespace p q)) := by
  have hfits : Agree useAbstractNamespace p ∧ Agree useAbstractNamespace q ∧ Apart useAbstractNamespace p q ↔
      Fits useAbstractNamespace p ∧ Fits useAbstractNamespace q ∧ ¬ Collide useAbstractNamespace p q := by
    rw [← agree_iff, ← agree_iff]
    exact and_congr_right fun hp => and_congr_right fun hq => apart_iff hp hq
  refine ⟨hfits, fun ⟨hshortp, hshortq⟩ => ?_⟩
  rw [hfits, fits_iff_plain hshortp, fits_iff_plain hshortq]
  exact and_congr_right fun hp => and_congr_right fun hq => not_congr (collide_iff_lastOnly hp hq)

/-- A zero byte that only the client counts, an address that is too long, and two abstract names of 107 bytes. -/
theorem address_differs :
    connectAddress [97, 0] true ≠ startAddress [97, 0] true ∧
      110 < (startAddress (List.replicate 108 97) true).2.toNat ∧
      connectAddress (List.replicate 106 97 ++ [98]) true = startAddress (List.replicate 106 97 ++ [99]) true := by
  decide +kernel

end SockaddrUn

end Libhbk
