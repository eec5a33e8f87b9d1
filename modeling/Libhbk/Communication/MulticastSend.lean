import Libhbk.Communication.MappedAddress
import Libhbk.Communication.NetadapterList

/-!
# Sending over one interface

The overloads of `sendOverInterface` that take a string select the interface by its index, those that take a pointer by
the first IPv4 address of the adapter. On Windows `sendOverInterfaceByAddress` converts the multicast group in place of
the address of the interface.
-/

namespace Libhbk

open Ipv4Address (Inet cStr)
open Ipv6Address (inetAton)

/-- What `IP_MULTICAST_IF` is set to. -/
inductive MulticastIf
  | address (ifAddr : Nat)
  | index (ifindex : Nat)
  deriving DecidableEq

/-- What `sendto` is called with. -/
structure Outgoing where
  group : Nat
  port : Nat
  ttl : UInt32
  data : List UInt8
  length : Int
  deriving DecidableEq

/-- What the system answers: the interface that is selected, `none` if `setsockopt` fails, whether the other option can
be set, and how many bytes are sent. -/
structure SendSystem where
  multicastIf : MulticastIf → Option Nat
  multicastTtl : UInt32 → Bool
  sendto : Nat → Outgoing → Int

/-- One call: the option, the interface that is selected by it, what is sent, and the return value. -/
structure Sending where
  multicastIf : Option MulticastIf
  interface : Option Nat
  outgoing : Option Outgoing
  retVal : Int
  deriving DecidableEq

structure MulticastSender where
  netadapterList : Adapters
  multicastGroup : List Char
  port : Nat

namespace Sending

/-- Nothing is set or sent. -/
def of (retVal : Int) : Sending := ⟨none, none, none, retVal⟩

/-- What matters to a caller, however the interface is selected. -/
def seen (sending : Sending) : Option Nat × Option Outgoing × Int :=
  (sending.interface, sending.outgoing, sending.retVal)

end Sending

namespace MulticastSender

def ERR_SUCCESS : Int := 0

def ERR_NO_SUCCESS : Int := -1

def ERR_INVALIDADAPTER : Int := -2

def ERR_INVALIDIPADDRESS : Int := -3

/-- From `IP_MULTICAST_IF` on; `convert` makes an address of the multicast group. -/
def sendSelecting (s : MulticastSender) (sys : SendSystem) (convert : List Char → Option Nat) (multicastIf : MulticastIf)
    (data : List UInt8) (length : Int) (ttl : UInt32) : Sending :=
  match sys.multicastIf multicastIf with
  | none => ⟨some multicastIf, none, none, ERR_INVALIDADAPTER⟩
  | some interface =>
    if sys.multicastTtl ttl = false then ⟨some multicastIf, some interface, none, ERR_NO_SUCCESS⟩
    else
      match convert (cStr s.multicastGroup) with
      | none => ⟨some multicastIf, some interface, none, ERR_NO_SUCCESS⟩
      | some group =>
        let outgoing := ⟨group, s.port % 2 ^ 16, ttl, data, length⟩
        -- compared as `size_t`
        let retVal := if sys.sendto interface outgoing % 2 ^ 64 ≠ data.length then ERR_NO_SUCCESS else ERR_SUCCESS
        ⟨some multicastIf, some interface, some outgoing, retVal⟩

/-- `sendOverInterfaceByIndex(interfaceIndex, pData, length, ttl)` -/
def sendOverInterfaceByIndex (s : MulticastSender) (sys : SendSystem) (interfaceIndex : Nat)
    (pData : Option (List UInt8)) (length : Nat) (ttl : UInt32) : Sending :=
  match pData with
  | none => .of (if length > 0 then ERR_NO_SUCCESS else ERR_SUCCESS)
  | some data => s.sendSelecting sys inetAton (.index interfaceIndex) (data.take length) length ttl

/-- `sendOverInterfaceByIndex(interfaceIndex, data, ttl)` -/
def sendOverInterfaceByIndexString (s : MulticastSender) (sys : SendSystem) (interfaceIndex : Nat) (data : List UInt8)
    (ttl : UInt32) : Sending :=
  if data = [] then .of ERR_SUCCESS else s.sendOverInterfaceByIndex sys interfaceIndex (some data) data.length ttl

/-- `sendOverInterfaceByAddress(interfaceIp, pData, length, ttl)` on Linux. -/
def sendOverInterfaceByAddress (s : MulticastSender) (sys : SendSystem) (interfaceIp : List Char)
    (pData : Option (List UInt8)) (length : Nat) (ttl : UInt32) : Sending :=
  match pData with
  | none => .of (if length > 0 then ERR_NO_SUCCESS else ERR_SUCCESS)
  | some data =>
    match inetAton (cStr interfaceIp) with
    | none => .of ERR_INVALIDIPADDRESS
    | some ifAddr => s.sendSelecting sys inetAton (.address ifAddr) (data.take length) length ttl

/-- `inet_pton` on Windows, with the address in the byte order of the host. -/
def pton (inet : Inet) (text : List Char) : Option Nat := (inet.inetPton text).map fun addr => (inet.ntohl addr).toNat

/-- `sendOverInterfaceByAddress(interfaceIp, pData, length, ttl)` on Windows, where `sendto` gets the length as `int`.
`interfaceIp` is in the text of an error only. -/
def sendOverInterfaceByAddressWindows (s : MulticastSender) (sys : SendSystem) (inet : Inet) (_interfaceIp : List Char)
    (pData : Option (List UInt8)) (length : Nat) (ttl : UInt32) : Sending :=
  match pData with
  | none => .of (if length > 0 then ERR_NO_SUCCESS else ERR_SUCCESS)
  | some data =>
    match pton inet (cStr s.multicastGroup) with
    | none => .of ERR_INVALIDIPADDRESS
    | some ifAddr =>
      s.sendSelecting sys (pton inet) (.address ifAddr) (data.take length) (Int.bmod length (2 ^ 32)) ttl

/-- `sendOverInterface(adapter, pData, length, ttl)` -/
def sendOverInterface (s : MulticastSender) (sys : SendSystem) (adapter : Netadapter) (pData : Option (List UInt8))
    (length : Nat) (ttl : UInt32) : Sending :=
  if length > 0 then
    match pData with
    | none => .of ERR_NO_SUCCESS
    | some data =>
      match adapter.ipv4Addresses with
      | front :: _ => s.sendOverInterfaceByAddress sys front.address (some data) length ttl
      | [] => .of ERR_INVALIDADAPTER
  else .of ERR_SUCCESS

/-- `sendOverInterface(adapter, data, ttl)` -/
def sendOverInterfaceString (s : MulticastSender) (sys : SendSystem) (adapter : Netadapter) (data : List UInt8)
    (ttl : UInt32) : Sending :=
  s.sendOverInterfaceByIndexString sys adapter.index data ttl

/-- `sendOverInterface(interfaceIndex, data, ttl)` -/
def sendOverInterfaceIndexString (s : MulticastSender) (sys : SendSystem) (interfaceIndex : Nat) (data : List UInt8)
    (ttl : UInt32) : Sending :=
  if data = [] then .of 0
  else
    match s.netadapterList.getAdapterByInterfaceIndex interfaceIndex with
    | .ok adapter => s.sendOverInterfaceString sys adapter data ttl
    | .error _ => .of ERR_INVALIDADAPTER

/-- `sendOverInterface(interfaceIndex, pData, length, ttl)` -/
def sendOverInterfaceIndex (s : MulticastSender) (sys : SendSystem) (interfaceIndex : Nat)
    (pData : Option (List UInt8)) (length : Nat) (ttl : UInt32) : Sending :=
  if pData.isNone then .of 0
  else
    match s.netadapterList.getAdapterByInterfaceIndex interfaceIndex with
    | .ok adapter => s.sendOverInterface sys adapter pData length ttl
    | .error _ => .of ERR_INVALIDADAPTER

/-! ### What the overloads have in common -/

variable {s : MulticastSender} {sys : SendSystem} {convert : List Char → Option Nat} {inet : Inet} {i : Nat}
  {adapter : Netadapter} {data : List UInt8} {length : Int} {ttl : UInt32} {selected selected' : MulticastIf}

theorem sendSelecting_spec (s : MulticastSender) (sys : SendSystem) (convert : List Char → Option Nat)
    (selected : MulticastIf) (data : List UInt8) (length : Int) (ttl : UInt32) :
    (s.sendSelecting sys convert selected data length ttl).multicastIf = some selected ∧
      (s.sendSelecting sys convert selected data length ttl).interface = sys.multicastIf selected ∧
      (s.sendSelecting sys convert selected data length ttl).retVal ≠ ERR_INVALIDIPADDRESS := by
  have hadapter : ERR_INVALIDADAPTER ≠ ERR_INVALIDIPADDRESS := by decide
  have hsuccess : ERR_NO_SUCCESS ≠ ERR_INVALIDIPADDRESS := by decide
  rw [sendSelecting]
  cases sys.multicastIf selected with
  | none => exact ⟨rfl, rfl, hadapter⟩
  | some interface =>
    dsimp only
    split_ifs
    · exact ⟨rfl, rfl, hsuccess⟩
    · split
      · exact ⟨rfl, rfl, hsuccess⟩
      · refine ⟨rfl, rfl, ?_⟩
        dsimp only
        split_ifs <;> decide

theorem sendSelecting_seen_iff : (s.sendSelecting sys convert selected data length ttl).seen =
    (s.sendSelecting sys convert selected' data length ttl).seen ↔
      sys.multicastIf selected = sys.multicastIf selected' := by
  constructor
  · intro h
    have hinterface := congrArg Prod.fst h
    rwa [Sending.seen, Sending.seen, (sendSelecting_spec ..).2.1, (sendSelecting_spec ..).2.1] at hinterface
  · intro h
    rw [sendSelecting, sendSelecting, h]
    split
    · rfl
    · split_ifs
      · rfl
      · split <;> rfl

theorem sendSelecting_seen_none (h : sys.multicastIf selected = none) :
    (s.sendSelecting sys convert selected data length ttl).seen = (none, none, ERR_INVALIDADAPTER) := by
  rw [sendSelecting, h]
  rfl

theorem sendOverInterfaceString_eq (hdata : data ≠ []) : s.sendOverInterfaceString sys adapter data ttl =
    s.sendSelecting sys inetAton (.index adapter.index) data data.length ttl := by
  rw [sendOverInterfaceString, sendOverInterfaceByIndexString, if_neg hdata, sendOverInterfaceByIndex,
    List.take_of_length_le (Nat.le_refl _)]

theorem index_overloads (sys : SendSystem) (ttl : UInt32) (hadapter : s.netadapterList.find? i = some adapter)
    (hdata : data ≠ []) :
    s.sendOverInterfaceIndexString sys i data ttl = s.sendOverInterfaceString sys adapter data ttl ∧
      s.sendOverInterfaceIndex sys i (some data) data.length ttl =
        s.sendOverInterface sys adapter (some data) data.length ttl := by
  have hlookup : s.netadapterList.getAdapterByInterfaceIndex i = .ok adapter := by
    rw [Adapters.getAdapterByInterfaceIndex, hadapter]
  constructor
  · rw [sendOverInterfaceIndexString, if_neg hdata, hlookup]
  · rw [sendOverInterfaceIndex, if_neg (by simp), hlookup]

/-! ### The interface -/

/-- The index of the adapter and its first IPv4 address stand for one interface. Without an address the index must not
stand for any. -/
def SameInterface (sys : SendSystem) (adapter : Netadapter) : Prop :=
  match adapter.ipv4Addresses with
  | [] => sys.multicastIf (.index adapter.index) = none
  | front :: _ => ∃ ifAddr, inetAton (cStr front.address) = some ifAddr ∧
      sys.multicastIf (.address ifAddr) = sys.multicastIf (.index adapter.index)

theorem seen_iff_sameInterface (s : MulticastSender) (ttl : UInt32) (hdata : data ≠ []) :
    (s.sendOverInterface sys adapter (some data) data.length ttl).seen =
      (s.sendOverInterfaceString sys adapter data ttl).seen ↔ SameInterface sys adapter := by
  rw [sendOverInterfaceString_eq hdata, sendOverInterface, if_pos (List.length_pos_iff.mpr hdata), SameInterface]
  cases adapter.ipv4Addresses with
  | nil =>
    dsimp only
    constructor
    · intro h
      have hinterface := congrArg Prod.fst h
      rw [Sending.seen, Sending.seen, (sendSelecting_spec ..).2.1] at hinterface
      exact hinterface.symm
    · intro h
      rw [sendSelecting_seen_none h]
      rfl
  | cons front rest =>
    dsimp only
    rw [sendOverInterfaceByAddress, List.take_of_length_le (Nat.le_refl _)]
    cases inetAton (cStr front.address) with
    | none =>
      refine iff_of_false (fun h => ?_) (fun ⟨ifAddr, hnone, _⟩ => by contradiction)
      have hretVal := congrArg (fun seen => seen.2.2) h
      exact (sendSelecting_spec ..).2.2 hretVal.symm
    | some ifAddr =>
      rw [sendSelecting_seen_iff]
      constructor
      · exact fun h => ⟨ifAddr, rfl, h⟩
      · rintro ⟨_, hsome, h⟩
        rwa [Option.some.inj hsome]

/-- All four overloads use one interface, send the same and return the same. -/
def Agree (s : MulticastSender) (sys : SendSystem) (i : Nat) (adapter : Netadapter) (data : List UInt8) (ttl : UInt32) :
    Prop :=
  ∀ sending ∈ [s.sendOverInterface sys adapter (some data) data.length ttl,
      s.sendOverInterfaceIndexString sys i data ttl, s.sendOverInterfaceIndex sys i (some data) data.length ttl],
    sending.seen = (s.sendOverInterfaceString sys adapter data ttl).seen

theorem agree_iff (hadapter : s.netadapterList.find? i = some adapter) (hdata : data ≠ []) :
    Agree s sys i adapter data ttl ↔ SameInterface sys adapter := by
  obtain ⟨hstring, hpointer⟩ := index_overloads sys ttl hadapter hdata
  rw [Agree, hstring, hpointer, ← seen_iff_sameInterface s ttl hdata]
  simp

/-- The interface is selected by the address in the text, and different addresses do not select the same one. -/
def SelectsNamed (convert : List Char → Option Nat) (call : List Char → Sending) (ip ip' : List Char) : Prop :=
  (call ip).multicastIf = (convert (cStr ip)).map .address ∧ (call ip').multicastIf = (convert (cStr ip')).map .address ∧
    (convert (cStr ip) ≠ convert (cStr ip') → (call ip).multicastIf ≠ (call ip').multicastIf)

theorem map_address_inj {a b : Option Nat} : a.map MulticastIf.address = b.map MulticastIf.address ↔ a = b :=
  (Option.map_injective fun _ _ h => MulticastIf.address.inj h).eq_iff

theorem selectsNamed_iff {call : List Char → Sending} {ip ip' : List Char} : SelectsNamed convert call ip ip' ↔
    (call ip).multicastIf = (convert (cStr ip)).map .address ∧
      (call ip').multicastIf = (convert (cStr ip')).map .address := by
  constructor
  · exact fun ⟨h, h', _⟩ => ⟨h, h'⟩
  · rintro ⟨h, h'⟩
    refine ⟨h, h', fun hne heq => hne ?_⟩
    rwa [h, h', map_address_inj] at heq

theorem sendOverInterfaceByAddress_multicastIf (ip : List Char) :
    (s.sendOverInterfaceByAddress sys ip (some data) data.length ttl).multicastIf =
      (inetAton (cStr ip)).map .address := by
  rw [sendOverInterfaceByAddress]
  cases inetAton (cStr ip) with
  | none => rfl
  | some ifAddr => exact (sendSelecting_spec ..).1

theorem sendOverInterfaceByAddressWindows_multicastIf (ip : List Char) :
    (s.sendOverInterfaceByAddressWindows sys inet ip (some data) data.length ttl).multicastIf =
      (pton inet (cStr s.multicastGroup)).map .address := by
  rw [sendOverInterfaceByAddressWindows]
  cases pton inet (cStr s.multicastGroup) with
  | none => rfl
  | some ifAddr => exact (sendSelecting_spec ..).1

/-- **All overloads address the requested interface** on Linux exactly if the index of the adapter and its first IPv4
address stand for one interface, and on Windows exactly if the multicast group is the address of the interface. -/
theorem sendOverInterface_agree_iff (s : MulticastSender) (sys : SendSystem) (inet : Inet) (i : Nat)
    (adapter : Netadapter) (data : List UInt8) (ttl : UInt32) (ip ip' : List Char)
    (hadapter : s.netadapterList.find? i = some adapter) (hdata : data ≠ []) :
    (Agree s sys i adapter data ttl ∧
        SelectsNamed inetAton (fun ip => s.sendOverInterfaceByAddress sys ip (some data) data.length ttl) ip ip' ↔
      SameInterface sys adapter) ∧
    (SelectsNamed (pton inet)
        (fun ip => s.sendOverInterfaceByAddressWindows sys inet ip (some data) data.length ttl) ip ip' ↔
      pton inet (cStr s.multicastGroup) = pton inet (cStr ip) ∧
        pton inet (cStr s.multicastGroup) = pton inet (cStr ip')) := by
  constructor
  · rw [agree_iff hadapter hdata, and_iff_left_iff_imp, selectsNamed_iff]
    exact fun _ => ⟨sendOverInterfaceByAddress_multicastIf ip, sendOverInterfaceByAddress_multicastIf ip'⟩
  · rw [selectsNamed_iff, sendOverInterfaceByAddressWindows_multicastIf, sendOverInterfaceByAddressWindows_multicastIf,
      map_address_inj, map_address_inj]

/-- Group 239.255.77.76, and one adapter whose first address is 10.0.0.1. -/
def sender (ipv4Addresses : List Ipv4Address) : MulticastSender :=
  ⟨OrderedMap.empty.alter 2 fun _ => { Netadapter.new with index := 2, ipv4Addresses := ipv4Addresses },
    "239.255.77.76".toList, 31417⟩

/-- A system with one interface. -/
def oneInterface : SendSystem where
  multicastIf := fun
    | .address ifAddr => if ifAddr = 10 * 2 ^ 24 + 1 then some 2 else none
    | .index ifindex => if ifindex = 2 then some 2 else none
  multicastTtl _ := true
  sendto _ outgoing := outgoing.length

theorem sendOverInterface_agree_one :
    Agree (sender [⟨"10.0.0.1".toList, "255.0.0.0".toList⟩]) oneInterface 2
        { Netadapter.new with index := 2, ipv4Addresses := [⟨"10.0.0.1".toList, "255.0.0.0".toList⟩] } [1] 1 ∧
      SelectsNamed inetAton (fun ip => (sender [⟨"10.0.0.1".toList, "255.0.0.0".toList⟩]).sendOverInterfaceByAddress
        oneInterface ip (some [1]) 1 1) "10.0.0.1".toList "10.0.0.2".toList :=
  (sendOverInterface_agree_iff (sender [⟨"10.0.0.1".toList, "255.0.0.0".toList⟩]) oneInterface (.reference false) 2
    { Netadapter.new with index := 2, ipv4Addresses := [⟨"10.0.0.1".toList, "255.0.0.0".toList⟩] } [1] 1
    "10.0.0.1".toList "10.0.0.2".toList rfl (by decide)).1.mpr ⟨10 * 2 ^ 24 + 1, by decide +kernel, by decide⟩

/-- Without an IPv4 address a string is sent and a pointer is refused. On Windows the group is taken for the interface. -/
theorem sendOverInterface_differs :
    (sender []).netadapterList.find? 2 = some { Netadapter.new with index := 2 } ∧
      ((sender []).sendOverInterfaceString oneInterface { Netadapter.new with index := 2 } [1] 1).retVal = 0 ∧
      ((sender []).sendOverInterface oneInterface { Netadapter.new with index := 2 } (some [1]) 1 1).retVal = -2 ∧
      ((sender []).sendOverInterfaceByAddressWindows oneInterface (.reference false) "10.0.0.1".toList (some [1]) 1
        1).multicastIf = some (.address (((239 * 256 + 255) * 256 + 77) * 256 + 76)) := by
  refine ⟨rfl, by decide +kernel, by decide, by decide +kernel⟩

end MulticastSender

end Libhbk
