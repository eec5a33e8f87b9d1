import Libhbk.Communication.NetadapterList
import Libhbk.Communication.Netmask
import Libhbk.Communication.Subnet

/-!
# Occupied subnets

`checkSubnet` compares the printed subnets. Networks of different sizes overlap if the addresses agree under the shorter
netmask; their subnets are the same only if the larger network begins with the smaller one.
-/

namespace Libhbk.Adapters

open Ipv4Address

/-- The loop over the addresses of an adapter. -/
def occupiedBy (requestedSubnet : List Char) : List Ipv4Address → Except StdError Bool
  | [] => .ok false
  | address :: addresses => do
    if requestedSubnet = (← address.getSubnet) then return true
    occupiedBy requestedSubnet addresses

def checkSubnetLoop (excludeAdapterName requestedSubnet : List Char) : List Netadapter → Except StdError (List Char)
  | [] => .ok []
  | adapter :: adapters => do
    if excludeAdapterName ≠ adapter.name then
      if ← occupiedBy requestedSubnet adapter.ipv4Addresses then return adapter.name
    checkSubnetLoop excludeAdapterName requestedSubnet adapters

def checkSubnet (adapters : Adapters) (excludeAdapterName : List Char) (requestedAddress : Ipv4Address) :
    Except StdError (List Char) := do
  checkSubnetLoop excludeAdapterName (← requestedAddress.getSubnet) adapters.values

/-! ### Networks -/

/-- An address and a contiguous netmask. -/
structure Network (ip : Ipv4Address) (a m : Nat) : Prop where
  address : Quad ip.address a
  netmask : Quad ip.netmask m
  contiguous : ∃ k, IsMask k m

/-- Some address is in both networks. -/
def Overlap (ip ip' : Ipv4Address) : Prop :=
  ∃ a m b m', Network ip a m ∧ Network ip' b m' ∧ ∃ x < 2 ^ 32, x &&& m = a &&& m ∧ x &&& m' = b &&& m'

/-- The addresses agree under the shorter one of the netmasks. -/
def AgreeUnderBoth (ip ip' : Ipv4Address) : Prop :=
  ∃ a m b m', Network ip a m ∧ Network ip' b m' ∧ a &&& (m &&& m') = b &&& (m &&& m')

/-- The networks begin with the same address. -/
def SameNetworkAddress (ip ip' : Ipv4Address) : Prop :=
  ∃ a m b m', Network ip a m ∧ Network ip' b m' ∧ a &&& m = b &&& m'

variable {ip ip' : Ipv4Address} {a b m m' : Nat}

theorem Network.lt (h : Network ip a m) : a &&& m < 2 ^ 32 := Nat.lt_of_le_of_lt Nat.and_le_left h.address.lt

theorem Network.getSubnet (h : Network ip a m) : ip.getSubnet = .ok (dotted (a &&& m)) :=
  getSubnet_of_quads h.address h.netmask

theorem Network.unique (h : Network ip a m) (h' : Network ip b m') : a = b ∧ m = m' :=
  ⟨h.address.unique h'.address, h.netmask.unique h'.netmask⟩

theorem testBit_or_of_agree {i : Nat} (hi : m.testBit i = true) (h : m'.testBit i = true → a.testBit i = b.testBit i) :
    ((a &&& m) ||| (b &&& m')).testBit i = a.testBit i := by
  rw [Nat.testBit_or, Nat.testBit_and, Nat.testBit_and, hi, Bool.and_true]
  cases hi' : m'.testBit i with
  | false => rw [Bool.and_false, Bool.or_false]
  | true => rw [Bool.and_true, h hi', Bool.or_self]

theorem exists_both_iff (hm : a &&& m < 2 ^ 32) (hm' : b &&& m' < 2 ^ 32) :
    (∃ x < 2 ^ 32, x &&& m = a &&& m ∧ x &&& m' = b &&& m') ↔ a &&& (m &&& m') = b &&& (m &&& m') := by
  simp only [and_eq_and_iff, Nat.testBit_and, Bool.and_eq_true]
  constructor
  · rintro ⟨x, -, ha, hb⟩ i ⟨hi, hi'⟩
    rw [← ha i hi, hb i hi']
  · intro h
    -- all bits that one of the networks asks for
    refine ⟨(a &&& m) ||| (b &&& m'), Nat.or_lt_two_pow hm hm', fun i hi => ?_, fun i hi' => ?_⟩
    · exact testBit_or_of_agree hi fun hi' => h i ⟨hi, hi'⟩
    · rw [Nat.or_comm]
      exact testBit_or_of_agree hi' fun hi => (h i ⟨hi, hi'⟩).symm

theorem overlap_iff : Overlap ip ip' ↔ AgreeUnderBoth ip ip' := by
  constructor
  · rintro ⟨a, m, b, m', h, h', hboth⟩
    exact ⟨a, m, b, m', h, h', (exists_both_iff h.lt h'.lt).mp hboth⟩
  · rintro ⟨a, m, b, m', h, h', hagree⟩
    exact ⟨a, m, b, m', h, h', (exists_both_iff h.lt h'.lt).mpr hagree⟩

theorem SameNetworkAddress.overlap (h : SameNetworkAddress ip ip') : Overlap ip ip' := by
  obtain ⟨a, m, b, m', hip, hip', heq⟩ := h
  refine ⟨a, m, b, m', hip, hip', a &&& m, hip.lt, ?_, ?_⟩
  · rw [Nat.and_assoc, Nat.and_self]
  · rw [heq, Nat.and_assoc, Nat.and_self]

theorem dotted_eq_iff (h : Network ip a m) (h' : Network ip' b m') :
    dotted (b &&& m') = dotted (a &&& m) ↔ SameNetworkAddress ip ip' := by
  constructor
  · intro heq
    exact ⟨a, m, b, m', h, h', dotted_injective h.lt h'.lt heq.symm⟩
  · rintro ⟨a', n, b', n', hip, hip', heq⟩
    obtain ⟨rfl, rfl⟩ := h.unique hip
    obtain ⟨rfl, rfl⟩ := h'.unique hip'
    rw [heq]

/-! ### The loops -/

theorem occupiedBy_eq {l : List Ipv4Address} (hl : ∀ ip ∈ l, ∃ a m, Network ip a m) (hreq : Network ip' b m') :
    ∃ result, occupiedBy (dotted (b &&& m')) l = .ok result ∧
      (result = true ↔ ∃ ip ∈ l, SameNetworkAddress ip ip') := by
  induction l with
  | nil => exact ⟨false, rfl, by simp⟩
  | cons ip l ih =>
    obtain ⟨⟨a, m, hip⟩, hrest⟩ := List.forall_mem_cons.mp hl
    rw [occupiedBy, hip.getSubnet]
    dsimp only [bind, Except.bind]
    by_cases hsame : dotted (b &&& m') = dotted (a &&& m)
    · rw [if_pos hsame]
      have hthis := (dotted_eq_iff hip hreq).mp hsame
      exact ⟨true, rfl, iff_of_true rfl ⟨ip, List.mem_cons_self, hthis⟩⟩
    · rw [if_neg hsame]
      obtain ⟨result, heq, hiff⟩ := ih hrest
      have hthis : ¬ SameNetworkAddress ip ip' := fun h => hsame ((dotted_eq_iff hip hreq).mpr h)
      exact ⟨result, heq, by rw [hiff, List.exists_mem_cons_iff, or_iff_right hthis]⟩

/-- The adapter may be reported, and one of its addresses is in this relation to the requested one. -/
def Occupies (adapters : List Netadapter) (excludeAdapterName : List Char) (r : Ipv4Address → Ipv4Address → Prop)
    (requestedAddress : Ipv4Address) (adapter : Netadapter) : Prop :=
  adapter ∈ adapters ∧ adapter.name ≠ excludeAdapterName ∧ ∃ ip ∈ adapter.ipv4Addresses, r ip requestedAddress

variable {excludeAdapterName : List Char} {requestedAddress : Ipv4Address} {l : List Netadapter} {adapter : Netadapter}
  {r r' : Ipv4Address → Ipv4Address → Prop}

theorem Occupies.mono (hr : ∀ ip ip', r ip ip' → r' ip ip')
    (h : Occupies l excludeAdapterName r requestedAddress adapter) :
    Occupies l excludeAdapterName r' requestedAddress adapter := by
  obtain ⟨hmem, hname, ip, hip, hrel⟩ := h
  exact ⟨hmem, hname, ip, hip, hr ip requestedAddress hrel⟩

theorem Occupies.tail {first : Netadapter} (h : Occupies l excludeAdapterName r requestedAddress adapter) :
    Occupies (first :: l) excludeAdapterName r requestedAddress adapter := ⟨List.mem_cons_of_mem _ h.1, h.2⟩

theorem checkSubnetLoop_cons {first : Netadapter} {requestedSubnet : List Char} {occupied : Bool}
    (h : occupiedBy requestedSubnet first.ipv4Addresses = .ok occupied) :
    checkSubnetLoop excludeAdapterName requestedSubnet (first :: l) =
      if first.name ≠ excludeAdapterName ∧ occupied = true then .ok first.name
      else checkSubnetLoop excludeAdapterName requestedSubnet l := by
  rw [checkSubnetLoop, h]
  dsimp only [bind, Except.bind]
  by_cases hname : first.name = excludeAdapterName
  · rw [if_neg (not_not.mpr hname.symm), if_neg (fun hcond => hcond.1 hname)]
  · rw [if_pos (Ne.symm hname)]
    simp only [ne_eq, hname, not_false_eq_true, true_and]
    rfl

theorem checkSubnetLoop_cases (excludeAdapterName : List Char)
    (hl : ∀ adapter ∈ l, ∀ ip ∈ adapter.ipv4Addresses, ∃ a m, Network ip a m)
    (hreq : Network requestedAddress b m') :
    (∃ adapter, Occupies l excludeAdapterName SameNetworkAddress requestedAddress adapter ∧
        checkSubnetLoop excludeAdapterName (dotted (b &&& m')) l = .ok adapter.name) ∨
      (¬ ∃ adapter, Occupies l excludeAdapterName SameNetworkAddress requestedAddress adapter) ∧
        checkSubnetLoop excludeAdapterName (dotted (b &&& m')) l = .ok [] := by
  induction l with
  | nil =>
    refine Or.inr ⟨?_, rfl⟩
    rintro ⟨adapter, hmem, -⟩
    exact absurd hmem List.not_mem_nil
  | cons first l ih =>
    obtain ⟨hfirst, hrest⟩ := List.forall_mem_cons.mp hl
    obtain ⟨occupied, hoccupied, hiff⟩ := occupiedBy_eq hfirst hreq
    rw [checkSubnetLoop_cons hoccupied]
    by_cases hthis : first.name ≠ excludeAdapterName ∧ occupied = true
    · rw [if_pos hthis]
      exact Or.inl ⟨first, ⟨List.mem_cons_self, hthis.1, hiff.mp hthis.2⟩, rfl⟩
    · rw [if_neg hthis]
      rcases ih hrest with ⟨adapter, hadapter, heq⟩ | ⟨hnone, heq⟩
      · exact Or.inl ⟨adapter, hadapter.tail, heq⟩
      · refine Or.inr ⟨?_, heq⟩
        rintro ⟨adapter, hmem, hname, hsame⟩
        rcases List.mem_cons.mp hmem with rfl | hmem
        · exact hthis ⟨hname, hiff.mpr hsame⟩
        · exact hnone ⟨adapter, hmem, hname, hsame⟩

/-- **Every occupied subnet is found** if, where an adapter has an address that agrees with the requested one under the
shorter netmask, there is one whose network begins with the same address. -/
theorem checkSubnet_finds_iff (adapters : Adapters) (excludeAdapterName : List Char) (requestedAddress : Ipv4Address)
    (hnames : ∀ adapter ∈ adapters.values, adapter.name ≠ [])
    (hnetworks : ∀ adapter ∈ adapters.values, ∀ ip ∈ adapter.ipv4Addresses, ∃ a m, Network ip a m)
    (hrequested : ∃ b m, Network requestedAddress b m) :
    (∃ result, checkSubnet adapters excludeAdapterName requestedAddress = .ok result ∧
        (result = [] ↔ ¬ ∃ adapter, Occupies adapters.values excludeAdapterName Overlap requestedAddress adapter) ∧
        (result ≠ [] → ∃ adapter, Occupies adapters.values excludeAdapterName Overlap requestedAddress adapter ∧
          adapter.name = result)) ↔
      ((∃ adapter, Occupies adapters.values excludeAdapterName AgreeUnderBoth requestedAddress adapter) →
        ∃ adapter, Occupies adapters.values excludeAdapterName SameNetworkAddress requestedAddress adapter) := by
  have hagree : AgreeUnderBoth = Overlap := by
    funext ip ip'
    exact propext overlap_iff.symm
  obtain ⟨b, m, hreq⟩ := hrequested
  have hcheck : checkSubnet adapters excludeAdapterName requestedAddress =
      checkSubnetLoop excludeAdapterName (dotted (b &&& m)) adapters.values := by
    rw [checkSubnet, hreq.getSubnet]
    rfl
  rw [hagree, hcheck]
  rcases checkSubnetLoop_cases excludeAdapterName hnetworks hreq with
    ⟨adapter, hadapter, heq⟩ | ⟨hnone, heq⟩
  · have hoverlap := hadapter.mono fun _ _ => SameNetworkAddress.overlap
    have hname := hnames adapter hadapter.1
    refine iff_of_true ⟨adapter.name, heq, ?_, fun _ => ⟨adapter, hoverlap, rfl⟩⟩ fun _ => ⟨adapter, hadapter⟩
    exact iff_of_false hname (not_not.mpr ⟨adapter, hoverlap⟩)
  · constructor
    · rintro ⟨result, hresult, hempty, -⟩ hoverlap
      rw [heq, Except.ok.injEq] at hresult
      exact absurd hoverlap (hempty.mp hresult.symm)
    · intro h
      refine ⟨[], heq, iff_of_true rfl fun hoverlap => hnone (h hoverlap), fun hne => absurd rfl hne⟩

/-- One adapter in 10.1.0.0/16. -/
def eth0 : Adapters := OrderedMap.empty.alter 2 fun _ =>
  { Netadapter.new with
    name := "eth0".toList
    ipv4Addresses := [⟨"10.1.0.1".toList, "255.255.0.0".toList⟩]
    index := 2 }

theorem network_eth0 :
    Network ⟨"10.1.0.1".toList, "255.255.0.0".toList⟩ (ofOctets [10, 1, 0, 1]) (ofOctets [255, 255, 0, 0]) where
  address := (denotes_iff_split.mpr (by decide +kernel)).quad
  netmask := (denotes_iff_split.mpr (by decide +kernel)).quad
  contiguous := ⟨16, by decide, by decide⟩

/-- Another adapter in 192.168.7.0/24. -/
def eth1 : Adapters := eth0.alter 3 fun _ =>
  { Netadapter.new with
    name := "eth1".toList
    ipv4Addresses := [⟨"192.168.7.1".toList, "255.255.255.0".toList⟩]
    index := 3 }

theorem network_eth1 :
    Network ⟨"192.168.7.1".toList, "255.255.255.0".toList⟩ (ofOctets [192, 168, 7, 1]) (ofOctets [255, 255, 255, 0]) where
  address := (denotes_iff_split.mpr (by decide +kernel)).quad
  netmask := (denotes_iff_split.mpr (by decide +kernel)).quad
  contiguous := ⟨24, by decide, by decide⟩

/-- The first part of the network of one adapter is requested. -/
theorem checkSubnet_finds_eth0 :
    ∃ result, checkSubnet eth1 [] ⟨"10.1.0.9".toList, "255.255.255.0".toList⟩ = .ok result ∧
      (result = [] ↔
        ¬ ∃ adapter, Occupies eth1.values [] Overlap ⟨"10.1.0.9".toList, "255.255.255.0".toList⟩ adapter) ∧
      (result ≠ [] → ∃ adapter, Occupies eth1.values [] Overlap ⟨"10.1.0.9".toList, "255.255.255.0".toList⟩ adapter ∧
        adapter.name = result) := by
  have hrequested : Network ⟨"10.1.0.9".toList, "255.255.255.0".toList⟩ (ofOctets [10, 1, 0, 9])
      (ofOctets [255, 255, 255, 0]) :=
    ⟨(denotes_iff_split.mpr (by decide +kernel)).quad, (denotes_iff_split.mpr (by decide +kernel)).quad,
      24, by decide, by decide⟩
  have hvalues : ∃ adapter adapter', eth1.values = [adapter, adapter'] ∧
      (adapter.name ≠ [] ∧ adapter'.name ≠ []) ∧
      adapter.ipv4Addresses = [⟨"10.1.0.1".toList, "255.255.0.0".toList⟩] ∧
      adapter'.ipv4Addresses = [⟨"192.168.7.1".toList, "255.255.255.0".toList⟩] :=
    ⟨_, _, rfl, ⟨by decide, by decide⟩, rfl, rfl⟩
  obtain ⟨adapter, adapter', hvalues, ⟨hname, hname'⟩, hfirst, hsecond⟩ := hvalues
  refine (checkSubnet_finds_iff eth1 [] ⟨"10.1.0.9".toList, "255.255.255.0".toList⟩ ?_ ?_ ⟨_, _, hrequested⟩).mpr ?_
  · rw [hvalues]
    exact List.forall_mem_cons.mpr ⟨hname, List.forall_mem_singleton.mpr hname'⟩
  · rw [hvalues]
    refine List.forall_mem_cons.mpr ⟨?_, List.forall_mem_singleton.mpr ?_⟩
    · rw [hfirst]
      exact List.forall_mem_singleton.mpr ⟨_, _, network_eth0⟩
    · rw [hsecond]
      exact List.forall_mem_singleton.mpr ⟨_, _, network_eth1⟩
  · refine fun _ => ⟨adapter, by simp [hvalues], hname, _, by rw [hfirst]; exact List.mem_singleton_self _, ?_⟩
    exact ⟨_, _, _, _, network_eth0, hrequested, rfl⟩

/-- The address of the adapter is in the requested subnet 10.0.0.0/8, which begins before that of the adapter. -/
theorem checkSubnet_misses_larger :
    (∃ adapter, Occupies eth0.values [] Overlap ⟨"10.0.0.1".toList, "255.0.0.0".toList⟩ adapter) ∧
      checkSubnet eth0 [] ⟨"10.0.0.1".toList, "255.0.0.0".toList⟩ = .ok [] := by
  refine ⟨⟨_, List.mem_singleton_self _, by decide, _, List.mem_singleton_self _, ?_⟩, by decide +kernel⟩
  have hrequested : Network ⟨"10.0.0.1".toList, "255.0.0.0".toList⟩ (ofOctets [10, 0, 0, 1])
      (ofOctets [255, 0, 0, 0]) :=
    ⟨(denotes_iff_split.mpr (by decide +kernel)).quad, (denotes_iff_split.mpr (by decide +kernel)).quad,
      8, by decide, by decide⟩
  exact ⟨_, _, _, _, network_eth0, hrequested, ofOctets [10, 1, 0, 1], by decide, by decide, by decide⟩

end Libhbk.Adapters
