import Libhbk.Base.OrderedMap
import Libhbk.Communication.Netadapter

/-!
# The list of network adapters

`update` goes once through what `getifaddrs` returns, where the addresses of the interfaces may come in any order.
An adapter is made when its interface is met first. IPv4 addresses are put in front, but those of APIPA at the end.
-/

namespace Libhbk

/-- An address of an interface and its netmask. -/
inductive SockAddr
  | inet (sinAddr netmask : UInt32)
  | inet6 (sin6Addr : Nat) (netmask : List UInt8)
  | other

structure Ifaddrs where
  ifaName : List Char
  ifaFlags : UInt32
  ifaAddr : Option SockAddr

/-- What the system says of its interfaces: the answer to `SIOCGIFHWADDR`, the index, and what is in the file that has
the index of the master, if it can be opened. -/
structure Interfaces where
  inet : Ipv4Address.Inet
  inet6 : Ipv6Address.Inet6
  hwaddr : List Char → Option (Int × Ifreq)
  ifNametoindex : List Char → Nat
  masterIfindex : List Char → Option Int

/-- The interface index is the key. -/
abbrev Adapters := OrderedMap Nat Netadapter

namespace Adapters

open Ipv4Address (Inet isApipaAddress Denotes isApipaAddress_iff)

def IFF_MULTICAST : UInt32 := 0x1000

/-- The bits of the netmask up to the first byte that is zero. -/
def bitCount : List UInt8 → Nat
  | [] => 0
  | byte :: bytes =>
    if byte = 0 then 0
    else ((List.range 8).filter fun bitPos => byte.toNat.testBit bitPos).length + bitCount bytes

/-- The name is cut off to fit into `ifr_name`. -/
def hardwareInfo (sys : Interfaces) (name : List Char) : HardwareInfo :=
  Netadapter.getHardwareInfo (sys.hwaddr (name.take 15))

/-- APIPA addresses at the end. -/
def insertAddress (inet : Inet) (addresses : List Ipv4Address) (ip : Ipv4Address) : List Ipv4Address :=
  if isApipaAddress inet ip.address then addresses ++ [ip] else ip :: addresses

/-- The addresses that an entry has for an adapter; `inet_ntop` prints what `inet_ntoa` does. -/
def ipv4? (sys : Interfaces) : SockAddr → Option Ipv4Address
  | .inet sinAddr netmask => some ⟨sys.inet.inetNtoa sinAddr, sys.inet.inetNtoa netmask⟩
  | _ => none

def ipv6? (sys : Interfaces) : SockAddr → Option Ipv6Address
  | .inet6 sin6Addr netmask => some ⟨sys.inet6.inetNtop sin6Addr, bitCount netmask⟩
  | _ => none

/-- What is done with `adapterMap[interfaceIndex]`. -/
def meet (sys : Interfaces) (name : List Char) (addr : SockAddr) (adapt : Option Netadapter) : Netadapter :=
  let adapt := adapt.getD .new
  -- only once per interface
  let adapt := if adapt.macAddress = [] then
      { adapt with
        index := sys.ifNametoindex name
        name := name
        macAddress := (hardwareInfo sys name).hwAddrString
        fwGuid := (hardwareInfo sys name).fwGuid }
    else adapt
  let adapt := { adapt with masterIndex := (sys.masterIfindex adapt.name).getD adapt.masterIndex }
  { adapt with
    ipv4Addresses := ((ipv4? sys addr).map (insertAddress sys.inet adapt.ipv4Addresses)).getD adapt.ipv4Addresses
    ipv6Addresses := adapt.ipv6Addresses ++ (ipv6? sys addr).toList }

def updateStep (sys : Interfaces) (adapterMap : Adapters) (interface : Ifaddrs) : Adapters :=
  match interface.ifaAddr with
  | none => adapterMap
  | some addr =>
    if interface.ifaFlags &&& IFF_MULTICAST = 0 then adapterMap
    else if (hardwareInfo sys interface.ifaName).isHardware then
      adapterMap.alter (sys.ifNametoindex interface.ifaName) (meet sys interface.ifaName addr)
    else adapterMap

/-- `update`; `none` if `getifaddrs` fails. -/
def update (sys : Interfaces) (adapters : Adapters) : Option (List Ifaddrs) → Adapters
  | none => adapters
  | some interfaces => interfaces.foldl (updateStep sys) .empty

def getArray (adapters : Adapters) : List Netadapter := adapters.values

def getAdapterByInterfaceIndex (adapters : Adapters) (interfaceIndex : Nat) : Except String Netadapter :=
  match adapters.find? interfaceIndex with
  | some adapter => .ok adapter
  | none => .error "invalid interface"

/-! ### One adapter -/

/-- What `getifaddrs` returns: the flags are those of the interface, and interfaces differ in their indices. -/
structure Enumeration (sys : Interfaces) where
  entries : List Ifaddrs
  flags : ∀ e ∈ entries, ∀ e' ∈ entries, e.ifaName = e'.ifaName → e.ifaFlags = e'.ifaFlags
  index : ∀ e ∈ entries, ∀ e' ∈ entries, sys.ifNametoindex e.ifaName = sys.ifNametoindex e'.ifaName →
    e.ifaName = e'.ifaName

/-- The addresses of an interface in the order of the enumeration. -/
def addrsOf (name : List Char) (l : List Ifaddrs) : List SockAddr :=
  l.filterMap fun e => if e.ifaName = name then e.ifaAddr else none

/-- A multicast-capable hardware interface. -/
def Capable (sys : Interfaces) (e : Ifaddrs) : Prop :=
  e.ifaFlags &&& IFF_MULTICAST ≠ 0 ∧ (hardwareInfo sys e.ifaName).isHardware = true

/-- IPv4 addresses as `insertAddress` leaves them. -/
def apipaLast (inet : Inet) (l : List Ipv4Address) : List Ipv4Address :=
  (l.filter fun ip => !isApipaAddress inet ip.address).reverse ++ l.filter fun ip => isApipaAddress inet ip.address

/-- The adapter of an interface with these addresses. -/
def adapterOf (sys : Interfaces) (name : List Char) (addrs : List SockAddr) : Netadapter where
  name := name
  ipv4Addresses := apipaLast sys.inet (addrs.filterMap (ipv4? sys))
  ipv6Addresses := addrs.filterMap (ipv6? sys)
  macAddress := (hardwareInfo sys name).hwAddrString
  fwGuid := (hardwareInfo sys name).fwGuid
  index := sys.ifNametoindex name
  masterIndex := (sys.masterIfindex name).getD (-1)

variable {sys : Interfaces} {name : List Char} {l : List Ifaddrs} {inet : Inet}

theorem insertAddress_apipaLast (inet : Inet) (l : List Ipv4Address) (ip : Ipv4Address) :
    insertAddress inet (apipaLast inet l) ip = apipaLast inet (l ++ [ip]) := by
  rw [insertAddress]
  cases hip : isApipaAddress inet ip.address with
  | true => simp [apipaLast, hip]
  | false => simp [apipaLast, hip]

theorem hwAddrString_ne_nil (h : (hardwareInfo sys name).isHardware = true) :
    (hardwareInfo sys name).hwAddrString ≠ [] := by
  have hne (ifr : Ifreq) {n : Nat} (hn : 0 < n) : Netadapter.hwAddress ifr n ≠ [] := by
    rw [← List.length_pos_iff, Netadapter.hwAddress_eq, Netadapter.length_colonHex, List.length_map, List.length_range]
    omega
  rw [hardwareInfo] at h ⊢
  unfold Netadapter.getHardwareInfo at h ⊢
  split at h
  · contradiction
  · split_ifs at h ⊢
    · exact hne _ (by decide)
    · exact hne _ (by decide)

theorem meet_adapterOf (h : (hardwareInfo sys name).isHardware = true) (addrs : List SockAddr) (addr : SockAddr) :
    meet sys name addr (some (adapterOf sys name addrs)) = adapterOf sys name (addrs ++ [addr]) := by
  have hmac : (adapterOf sys name addrs).macAddress ≠ [] := hwAddrString_ne_nil h
  rw [meet]
  simp only [Option.getD_some, if_neg hmac]
  simp only [adapterOf, List.filterMap_append, Netadapter.mk.injEq, true_and]
  refine ⟨?_, ?_, ?_⟩
  · cases haddr : ipv4? sys addr with
    | none => simp [haddr]
    | some ip => simp [haddr, insertAddress_apipaLast]
  · cases haddr : ipv6? sys addr <;> simp [haddr]
  · cases sys.masterIfindex name <;> rfl

theorem meet_new (addr : SockAddr) : meet sys name addr none = adapterOf sys name [addr] := by
  rw [meet]
  simp only [Option.getD_none, Netadapter.new, if_true, adapterOf, Netadapter.mk.injEq, true_and, and_true]
  refine ⟨?_, ?_⟩
  · cases haddr : ipv4? sys addr with
    | none => simp [haddr, apipaLast]
    | some ip =>
      have hfirst := insertAddress_apipaLast sys.inet [] ip
      simpa [apipaLast, haddr] using hfirst
  · cases haddr : ipv6? sys addr <;> simp [haddr]

/-! ### All adapters -/

instance (sys : Interfaces) (e : Ifaddrs) : Decidable (Capable sys e) := inferInstanceAs (Decidable (_ ∧ _))

/-- The addresses of an interface that are taken. -/
def taken (sys : Interfaces) (name : List Char) (l : List Ifaddrs) : List SockAddr :=
  l.filterMap fun e => if e.ifaName = name ∧ Capable sys e then e.ifaAddr else none

/-- There is an adapter for each interface that has an address, and for no other one. -/
structure Built (sys : Interfaces) (l : List Ifaddrs) (m : Adapters) : Prop where
  known : ∀ name, taken sys name l ≠ [] →
    m.find? (sys.ifNametoindex name) = some (adapterOf sys name (taken sys name l))
  only : ∀ k adapter, m.find? k = some adapter → ∃ name, sys.ifNametoindex name = k ∧ taken sys name l ≠ []

theorem taken_concat (name : List Char) (l : List Ifaddrs) (e : Ifaddrs) : taken sys name (l ++ [e]) =
    taken sys name l ++ (if e.ifaName = name ∧ Capable sys e then e.ifaAddr else none).toList := by
  rw [taken, List.filterMap_append, ← taken]
  cases h : (if e.ifaName = name ∧ Capable sys e then e.ifaAddr else none) <;> simp [h]

theorem taken_ne_nil_iff :
    taken sys name l ≠ [] ↔ ∃ e ∈ l, e.ifaName = name ∧ e.ifaAddr ≠ none ∧ Capable sys e := by
  constructor
  · intro h
    obtain ⟨addr, haddr⟩ := List.exists_mem_of_ne_nil _ h
    obtain ⟨e, he, hsome⟩ := List.mem_filterMap.mp haddr
    obtain ⟨⟨hname, hcapable⟩, haddr⟩ := Option.ite_none_right_eq_some.mp hsome
    exact ⟨e, he, hname, by simp [haddr], hcapable⟩
  · rintro ⟨e, he, hname, hne, hcapable⟩
    obtain ⟨addr, haddr⟩ := Option.ne_none_iff_exists'.mp hne
    apply List.ne_nil_of_mem (a := addr)
    exact List.mem_filterMap.mpr ⟨e, he, Option.ite_none_right_eq_some.mpr ⟨⟨hname, hcapable⟩, haddr⟩⟩

theorem updateStep_eq (m : Adapters) (e : Ifaddrs) : updateStep sys m e =
    (if Capable sys e then e.ifaAddr else none).elim m fun addr =>
      m.alter (sys.ifNametoindex e.ifaName) (meet sys e.ifaName addr) := by
  rw [updateStep]
  cases haddr : e.ifaAddr with
  | none => simp
  | some addr =>
    by_cases hcapable : Capable sys e
    · rw [if_pos hcapable]
      simp only [if_neg hcapable.1, if_pos hcapable.2, Option.elim_some]
    · rw [if_neg hcapable]
      simp only [Option.elim_none]
      split_ifs with hflags hhardware
      · rfl
      · exact absurd ⟨hflags, hhardware⟩ hcapable
      · rfl

theorem taken_concat_of_none {e : Ifaddrs} (h : (if Capable sys e then e.ifaAddr else none) = none) (name : List Char) :
    taken sys name (l ++ [e]) = taken sys name l := by
  rw [taken_concat]
  by_cases hcapable : Capable sys e
  · rw [if_pos hcapable] at h
    simp [h]
  · simp [hcapable]

theorem taken_concat_of_ne {e : Ifaddrs} (h : name ≠ e.ifaName) : taken sys name (l ++ [e]) = taken sys name l := by
  rw [taken_concat, if_neg (fun hcond => h hcond.1.symm)]
  exact List.append_nil _

theorem Built.congr {l' : List Ifaddrs} {m : Adapters} (h : Built sys l m)
    (htaken : ∀ name, taken sys name l' = taken sys name l) : Built sys l' m := by
  constructor
  · intro name hname
    rw [htaken] at hname ⊢
    exact h.known name hname
  · intro k adapter hadapter
    obtain ⟨name, hk, hname⟩ := h.only k adapter hadapter
    exact ⟨name, hk, by rwa [htaken]⟩

theorem Built.meet_eq {m : Adapters} (h : Built sys l m) (hhardware : (hardwareInfo sys name).isHardware = true)
    (hsame : ∀ other, taken sys other l ≠ [] → sys.ifNametoindex other = sys.ifNametoindex name → other = name)
    (addr : SockAddr) : meet sys name addr (m.find? (sys.ifNametoindex name)) =
      adapterOf sys name (taken sys name l ++ [addr]) := by
  by_cases hfirst : taken sys name l = []
  · have hnone : m.find? (sys.ifNametoindex name) = none := by
      rw [Option.eq_none_iff_forall_ne_some]
      intro adapter hadapter
      obtain ⟨other, heq, hother⟩ := h.only _ adapter hadapter
      rw [hsame other hother heq] at hother
      exact hother hfirst
    rw [hnone, hfirst, meet_new, List.nil_append]
  · rw [h.known name hfirst, meet_adapterOf hhardware]

theorem built_step {m : Adapters} {e : Ifaddrs} (h : Built sys l m)
    (hindex : ∀ e' ∈ l, sys.ifNametoindex e'.ifaName = sys.ifNametoindex e.ifaName → e'.ifaName = e.ifaName) :
    Built sys (l ++ [e]) (updateStep sys m e) := by
  have hsame : ∀ name, taken sys name l ≠ [] → sys.ifNametoindex name = sys.ifNametoindex e.ifaName →
      name = e.ifaName := by
    intro name hname heq
    obtain ⟨e', he', rfl, -⟩ := taken_ne_nil_iff.mp hname
    exact hindex e' he' heq
  rw [updateStep_eq]
  cases haddr : (if Capable sys e then e.ifaAddr else none) with
  | none => exact h.congr (taken_concat_of_none haddr)
  | some addr =>
    obtain ⟨hcapable, haddr⟩ := Option.ite_none_right_eq_some.mp haddr
    have hthis : taken sys e.ifaName (l ++ [e]) = taken sys e.ifaName l ++ [addr] := by
      rw [taken_concat, if_pos ⟨rfl, hcapable⟩, haddr, Option.toList_some]
    simp only [Option.elim_some]
    constructor
    · intro name hname
      rw [OrderedMap.find?_alter]
      by_cases heq : name = e.ifaName
      · subst heq
        rw [if_pos rfl, hthis, h.meet_eq hcapable.2 hsame]
      · rw [taken_concat_of_ne heq] at hname ⊢
        rw [if_neg (fun hidx => heq (hsame name hname hidx)), h.known name hname]
    · intro k adapter hadapter
      rw [OrderedMap.find?_alter] at hadapter
      split at hadapter
      · next hk => exact ⟨e.ifaName, hk.symm, by rw [hthis]; exact List.concat_ne_nil _ _⟩
      · obtain ⟨name, hk, hname⟩ := h.only k adapter hadapter
        refine ⟨name, hk, ?_⟩
        rw [taken_concat]
        exact List.append_ne_nil_of_left_ne_nil hname _

theorem built_update (l : List Ifaddrs)
    (hindex : ∀ e ∈ l, ∀ e' ∈ l, sys.ifNametoindex e.ifaName = sys.ifNametoindex e'.ifaName → e.ifaName = e'.ifaName) :
    Built sys l (l.foldl (updateStep sys) .empty) := by
  induction l using List.reverseRecOn with
  | nil =>
    refine ⟨fun name h => absurd rfl h, fun k adapter h => ?_⟩
    rw [List.foldl_nil, OrderedMap.find?_empty] at h
    contradiction
  | append_singleton l e ih =>
    rw [List.foldl_append, List.foldl_cons, List.foldl_nil]
    apply built_step
    · exact ih fun a ha b hb => hindex a (List.mem_append_left _ ha) b (List.mem_append_left _ hb)
    · exact fun a ha => hindex a (List.mem_append_left _ ha) e (by simp)

/-! ### Completeness and order -/

theorem taken_eq_addrsOf (E : Enumeration sys) {e : Ifaddrs} (he : e ∈ E.entries) (hcapable : Capable sys e) :
    taken sys e.ifaName E.entries = addrsOf e.ifaName E.entries := by
  apply List.filterMap_congr
  intro e' he'
  by_cases hname : e'.ifaName = e.ifaName
  · have hsame : Capable sys e' := by
      rw [Capable, E.flags e' he' e he hname, hname]
      exact hcapable
    rw [if_pos ⟨hname, hsame⟩, if_pos hname]
  · rw [if_neg (fun h => hname h.1), if_neg hname]

theorem apipaLast_perm (l : List Ipv4Address) : (apipaLast inet l).Perm l := by
  refine (List.Perm.append_right _ (List.reverse_perm _)).trans ?_
  have hperm := List.filter_append_perm (fun ip : Ipv4Address => !isApipaAddress inet ip.address) l
  simpa using hperm

theorem apipaLast_pairwise (l : List Ipv4Address) : (apipaLast inet l).Pairwise fun a b =>
    isApipaAddress inet a.address = true → isApipaAddress inet b.address = true := by
  rw [apipaLast, List.pairwise_append]
  have hplain : ∀ a ∈ (l.filter fun ip => !isApipaAddress inet ip.address).reverse,
      ¬ isApipaAddress inet a.address = true := by
    intro a ha
    have hfilter := List.of_mem_filter (List.mem_reverse.mp ha)
    simpa using hfilter
  refine ⟨?_, ?_, fun a ha b hb hapipa => absurd hapipa (hplain a ha)⟩
  · exact List.pairwise_of_forall_mem_list fun a ha b _ hapipa => absurd hapipa (hplain a ha)
  · exact List.pairwise_of_forall_mem_list fun a _ b hb _ => (List.mem_filter.mp hb).2

theorem find?_update_iff (E : Enumeration sys) (adapters : Adapters) {k : Nat} {adapter : Netadapter} :
    (update sys adapters (some E.entries)).find? k = some adapter ↔ ∃ e ∈ E.entries, e.ifaAddr ≠ none ∧
      Capable sys e ∧ sys.ifNametoindex e.ifaName = k ∧
      adapter = adapterOf sys e.ifaName (addrsOf e.ifaName E.entries) := by
  have hbuilt : Built sys E.entries (E.entries.foldl (updateStep sys) .empty) := built_update E.entries E.index
  constructor
  · intro h
    obtain ⟨name, hk, hname⟩ := hbuilt.only k adapter h
    obtain ⟨e, he, rfl, hne, hcapable⟩ := taken_ne_nil_iff.mp hname
    have hknown := hbuilt.known _ hname
    rw [taken_eq_addrsOf E he hcapable, hk] at hknown
    exact ⟨e, he, hne, hcapable, hk, Option.some.inj (h.symm.trans hknown)⟩
  · rintro ⟨e, he, hne, hcapable, rfl, rfl⟩
    rw [← taken_eq_addrsOf E he hcapable]
    exact hbuilt.known _ (taken_ne_nil_iff.mpr ⟨e, he, rfl, hne, hcapable⟩)

theorem mem_getArray_iff (E : Enumeration sys) (adapters : Adapters) {adapter : Netadapter} :
    adapter ∈ getArray (update sys adapters (some E.entries)) ↔ ∃ e ∈ E.entries, e.ifaAddr ≠ none ∧ Capable sys e ∧
      adapter = adapterOf sys e.ifaName (addrsOf e.ifaName E.entries) := by
  rw [getArray, OrderedMap.mem_values_iff]
  constructor
  · rintro ⟨k, hk⟩
    obtain ⟨e, he, hne, hcapable, -, heq⟩ := (find?_update_iff E adapters).mp hk
    exact ⟨e, he, hne, hcapable, heq⟩
  · rintro ⟨e, he, hne, hcapable, heq⟩
    exact ⟨_, (find?_update_iff E adapters).mpr ⟨e, he, hne, hcapable, rfl, heq⟩⟩

theorem index_of_find?_update (E : Enumeration sys) (adapters : Adapters) {k : Nat} {adapter : Netadapter}
    (h : (update sys adapters (some E.entries)).find? k = some adapter) : adapter.index = k := by
  obtain ⟨e, -, -, -, rfl, rfl⟩ := (find?_update_iff E adapters).mp h
  rfl

/-- An address of 169.254.0.0/16. -/
def IsApipa (ip : Ipv4Address) : Prop := ∃ n, Denotes ip.address n ∧ n / 2 ^ 16 = 169 * 256 + 254

theorem isApipaAddress_ipv4? {addr : SockAddr} {ip : Ipv4Address} (h : ipv4? sys addr = some ip) :
    isApipaAddress sys.inet ip.address = true ↔ IsApipa ip := by
  cases addr with
  | inet sinAddr netmask =>
    obtain rfl := Option.some.inj h
    exact isApipaAddress_iff sys.inet ((sys.inet.inetNtoa_denotes sinAddr).not_mem rfl (by decide))
  | inet6 => contradiction
  | other => contradiction

theorem ipv4Addresses_adapterOf (sys : Interfaces) (name : List Char) (addrs : List SockAddr) :
    (adapterOf sys name addrs).ipv4Addresses.Perm (addrs.filterMap (ipv4? sys)) ∧
    (adapterOf sys name addrs).ipv4Addresses.Pairwise fun a b => IsApipa a → IsApipa b := by
  have hperm : (adapterOf sys name addrs).ipv4Addresses.Perm (addrs.filterMap (ipv4? sys)) := apipaLast_perm _
  refine ⟨hperm, (apipaLast_pairwise _).imp_of_mem ?_⟩
  intro a b ha hb hab
  obtain ⟨addr, -, haddr⟩ := List.mem_filterMap.mp (hperm.subset ha)
  obtain ⟨addr', -, haddr'⟩ := List.mem_filterMap.mp (hperm.subset hb)
  rw [← isApipaAddress_ipv4? haddr, ← isApipaAddress_ipv4? haddr']
  exact hab

/-- **The adapter list** is complete: one adapter for each multicast-capable hardware interface that has an address, in
the order of the indices, with all its addresses, those of APIPA behind the others. -/
theorem update_complete (sys : Interfaces) (adapters : Adapters) (E : Enumeration sys) :
    (∀ name, (∃ adapter ∈ getArray (update sys adapters (some E.entries)), adapter.name = name) ↔
      ∃ e ∈ E.entries, e.ifaName = name ∧ e.ifaAddr ≠ none ∧ Capable sys e) ∧
    (∀ a ∈ getArray (update sys adapters (some E.entries)), ∀ b ∈ getArray (update sys adapters (some E.entries)),
      a.name = b.name → a = b) ∧
    (∀ adapter ∈ getArray (update sys adapters (some E.entries)),
      adapter.ipv4Addresses.Perm ((addrsOf adapter.name E.entries).filterMap (ipv4? sys)) ∧
      (adapter.ipv4Addresses.Pairwise fun a b => IsApipa a → IsApipa b) ∧
      (∀ front, adapter.ipv4Addresses.head? = some front → IsApipa front → ∀ ip ∈ adapter.ipv4Addresses, IsApipa ip) ∧
      adapter.ipv6Addresses = (addrsOf adapter.name E.entries).filterMap (ipv6? sys) ∧
      adapter.index = sys.ifNametoindex adapter.name) ∧
    (∀ k adapter, (update sys adapters (some E.entries)).find? k = some adapter ↔
      adapter ∈ getArray (update sys adapters (some E.entries)) ∧ adapter.index = k) ∧
    (getArray (update sys adapters (some E.entries))).Pairwise fun a b => a.index < b.index := by
  refine ⟨fun name => ?_, fun a ha b hb hname => ?_, fun adapter hadapter => ?_, fun k adapter => ?_, ?_⟩
  · constructor
    · rintro ⟨adapter, hadapter, rfl⟩
      obtain ⟨e, he, hne, hcapable, rfl⟩ := (mem_getArray_iff E adapters).mp hadapter
      exact ⟨e, he, rfl, hne, hcapable⟩
    · rintro ⟨e, he, rfl, hne, hcapable⟩
      exact ⟨_, (mem_getArray_iff E adapters).mpr ⟨e, he, hne, hcapable, rfl⟩, rfl⟩
  · obtain ⟨e, -, -, -, rfl⟩ := (mem_getArray_iff E adapters).mp ha
    obtain ⟨e', -, -, -, rfl⟩ := (mem_getArray_iff E adapters).mp hb
    rw [show e.ifaName = e'.ifaName from hname]
  · obtain ⟨e, -, -, -, rfl⟩ := (mem_getArray_iff E adapters).mp hadapter
    obtain ⟨hperm, hlast⟩ := ipv4Addresses_adapterOf sys e.ifaName (addrsOf e.ifaName E.entries)
    refine ⟨hperm, hlast, fun front hfront hapipa ip hip => ?_, rfl, rfl⟩
    obtain ⟨rest, hrest⟩ := List.head?_eq_some_iff.mp hfront
    rw [hrest] at hlast hip
    rcases List.mem_cons.mp hip with rfl | hip
    · exact hapipa
    · exact List.rel_of_pairwise_cons hlast hip hapipa
  · rw [getArray, OrderedMap.mem_values_iff]
    constructor
    · intro h
      exact ⟨⟨k, h⟩, index_of_find?_update E adapters h⟩
    · rintro ⟨⟨j, hj⟩, rfl⟩
      rw [index_of_find?_update E adapters hj]
      exact hj
  · exact OrderedMap.ascending_values _ fun k adapter h => index_of_find?_update E adapters h

/-- Two Ethernet interfaces and the loopback, which is not multicast-capable. -/
def ethernets : Interfaces where
  inet := .reference false
  inet6 := .reference
  hwaddr name :=
    if name = "lo".toList then some (0, ⟨772, List.replicate 14 0, List.replicate 8 1, rfl, rfl⟩)
    else some (0, ⟨1, [0, 9, 229, 0, 74, 1] ++ List.replicate 8 0, List.replicate 8 1, rfl, rfl⟩)
  ifNametoindex name :=
    if name = "lo".toList then 1 else if name = "eth0".toList then 5 else if name = "eth1".toList then 2 else 0
  masterIfindex _ := none

/-- The entries of the interfaces are mixed up, an APIPA address comes first, and one entry has no address. -/
def mixed : Enumeration ethernets where
  entries := [⟨"lo".toList, 0x49, some (.inet 0x0100007f 0x000000ff)⟩,
    ⟨"eth0".toList, 0x1043, some (.inet 0x0101fea9 0x0000ffff)⟩, ⟨"eth1".toList, 0x1043, none⟩,
    ⟨"eth1".toList, 0x1043, some (.inet 0x0200000a 0x000000ff)⟩,
    ⟨"eth0".toList, 0x1043, some (.inet 0x0200a8c0 0x00ffffff)⟩,
    ⟨"eth1".toList, 0x1043, some (.inet6 (0xfe80 * 2 ^ 112 + 1) [255, 255, 255, 255, 255, 255, 255, 255, 0])⟩,
    ⟨"eth0".toList, 0x1043, some .other⟩, ⟨"eth0".toList, 0x1043, some (.inet 0x0201fea9 0x0000ffff)⟩]
  flags := by decide +kernel
  index := by decide +kernel

theorem update_complete_mixed :
    (getArray (update ethernets .empty (some mixed.entries))).map (fun adapter =>
        (adapter.index, adapter.name, adapter.ipv4Addresses.map Ipv4Address.address,
          adapter.ipv6Addresses.map Ipv6Address.address)) =
      [(2, "eth1".toList, ["10.0.0.2".toList], ["fe80::1".toList]),
        (5, "eth0".toList, ["192.168.0.2".toList, "169.254.1.1".toList, "169.254.1.2".toList], [])] ∧
    (∀ adapter ∈ getArray (update ethernets .empty (some mixed.entries)),
      adapter.ipv4Addresses.Perm ((addrsOf adapter.name mixed.entries).filterMap (ipv4? ethernets)) ∧
      adapter.ipv4Addresses.Pairwise fun a b => IsApipa a → IsApipa b) ∧
    ∃ e ∈ mixed.entries, e.ifaName = "eth0".toList ∧ e.ifaAddr ≠ none ∧ Capable ethernets e := by
  obtain ⟨hname, _, hadapter, _, _⟩ := update_complete ethernets .empty mixed
  have hvalues : (getArray (update ethernets .empty (some mixed.entries))).map (fun adapter =>
        (adapter.index, adapter.name, adapter.ipv4Addresses.map Ipv4Address.address,
          adapter.ipv6Addresses.map Ipv6Address.address)) =
      [(2, "eth1".toList, ["10.0.0.2".toList], ["fe80::1".toList]),
        (5, "eth0".toList, ["192.168.0.2".toList, "169.254.1.1".toList, "169.254.1.2".toList], [])] := by
    decide +kernel
  refine ⟨hvalues, fun adapter h => ⟨(hadapter adapter h).1, (hadapter adapter h).2.1⟩, (hname _).mp ?_⟩
  have hmem : (5, "eth0".toList, ["192.168.0.2".toList, "169.254.1.1".toList, "169.254.1.2".toList], []) ∈
      (getArray (update ethernets .empty (some mixed.entries))).map fun adapter =>
        (adapter.index, adapter.name, adapter.ipv4Addresses.map Ipv4Address.address,
          adapter.ipv6Addresses.map Ipv6Address.address) := by
    rw [hvalues]
    exact List.mem_cons_of_mem _ List.mem_cons_self
  obtain ⟨adapter, hin, heq⟩ := List.mem_map.mp hmem
  exact ⟨adapter, hin, (Prod.mk.inj (Prod.mk.inj heq).2).1⟩

end Adapters

end Libhbk
