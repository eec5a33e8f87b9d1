import Libhbk.Base.Memory
import Libhbk.Communication.NetadapterList
import Mathlib.Data.List.Induction

/-!
# Receiving a telegram on Linux

`recvmsg` puts control messages into a buffer of 100 bytes on the stack, from which `receiveTelegram` takes the
interface and the time to live. It walks over them with the macros of the C library by the lengths in their headers. The
kernel writes a header and the data of each message, leaves the padding behind them as it is, and cuts what there is no
room for; `found` says which of the messages the walk comes to. That depends on the library: an old `CMSG_NXTHDR` looks
at the length of the next message, a new one only for room for its header, so that the walk comes to a message that is
cut.
-/

namespace Libhbk

namespace ReceiveTelegram

/-! ### The macros -/

def IP_TTL : Nat := 2

def IP_PKTINFO : Nat := 8

/-- `sizeof(controlbuffer)`. -/
def sizeofControlbuffer : Nat := 100

/-- `CMSG_ALIGN`, in a `size_t`. -/
def cmsgAlign (len : Nat) : Nat := (len + 7) % 2 ^ 64 / 8 * 8

/-- `struct cmsghdr` at an address. -/
def cmsgLen (mem : Memory) (p : Nat) : Nat := readLe mem p 8

def cmsgType (mem : Memory) (p : Nat) : Nat := readLe mem (p + 12) 4

/-- Bytes that are next to each other. -/
structure Area where
  off : Nat
  size : Nat
  deriving DecidableEq, Repr

def Area.Inside (a b : Area) : Prop := b.off ≤ a.off ∧ a.off + a.size ≤ b.off + b.size

/-- `CMSG_FIRSTHDR`. -/
def cmsgFirsthdr (controllen : Nat) : Option Nat := if 16 ≤ controllen then some 0 else none

/-- `__CMSG_PADDING`. -/
def cmsgPadding (len : Nat) : Nat := (8 - len % 8) % 8

/-- `CMSG_NXTHDR`, and what it reads. `checksNext` is how glibc had it up to version 2.36. -/
def cmsgNxthdr (checksNext : Bool) (mem : Memory) (controllen p : Nat) : Option Nat × List Area :=
  let len := cmsgLen mem p
  let next := p + cmsgAlign len
  if len < 16 then (none, [⟨p, 8⟩])
  else if checksNext then
    if controllen < next + 16 then (none, [⟨p, 8⟩])
    else if controllen < next + cmsgAlign (cmsgLen mem next) then (none, [⟨p, 8⟩, ⟨next, 8⟩])
    else (some next, [⟨p, 8⟩, ⟨next, 8⟩])
  else
    let needed := 16 + cmsgPadding len
    if controllen - p < needed ∨ controllen - p - needed < len then (none, [⟨p, 8⟩]) else (some next, [⟨p, 8⟩])

/-! ### `receiveTelegram` -/

/-- `adapterIndex` and `ttl`. -/
structure Info where
  adapterIndex : Nat
  ttl : Int
  deriving DecidableEq, Repr

/-- What the loop does with one message, and what it reads. The level is not looked at. -/
def cmsg (mem : Memory) (p : Nat) (info : Info) : Info × List Area :=
  if cmsgType mem p = IP_PKTINFO then
    ({ info with adapterIndex := readLe mem (p + 16) 4 }, [⟨p + 12, 4⟩, ⟨p + 16, 12⟩])
  else if cmsgType mem p = IP_TTL then
    ({ info with ttl := Int.bmod (readLe mem (p + 16) 4) (2 ^ 32) }, [⟨p + 12, 4⟩, ⟨p + 16, 4⟩])
  else (info, [⟨p + 12, 4⟩])

/-- The loop; `none` if it does not end within `fuel` rounds. -/
def walk (checksNext : Bool) (mem : Memory) (controllen : Nat) :
    Nat → Option Nat → Info → Option (Info × List Area)
  | _, none, info => some (info, [])
  | 0, some _, _ => none
  | fuel + 1, some p, info =>
    let (next, reads) := cmsgNxthdr checksNext mem controllen p
    (walk checksNext mem controllen fuel next (cmsg mem p info).1).map fun rest =>
      (rest.1, (cmsg mem p info).2 ++ reads ++ rest.2)

/-- What `recvmsg` returns, and leaves in `controlbuffer` and `msg_controllen`. -/
structure Received where
  nbytes : Int
  controlbuffer : Memory
  controllen : Nat

/-- `receiveTelegram(msgbuf, len, adapterIndex, ttl)`, with everything it reads in `controlbuffer`. -/
def receiveTelegram (checksNext : Bool) (fuel : Nat) (r : Received) : Option (Int × Info × List Area) :=
  if 0 < r.nbytes then
    (walk checksNext r.controlbuffer r.controllen fuel (cmsgFirsthdr r.controllen) ⟨0, 1⟩).map fun t => (r.nbytes, t)
  else some (r.nbytes, ⟨0, 1⟩, [])

/-- The overloads for an adapter, and for its name: the return value, the adapter, and `ttl`. -/
def receiveTelegramFrom (checksNext : Bool) (netadapterList : Adapters) (fuel : Nat) (r : Received) :
    Option (Int × Option Netadapter × Int) :=
  (receiveTelegram checksNext fuel r).map fun (nbytes, info, _) =>
    if 0 < nbytes then
      match netadapterList.getAdapterByInterfaceIndex info.adapterIndex with
      | .ok adapter => (nbytes, some adapter, info.ttl)
      | .error _ => (-1, none, info.ttl)
    else (nbytes, none, info.ttl)

/-! ### The kernel -/

structure Cmsg where
  level : Nat
  type : Nat
  data : List UInt8
  deriving DecidableEq, Repr

namespace Cmsg

/-- `CMSG_LEN`. -/
def size (m : Cmsg) : Nat := 16 + m.data.length

/-- `CMSG_SPACE`. -/
def space (m : Cmsg) : Nat := (m.size + 7) / 8 * 8

/-- What is written where there is `room`. -/
def bytes (m : Cmsg) (room : Nat) : List UInt8 :=
  leBytes 8 (min m.size room) ++ leBytes 4 m.level ++ leBytes 4 m.type ++ m.data.take (room - 16)

/-- The `int` at the beginning of the data. -/
def int (m : Cmsg) : Nat := readLe (memoryOf m.data) 0 4

/-- The data is what its type promises. -/
structure WellFormed (m : Cmsg) : Prop where
  type_lt : m.type < 2 ^ 32
  pktinfo : m.type = IP_PKTINFO → 12 ≤ m.data.length
  ttl : m.type = IP_TTL → 4 ≤ m.data.length

end Cmsg

def write (mem : Memory) (off : Nat) (bs : List UInt8) : Memory :=
  fun a => if off ≤ a ∧ a < off + bs.length then bs.getD (a - off) 0 else mem a

/-- The memory, and how much of the buffer is used. -/
structure Control where
  mem : Memory
  used : Nat

/-- `put_cmsg`, in a buffer of `size` bytes. -/
def putCmsg (size : Nat) (c : Control) (m : Cmsg) : Control :=
  if size - c.used < 16 then c
  else ⟨write c.mem c.used (m.bytes (size - c.used)), c.used + min m.space (size - c.used)⟩

/-- All messages, into a buffer that holds anything. -/
def putAll (stack : Memory) (msgs : List Cmsg) : Control := msgs.foldl (putCmsg sizeofControlbuffer) ⟨stack, 0⟩

/-- What the kernel writes. -/
def areas : Nat → Nat → List Cmsg → List Area
  | _, _, [] => []
  | off, room, m :: ms =>
    if room < 16 then []
    else ⟨off, (m.bytes room).length⟩ :: areas (off + min m.space room) (room - min m.space room) ms

/-- The room that `CMSG_NXTHDR` wants for a message: with its padding, or for its header. -/
def needed (checksNext : Bool) (m : Cmsg) : Nat := if checksNext then m.space else 16

/-- The messages that the walk comes to one behind the other. -/
def reached (checksNext : Bool) : Nat → List Cmsg → List Cmsg
  | _, [] => []
  | room, m :: ms => if needed checksNext m ≤ room then m :: reached checksNext (room - m.space) ms else []

/-- The walk comes to the first message in any case. -/
def found (checksNext : Bool) : List Cmsg → List Cmsg
  | [] => []
  | m :: ms => m :: reached checksNext (sizeofControlbuffer - m.space) ms

/-- No `IP_PKTINFO` that the walk comes to has been cut before the end of its data. -/
def Whole (checksNext : Bool) : Nat → List Cmsg → Prop
  | _, [] => True
  | room, m :: ms => needed checksNext m ≤ room →
    (m.type = IP_PKTINFO → 28 ≤ room) ∧ Whole checksNext (room - m.space) ms

/-- The number in the last message of a type. -/
def lastInt (type : Nat) (msgs : List Cmsg) : Option Nat := ((msgs.filter fun m => m.type = type).getLast?).map Cmsg.int

/-! ### What the memory holds -/

/-- The messages from `off` on, where there is `room`. -/
def Laid (mem : Memory) : Nat → Nat → List Cmsg → Prop
  | _, _, [] => True
  | off, room, m :: ms =>
    16 ≤ room → Holds mem off (m.bytes room) ∧ Laid mem (off + min m.space room) (room - min m.space room) ms

/-- How much of the room is used. -/
def usedBy : Nat → List Cmsg → Nat
  | _, [] => 0
  | room, m :: ms => if room < 16 then 0 else min m.space room + usedBy (room - min m.space room) ms

variable {checksNext : Bool} {mem mem' : Memory} {off room fuel : Nat} {m : Cmsg} {ms msgs : List Cmsg} {info : Info}

theorem Cmsg.size_le_space (m : Cmsg) : m.size ≤ m.space ∧ m.space < m.size + 8 ∧ 16 ≤ m.space ∧ m.space % 8 = 0 := by
  unfold Cmsg.space Cmsg.size
  omega

theorem Cmsg.length_bytes (m : Cmsg) (h : 16 ≤ room) : (m.bytes room).length = min m.size room := by
  simp only [Cmsg.bytes, List.length_append, length_leBytes, List.length_take, Cmsg.size]
  omega

theorem write_of_lt {bs : List UInt8} {a : Nat} (h : a < off) : write mem off bs a = mem a := by
  rw [write, if_neg]
  omega

theorem holds_write (mem : Memory) (off : Nat) (bs : List UInt8) : Holds (write mem off bs) off bs := by
  intro i b hi
  obtain ⟨hlt, _⟩ := List.getElem?_eq_some_iff.mp hi
  rw [write, if_pos (by omega), Nat.add_sub_cancel_left, List.getD_eq_getElem?_getD, hi, Option.getD_some]

theorem foldl_putCmsg_of_lt (size : Nat) (msgs : List Cmsg) (c : Control) {a : Nat} (h : a < c.used) :
    (msgs.foldl (putCmsg size) c).mem a = c.mem a := by
  induction msgs generalizing c with
  | nil => rfl
  | cons m ms ih =>
    rw [List.foldl_cons]
    have hle : c.used ≤ (putCmsg size c m).used := by
      unfold putCmsg
      split_ifs
      · exact Nat.le_refl _
      · exact Nat.le_add_right ..
    rw [ih _ (Nat.lt_of_lt_of_le h hle)]
    unfold putCmsg
    split_ifs
    · rfl
    · exact write_of_lt h

theorem foldl_putCmsg_full {size : Nat} {c : Control} (h : size - c.used < 16) (msgs : List Cmsg) :
    msgs.foldl (putCmsg size) c = c := by
  induction msgs with
  | nil => rfl
  | cons m ms ih => rw [List.foldl_cons, putCmsg, if_pos h, ih]

theorem laid_foldl (size : Nat) (msgs : List Cmsg) (c : Control) (h : c.used ≤ size) :
    Laid (msgs.foldl (putCmsg size) c).mem c.used (size - c.used) msgs ∧
      (msgs.foldl (putCmsg size) c).used = c.used + usedBy (size - c.used) msgs := by
  induction msgs generalizing c with
  | nil => exact ⟨trivial, rfl⟩
  | cons m ms ih =>
    by_cases hroom : size - c.used < 16
    · rw [foldl_putCmsg_full hroom, usedBy, if_pos hroom]
      exact ⟨fun hge => absurd hge (Nat.not_le.mpr hroom), rfl⟩
    · have hput : putCmsg size c m =
          ⟨write c.mem c.used (m.bytes (size - c.used)), c.used + min m.space (size - c.used)⟩ := if_neg hroom
      have hsub : size - (c.used + min m.space (size - c.used)) = size - c.used - min m.space (size - c.used) := by
        omega
      obtain ⟨hlaid, hused⟩ := ih (putCmsg size c m) (by rw [hput]; dsimp only; omega)
      rw [List.foldl_cons, usedBy, if_neg hroom]
      rw [hput] at hlaid hused ⊢
      rw [hsub] at hlaid hused
      refine ⟨fun hge => ⟨fun i b hi => ?_, hlaid⟩, ?_⟩
      · obtain ⟨hlt, _⟩ := List.getElem?_eq_some_iff.mp hi
        obtain ⟨hsize, _⟩ := m.size_le_space
        rw [m.length_bytes hge] at hlt
        rw [foldl_putCmsg_of_lt]
        · exact holds_write _ _ _ i b hi
        · dsimp only
          omega
      · rw [hused, Nat.add_assoc]

/-! ### The walk -/

/-- What a message stands for. -/
def Info.step (info : Info) (m : Cmsg) : Info :=
  if m.type = IP_PKTINFO then { info with adapterIndex := m.int }
  else if m.type = IP_TTL then { info with ttl := Int.bmod m.int (2 ^ 32) }
  else info

theorem readLe_congr {mem mem' : Memory} {off off' k : Nat} (h : ∀ i < k, mem (off + i) = mem' (off' + i)) :
    readLe mem off k = readLe mem' off' k := by
  induction k generalizing off off' with
  | zero => rfl
  | succ k ih =>
    have hrest : readLe mem (off + 1) k = readLe mem' (off' + 1) k := by
      apply ih
      intro i hi
      have hstep := h (i + 1) (by omega)
      rwa [show off + (i + 1) = off + 1 + i by omega, show off' + (i + 1) = off' + 1 + i by omega] at hstep
    rw [readLe, readLe, hrest, show mem off = mem' off' from h 0 (by omega)]

theorem fields (h : Holds mem off (m.bytes room)) (htype : m.type < 2 ^ 32) (hroom : room < 2 ^ 64) :
    cmsgLen mem off = min m.size room ∧ cmsgType mem off = m.type ∧ Holds mem (off + 16) (m.data.take (room - 16)) := by
  rw [Cmsg.bytes, holds_append, holds_append, holds_append] at h
  simp only [List.length_append, length_leBytes] at h
  obtain ⟨⟨⟨hlen, _⟩, htypes⟩, hdata⟩ := h
  refine ⟨readLe_of_lt hlen ?_, readLe_of_lt htypes htype, hdata⟩
  omega

theorem readLe_data (h : Holds mem off (m.data.take (room - 16))) (hroom : 20 ≤ room) (hlen : 4 ≤ m.data.length) :
    readLe mem off 4 = m.int := by
  apply readLe_congr
  intro i hi
  have hget : m.data[i]? = some m.data[i] := List.getElem?_eq_getElem (by omega)
  have htake : (m.data.take (room - 16))[i]? = some m.data[i] := by
    rw [List.getElem?_take_of_lt (by omega), hget]
  rw [h i _ htake, holds_memoryOf m.data i _ hget]

theorem cmsg_info (info : Info) (h : Holds mem off (m.bytes room)) (hwf : m.WellFormed)
    (hle : room ≤ sizeofControlbuffer) (hroom : 20 ≤ room) : (cmsg mem off info).1 = info.step m := by
  unfold sizeofControlbuffer at hle
  obtain ⟨_, htype, hdata⟩ := fields h hwf.type_lt (by omega)
  unfold cmsg Info.step
  rw [htype]
  by_cases hpktinfo : m.type = IP_PKTINFO
  · have hlong := hwf.pktinfo hpktinfo
    rw [if_pos hpktinfo, if_pos hpktinfo, readLe_data hdata hroom (by omega)]
  · rw [if_neg hpktinfo, if_neg hpktinfo]
    by_cases httl : m.type = IP_TTL
    · rw [if_pos httl, if_pos httl, readLe_data hdata hroom (hwf.ttl httl)]
    · rw [if_neg httl, if_neg httl]

/-- What a round reads of the message is inside, but the addresses of an `IP_PKTINFO` that is cut before them. -/
theorem cmsg_reads (info : Info) (h : Holds mem off (m.bytes room)) (hwf : m.WellFormed)
    (hle : room ≤ sizeofControlbuffer) (hroom : 20 ≤ room) :
    ((m.type = IP_PKTINFO → 28 ≤ room) → ∀ a ∈ (cmsg mem off info).2, a.Inside ⟨off, (m.bytes room).length⟩) ∧
      (¬ (m.type = IP_PKTINFO → 28 ≤ room) → ∃ a ∈ (cmsg mem off info).2, off + room < a.off + a.size) := by
  unfold sizeofControlbuffer at hle
  obtain ⟨_, htype, _⟩ := fields h hwf.type_lt (by omega)
  rw [m.length_bytes (by omega)]
  have hsize : m.size = 16 + m.data.length := rfl
  unfold cmsg Area.Inside
  rw [htype]
  by_cases hpktinfo : m.type = IP_PKTINFO
  · have hlong := hwf.pktinfo hpktinfo
    rw [if_pos hpktinfo, forall_prop_of_true hpktinfo]
    refine ⟨fun hwhole a ha => ?_, fun hcut => ⟨⟨off + 16, 12⟩, List.mem_cons_of_mem _ List.mem_cons_self, ?_⟩⟩
    · simp only [List.mem_cons, List.not_mem_nil, or_false] at ha
      rcases ha with rfl | rfl
      · dsimp only
        omega
      · dsimp only
        omega
    · dsimp only
      omega
  · rw [if_neg hpktinfo]
    refine ⟨fun _ a ha => ?_, fun hcut => absurd (fun hno => absurd hno hpktinfo) hcut⟩
    by_cases httl : m.type = IP_TTL
    · have hlong := hwf.ttl httl
      rw [if_pos httl] at ha
      simp only [List.mem_cons, List.not_mem_nil, or_false] at ha
      rcases ha with rfl | rfl
      · dsimp only
        omega
      · dsimp only
        omega
    · rw [if_neg httl] at ha
      obtain rfl := List.mem_singleton.mp ha
      dsimp only
      omega

theorem needed_le (checksNext : Bool) (m : Cmsg) : 16 ≤ needed checksNext m ∧ needed checksNext m ≤ m.space := by
  obtain ⟨_, _, hspace16, _⟩ := m.size_le_space
  unfold needed
  cases checksNext with
  | true => exact ⟨hspace16, Nat.le_refl _⟩
  | false => exact ⟨Nat.le_refl 16, hspace16⟩

theorem of_room_lt (checksNext : Bool) (h : room < 16) (ms : List Cmsg) :
    usedBy room ms = 0 ∧ reached checksNext room ms = [] := by
  cases ms with
  | nil => exact ⟨rfl, rfl⟩
  | cons m ms =>
    have hneeded := (needed_le checksNext m).1
    rw [usedBy, reached, if_pos h, if_neg (by omega)]
    exact ⟨rfl, rfl⟩

theorem whole_of_reached (h : reached checksNext room ms = []) : Whole checksNext room ms := by
  cases ms with
  | nil => trivial
  | cons m ms =>
    intro hneeded
    rw [reached, if_pos hneeded] at h
    simp at h

theorem whole_of_checksNext (room : Nat) (hwf : ∀ m ∈ ms, m.WellFormed) : Whole true room ms := by
  induction ms generalizing room with
  | nil => trivial
  | cons m ms ih =>
    intro hneeded
    refine ⟨fun hpktinfo => ?_, ih _ fun x hx => hwf x (List.mem_cons_of_mem _ hx)⟩
    have hlong := (hwf m List.mem_cons_self).pktinfo hpktinfo
    have hsize : m.size = 16 + m.data.length := rfl
    have hspace : m.space ≤ room := hneeded
    have hle := m.size_le_space.1
    omega

theorem cmsgAlign_eq (len : Nat) (h : len ≤ sizeofControlbuffer) : cmsgAlign len = (len + 7) / 8 * 8 := by
  unfold sizeofControlbuffer at h
  rw [cmsgAlign, Nat.mod_eq_of_lt (by omega)]

/-- The room never is a multiple of eight, so the aligned length of a cut message is more than there is. -/
theorem room_lt_align (room : Nat) (m : Cmsg) (hmod : room % 8 = 4) (hfull : room < m.space) :
    room < (min m.size room + 7) / 8 * 8 := by
  unfold Cmsg.space at hfull
  omega

/-- What the two say of a message if there is no room for the header of another one behind it. -/
theorem cmsgNxthdr_none {controllen : Nat} (hlen : 16 ≤ cmsgLen mem off) (hle : cmsgLen mem off ≤ sizeofControlbuffer)
    (hend : controllen < off + (cmsgLen mem off + 7) / 8 * 8 + 16) :
    cmsgNxthdr checksNext mem controllen off = (none, [⟨off, 8⟩]) := by
  unfold cmsgNxthdr cmsgPadding
  dsimp only
  rw [cmsgAlign_eq _ hle, if_neg (Nat.not_lt.mpr hlen)]
  cases checksNext with
  | true => rw [if_pos rfl, if_pos hend]
  | false => rw [if_neg Bool.false_ne_true, if_pos (by omega)]

theorem cmsgNxthdr_eq (checksNext : Bool) (h : Laid mem off room (m :: ms)) (hwf : ∀ x ∈ m :: ms, x.WellFormed)
    (hle : room ≤ sizeofControlbuffer) (hroom : 16 ≤ room) (hmod : room % 8 = 4) :
    (cmsgNxthdr checksNext mem (off + usedBy room (m :: ms)) off).1 =
        (if reached checksNext (room - m.space) ms = [] then none else some (off + m.space)) ∧
      ∀ a ∈ (cmsgNxthdr checksNext mem (off + usedBy room (m :: ms)) off).2,
        ∃ b ∈ areas off room (m :: ms), a.Inside b := by
  obtain ⟨hholds, hlaid⟩ := h hroom
  have hbound : sizeofControlbuffer = 100 := rfl
  obtain ⟨hlen, _⟩ := fields hholds (hwf m List.mem_cons_self).type_lt (by omega)
  obtain ⟨hsize, hspace, hspace16, hspace8⟩ := m.size_le_space
  have hsize16 : 16 ≤ m.size := Nat.le_add_right ..
  have hareas : areas off room (m :: ms) = ⟨off, (m.bytes room).length⟩ ::
      areas (off + min m.space room) (room - min m.space room) ms := by
    rw [areas, if_neg (by omega)]
  have hused : usedBy room (m :: ms) = min m.space room + usedBy (room - min m.space room) ms := by
    rw [usedBy, if_neg (by omega)]
  have hown : Area.Inside ⟨off, 8⟩ ⟨off, (m.bytes room).length⟩ := by
    rw [m.length_bytes hroom]
    unfold Area.Inside
    dsimp only
    omega
  have hfirst : ∀ a ∈ [Area.mk off 8], ∃ b ∈ areas off room (m :: ms), a.Inside b :=
    fun a ha => ⟨_, hareas ▸ List.mem_cons_self, List.mem_singleton.mp ha ▸ hown⟩
  by_cases hfits : m.space ≤ room
  · have hnext : (min m.size room + 7) / 8 * 8 = m.space := by
      rw [Nat.min_eq_left (by omega)]
      rfl
    rw [Nat.min_eq_left hfits] at hlaid hareas hused
    rw [hused]
    by_cases hnone : usedBy (room - m.space) ms = 0
    · have hreached : reached checksNext (room - m.space) ms = [] := by
        cases ms with
        | nil => rfl
        | cons m' ms =>
          refine (of_room_lt checksNext ?_ _).2
          rw [usedBy] at hnone
          obtain ⟨_, _, hspace16', _⟩ := m'.size_le_space
          split_ifs at hnone <;> omega
      rw [cmsgNxthdr_none (by omega) (by omega) (by rw [hlen, hnext]; omega), hreached]
      exact ⟨rfl, hfirst⟩
    · cases ms with
      | nil => exact absurd rfl hnone
      | cons m' ms =>
        obtain ⟨hsize', hspace', hspace16', _⟩ := m'.size_le_space
        have hroom' : ¬ room - m.space < 16 := fun hlt => hnone (of_room_lt checksNext hlt _).1
        obtain ⟨hholds', _⟩ := hlaid (by omega)
        obtain ⟨hlen', _⟩ := fields hholds' (hwf m' (List.mem_cons_of_mem _ List.mem_cons_self)).type_lt (by omega)
        unfold cmsgNxthdr cmsgPadding
        dsimp only
        rw [hlen, cmsgAlign_eq _ (by omega), hnext, usedBy, if_neg hroom', if_neg (by omega)]
        cases checksNext with
        | false =>
          rw [if_neg Bool.false_ne_true, if_neg (by omega), reached,
            if_pos (show needed false m' ≤ room - m.space from show 16 ≤ room - m.space by omega)]
          exact ⟨(if_neg (List.cons_ne_nil _ _)).symm, hfirst⟩
        | true =>
          have halign' := cmsgAlign_eq (min m'.size (room - m.space)) (by omega)
          have hsecond : ∃ b ∈ areas off room (m :: m' :: ms), Area.Inside ⟨off + m.space, 8⟩ b := by
            refine ⟨⟨off + m.space, (m'.bytes (room - m.space)).length⟩, ?_, ?_⟩
            · rw [hareas, areas, if_neg hroom']
              exact List.mem_cons_of_mem _ List.mem_cons_self
            · rw [m'.length_bytes (by omega)]
              have hsize16' : 16 ≤ m'.size := Nat.le_add_right ..
              unfold Area.Inside
              dsimp only
              omega
          have hboth : ∀ a ∈ [Area.mk off 8, ⟨off + m.space, 8⟩],
              ∃ b ∈ areas off room (m :: m' :: ms), a.Inside b := by
            intro a ha
            rcases List.mem_cons.mp ha with rfl | ha
            · exact hfirst _ List.mem_cons_self
            · rw [List.mem_singleton.mp ha]
              exact hsecond
          have hneeded : needed true m' = m'.space := rfl
          rw [if_pos rfl, if_neg (by omega), hlen', halign', reached, hneeded]
          by_cases hfits' : m'.space ≤ room - m.space
          · have hspaces : (m'.size + 7) / 8 * 8 = m'.space := rfl
            rw [Nat.min_eq_left hfits', Nat.min_eq_left (Nat.le_trans hsize' hfits'), hspaces, if_pos hfits',
              if_neg (by omega), if_neg (by simp)]
            exact ⟨rfl, hboth⟩
          · have hcut := room_lt_align (room - m.space) m' (by omega) (by omega)
            rw [if_neg hfits', if_pos rfl, Nat.min_eq_right (Nat.le_of_not_le hfits'), Nat.sub_self,
              (of_room_lt true (by decide) ms).1, if_pos (by omega)]
            exact ⟨rfl, hboth⟩
  · have hcut := room_lt_align room m hmod (Nat.lt_of_not_le hfits)
    have hnone : reached checksNext (room - m.space) ms = [] := (of_room_lt checksNext (by omega) ms).2
    rw [hnone, if_pos rfl, hused, Nat.min_eq_right (Nat.le_of_not_le hfits), Nat.sub_self,
      (of_room_lt checksNext (by decide) ms).1]
    rw [cmsgNxthdr_none (by omega) (by omega) (by rw [hlen]; omega)]
    exact ⟨rfl, hfirst⟩

theorem areas_head (hroom : 16 ≤ room) (ms : List Cmsg) :
    ⟨off, (m.bytes room).length⟩ ∈ areas off room (m :: ms) := by
  rw [areas, if_neg (by omega)]
  exact List.mem_cons_self

theorem walk_last (checksNext : Bool) (info : Info) (fuel : Nat) (h : Laid mem off room (m :: ms))
    (hwf : ∀ x ∈ m :: ms, x.WellFormed)
    (hle : room ≤ sizeofControlbuffer) (hroom : 16 ≤ room) (hmod : room % 8 = 4)
    (hvisit : needed checksNext m ≤ room ∨ 28 ≤ room) (hnone : reached checksNext (room - m.space) ms = []) :
    ∃ reads, walk checksNext mem (off + usedBy room (m :: ms)) (fuel + 1) (some off) info =
        some (info.step m, reads) ∧
      (Whole checksNext room (m :: ms) → ∀ a ∈ reads, ∃ b ∈ areas off room (m :: ms), a.Inside b) ∧
      (¬ Whole checksNext room (m :: ms) → ∃ a ∈ reads, off + room < a.off + a.size) := by
  obtain ⟨hnext, hreads⟩ := cmsgNxthdr_eq checksNext h hwf hle hroom hmod
  have hinfo := cmsg_info info (h hroom).1 (hwf m List.mem_cons_self) hle (by omega)
  obtain ⟨hown, hcut⟩ := cmsg_reads info (h hroom).1 (hwf m List.mem_cons_self) hle (by omega)
  rw [hnone, if_pos rfl] at hnext
  rw [walk]
  dsimp only
  rw [hnext, hinfo, walk]
  refine ⟨_, rfl, fun hwhole a ha => ?_, fun hwhole => ?_⟩
  · have hpktinfo : m.type = IP_PKTINFO → 28 ≤ room := by
      rcases hvisit with hneeded | hlong
      · exact (hwhole hneeded).1
      · exact fun _ => hlong
    rw [List.append_nil] at ha
    rcases List.mem_append.mp ha with ha | ha
    · exact ⟨_, areas_head hroom ms, hown hpktinfo a ha⟩
    · exact hreads a ha
  · have hno : ¬ (m.type = IP_PKTINFO → 28 ≤ room) :=
      fun hpktinfo => hwhole fun _ => ⟨hpktinfo, whole_of_reached hnone⟩
    obtain ⟨a, ha, hbehind⟩ := hcut hno
    exact ⟨a, List.mem_append_left _ (List.mem_append_left _ ha), hbehind⟩

/-- The messages that the walk comes to, and what it reads: nothing but what the kernel has written, or something
behind the buffer. -/
theorem walk_eq (checksNext : Bool) (info : Info) (fuel : Nat) (h : Laid mem off room (m :: ms))
    (hwf : ∀ x ∈ m :: ms, x.WellFormed)
    (hle : room ≤ sizeofControlbuffer) (hroom : 16 ≤ room) (hmod : room % 8 = 4)
    (hvisit : needed checksNext m ≤ room ∨ 28 ≤ room)
    (hfuel : (reached checksNext (room - m.space) ms).length ≤ fuel) :
    ∃ reads, walk checksNext mem (off + usedBy room (m :: ms)) (fuel + 1) (some off) info =
        some ((m :: reached checksNext (room - m.space) ms).foldl Info.step info, reads) ∧
      (Whole checksNext room (m :: ms) → ∀ a ∈ reads, ∃ b ∈ areas off room (m :: ms), a.Inside b) ∧
      (¬ Whole checksNext room (m :: ms) → ∃ a ∈ reads, off + room < a.off + a.size) := by
  induction ms generalizing m off room info fuel with
  | nil => exact walk_last checksNext info fuel h hwf hle hroom hmod hvisit rfl
  | cons m' ms ih =>
    by_cases hreach : needed checksNext m' ≤ room - m.space
    · obtain ⟨hnext, hreads⟩ := cmsgNxthdr_eq checksNext h hwf hle hroom hmod
      have hinfo := cmsg_info info (h hroom).1 (hwf m List.mem_cons_self) hle (by omega)
      obtain ⟨_, _, hspace16, hspace8⟩ := m.size_le_space
      have hneeded := (needed_le checksNext m).2
      have hneeded' := (needed_le checksNext m').1
      have hmin : min m.space room = m.space := by omega
      have hend : off + m.space + (room - m.space) = off + room := by omega
      rw [reached, if_pos hreach, if_neg (by simp)] at hnext
      rw [reached, if_pos hreach, List.length_cons] at hfuel
      obtain ⟨fuel, rfl⟩ := Nat.exists_eq_add_one_of_ne_zero (show fuel ≠ 0 by omega)
      have hlaid := (h hroom).2
      rw [hmin] at hlaid
      have hused : usedBy room (m :: m' :: ms) = m.space + usedBy (room - m.space) (m' :: ms) := by
        rw [usedBy, if_neg (by omega), hmin]
      have hareas : areas off room (m :: m' :: ms) = ⟨off, (m.bytes room).length⟩ ::
          areas (off + m.space) (room - m.space) (m' :: ms) := by
        rw [areas, if_neg (by omega), hmin]
      have hfirst : needed checksNext m ≤ room := by omega
      obtain ⟨reads, hwalk, hinside, hbehind⟩ := ih (info.step m) fuel hlaid
        (fun x hx => hwf x (List.mem_cons_of_mem _ hx)) (by omega) (by omega) (by omega) (Or.inl hreach)
        (Nat.le_of_succ_le_succ hfuel)
      obtain ⟨hown, hcut⟩ := cmsg_reads info (h hroom).1 (hwf m List.mem_cons_self) hle (by omega)
      rw [Nat.add_assoc, ← hused] at hwalk
      rw [walk]
      dsimp only
      rw [hnext, hinfo, hwalk, reached, if_pos hreach]
      refine ⟨_, rfl, fun hwhole a ha => ?_, fun hwhole => ?_⟩
      · obtain ⟨hpktinfo, hrest⟩ := hwhole hfirst
        rcases List.mem_append.mp ha with ha | ha
        · rcases List.mem_append.mp ha with ha | ha
          · exact ⟨_, areas_head hroom _, hown hpktinfo a ha⟩
          · exact hreads a ha
        · obtain ⟨b, hb, hab⟩ := hinside hrest a ha
          exact ⟨b, hareas ▸ List.mem_cons_of_mem _ hb, hab⟩
      · by_cases hpktinfo : m.type = IP_PKTINFO → 28 ≤ room
        · obtain ⟨a, ha, hlt⟩ := hbehind fun hrest => hwhole fun _ => ⟨hpktinfo, hrest⟩
          exact ⟨a, List.mem_append_right _ ha, hend ▸ hlt⟩
        · obtain ⟨a, ha, hlt⟩ := hcut hpktinfo
          exact ⟨a, List.mem_append_left _ (List.mem_append_left _ ha), hlt⟩
    · have hnone : reached checksNext (room - m.space) (m' :: ms) = [] := by
        rw [reached, if_neg hreach]
      rw [hnone]
      exact walk_last checksNext info fuel h hwf hle hroom hmod hvisit hnone

theorem areas_end (off room : Nat) (ms : List Cmsg) : ∀ b ∈ areas off room ms, b.off + b.size ≤ off + room := by
  induction ms generalizing off room with
  | nil =>
    intro b hb
    simp [areas] at hb
  | cons m ms ih =>
    intro b hb
    rw [areas] at hb
    split_ifs at hb with hroom
    · simp at hb
    · rcases List.mem_cons.mp hb with rfl | hb
      · dsimp only
        rw [m.length_bytes (by omega)]
        omega
      · have hrest := ih _ _ b hb
        omega

/-! ### What is received -/

theorem length_reached_le (checksNext : Bool) (room : Nat) (ms : List Cmsg) :
    (reached checksNext room ms).length * 16 ≤ room := by
  induction ms generalizing room with
  | nil => exact Nat.zero_le _
  | cons m ms ih =>
    rw [reached]
    obtain ⟨_, _, hspace16, _⟩ := m.size_le_space
    have hneeded := (needed_le checksNext m).1
    split_ifs with hreach
    · have hrest := ih (room - m.space)
      rw [List.length_cons]
      omega
    · exact Nat.zero_le _

/-- What the messages say, the last of each type. -/
def Info.of (msgs : List Cmsg) : Info :=
  ⟨(lastInt IP_PKTINFO msgs).getD 0, ((lastInt IP_TTL msgs).map fun ttl : Nat => Int.bmod ttl (2 ^ 32)).getD 1⟩

theorem lastInt_concat (type : Nat) (msgs : List Cmsg) (m : Cmsg) :
    lastInt type (msgs ++ [m]) = if m.type = type then some m.int else lastInt type msgs := by
  unfold lastInt
  by_cases h : m.type = type
  · simp [h]
  · simp [h]

theorem foldl_step (msgs : List Cmsg) : msgs.foldl Info.step ⟨0, 1⟩ = Info.of msgs := by
  induction msgs using List.reverseRecOn with
  | nil => rfl
  | append_singleton msgs m ih =>
    rw [List.foldl_append, ih, List.foldl_cons, List.foldl_nil, Info.step, Info.of, Info.of, lastInt_concat,
      lastInt_concat]
    by_cases hpktinfo : m.type = IP_PKTINFO
    · have httl : m.type ≠ IP_TTL := by
        rw [hpktinfo]
        decide
      rw [if_pos hpktinfo, if_pos hpktinfo, if_neg httl]
      rfl
    · rw [if_neg hpktinfo, if_neg hpktinfo]
      by_cases httl : m.type = IP_TTL
      · rw [if_pos httl, if_pos httl, Option.map_some, Option.getD_some]
      · rw [if_neg httl, if_neg httl]

/-- `struct in_pktinfo`: the index of the interface, and two addresses. -/
def pktinfo (ifindex : Nat) (addresses : List UInt8) : Cmsg := ⟨0, IP_PKTINFO, leBytes 4 ifindex ++ addresses⟩

theorem pktinfo_wellFormed {ifindex : Nat} {addresses : List UInt8} (h : addresses.length = 8) :
    (pktinfo ifindex addresses).WellFormed := by
  refine ⟨show IP_PKTINFO < 2 ^ 32 by decide, fun _ => ?_, fun (httl : IP_PKTINFO = IP_TTL) => absurd httl (by decide)⟩
  rw [pktinfo, List.length_append, length_leBytes, h]

theorem pktinfo_int {ifindex : Nat} (h : ifindex < 2 ^ 32) (addresses : List UInt8) :
    (pktinfo ifindex addresses).int = ifindex :=
  readLe_of_lt (holds_append.mp (holds_memoryOf (leBytes 4 ifindex ++ addresses))).1 h

/-- The walk comes to the messages that are found, and reads what the kernel has written if none is cut too short. -/
theorem receiveTelegram_eq (checksNext : Bool) (stack : Memory) (msgs : List Cmsg)
    (hwf : ∀ m ∈ msgs, m.WellFormed) (nbytes : Int) {fuel : Nat} (hfuel : 6 ≤ fuel) :
    ∃ reads, receiveTelegram checksNext fuel ⟨nbytes, (putAll stack msgs).mem, (putAll stack msgs).used⟩ =
        some (nbytes, Info.of (if 0 < nbytes then found checksNext msgs else []), reads) ∧
      ((∀ a ∈ reads, ∃ b ∈ areas 0 sizeofControlbuffer msgs, a.Inside b) ↔
        (0 < nbytes → Whole checksNext sizeofControlbuffer msgs)) := by
  rw [receiveTelegram]
  by_cases hpos : 0 < nbytes
  · obtain ⟨hlaid, hused⟩ := laid_foldl sizeofControlbuffer msgs ⟨stack, 0⟩ (Nat.zero_le _)
    dsimp only
    rw [if_pos hpos, if_pos hpos, ← foldl_step]
    cases msgs with
    | nil =>
      have hnone : walk checksNext (putAll stack []).mem (putAll stack []).used fuel none ⟨0, 1⟩ =
          some (⟨0, 1⟩, []) := by
        rw [walk]
      exact ⟨[], congrArg (Option.map _) hnone, iff_of_true (List.forall_mem_nil _) fun _ => trivial⟩
    | cons m ms =>
      dsimp only at hlaid hused
      rw [Nat.sub_zero] at hlaid hused
      obtain ⟨fuel, rfl⟩ := Nat.exists_eq_add_one_of_ne_zero (show fuel ≠ 0 by omega)
      have hlength := length_reached_le checksNext (sizeofControlbuffer - m.space) ms
      obtain ⟨_, _, hspace16, _⟩ := m.size_le_space
      have hbound : sizeofControlbuffer = 100 := rfl
      obtain ⟨reads, hwalk, hinside, hbehind⟩ := walk_eq checksNext ⟨0, 1⟩ fuel hlaid hwf (Nat.le_refl _)
        (by decide) (by decide) (Or.inr (by decide)) (by omega)
      have hfirst : cmsgFirsthdr (putAll stack (m :: ms)).used = some 0 := by
        have husedBy : usedBy sizeofControlbuffer (m :: ms) = min m.space sizeofControlbuffer +
            usedBy (sizeofControlbuffer - min m.space sizeofControlbuffer) ms := by
          rw [usedBy, if_neg (by decide)]
        rw [cmsgFirsthdr, putAll, hused, if_pos (by omega)]
      rw [hfirst, putAll, hused]
      refine ⟨reads, congrArg (Option.map _) hwalk, fun hall _ => ?_, fun hwhole => hinside (hwhole hpos)⟩
      by_contra hcut
      obtain ⟨a, ha, hlt⟩ := hbehind hcut
      obtain ⟨b, hb, hab⟩ := hall a ha
      exact absurd (Nat.le_trans hab.2 (areas_end _ _ _ b hb)) (Nat.not_le.mpr hlt)
  · dsimp only
    rw [if_neg hpos, if_neg hpos]
    exact ⟨[], rfl, iff_of_true (List.forall_mem_nil _) fun h => absurd h hpos⟩

theorem receiveTelegramFrom_eq {netadapterList : Adapters} {fuel : Nat} {r : Received} {nbytes : Int} {info : Info}
    {reads : List Area} (h : receiveTelegram checksNext fuel r = some (nbytes, info, reads)) :
    receiveTelegramFrom checksNext netadapterList fuel r = some (
      if 0 < nbytes then
        match netadapterList.find? info.adapterIndex with
        | some adapter => (nbytes, some adapter, info.ttl)
        | none => (-1, none, info.ttl)
      else (nbytes, none, info.ttl)) := by
  rw [receiveTelegramFrom, h, Option.map_some]
  dsimp only
  by_cases hpos : 0 < nbytes
  · rw [if_pos hpos, if_pos hpos, Adapters.getAdapterByInterfaceIndex]
    cases netadapterList.find? info.adapterIndex <;> rfl
  · rw [if_neg hpos, if_neg hpos]

/-- **The interface is that of the last `IP_PKTINFO`.** Whatever the kernel has to say, and whatever is on the stack,
the walk ends, and takes the interface and the time to live from the messages that it finds: the first, and those behind
it that fit with their padding (an old library) or have room for a header (a new one). It reads only what the kernel has
written exactly if it finds no `IP_PKTINFO` that is cut before the end of its data, which an old library never does. The
overloads for an adapter have the one with this index, or fail. -/
theorem receiveTelegram_found (checksNext : Bool) (stack : Memory) (msgs : List Cmsg) (hwf : ∀ m ∈ msgs, m.WellFormed)
    (nbytes : Int) (netadapterList : Adapters) (fuel : Nat) (hfuel : 6 ≤ fuel) :
    let r : Received := ⟨nbytes, (putAll stack msgs).mem, (putAll stack msgs).used⟩
    let info := Info.of (if 0 < nbytes then found checksNext msgs else [])
    (∃ reads, receiveTelegram checksNext fuel r = some (nbytes, info, reads) ∧
      ((∀ a ∈ reads, ∃ b ∈ areas 0 sizeofControlbuffer msgs, a.Inside b) ↔
        (0 < nbytes → Whole checksNext sizeofControlbuffer msgs)) ∧
      (checksNext = true → ∀ a ∈ reads, ∃ b ∈ areas 0 sizeofControlbuffer msgs, a.Inside b)) ∧
    receiveTelegramFrom checksNext netadapterList fuel r = some (
      if 0 < nbytes then
        match netadapterList.find? info.adapterIndex with
        | some adapter => (nbytes, some adapter, info.ttl)
        | none => (-1, none, info.ttl)
      else (nbytes, none, info.ttl)) := by
  intro r info
  obtain ⟨reads, hreceive, hreads⟩ := receiveTelegram_eq checksNext stack msgs hwf nbytes hfuel
  refine ⟨⟨reads, hreceive, hreads, fun hold => hreads.mpr fun _ => ?_⟩, receiveTelegramFrom_eq hreceive⟩
  rw [hold]
  exact whole_of_checksNext _ hwf

/-- Four messages. The last one is cut, and an old library does not come to it. -/
def fourMessages : List Cmsg :=
  [pktinfo 2 (List.replicate 8 0), ⟨1, 29, List.replicate 8 0⟩, ⟨0, IP_TTL, [64, 0, 0, 0]⟩,
    pktinfo 3 (List.replicate 8 0)]

theorem receiveTelegram_found_four :
    (∃ reads, receiveTelegram true 6 ⟨5, (putAll (fun _ => 170) fourMessages).mem,
        (putAll (fun _ => 170) fourMessages).used⟩ = some (5, ⟨2, 64⟩, reads) ∧
        ∀ a ∈ reads, ∃ b ∈ areas 0 sizeofControlbuffer fourMessages, a.Inside b) ∧
      (∃ reads, receiveTelegram false 6 ⟨5, (putAll (fun _ => 170) fourMessages).mem,
        (putAll (fun _ => 170) fourMessages).used⟩ = some (5, ⟨3, 64⟩, reads) ∧
        ¬ ∀ a ∈ reads, ∃ b ∈ areas 0 sizeofControlbuffer fourMessages, a.Inside b) ∧
      receiveTelegramFrom false .empty 6 ⟨5, (putAll (fun _ => 170) fourMessages).mem,
        (putAll (fun _ => 170) fourMessages).used⟩ = some (-1, none, 64) := by
  have hwf : ∀ m ∈ fourMessages, m.WellFormed := by
    refine List.forall_mem_cons.mpr ⟨pktinfo_wellFormed rfl, List.forall_mem_cons.mpr ⟨⟨?_, ?_, ?_⟩,
      List.forall_mem_cons.mpr ⟨⟨?_, ?_, ?_⟩, List.forall_mem_singleton.mpr (pktinfo_wellFormed rfl)⟩⟩⟩
    all_goals decide
  have hold : Info.of (if (0 : Int) < 5 then found true fourMessages else []) = ⟨2, 64⟩ := by decide +kernel
  have hnew : Info.of (if (0 : Int) < 5 then found false fourMessages else []) = ⟨3, 64⟩ := by decide +kernel
  obtain ⟨⟨reads, hreceive, _, hreads⟩, _⟩ := receiveTelegram_found true (fun _ => 170) fourMessages hwf 5 .empty 6
    (by decide)
  obtain ⟨⟨reads', hreceive', hwhole, _⟩, hfrom⟩ := receiveTelegram_found false (fun _ => 170) fourMessages hwf 5 .empty
    6 (by decide)
  rw [hold] at hreceive
  rw [hnew] at hreceive' hfrom
  refine ⟨⟨reads, hreceive, hreads rfl⟩, ⟨reads', hreceive', fun hall => ?_⟩, hfrom⟩
  -- the room for the last message is 20 bytes
  have hcut := (((hwhole.mp hall (by decide) (by decide)).2 (by decide)).2 (by decide)).2 (by decide)
  exact absurd (hcut.1 rfl) (by decide)

/-- `setupReceiveSocket` asks for `IP_PKTINFO` only: the interface is the one that was received from, and `ttl` is 1
whatever the sender has set. -/
theorem receiveTelegram_pktinfo (checksNext : Bool) (stack : Memory) {ifindex : Nat} (hindex : ifindex < 2 ^ 32)
    {addresses : List UInt8} (haddresses : addresses.length = 8) (nbytes : Int) {fuel : Nat} (hfuel : 6 ≤ fuel) :
    ∃ reads, receiveTelegram checksNext fuel ⟨nbytes, (putAll stack [pktinfo ifindex addresses]).mem,
      (putAll stack [pktinfo ifindex addresses]).used⟩ =
        some (nbytes, ⟨if 0 < nbytes then ifindex else 0, 1⟩, reads) := by
  have hwf : ∀ m ∈ [pktinfo ifindex addresses], m.WellFormed :=
    List.forall_mem_singleton.mpr (pktinfo_wellFormed haddresses)
  have hinfo : Info.of (found checksNext [pktinfo ifindex addresses]) = ⟨ifindex, 1⟩ := by
    rw [found, reached, ← foldl_step, List.foldl_cons, List.foldl_nil, Info.step,
      if_pos (show (pktinfo ifindex addresses).type = IP_PKTINFO from rfl), pktinfo_int hindex]
  obtain ⟨reads, hreceive, _⟩ := receiveTelegram_eq checksNext stack _ hwf nbytes hfuel
  refine ⟨reads, hreceive.trans ?_⟩
  by_cases hpos : 0 < nbytes
  · rw [if_pos hpos, if_pos hpos, hinfo]
  · rw [if_neg hpos, if_neg hpos]
    rfl

end ReceiveTelegram

end Libhbk
