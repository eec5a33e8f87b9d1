import Libhbk.Communication.Netlink.Telegram
import Mathlib.Data.List.Basic

/-!
# Decoding a telegram

The messages a telegram is made of, how the kernel lays them out, and the events each stands for.
`processNetlinkTelegram` on the layout of a list of messages calls the callback with their events, in order.
-/

namespace Libhbk

namespace Netlink

/-! ### Messages -/

/-- A route attribute; its length, with the header, is a 16 bit number. -/
structure RtAttr where
  type : UInt16
  data : List UInt8
  fits : data.length + 4 < 2 ^ 16

/-- `struct ifinfomsg`. -/
structure IfInfo where
  family : UInt8
  type : UInt16
  index : UInt32
  flags : UInt32
  change : UInt32

/-- `struct ifaddrmsg`. -/
structure IfAddr where
  family : UInt8
  prefixlen : UInt8
  flags : UInt8
  scope : UInt8
  index : UInt32

/-- What follows the header. The last kind are all other messages: of routes, of unknown types, and the ones that
end a telegram. -/
inductive Payload where
  | newlink (info : IfInfo) (attrs : List RtAttr)
  | dellink (info : IfInfo) (attrs : List RtAttr)
  | newaddr (addr : IfAddr) (attrs : List RtAttr)
  | deladdr (addr : IfAddr) (attrs : List RtAttr)
  | other (type : UInt16) (data : List UInt8)

structure Message where
  flags : UInt16
  seq : UInt32
  pid : UInt32
  payload : Payload

/-! ### The layout -/

def RtAttr.encode (x : RtAttr) : List UInt8 :=
  leBytes 2 (x.data.length + 4) ++ leBytes 2 x.type.toNat ++ x.data ++ padding (x.data.length + 4)

def IfInfo.encode (x : IfInfo) : List UInt8 :=
  leBytes 1 x.family.toNat ++ leBytes 1 0 ++ leBytes 2 x.type.toNat ++ leBytes 4 x.index.toNat ++
    leBytes 4 x.flags.toNat ++ leBytes 4 x.change.toNat

def IfAddr.encode (x : IfAddr) : List UInt8 :=
  leBytes 1 x.family.toNat ++ leBytes 1 x.prefixlen.toNat ++ leBytes 1 x.flags.toNat ++ leBytes 1 x.scope.toNat ++
    leBytes 4 x.index.toNat

def Payload.type : Payload → Nat
  | newlink .. => rtmNewlink
  | dellink .. => rtmDellink
  | newaddr .. => rtmNewaddr
  | deladdr .. => rtmDeladdr
  | other type _ => type.toNat

def Payload.encode : Payload → List UInt8
  | newlink info attrs => info.encode ++ attrs.flatMap RtAttr.encode
  | dellink info attrs => info.encode ++ attrs.flatMap RtAttr.encode
  | newaddr addr attrs => addr.encode ++ attrs.flatMap RtAttr.encode
  | deladdr addr attrs => addr.encode ++ attrs.flatMap RtAttr.encode
  | other _ data => data

/-- `nlmsg_len`. -/
def Message.size (m : Message) : Nat := m.payload.encode.length + 16

def Message.encode (m : Message) : List UInt8 :=
  leBytes 4 m.size ++ leBytes 2 m.payload.type ++ leBytes 2 m.flags.toNat ++ leBytes 4 m.seq.toNat ++
    leBytes 4 m.pid.toNat ++ m.payload.encode ++ padding m.size

def encode (msgs : List Message) : List UInt8 := msgs.flatMap Message.encode

/-! ### The events -/

def IfInfo.up (x : IfInfo) : Bool := x.flags.toNat % 2 = 1

/-- The events of the `IFA_LOCAL` attributes of an address message. -/
def addressEvents (event : Event) (addr : IfAddr) (attrs : List RtAttr) : List Act :=
  if addr.family.toNat = afInet then
    (attrs.filter fun x => x.type.toNat = ifaLocal).map fun x =>
      .event event addr.index.toNat (inetNtoa fun i => x.data.getD i 0)
  else []

def Payload.events : Payload → List Act
  | newlink info _ =>
    if info.change = 0 then []
    else [.event (if info.up then .linkAdded else .linkRemoved) info.index.toNat ""]
  | dellink info _ => if info.up then [] else [.event .linkRemoved info.index.toNat ""]
  | newaddr addr attrs => addressEvents .addressAdded addr attrs
  | deladdr addr attrs => addressEvents .addressRemoved addr attrs
  | other .. => []

/-- `NLMSG_DONE` and `NLMSG_ERROR`. -/
def Payload.ends (p : Payload) : Bool := p.type = nlmsgDone ∨ p.type = nlmsgError

/-- What is done for the messages: for each of them, up to the first that ends the telegram, an update of the
adapter list and its events. -/
def events (msgs : List Message) : List Act :=
  (msgs.takeWhile fun m => !m.payload.ends).flatMap fun m => .update :: m.payload.events

/-- The attributes of an internet address are four bytes or more, and other messages are of another type. -/
def Payload.WellFormed : Payload → Prop
  | newlink .. => True
  | dellink .. => True
  | newaddr addr attrs => addr.family.toNat = afInet → ∀ x ∈ attrs, x.type.toNat = ifaLocal → 4 ≤ x.data.length
  | deladdr addr attrs => addr.family.toNat = afInet → ∀ x ∈ attrs, x.type.toNat = ifaLocal → 4 ≤ x.data.length
  | other type _ => type.toNat ∉ [rtmNewlink, rtmDellink, rtmNewaddr, rtmDeladdr]

/-- The updates and the events among what the function does. -/
def effects (acts : List Act) : List Act :=
  acts.filter fun
    | .update => true
    | .event .. => true
    | _ => false

/-! ### Attributes -/

variable {mem : Memory} {n fuel : Nat}

@[simp] theorem effects_append (as bs : List Act) : effects (as ++ bs) = effects as ++ effects bs :=
  List.filter_append as bs

theorem RtAttr.length_encode (x : RtAttr) : x.encode.length = align4 (x.data.length + 4) := by
  have hfits := x.fits
  rw [← add_length_padding (by omega), RtAttr.encode]
  simp only [List.length_append, length_leBytes]
  omega

theorem RtAttr.fields {x : RtAttr} {rth : Nat} (h : Holds mem rth x.encode) :
    rtaLen mem rth = x.data.length + 4 ∧ rtaType mem rth = x.type.toNat ∧ Holds mem (rth + 4) x.data := by
  simp only [RtAttr.encode, holds_append, List.length_append, length_leBytes] at h
  obtain ⟨⟨⟨hlen, htype⟩, hdata⟩, _⟩ := h
  exact ⟨readLe_of_lt hlen x.fits, readLe_of_lt htype x.type.toNat_lt, hdata⟩

theorem inetNtoa_holds {p : Nat} {data : List UInt8} (h : Holds mem p data) (hlen : 4 ≤ data.length) :
    inetNtoa (fun i => mem (p + i)) = inetNtoa fun i => data.getD i 0 := by
  have hbyte : ∀ i < 4, mem (p + i) = data.getD i 0 := by
    intro i hi
    rw [List.getD_eq_getElem?_getD, List.getElem?_eq_getElem (by omega), Option.getD_some]
    exact h i _ (List.getElem?_eq_getElem (by omega))
  simp only [inetNtoa]
  rw [hbyte 0 (by omega), hbyte 1 (by omega), hbyte 2 (by omega), hbyte 3 (by omega)]

/-- The loop over the attributes calls the callback for those of type `IFA_LOCAL`. -/
theorem attributes_events {rtl : Rtl} {event : Event} {index hi rth : Nat} {attrs : List RtAttr}
    (hholds : Holds mem rth (attrs.flatMap RtAttr.encode))
    (hlocal : ∀ x ∈ attrs, x.type.toNat = ifaLocal → 4 ≤ x.data.length)
    (hsize : (attrs.flatMap RtAttr.encode).length < 2 ^ 31) (hfuel : (attrs.flatMap RtAttr.encode).length < fuel) :
    ∃ acts, attributes mem true rtl event index hi fuel rth (attrs.flatMap RtAttr.encode).length = some acts ∧
      effects acts = (attrs.filter fun x => x.type.toNat = ifaLocal).map fun x =>
        .event event index (inetNtoa fun i => x.data.getD i 0) := by
  induction attrs generalizing rth fuel with
  | nil =>
    obtain ⟨fuel, rfl⟩ := Nat.exists_eq_add_of_lt hfuel
    exact ⟨[], rfl, rfl⟩
  | cons x attrs ih =>
    obtain ⟨fuel, rfl⟩ := Nat.exists_eq_add_of_lt hfuel
    rw [List.flatMap_cons] at hholds hsize ⊢
    rw [List.length_append, x.length_encode] at hsize ⊢
    obtain ⟨hx, hrest⟩ := holds_append.mp hholds
    obtain ⟨hlen, htype, hdata⟩ := RtAttr.fields hx
    have hfits := x.fits
    obtain ⟨hle, _⟩ := le_align4 (show x.data.length + 4 + 3 < 2 ^ 32 by omega)
    obtain ⟨acts, hacts, heffects⟩ := ih (x.length_encode ▸ hrest) (fun y hy => hlocal y (List.mem_cons_of_mem _ hy))
      (by omega) (show _ < align4 (x.data.length + 4) + (attrs.flatMap RtAttr.encode).length + fuel by omega)
    have hnext : ((align4 (x.data.length + 4) + (attrs.flatMap RtAttr.encode).length : Nat) : Int) -
        align4 (x.data.length + 4) = (attrs.flatMap RtAttr.encode).length := by omega
    have hcast : rtl.cast ((attrs.flatMap RtAttr.encode).length : Int) = (attrs.flatMap RtAttr.encode).length :=
      Rtl.cast_of_nonneg (by omega) (by omega)
    rw [attributes, if_neg (by omega), hlen, if_neg (by omega)]
    simp only [hnext, hcast, hacts, Option.map_some, if_true]
    refine ⟨_, rfl, ?_⟩
    rw [List.append_nil, effects_append, heffects, List.filter_cons, rtattr, htype]
    by_cases hifa : x.type.toNat = ifaLocal
    · have hfour := hlocal x List.mem_cons_self hifa
      simp only [hifa, decide_true, if_true, and_true, inetNtoa_holds hdata hfour]
      rfl
    · simp only [hifa, decide_false, false_and, if_false]
      rfl

/-! ### One message -/

theorem IfInfo.fields {x : IfInfo} {p : Nat} (h : Holds mem p x.encode) :
    ifiIndex mem p = x.index.toNat ∧ ifiFlags mem p = x.flags.toNat ∧ ifiChange mem p = x.change.toNat := by
  simp only [IfInfo.encode, holds_append, List.length_append, length_leBytes] at h
  obtain ⟨⟨⟨_, hindex⟩, hflags⟩, hchange⟩ := h
  exact ⟨readLe_of_lt hindex x.index.toNat_lt, readLe_of_lt hflags x.flags.toNat_lt,
    readLe_of_lt hchange x.change.toNat_lt⟩

theorem IfAddr.length_encode (x : IfAddr) : x.encode.length = 8 := by
  simp only [IfAddr.encode, List.length_append, length_leBytes]

theorem IfAddr.fields {x : IfAddr} {p : Nat} (h : Holds mem p x.encode) :
    ifaFamily mem p = x.family.toNat ∧ ifaIndex mem p = x.index.toNat := by
  simp only [IfAddr.encode, holds_append, List.length_append, length_leBytes] at h
  obtain ⟨⟨⟨⟨hfamily, _⟩, _⟩, _⟩, hindex⟩ := h
  exact ⟨readLe_of_lt hfamily x.family.toNat_lt, readLe_of_lt hindex x.index.toNat_lt⟩

theorem Payload.type_lt (p : Payload) : p.type < 2 ^ 16 := by
  cases p with
  | newlink => exact show rtmNewlink < 2 ^ 16 by decide
  | dellink => exact show rtmDellink < 2 ^ 16 by decide
  | newaddr => exact show rtmNewaddr < 2 ^ 16 by decide
  | deladdr => exact show rtmDeladdr < 2 ^ 16 by decide
  | other type data => exact type.toNat_lt

theorem Message.length_encode (m : Message) (hsize : m.size + 3 < 2 ^ 32) : m.encode.length = align4 m.size := by
  rw [← add_length_padding hsize, Message.encode]
  simp only [List.length_append, length_leBytes]
  rw [Message.size]
  omega

theorem Message.fields {m : Message} {nh : Nat} (h : Holds mem nh m.encode) (hsize : m.size + 3 < 2 ^ 32) :
    nlmsgLen mem nh = m.size ∧ nlmsgType mem nh = m.payload.type ∧ Holds mem (nh + 16) m.payload.encode := by
  simp only [Message.encode, holds_append, List.length_append, length_leBytes] at h
  obtain ⟨⟨⟨⟨⟨⟨hlen, htype⟩, _⟩, _⟩, _⟩, hpayload⟩, _⟩ := h
  exact ⟨readLe_of_lt hlen (show m.size < 2 ^ 32 by omega), readLe_of_lt htype m.payload.type_lt, hpayload⟩

theorem iffUp_and (x : IfInfo) : iffUp &&& x.flags.toNat ≠ 0 ↔ x.up = true := by
  rw [iffUp, Nat.one_and_eq_mod_two, IfInfo.up, decide_eq_true_eq]
  omega

theorem newlink_events {info : IfInfo} {nh : Nat} (h : Holds mem (nh + 16) info.encode) (attrs : List RtAttr) :
    effects (newlink mem true nh) = (Payload.newlink info attrs).events := by
  obtain ⟨hindex, hflags, hchange⟩ := IfInfo.fields h
  simp only [newlink, hflags, hchange, linkEvent, hindex, iffUp_and, if_true, Payload.events]
  by_cases hzero : info.change = 0
  · rw [if_pos hzero, if_neg (by rw [hzero]; decide)]
    rfl
  · have hne : info.change.toNat ≠ 0 := fun he => hzero (UInt32.toNat_inj.mp he)
    rw [if_neg hzero, if_pos hne]
    cases info.up <;> rfl

theorem dellink_events {info : IfInfo} {nh : Nat} (h : Holds mem (nh + 16) info.encode) (attrs : List RtAttr) :
    effects (dellink mem true nh) = (Payload.dellink info attrs).events := by
  obtain ⟨hindex, hflags, _⟩ := IfInfo.fields h
  have hdown : iffUp &&& info.flags.toNat = 0 ↔ info.up = false := by
    rw [← not_iff_not, Bool.not_eq_false]
    exact iffUp_and info
  simp only [dellink, hflags, linkEvent, hindex, hdown, if_true, Payload.events]
  cases info.up <;> rfl

theorem address_events {addr : IfAddr} {attrs : List RtAttr} {rtl : Rtl} {event : Event} {nh : Nat}
    (hholds : Holds mem (nh + 16) (addr.encode ++ attrs.flatMap RtAttr.encode))
    (hlen : nlmsgLen mem nh = 24 + (attrs.flatMap RtAttr.encode).length)
    (hlocal : addr.family.toNat = afInet → ∀ x ∈ attrs, x.type.toNat = ifaLocal → 4 ≤ x.data.length)
    (hsize : nlmsgLen mem nh < 2 ^ 31) (hfuel : nlmsgLen mem nh ≤ fuel) :
    ∃ acts, address mem true rtl event fuel nh = some acts ∧ effects acts = addressEvents event addr attrs := by
  obtain ⟨haddr, hattrs⟩ := holds_append.mp hholds
  rw [addr.length_encode] at hattrs
  obtain ⟨hfamily, hindex⟩ := IfAddr.fields haddr
  rw [address, addressEvents, hfamily]
  by_cases hinet : addr.family.toNat = afInet
  · obtain ⟨acts, hacts, heffects⟩ : ∃ acts, attributes mem true rtl event (ifaIndex mem (nh + 16))
        (nh + nlmsgLen mem nh) fuel (nh + 16 + 8) (attrs.flatMap RtAttr.encode).length = some acts ∧ _ :=
      attributes_events hattrs (hlocal hinet) (by omega) (by omega)
    have hpayload : (nlmsgLen mem nh : Int) - 24 = (attrs.flatMap RtAttr.encode).length := by omega
    have hcast : rtl.cast ((attrs.flatMap RtAttr.encode).length : Int) = (attrs.flatMap RtAttr.encode).length :=
      Rtl.cast_of_nonneg (by omega) (by omega)
    rw [if_pos hinet, if_pos hinet, hpayload, hcast, hacts]
    refine ⟨_, rfl, ?_⟩
    rw [if_pos rfl, effects_append, heffects, hindex]
    rfl
  · rw [if_neg hinet, if_neg hinet]
    exact ⟨_, rfl, rfl⟩

theorem message_events {m : Message} {nh : Nat} (hholds : Holds mem nh m.encode) (hwf : m.payload.WellFormed)
    (hsize : m.size < 2 ^ 31) (hfuel : m.size ≤ fuel) :
    ∃ acts, message mem true fuel nh = some acts ∧ effects acts = m.payload.events := by
  obtain ⟨hlen, htype, hpayload⟩ := Message.fields hholds (by omega)
  have hlen' := hlen
  rw [Message.size] at hlen'
  rw [message, htype]
  cases hp : m.payload with
  | newlink info attrs =>
    rw [hp] at hpayload
    rw [Payload.type, if_pos rfl]
    exact ⟨_, rfl, newlink_events (holds_append.mp hpayload).1 attrs⟩
  | dellink info attrs =>
    rw [hp] at hpayload
    rw [Payload.type, if_neg (by decide), if_pos rfl]
    exact ⟨_, rfl, dellink_events (holds_append.mp hpayload).1 attrs⟩
  | newaddr addr attrs =>
    rw [hp] at hpayload hwf hlen'
    rw [Payload.encode, List.length_append, addr.length_encode] at hlen'
    rw [Payload.type, if_neg (by decide), if_neg (by decide), if_pos rfl]
    exact address_events hpayload (by omega) hwf (by omega) (by omega)
  | deladdr addr attrs =>
    rw [hp] at hpayload hwf hlen'
    rw [Payload.encode, List.length_append, addr.length_encode] at hlen'
    rw [Payload.type, if_neg (by decide), if_neg (by decide), if_neg (by decide), if_pos rfl]
    exact address_events hpayload (by omega) hwf (by omega) (by omega)
  | other type data =>
    rw [hp] at hwf
    simp only [Payload.WellFormed, List.mem_cons, List.not_mem_nil, or_false, not_or] at hwf
    obtain ⟨hnewlink, hdellink, hnewaddr, hdeladdr⟩ := hwf
    rw [Payload.type, if_neg hnewlink, if_neg hdellink, if_neg hnewaddr, if_neg hdeladdr]
    split
    · exact ⟨_, rfl, rfl⟩
    · exact ⟨_, rfl, rfl⟩

/-! ### The telegram -/

/-- The loop over the messages does what they stand for, up to the first that ends the telegram. -/
theorem messages_events {msgs : List Message} {nh : Nat} (hholds : Holds mem nh (encode msgs))
    (hwf : ∀ m ∈ msgs, m.payload.WellFormed) (hsize : (encode msgs).length < 2 ^ 31)
    (hfuel : (encode msgs).length < fuel) :
    ∃ acts, messages mem n true fuel nh (encode msgs).length = some acts ∧ effects acts = events msgs := by
  induction msgs generalizing nh fuel with
  | nil =>
    obtain ⟨fuel, rfl⟩ := Nat.exists_eq_add_of_lt hfuel
    exact ⟨[], rfl, rfl⟩
  | cons m msgs ih =>
    obtain ⟨fuel, rfl⟩ := Nat.exists_eq_add_of_lt hfuel
    rw [encode, List.flatMap_cons] at hholds hsize ⊢
    change Holds mem nh (m.encode ++ encode msgs) at hholds
    change (m.encode ++ encode msgs).length < 2 ^ 31 at hsize
    change ∃ acts, messages mem n true ((m.encode ++ encode msgs).length + fuel + 1) nh
      (m.encode ++ encode msgs).length = some acts ∧ _
    have hmsize : m.size + 3 < 2 ^ 32 := by
      have hle : m.size ≤ m.encode.length := by
        rw [Message.encode, Message.size]
        simp only [List.length_append, length_leBytes]
        omega
      rw [List.length_append] at hsize
      omega
    rw [List.length_append, m.length_encode hmsize] at hsize ⊢
    obtain ⟨hm, hrest⟩ := holds_append.mp hholds
    rw [m.length_encode hmsize] at hrest
    obtain ⟨hlen, htype, _⟩ := Message.fields hm hmsize
    obtain ⟨hle, _⟩ := le_align4 hmsize
    have hlong : 16 ≤ m.size := Nat.le_add_left _ _
    rw [messages, if_neg (by omega), hlen, if_neg (by omega), htype]
    by_cases hends : m.payload.ends = true
    · have hnone : events (m :: msgs) = [] := by
        rw [events, List.takeWhile_cons, hends]
        rfl
      rw [hnone]
      rw [Payload.ends, decide_eq_true_eq] at hends
      rcases hends with hdone | herror
      · rw [if_pos hdone]
        exact ⟨_, rfl, rfl⟩
      · rw [if_neg (by rw [herror]; decide), if_pos herror]
        exact ⟨_, rfl, rfl⟩
    · have hgoes : m.payload.type ≠ nlmsgDone ∧ m.payload.type ≠ nlmsgError := by
        rw [Payload.ends, decide_eq_true_eq, not_or] at hends
        exact hends
      obtain ⟨body, hbody, hevents⟩ : ∃ acts, message mem true
          (align4 m.size + (encode msgs).length + fuel) nh = some acts ∧ effects acts = m.payload.events :=
        message_events hm (hwf m List.mem_cons_self) (by omega) (by omega)
      obtain ⟨acts, hacts, heffects⟩ : ∃ acts, messages mem n true (align4 m.size + (encode msgs).length + fuel)
          (nh + align4 m.size) (encode msgs).length = some acts ∧ effects acts = events msgs :=
        ih hrest (fun y hy => hwf y (List.mem_cons_of_mem _ hy)) (by omega) (by omega)
      have hleft : sizeSub (align4 m.size + (encode msgs).length) (align4 m.size) = (encode msgs).length := by
        rw [sizeSub_of_le (by omega) (by omega)]
        omega
      rw [if_neg hgoes.1, if_neg hgoes.2]
      simp only [hbody, Option.bind_some, hleft, hacts, Option.map_some]
      refine ⟨_, rfl, ?_⟩
      rw [if_pos (by omega), List.append_nil, effects_append, heffects]
      have hcons : events (m :: msgs) = .update :: m.payload.events ++ events msgs := by
        simp only [events, List.takeWhile_cons, Bool.not_eq_true _ ▸ hends, Bool.not_false, if_true, List.flatMap_cons]
      rw [hcons, ← hevents]
      rfl

/-- **Decoding undoes encoding.** On the layout of well-formed messages the function ends, and it updates the
adapter list and calls the callback exactly as the messages say. -/
theorem decode_encode (msgs : List Message) (hwf : ∀ m ∈ msgs, m.payload.WellFormed)
    (hsize : (encode msgs).length < 2 ^ 31) {mem : Memory} (hholds : Holds mem 0 (encode msgs)) :
    ∃ fuel acts, processNetlinkTelegram mem (encode msgs).length true fuel = some acts ∧
      effects acts = events msgs :=
  ⟨_, messages_events hholds hwf hsize (Nat.lt_succ_self _)⟩

/-- An address is removed, an interface goes down, and what follows the end of the telegram is ignored. -/
def removal : List Message :=
  [⟨0, 1, 0, .deladdr ⟨2, 24, 0, 0, 7⟩ [⟨1, [10], by decide⟩, ⟨2, [10, 0, 0, 5], by decide⟩]⟩,
    ⟨0, 2, 0, .dellink ⟨0, 1, 7, 0, 1⟩ []⟩, ⟨0, 3, 0, .other 3 []⟩, ⟨0, 4, 0, .newlink ⟨0, 1, 8, 1, 1⟩ []⟩]

theorem decode_encode_removal :
    ∃ fuel acts, processNetlinkTelegram (memoryOf (encode removal)) (encode removal).length true fuel = some acts ∧
      effects acts = [.update, .event .addressRemoved 7 "10.0.0.5", .update, .event .linkRemoved 7 ""] := by
  refine decode_encode removal ?_ (by decide +kernel) (holds_memoryOf _)
  have hdone : (3 : UInt16).toNat ∉ [rtmNewlink, rtmDellink, rtmNewaddr, rtmDeladdr] := by decide
  refine List.forall_mem_cons.mpr ⟨fun _ => by decide, List.forall_mem_cons.mpr ⟨trivial, ?_⟩⟩
  exact List.forall_mem_cons.mpr ⟨hdone, List.forall_mem_singleton.mpr trivial⟩

end Netlink

end Libhbk
