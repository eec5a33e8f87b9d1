import Libhbk.Communication.Netlink.Telegram
import Mathlib.Data.List.Basic

/-!
# What a telegram must be for the walk to stay inside it

Nothing checks the lengths in a telegram before they are used beyond `NLMSG_OK` and `RTA_OK`. `TelegramFits` says
which telegrams the walk gets through without leaving a message and without a remaining length wrapping around.
-/

namespace Libhbk

namespace Netlink

/-- `MAX_DATAGRAM_SIZE`. -/
def maxDatagramSize : Nat := 65536

/-- What is inspected ends where it should, and no length wraps around. -/
def Act.Inside : Act → Prop
  | .inspect off size hi => off + size ≤ hi
  | .wrap => False
  | _ => True

/-! ### The layouts -/

variable (mem : Memory) (notify : Bool)

/-- The attributes from `rth` on with `left` bytes for them, in a message that ends at `hi`: the padded length of each
fits (an `int` may become negative), and the address in an `IFA_LOCAL` attribute is inside the message if a callback
takes it. -/
inductive AttributesFit (hi : Nat) (rtl : Rtl) : Nat → Nat → Prop
  | done {rth left} : left < 4 → AttributesFit hi rtl rth left
  | malformed {rth left} : 4 ≤ left → rtaLen mem rth < 4 ∨ left < rtaLen mem rth → AttributesFit hi rtl rth left
  | next {rth left} : 4 ≤ rtaLen mem rth → rtaLen mem rth ≤ left →
      (rtaType mem rth = ifaLocal ∧ notify = true → rth + 8 ≤ hi) →
      (rtl = .unsignedInt → align4 (rtaLen mem rth) ≤ left) →
      AttributesFit hi rtl (rth + align4 (rtaLen mem rth)) (left - align4 (rtaLen mem rth)) →
      AttributesFit hi rtl rth left

/-- An address message holds an `ifaddrmsg`, and its attributes fit. -/
def AddressFits (rtl : Rtl) (nh : Nat) : Prop :=
  24 ≤ nlmsgLen mem nh ∧
    (ifaFamily mem (nh + 16) = afInet →
      AttributesFit mem notify (nh + nlmsgLen mem nh) rtl (nh + 24) (nlmsgLen mem nh - 24))

/-- A message is long enough for what its type says is in it. -/
def MessageFits (nh : Nat) : Prop :=
  (nlmsgType mem nh = rtmNewlink ∨ nlmsgType mem nh = rtmDellink → 32 ≤ nlmsgLen mem nh) ∧
    (nlmsgType mem nh = rtmNewaddr → AddressFits mem notify .unsignedInt nh) ∧
    (nlmsgType mem nh = rtmDeladdr → AddressFits mem notify .int nh)

/-- The messages from `nh` on with `left` bytes for them. The walk ends at `NLMSG_DONE`, at `NLMSG_ERROR`, and
where no well-formed header follows; until then each message fits, with its padding. -/
inductive TelegramFits : Nat → Nat → Prop
  | done {nh left} : left < 16 → TelegramFits nh left
  | malformed {nh left} : 16 ≤ left → nlmsgLen mem nh < 16 ∨ left < nlmsgLen mem nh → TelegramFits nh left
  | stop {nh left} : 16 ≤ nlmsgLen mem nh → nlmsgLen mem nh ≤ left →
      nlmsgType mem nh = nlmsgDone ∨ nlmsgType mem nh = nlmsgError → TelegramFits nh left
  | next {nh left} : 16 ≤ nlmsgLen mem nh → nlmsgLen mem nh ≤ left →
      ¬(nlmsgType mem nh = nlmsgDone ∨ nlmsgType mem nh = nlmsgError) → MessageFits mem notify nh →
      align4 (nlmsgLen mem nh) ≤ left →
      TelegramFits (nh + align4 (nlmsgLen mem nh)) (left - align4 (nlmsgLen mem nh)) → TelegramFits nh left

variable {mem notify} {rtl : Rtl} {event : Event} {adapterIndex hi n fuel : Nat} {acts : List Act}

/-! ### Attributes -/

theorem Rtl.cast_eq_iff {x : Int} (hlow : -4 < x) (hhigh : x ≤ maxDatagramSize) :
    rtl.cast x = x ↔ (rtl = .unsignedInt → 0 ≤ x) := by
  unfold maxDatagramSize at hhigh
  cases rtl with
  | unsignedInt =>
    rw [Rtl.cast, forall_prop_of_true rfl]
    omega
  | int =>
    refine iff_of_true ?_ fun he => by cases he
    rw [Rtl.cast]
    exact Int.bmod_eq_of_le (by omega) (by omega)

theorem attributesFit_next_iff {rth left : Nat} (hlen : 4 ≤ rtaLen mem rth) (hle : rtaLen mem rth ≤ left) :
    AttributesFit mem notify hi rtl rth left ↔
      (rtaType mem rth = ifaLocal ∧ notify = true → rth + 8 ≤ hi) ∧
      (rtl = .unsignedInt → align4 (rtaLen mem rth) ≤ left) ∧
      AttributesFit mem notify hi rtl (rth + align4 (rtaLen mem rth)) (left - align4 (rtaLen mem rth)) := by
  constructor
  · intro h
    cases h with
    | done h => omega
    | malformed _ h => omega
    | next _ _ hlocal hfit hnext => exact ⟨hlocal, hfit, hnext⟩
  · rintro ⟨hlocal, hfit, hnext⟩
    exact .next hlen hle hlocal hfit hnext

theorem rtattr_inside_iff {rth : Nat} (hhi : rth + rtaLen mem rth ≤ hi) :
    (∀ a ∈ rtattr mem notify event adapterIndex hi rth, a.Inside) ↔
      (rtaType mem rth = ifaLocal ∧ notify = true → rth + 8 ≤ hi) := by
  rw [rtattr, List.forall_mem_cons, and_iff_right (show Act.Inside (.inspect rth _ hi) from hhi)]
  by_cases hlocal : rtaType mem rth = ifaLocal ∧ notify = true
  · rw [if_pos hlocal, forall_prop_of_true hlocal, List.forall_mem_cons, List.forall_mem_singleton]
    exact and_iff_left trivial
  · rw [if_neg hlocal]
    exact iff_of_true (List.forall_mem_nil _) fun h => absurd h hlocal

theorem wrap_inside_iff {p : Prop} [Decidable p] : (∀ a ∈ if p then [] else [Act.wrap], a.Inside) ↔ p := by
  by_cases hp : p
  · rw [if_pos hp]
    exact iff_of_true (List.forall_mem_nil _) hp
  · rw [if_neg hp, List.forall_mem_singleton]
    exact iff_of_false id hp

/-- **The loop over the attributes.** Where it ends, it stays inside exactly if the attributes fit. -/
theorem attributes_inside_iff {rth : Nat} {left : Int} (hlow : -4 < left) (hhigh : left ≤ maxDatagramSize)
    (hhi : 0 ≤ left → rth + left = hi)
    (h : attributes mem notify rtl event adapterIndex hi fuel rth left = some acts) :
    (∀ a ∈ acts, a.Inside) ↔ AttributesFit mem notify hi rtl rth left.toNat := by
  induction fuel generalizing rth left acts with
  | zero => simp [attributes] at h
  | succ fuel ih =>
    rw [attributes] at h
    split_ifs at h with hdone hmalformed
    · obtain rfl := Option.some.inj h
      exact iff_of_true (List.forall_mem_nil _) (.done (by omega))
    · obtain rfl := Option.some.inj h
      refine iff_of_true ?_ (.malformed (by omega) (by omega))
      rw [List.forall_mem_singleton]
      show rth + 4 ≤ hi
      omega
    · obtain ⟨acts, hnext, rfl⟩ := Option.map_eq_some_iff.mp h
      obtain ⟨m, rfl⟩ := Int.eq_ofNat_of_zero_le (show 0 ≤ left by omega)
      have hbound : rtaLen mem rth + 3 < 2 ^ 32 := by
        unfold maxDatagramSize at hhigh
        omega
      obtain ⟨hle, hlt⟩ := le_align4 hbound
      rw [Int.toNat_natCast, attributesFit_next_iff (by omega) (by omega)]
      rw [List.cons_append, List.cons_append, List.forall_mem_cons, List.forall_mem_append, List.forall_mem_append]
      rw [and_iff_right (show Act.Inside (.inspect rth 4 hi) from show rth + 4 ≤ hi by omega)]
      rw [rtattr_inside_iff (by omega), wrap_inside_iff, and_assoc]
      have hcast : rtl.cast ((m : Int) - align4 (rtaLen mem rth)) = m - align4 (rtaLen mem rth) ↔
          (rtl = .unsignedInt → align4 (rtaLen mem rth) ≤ m) := by
        rw [Rtl.cast_eq_iff (by omega) (by omega)]
        exact imp_congr_right fun _ => by omega
      rw [hcast]
      refine and_congr_right fun _ => and_congr_right fun hfit => ?_
      rw [hcast.mpr hfit] at hnext
      rw [ih (by omega) (by omega) (by omega) hnext]
      rw [show ((m : Int) - align4 (rtaLen mem rth)).toNat = m - align4 (rtaLen mem rth) by omega]

theorem attributes_end {rth m : Nat} (hm : m ≤ maxDatagramSize) (hfit : AttributesFit mem notify hi rtl rth m)
    {left : Int} (hleft : left.toNat = m) (hlow : -4 < left) (hfuel : m < fuel) :
    ∃ acts, attributes mem notify rtl event adapterIndex hi fuel rth left = some acts := by
  induction hfit generalizing left fuel with
  | done h =>
    obtain ⟨fuel, rfl⟩ := Nat.exists_eq_add_of_lt hfuel
    rw [attributes, if_pos (by omega)]
    exact ⟨_, rfl⟩
  | malformed h4 h =>
    obtain ⟨fuel, rfl⟩ := Nat.exists_eq_add_of_lt hfuel
    rw [attributes, if_neg (by omega), if_pos (by omega)]
    exact ⟨_, rfl⟩
  | @next rth m hlen hle hlocal hpad _ ih =>
    obtain ⟨fuel, rfl⟩ := Nat.exists_eq_add_of_lt hfuel
    have hbound : rtaLen mem rth + 3 < 2 ^ 32 := by
      unfold maxDatagramSize at hm
      omega
    obtain ⟨hlealign, hlt⟩ := le_align4 hbound
    rw [attributes, if_neg (by omega), if_neg (by omega)]
    have hcast : rtl.cast (left - align4 (rtaLen mem rth)) = left - align4 (rtaLen mem rth) := by
      refine (Rtl.cast_eq_iff (by omega) (by omega)).mpr fun hrtl => ?_
      have := hpad hrtl
      omega
    obtain ⟨acts, hacts⟩ : ∃ acts, attributes mem notify rtl event adapterIndex hi (m + fuel)
        (rth + align4 (rtaLen mem rth)) (left - align4 (rtaLen mem rth)) = some acts :=
      ih (by omega) (by omega) (by omega) (by omega)
    simp only [hcast, hacts, Option.map_some]
    exact ⟨_, rfl⟩

/-! ### One message -/

variable {nh : Nat}

theorem address_inside_iff (hlen : nlmsgLen mem nh ≤ maxDatagramSize)
    (h : address mem notify rtl event fuel nh = some acts) :
    (∀ a ∈ acts, a.Inside) ↔ AddressFits mem notify rtl nh := by
  have hinspect : Act.Inside (.inspect (nh + 16) 8 (nh + nlmsgLen mem nh)) ↔ 24 ≤ nlmsgLen mem nh := by
    show nh + 16 + 8 ≤ nh + nlmsgLen mem nh ↔ _
    omega
  rw [address] at h
  unfold AddressFits
  by_cases hfamily : ifaFamily mem (nh + 16) = afInet
  · rw [if_pos hfamily] at h
    obtain ⟨acts, hattrs, rfl⟩ := Option.map_eq_some_iff.mp h
    rw [List.cons_append, List.forall_mem_cons, hinspect, forall_prop_of_true hfamily]
    refine and_congr_right fun hlong => ?_
    have hcast : rtl.cast ((nlmsgLen mem nh : Int) - 24) = (nlmsgLen mem nh : Int) - 24 :=
      (Rtl.cast_eq_iff (by omega) (by omega)).mpr fun _ => by omega
    rw [hcast] at hattrs
    rw [if_pos hcast, List.nil_append, attributes_inside_iff (by omega) (by omega) (by omega) hattrs]
    rw [show ((nlmsgLen mem nh : Int) - 24).toNat = nlmsgLen mem nh - 24 by omega]
  · rw [if_neg hfamily] at h
    obtain rfl := Option.some.inj h
    rw [List.forall_mem_singleton, hinspect]
    exact (and_iff_left fun h => absurd h hfamily).symm

theorem linkEvent_inside (event : Event) (p : Nat) : ∀ a ∈ linkEvent mem notify event p, a.Inside := by
  rw [linkEvent]
  split
  · exact List.forall_mem_singleton.mpr trivial
  · exact List.forall_mem_nil _

theorem ifinfomsg_inside_iff (h : ∀ a ∈ acts, a.Inside) :
    (∀ a ∈ .inspect (nh + 16) 16 (nh + nlmsgLen mem nh) :: acts, a.Inside) ↔ 32 ≤ nlmsgLen mem nh := by
  rw [List.forall_mem_cons, and_iff_left h]
  show nh + 16 + 16 ≤ nh + nlmsgLen mem nh ↔ _
  omega

theorem newlink_inside_iff : (∀ a ∈ newlink mem notify nh, a.Inside) ↔ 32 ≤ nlmsgLen mem nh := by
  refine ifinfomsg_inside_iff ?_
  split
  · split
    · exact linkEvent_inside _ _
    · exact List.forall_mem_cons.mpr ⟨trivial, linkEvent_inside _ _⟩
  · exact List.forall_mem_nil _

theorem dellink_inside_iff : (∀ a ∈ dellink mem notify nh, a.Inside) ↔ 32 ≤ nlmsgLen mem nh := by
  refine ifinfomsg_inside_iff ?_
  split
  · exact linkEvent_inside _ _
  · exact List.forall_mem_nil _

theorem message_inside_iff (hlen : nlmsgLen mem nh ≤ maxDatagramSize)
    (h : message mem notify fuel nh = some acts) :
    (∀ a ∈ acts, a.Inside) ↔ MessageFits mem notify nh := by
  rw [message] at h
  unfold MessageFits
  split_ifs at h with hnewlink hdellink hnewaddr hdeladdr hroute
  · obtain rfl := Option.some.inj h
    rw [newlink_inside_iff, hnewlink]
    simp [rtmNewlink, rtmNewaddr, rtmDeladdr]
  · obtain rfl := Option.some.inj h
    rw [dellink_inside_iff, hdellink]
    simp [rtmDellink, rtmNewaddr, rtmDeladdr]
  · rw [address_inside_iff hlen h, hnewaddr]
    simp [rtmNewlink, rtmDellink, rtmNewaddr, rtmDeladdr]
  · rw [address_inside_iff hlen h, hdeladdr]
    simp [rtmNewlink, rtmDellink, rtmNewaddr, rtmDeladdr]
  · obtain rfl := Option.some.inj h
    simp [hnewlink, hdellink, hnewaddr, hdeladdr]
  · obtain rfl := Option.some.inj h
    simp [hnewlink, hdellink, hnewaddr, hdeladdr, Act.Inside]

theorem message_end (hlen : nlmsgLen mem nh ≤ maxDatagramSize) (hfit : MessageFits mem notify nh)
    (hfuel : nlmsgLen mem nh ≤ fuel) : ∃ acts, message mem notify fuel nh = some acts := by
  have haddress : ∀ rtl event, AddressFits mem notify rtl nh →
      ∃ acts, address mem notify rtl event fuel nh = some acts := by
    rintro rtl event ⟨hlong, hattrs⟩
    rw [address]
    split
    · next hfamily =>
      have hcast : rtl.cast ((nlmsgLen mem nh : Int) - 24) = (nlmsgLen mem nh : Int) - 24 :=
        (Rtl.cast_eq_iff (by omega) (by omega)).mpr fun _ => by omega
      obtain ⟨acts, hacts⟩ : ∃ acts, attributes mem notify rtl event (ifaIndex mem (nh + 16))
          (nh + nlmsgLen mem nh) fuel (nh + 24) ((nlmsgLen mem nh : Int) - 24) = some acts :=
        attributes_end (by omega) (hattrs hfamily) (by omega) (by omega) (by omega)
      rw [hcast, hacts]
      exact ⟨_, rfl⟩
    · exact ⟨_, rfl⟩
  rw [message]
  split_ifs with hnewlink hdellink hnewaddr hdeladdr
  · exact ⟨_, rfl⟩
  · exact ⟨_, rfl⟩
  · exact haddress _ _ (hfit.2.1 hnewaddr)
  · exact haddress _ _ (hfit.2.2 hdeladdr)
  · exact ⟨_, rfl⟩
  · exact ⟨_, rfl⟩

/-! ### The telegram -/

theorem telegramFits_next_iff {left : Nat} (hlen : 16 ≤ nlmsgLen mem nh) (hle : nlmsgLen mem nh ≤ left)
    (hgoes : ¬(nlmsgType mem nh = nlmsgDone ∨ nlmsgType mem nh = nlmsgError)) :
    TelegramFits mem notify nh left ↔
      MessageFits mem notify nh ∧ align4 (nlmsgLen mem nh) ≤ left ∧
      TelegramFits mem notify (nh + align4 (nlmsgLen mem nh)) (left - align4 (nlmsgLen mem nh)) := by
  constructor
  · intro h
    cases h with
    | done h => omega
    | malformed _ h => omega
    | stop _ _ h => exact absurd h hgoes
    | next _ _ _ hmessage hpad hnext => exact ⟨hmessage, hpad, hnext⟩
  · rintro ⟨hmessage, hpad, hnext⟩
    exact .next hlen hle hgoes hmessage hpad hnext

/-- **The loop over the messages.** Where it ends, it stays inside exactly if the telegram fits. -/
theorem messages_inside_iff {left : Nat} (hn : nh + left = n) (hleft : left ≤ maxDatagramSize)
    (h : messages mem n notify fuel nh left = some acts) :
    (∀ a ∈ acts, a.Inside) ↔ TelegramFits mem notify nh left := by
  induction fuel generalizing nh left acts with
  | zero => simp [messages] at h
  | succ fuel ih =>
    have hheader : 16 ≤ left → Act.Inside (.inspect nh 16 n) := fun hlong => show nh + 16 ≤ n by omega
    rw [messages] at h
    split_ifs at h with hdone hmalformed hstop herror
    · obtain rfl := Option.some.inj h
      exact iff_of_true (List.forall_mem_nil _) (.done hdone)
    · obtain rfl := Option.some.inj h
      exact iff_of_true (List.forall_mem_singleton.mpr (hheader (by omega))) (.malformed (by omega) hmalformed)
    · obtain rfl := Option.some.inj h
      refine iff_of_true (List.forall_mem_singleton.mpr (hheader (by omega))) ?_
      exact .stop (by omega) (by omega) (Or.inl hstop)
    · obtain rfl := Option.some.inj h
      refine iff_of_true ?_ (.stop (by omega) (by omega) (Or.inr herror))
      exact List.forall_mem_cons.mpr ⟨hheader (by omega), List.forall_mem_singleton.mpr trivial⟩
    · obtain ⟨body, hbody, h⟩ := Option.bind_eq_some_iff.mp h
      obtain ⟨acts, hnext, rfl⟩ := Option.map_eq_some_iff.mp h
      have hgoes : ¬(nlmsgType mem nh = nlmsgDone ∨ nlmsgType mem nh = nlmsgError) :=
        fun h => h.elim hstop herror
      rw [telegramFits_next_iff (by omega) (by omega) hgoes, ← message_inside_iff (by omega) hbody]
      rw [List.forall_mem_append, List.forall_mem_append, List.forall_mem_cons, List.forall_mem_cons]
      rw [and_iff_right (hheader (by omega)), and_iff_right (show Act.Inside .update from trivial)]
      rw [wrap_inside_iff, and_assoc]
      refine and_congr_right fun _ => and_congr_right fun hpad => ?_
      have hbytes := hleft
      unfold maxDatagramSize at hbytes
      rw [sizeSub_of_le hpad (by omega)] at hnext
      exact ih (by omega) (by omega) hnext

theorem messages_end {left : Nat} (hleft : left ≤ maxDatagramSize) (hfit : TelegramFits mem notify nh left)
    (hfuel : left < fuel) : ∃ acts, messages mem n notify fuel nh left = some acts := by
  induction hfit generalizing fuel with
  | done h =>
    obtain ⟨fuel, rfl⟩ := Nat.exists_eq_add_of_lt hfuel
    rw [messages, if_pos h]
    exact ⟨_, rfl⟩
  | malformed h16 h =>
    obtain ⟨fuel, rfl⟩ := Nat.exists_eq_add_of_lt hfuel
    rw [messages, if_neg (by omega), if_pos h]
    exact ⟨_, rfl⟩
  | stop hlen hle h =>
    obtain ⟨fuel, rfl⟩ := Nat.exists_eq_add_of_lt hfuel
    rw [messages, if_neg (by omega), if_neg (by omega)]
    split_ifs with hstop herror
    · exact ⟨_, rfl⟩
    · exact ⟨_, rfl⟩
    · exact absurd h fun h => h.elim hstop herror
  | @next nh left hlen hle hgoes hmessage hpad _ ih =>
    obtain ⟨fuel, rfl⟩ := Nat.exists_eq_add_of_lt hfuel
    obtain ⟨hstop, herror⟩ := not_or.mp hgoes
    obtain ⟨body, hbody⟩ : ∃ body, message mem notify (left + fuel) nh = some body :=
      message_end (by omega) hmessage (by omega)
    have hbytes := hleft
    unfold maxDatagramSize at hbytes
    have hsize := (le_align4 (show nlmsgLen mem nh + 3 < 2 ^ 32 by omega)).1
    obtain ⟨acts, hacts⟩ : ∃ acts, messages mem n notify (left + fuel) (nh + align4 (nlmsgLen mem nh))
        (left - align4 (nlmsgLen mem nh)) = some acts := ih (by omega) (by omega)
    rw [messages, if_neg (by omega), if_neg (by omega), if_neg hstop, if_neg herror]
    simp only [hbody, Option.bind_some, sizeSub_of_le hpad (show left < 2 ^ 64 by omega), hacts, Option.map_some]
    exact ⟨_, rfl⟩

/-- **Reading inside the telegram.** The walk over a telegram ends and stays inside, whatever the memory holds
behind it, exactly if the telegram fits. -/
theorem telegram_inside_iff (mem : Memory) (notify : Bool) {bufferSize : Nat} (hsize : bufferSize ≤ maxDatagramSize) :
    (∃ fuel acts, processNetlinkTelegram mem bufferSize notify fuel = some acts ∧ ∀ a ∈ acts, a.Inside) ↔
      TelegramFits mem notify 0 bufferSize := by
  constructor
  · rintro ⟨fuel, acts, h, hinside⟩
    exact (messages_inside_iff (Nat.zero_add _) hsize h).mp hinside
  · intro hfit
    obtain ⟨acts, hacts⟩ := messages_end hsize hfit (Nat.lt_succ_self bufferSize)
    exact ⟨_, acts, hacts, (messages_inside_iff (Nat.zero_add _) hsize hacts).mpr hfit⟩

/-- An `RTM_DELADDR` with one attribute of five bytes, which is the last of the telegram. -/
def oddDeladdr : List UInt8 :=
  [29, 0, 0, 0, 21, 0, 0, 0, 0, 0, 0, 0, 0, 0, 0, 0, 2, 0, 0, 0, 1, 0, 0, 0, 5, 0, 1, 0, 9, 0, 0, 0]

theorem telegram_inside_odd :
    ∃ fuel acts, processNetlinkTelegram (memoryOf oddDeladdr) 32 true fuel = some acts ∧ ∀ a ∈ acts, a.Inside := by
  refine (telegram_inside_iff (memoryOf oddDeladdr) true (by decide)).mpr ?_
  have hnewaddr : nlmsgType (memoryOf oddDeladdr) 0 ≠ rtmNewaddr := by decide
  refine .next (by decide) (by decide) (by decide)
    ⟨by decide, fun h => absurd h hnewaddr, fun _ => ⟨by decide, fun _ => ?_⟩⟩ (by decide) (.done (by decide))
  exact .next (by decide) (by decide) (by decide) (by decide) (.done (by decide))

/-- An `RTM_NEWLINK` that ends with its header. -/
theorem short_newlink_leaves :
    ¬ ∀ (mem : Memory) (bufferSize : Nat) (notify : Bool), bufferSize ≤ maxDatagramSize →
      ∃ fuel acts, processNetlinkTelegram mem bufferSize notify fuel = some acts ∧ ∀ a ∈ acts, a.Inside := by
  intro h
  obtain ⟨fuel, acts, hacts, hinside⟩ := h (memoryOf [16, 0, 0, 0, 16]) 16 true (by decide)
  have hfit : TelegramFits (memoryOf [16, 0, 0, 0, 16]) true 0 16 :=
    (messages_inside_iff (Nat.zero_add 16) (by decide) hacts).mp hinside
  have hmessage := ((telegramFits_next_iff (by decide) (by decide) (by decide)).mp hfit).1
  exact absurd (hmessage.1 (Or.inl (by decide))) (by decide)

end Netlink

end Libhbk
