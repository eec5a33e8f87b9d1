import Mathlib.Algebra.Group.Int.Defs
import Libhbk.Base.Arith
import Libhbk.Base.Memory

/-!
# Netlink telegrams

`Netlink::processNetlinkTelegram` walks over the messages of a telegram, and for the addresses over the attributes
of a message, by the length fields it finds there. It has the telegram in memory from address 0 on; that it reads
only there is not presupposed, so the walk over a memory notes what it inspects and where a remaining length
wraps around. Numbers are little-endian.
-/

namespace Libhbk

namespace Netlink

/-! ### Constants and structures of the kernel -/

def nlmsgError : Nat := 2

def nlmsgDone : Nat := 3

def rtmNewlink : Nat := 16

def rtmDellink : Nat := 17

def rtmNewaddr : Nat := 20

def rtmDeladdr : Nat := 21

def rtmNewroute : Nat := 24

def rtmDelroute : Nat := 25

def iffUp : Nat := 1

def ifaLocal : Nat := 2

def afInet : Nat := 2

/-- `struct nlmsghdr` at an address. -/
def nlmsgLen (mem : Memory) (nh : Nat) : Nat := readLe mem nh 4

def nlmsgType (mem : Memory) (nh : Nat) : Nat := readLe mem (nh + 4) 2

/-- `struct ifinfomsg`. -/
def ifiIndex (mem : Memory) (p : Nat) : Nat := readLe mem (p + 4) 4

def ifiFlags (mem : Memory) (p : Nat) : Nat := readLe mem (p + 8) 4

def ifiChange (mem : Memory) (p : Nat) : Nat := readLe mem (p + 12) 4

/-- `struct ifaddrmsg`. -/
def ifaFamily (mem : Memory) (p : Nat) : Nat := readLe mem p 1

def ifaIndex (mem : Memory) (p : Nat) : Nat := readLe mem (p + 4) 4

/-- `struct rtattr`. -/
def rtaLen (mem : Memory) (rth : Nat) : Nat := readLe mem rth 2

def rtaType (mem : Memory) (rth : Nat) : Nat := readLe mem (rth + 2) 2

/-! ### What the function does -/

/-- `event_t`. -/
inductive Event where
  | linkAdded
  | linkRemoved
  | addressAdded
  | addressRemoved
  | complete
  deriving DecidableEq, Repr

/-- What happens on the way: `size` bytes from `off` on are inspected, which are to end at `hi`; a remaining
length wraps around; the adapter list is updated; the callback is called; something is logged. -/
inductive Act where
  | inspect (off size hi : Nat)
  | wrap
  | update
  | event (event : Event) (adapterIndex : Nat) (ipv4Address : String)
  | syslog (message : String)
  deriving DecidableEq, Repr

/-- The types of the remaining length of the attributes. -/
inductive Rtl where
  | unsignedInt
  | int
  deriving DecidableEq, Repr

/-- Conversion to the type. -/
def Rtl.cast : Rtl → Int → Int
  | unsignedInt, x => x % (2 ^ 32 : Nat)
  | int, x => x.bmod (2 ^ 32)

theorem Rtl.cast_of_nonneg {rtl : Rtl} {x : Int} (hlow : 0 ≤ x) (hhigh : x < 2 ^ 31) : rtl.cast x = x := by
  cases rtl with
  | unsignedInt =>
    rw [Rtl.cast]
    omega
  | int => exact Int.bmod_eq_of_le (by omega) (by omega)

/-- `inet_ntoa` of the four bytes of an address. -/
def inetNtoa (byte : Nat → UInt8) : String :=
  toString (byte 0) ++ "." ++ toString (byte 1) ++ "." ++ toString (byte 2) ++ "." ++ toString (byte 3)

/-- One attribute of an address message; `notify` if there is a callback. -/
def rtattr (mem : Memory) (notify : Bool) (event : Event) (adapterIndex hi rth : Nat) : List Act :=
  .inspect rth (rtaLen mem rth) hi ::
    if rtaType mem rth = ifaLocal ∧ notify then
      [.inspect (rth + 4) 4 hi, .event event adapterIndex (inetNtoa fun i => mem (rth + 4 + i))]
    else []

/-- The loop over the attributes of a message that ends at `hi`. `none` if it does not end within `fuel`
rounds. -/
def attributes (mem : Memory) (notify : Bool) (rtl : Rtl) (event : Event) (adapterIndex hi : Nat) :
    Nat → Nat → Int → Option (List Act)
  | 0, _, _ => none
  | fuel + 1, rth, left =>
    if left = 0 ∨ left < 4 then some []
    else if rtaLen mem rth < 4 ∨ left < rtaLen mem rth then some [.inspect rth 4 hi]
    else
      let next := left - align4 (rtaLen mem rth)
      (attributes mem notify rtl event adapterIndex hi fuel (rth + align4 (rtaLen mem rth)) (rtl.cast next)).map
        fun acts => .inspect rth 4 hi :: rtattr mem notify event adapterIndex hi rth ++
          (if rtl.cast next = next then [] else [.wrap]) ++ acts

/-- `RTM_NEWADDR` and `RTM_DELADDR`. -/
def address (mem : Memory) (notify : Bool) (rtl : Rtl) (event : Event) (fuel nh : Nat) :
    Option (List Act) :=
  let hi := nh + nlmsgLen mem nh
  let pIfaddrmsg := nh + 16
  let payload : Int := nlmsgLen mem nh - 24
  if ifaFamily mem pIfaddrmsg = afInet then
    (attributes mem notify rtl event (ifaIndex mem pIfaddrmsg) hi fuel (pIfaddrmsg + 8) (rtl.cast payload)).map
      fun acts => .inspect pIfaddrmsg 8 hi :: (if rtl.cast payload = payload then [] else [.wrap]) ++ acts
  else some [.inspect pIfaddrmsg 8 hi]

def linkEvent (mem : Memory) (notify : Bool) (event : Event) (pifinfomsg : Nat) : List Act :=
  if notify then [.event event (ifiIndex mem pifinfomsg) ""] else []

/-- `RTM_NEWLINK`. -/
def newlink (mem : Memory) (notify : Bool) (nh : Nat) : List Act :=
  let pifinfomsg := nh + 16
  .inspect pifinfomsg 16 (nh + nlmsgLen mem nh) ::
    if ifiChange mem pifinfomsg ≠ 0 then
      if iffUp &&& ifiFlags mem pifinfomsg ≠ 0 then linkEvent mem notify .linkAdded pifinfomsg
      else .syslog "LINK_REMOVED by RTM_NEWLINK with IFF_UP = 0" :: linkEvent mem notify .linkRemoved pifinfomsg
    else []

/-- `RTM_DELLINK`. -/
def dellink (mem : Memory) (notify : Bool) (nh : Nat) : List Act :=
  let pifinfomsg := nh + 16
  .inspect pifinfomsg 16 (nh + nlmsgLen mem nh) ::
    if iffUp &&& ifiFlags mem pifinfomsg = 0 then linkEvent mem notify .linkRemoved pifinfomsg else []

/-- The body of the loop for a message that is neither `NLMSG_DONE` nor `NLMSG_ERROR`. -/
def message (mem : Memory) (notify : Bool) (fuel nh : Nat) : Option (List Act) :=
  if nlmsgType mem nh = rtmNewlink then some (newlink mem notify nh)
  else if nlmsgType mem nh = rtmDellink then some (dellink mem notify nh)
  else if nlmsgType mem nh = rtmNewaddr then address mem notify .unsignedInt .addressAdded fuel nh
  else if nlmsgType mem nh = rtmDeladdr then address mem notify .int .addressRemoved fuel nh
  else if nlmsgType mem nh = rtmNewroute ∨ nlmsgType mem nh = rtmDelroute then some []
  else some [.syslog ("Unhandeled netlink event " ++ toString (nlmsgType mem nh))]

/-- The loop over the messages. -/
def messages (mem : Memory) (n : Nat) (notify : Bool) : Nat → Nat → Nat → Option (List Act)
  | 0, _, _ => none
  | fuel + 1, nh, bufferSize =>
    if bufferSize < 16 then some []
    else if nlmsgLen mem nh < 16 ∨ bufferSize < nlmsgLen mem nh then some [.inspect nh 16 n]
    else if nlmsgType mem nh = nlmsgDone then some [.inspect nh 16 n]
    else if nlmsgType mem nh = nlmsgError then some [.inspect nh 16 n, .syslog "error processing netlink events"]
    else
      let size := align4 (nlmsgLen mem nh)
      (message mem notify fuel nh).bind fun body =>
        (messages mem n notify fuel (nh + size) (sizeSub bufferSize size)).map fun acts =>
          .inspect nh 16 n :: .update :: body ++ (if size ≤ bufferSize then [] else [.wrap]) ++ acts

/-- `processNetlinkTelegram(pReadBuffer, bufferSize)` with the `bufferSize` bytes at address 0. -/
def processNetlinkTelegram (mem : Memory) (bufferSize : Nat) (notify : Bool) (fuel : Nat) : Option (List Act) :=
  messages mem bufferSize notify fuel 0 bufferSize

end Netlink

end Libhbk
