import Mathlib.Data.Finset.Basic
import Libhbk.Communication.MulticastSend
import Libhbk.Communication.Ownership

/-!
# Interfaces in a multicast group

`addInterface` and `dropInterface` tell by their return value whether anything has changed. What they change are
memberships of the receiving socket, which the kernel keeps until the last process that holds the socket closes it: a
command that is executed inherits it. So `stop` drops all interfaces before it closes the socket, as far as the list of
network adapters names them.
-/

namespace Libhbk

open Ipv4Address (cStr)
open Ipv6Address (inetAton)

def AF_INET : Nat := 2

/-- A group, and the index of the interface that receives from it. -/
abbrev Member := Nat × Nat

/-- What is the matter if an option is refused. -/
inductive MembershipError
  | EADDRINUSE
  | EADDRNOTAVAIL
  | other
  deriving DecidableEq

/-- What the system answers: the family and the address that a text stands for, the interface that is selected, and
whether there is room for one more membership. -/
structure GroupSystem where
  getaddrinfo : List Char → Option (Nat × Nat)
  interface : MulticastIf → Option Nat
  room : Bool

namespace GroupSystem

/-- A membership is left by its index even if the interface is gone. For an address that no interface has, the kernel
looks for what was joined by it. -/
def leaves (sys : GroupSystem) : MulticastIf → Option Nat
  | .index (i + 1) => some (i + 1)
  | selected => sys.interface selected

/-- `setsockopt` with `IP_ADD_MEMBERSHIP`, or `IP_DROP_MEMBERSHIP`: the membership that is added, or dropped. -/
def setsockopt (sys : GroupSystem) (joined : Finset Member) (group : Nat) (selected : MulticastIf) (add : Bool) :
    Except MembershipError Member :=
  if add then
    match sys.interface selected with
    | none => .error .other
    | some i =>
      if (group, i) ∈ joined then .error .EADDRINUSE
      else if sys.room then .ok (group, i)
      else .error .other
  else
    match sys.leaves selected with
    | none => .error .other
    | some i => if (group, i) ∈ joined then .ok (group, i) else .error .EADDRNOTAVAIL

end GroupSystem

/-- Added, or dropped. -/
structure Change where
  add : Bool
  membership : Member
  deriving DecidableEq

def Change.apply (joined : Finset Member) (c : Change) : Finset Member :=
  if c.add then insert c.membership joined else joined.erase c.membership

/-- The server, its group and its list of adapters, and the memberships that the kernel has for every socket. -/
structure GroupMember (C H : Type) where
  server : MulticastServer C H
  multicastGroup : List Char
  netadapterList : Adapters
  joined : Nat → Finset Member

namespace GroupMember

variable {C H : Type}

def new (eventLoop : EventLoop Files H) (netadapterList : Adapters) : GroupMember C H :=
  ⟨.new eventLoop, [], netadapterList, fun _ => ∅⟩

/-- The socket behind `m_receiveEvent`. -/
def receiveSocket (s : GroupMember C H) : Option Nat :=
  match s.server.eventLoop.kernel.file s.server.receiveEvent with
  | some (.socket σ) => some σ
  | _ => none

/-- `dropOrAddInterface` from `getaddrinfo` on; `selected` is `none` for a text that is no address. -/
def dropOrAdd (s : GroupMember C H) (sys : GroupSystem) (selected : Option MulticastIf) (add : Bool) :
    Int × Option Change :=
  match sys.getaddrinfo s.multicastGroup with
  | none => (-1, none)
  | some (family, group) =>
    if family ≠ AF_INET then (-1, none)
    else
      match selected, s.receiveSocket with
      | some selected, some σ =>
        match sys.setsockopt (s.joined σ) group selected add with
        | .ok membership => (1, some ⟨add, membership⟩)
        | .error errno =>
          if add then (if errno = .EADDRINUSE then 0 else -1, none)
          else (if errno = .EADDRNOTAVAIL then 0 else -1, none)
      | _, _ => (-1, none)

/-- The interface of the two overloads. -/
inductive Interface
  | address (interfaceAddress : List Char)
  | index (interfaceIndex : Nat)

def Interface.selected : Interface → Option MulticastIf
  | address interfaceAddress => (inetAton (cStr interfaceAddress)).map .address
  | index interfaceIndex => some (.index interfaceIndex)

/-- Both overloads of `dropOrAddInterface`. -/
def dropOrAddInterface (s : GroupMember C H) (sys : GroupSystem) (interface : Interface) (add : Bool) :
    Int × Option Change :=
  s.dropOrAdd sys interface.selected add

def addInterface (s : GroupMember C H) (sys : GroupSystem) (interface : Interface) : Int × Option Change :=
  s.dropOrAddInterface sys interface true

def dropInterface (s : GroupMember C H) (sys : GroupSystem) (interface : Interface) : Int × Option Change :=
  s.dropOrAddInterface sys interface false

/-- The kernel's part of it. -/
def change (s : GroupMember C H) (c : Change) : GroupMember C H :=
  match s.receiveSocket with
  | none => s
  | some σ => { s with joined := Function.update s.joined σ (c.apply (s.joined σ)) }

def changes (s : GroupMember C H) (cs : List Change) : GroupMember C H := cs.foldl change s

/-- Adapter by adapter; the return values are ignored. -/
def allInterfaces (sys : GroupSystem) (add : Bool) : GroupMember C H → List Netadapter → List Change
  | _, [] => []
  | s, adapter :: adapters =>
    let c := (s.dropOrAddInterface sys (.index adapter.index) add).2
    c.toList ++ allInterfaces sys add (s.changes c.toList) adapters

def addAllInterfaces (s : GroupMember C H) (sys : GroupSystem) : List Change :=
  allInterfaces sys true s s.netadapterList.getArray

def dropAllInterfaces (s : GroupMember C H) (sys : GroupSystem) : List Change :=
  allInterfaces sys false s s.netadapterList.getArray

/-- The memberships of sockets that no process holds go. -/
def sweep (s : GroupMember C H) : GroupMember C H :=
  { s with joined := fun σ => if s.server.eventLoop.kernel.Held (.socket σ) then s.joined σ else ∅ }

/-- `start(multicastGroup, port, dataHandler)`, with new sockets. -/
def start (process : H) (s : GroupMember C H) (multicastGroup : List Char) (σ τ : Nat) (k : Joining)
    (dataHandler : Option C) : Option (Int × GroupMember C H) :=
  if s.server.eventLoop.kernel.Held (.socket σ) ∨ s.server.eventLoop.kernel.Held (.socket τ) then none
  else (s.server.start process σ τ k dataHandler).map fun (err, server) =>
    (err, { s with
      server := server
      multicastGroup := multicastGroup
      joined := Function.update (Function.update s.joined σ ∅) τ ∅ })

/-- The interfaces are dropped before the socket is closed that receives. -/
def stop (s : GroupMember C H) (sys : GroupSystem) : GroupMember C H :=
  let s := if s.server.receiveEvent ≠ -1 then s.changes (s.dropAllInterfaces sys) else s
  { s with server := s.server.stop }.sweep

inductive Act (C H : Type) where
  | start (multicastGroup : List Char) (σ τ : Nat) (k : Joining) (dataHandler : Option C)
  | stop (sys : GroupSystem)
  | addInterface (sys : GroupSystem) (interface : Interface)
  | dropInterface (sys : GroupSystem) (interface : Interface)
  | addAllInterfaces (sys : GroupSystem)
  | dropAllInterfaces (sys : GroupSystem)
  /-- The list of adapters is updated. -/
  | update (netadapterList : Adapters)
  | other (o : Other H)
  /-- A command is executed, and ends. -/
  | fork
  | exit (i : Nat)

/-- The kernel of the process. -/
def withKernel (s : GroupMember C H) (kernel : Files) : GroupMember C H :=
  { s with server := { s.server with eventLoop := { s.server.eventLoop with kernel := kernel } } }

/-- What an action changes as far as return values tell. -/
def changed (s : GroupMember C H) : Act C H → List Change
  | .addInterface sys interface => (s.addInterface sys interface).2.toList
  | .dropInterface sys interface => (s.dropInterface sys interface).2.toList
  | .addAllInterfaces sys => s.addAllInterfaces sys
  | .dropAllInterfaces sys => s.dropAllInterfaces sys
  | _ => []

/-- The server among other users of the event loop. -/
def step [DecidableEq H] (process : H) : Machine (GroupMember C H) (Act C H) := fun s a =>
  match a with
  | .start multicastGroup σ τ k dataHandler => (s.start process multicastGroup σ τ k dataHandler).map Prod.snd
  | .stop sys => some (s.stop sys)
  | .update netadapterList => some { s with netadapterList := netadapterList }
  | .other o => (o.step (fun h => h = process) s.server.eventLoop).map fun l => { s with server.eventLoop := l }
  | .fork => some (s.withKernel s.server.eventLoop.kernel.fork)
  | .exit i => some (s.withKernel (s.server.eventLoop.kernel.exit i)).sweep
  | a => some (s.changes (s.changed a))

/-- The memberships that the return values tell of, since `start`; the newest step comes first. -/
def told : List (GroupMember C H × Act C H) → Finset Member
  | [] => ∅
  | (_, .start ..) :: _ => ∅
  | (_, .stop _) :: _ => ∅
  | (s, a) :: tr => (s.changed a).foldl Change.apply (told tr)

/-- The membership that a call asks for, where it comes as far as `setsockopt`. -/
def asked (s : GroupMember C H) (sys : GroupSystem) (interface : Interface) (add : Bool) : Option Member :=
  match sys.getaddrinfo s.multicastGroup, interface.selected, s.receiveSocket with
  | some (family, group), some selected, some _ =>
    if family ≠ AF_INET then none
    else ((if add then sys.interface selected else sys.leaves selected).map fun i => (group, i))
  | _, _, _ => none

variable {s s' : GroupMember C H} {sys : GroupSystem} {interface : Interface} {add : Bool} {σ τ : Nat}
  {members : Finset Member}

/-! ### One call -/

theorem dropOrAddInterface_eq (hσ : ∀ σ, s.receiveSocket = some σ → s.joined σ = members) :
    s.dropOrAddInterface sys interface add =
      match s.asked sys interface add with
      | none => (-1, none)
      | some m =>
        if add then if m ∈ members then (0, none) else if sys.room then (1, some ⟨true, m⟩) else (-1, none)
        else if m ∈ members then (1, some ⟨false, m⟩) else (0, none) := by
  unfold dropOrAddInterface dropOrAdd asked
  cases hinfo : sys.getaddrinfo s.multicastGroup with
  | none => rfl
  | some info =>
    obtain ⟨family, group⟩ := info
    by_cases hfamily : family = AF_INET
    · cases hselected : interface.selected with
      | none => simp [hfamily]
      | some selected =>
        cases hsocket : s.receiveSocket with
        | none => simp [hfamily]
        | some σ =>
          simp only [hfamily, ne_eq, not_true_eq_false, if_false, hσ σ hsocket, GroupSystem.setsockopt]
          cases add with
          | true =>
            cases hinterface : sys.interface selected with
            | none => simp
            | some i => by_cases hmem : (group, i) ∈ members <;> cases sys.room <;> simp [hmem]
          | false =>
            cases hleaves : sys.leaves selected with
            | none => simp
            | some i => by_cases hmem : (group, i) ∈ members <;> simp [hmem]
    · cases interface.selected <;> cases s.receiveSocket <;> simp [hfamily]

theorem changes_eq (cs : List Change) (h : s.receiveSocket = some σ) :
    s.changes cs = { s with joined := Function.update s.joined σ (cs.foldl Change.apply (s.joined σ)) } := by
  induction cs generalizing s with
  | nil => simp [changes]
  | cons c cs ih =>
    have hone : s.change c = { s with joined := Function.update s.joined σ (c.apply (s.joined σ)) } := by
      rw [change, h]
    have hrest := ih (s := s.change c) (by rw [hone]; exact h)
    rw [changes, List.foldl_cons, ← changes, hrest, hone, List.foldl_cons]
    dsimp only
    rw [Function.update_self, Function.update_idem]

theorem changes_none (cs : List Change) (h : s.receiveSocket = none) : s.changes cs = s := by
  induction cs with
  | nil => rfl
  | cons c cs ih =>
    rw [changes, List.foldl_cons, change, h]
    exact ih

theorem changes_server (s : GroupMember C H) (cs : List Change) :
    (s.changes cs).server = s.server ∧ (s.changes cs).multicastGroup = s.multicastGroup ∧
      (s.changes cs).netadapterList = s.netadapterList := by
  cases h : s.receiveSocket with
  | none =>
    rw [changes_none cs h]
    exact ⟨rfl, rfl, rfl⟩
  | some σ =>
    rw [changes_eq cs h]
    exact ⟨rfl, rfl, rfl⟩

theorem changes_receiveSocket (s : GroupMember C H) (cs : List Change) :
    (s.changes cs).receiveSocket = s.receiveSocket := by
  rw [receiveSocket, (changes_server s cs).1]
  rfl

/-! ### Dropping all interfaces -/

theorem joined_changes (cs : List Change) (h : s.receiveSocket = some σ) :
    (s.changes cs).joined σ = cs.foldl Change.apply (s.joined σ) := by
  rw [changes_eq cs h]
  exact Function.update_self ..

theorem dropInterface_members (hσ : s.receiveSocket = some σ) {m : Member}
    (hm : m ∈ (s.dropOrAddInterface sys interface false).2.toList.foldl Change.apply (s.joined σ)) :
    m ∈ s.joined σ ∧ s.asked sys interface false ≠ some m := by
  have hjoined : ∀ τ, s.receiveSocket = some τ → s.joined τ = s.joined σ := by
    intro τ hτ
    rw [Option.some.inj (hτ.symm.trans hσ)]
  rw [dropOrAddInterface_eq hjoined] at hm
  cases hasked : s.asked sys interface false with
  | none =>
    rw [hasked] at hm
    exact ⟨hm, nofun⟩
  | some m₀ =>
    rw [hasked] at hm
    by_cases hmem : m₀ ∈ s.joined σ
    · simp only [Bool.false_eq_true, if_false, if_pos hmem, Option.toList_some, List.foldl_cons, List.foldl_nil,
        Change.apply, Finset.mem_erase] at hm
      exact ⟨hm.2, fun heq => hm.1 (Option.some.inj heq).symm⟩
    · simp only [Bool.false_eq_true, if_false, if_neg hmem, Option.toList_none, List.foldl_nil] at hm
      exact ⟨hm, fun heq => hmem (Option.some.inj heq ▸ hm)⟩

theorem allInterfaces_drop (adapters : List Netadapter) (hσ : s.receiveSocket = some σ) {m : Member}
    (hm : m ∈ (allInterfaces sys false s adapters).foldl Change.apply (s.joined σ)) :
    m ∈ s.joined σ ∧ (sys.getaddrinfo s.multicastGroup = some (AF_INET, m.1) → m.2 ≠ 0 →
      ∀ a ∈ adapters, a.index ≠ m.2) := by
  induction adapters generalizing s with
  | nil => exact ⟨hm, fun _ _ _ ha => absurd ha List.not_mem_nil⟩
  | cons adapter adapters ih =>
    rw [allInterfaces, List.foldl_append] at hm
    generalize hcs : (s.dropOrAddInterface sys (.index adapter.index) false).2.toList = cs at hm
    rw [← joined_changes cs hσ] at hm
    obtain ⟨hm, hrest⟩ := ih ((changes_receiveSocket s cs).trans hσ) hm
    rw [(changes_server s cs).2.1] at hrest
    rw [joined_changes cs hσ, ← hcs] at hm
    obtain ⟨hold, hasked⟩ := dropInterface_members hσ hm
    refine ⟨hold, fun hinfo hne a ha => ?_⟩
    rcases List.mem_cons.mp ha with rfl | ha
    · intro hindex
      refine hasked ?_
      obtain ⟨group, index⟩ := m
      obtain ⟨i, rfl⟩ := Nat.exists_eq_succ_of_ne_zero hne
      rw [asked, hinfo, hσ, hindex]
      simp [Interface.selected, GroupSystem.leaves]
    · exact hrest hinfo hne a ha

/-! ### Who holds a socket -/

theorem held_of_file {k : Files} {fd : Fd} {f : File} (h : k.file fd = some f) : k.Held f :=
  Or.inl ((FdTable.mem_iff _ _).mpr ⟨fd, h⟩)

theorem held_congr {k k' : Files} {f : File} (hfile : ∀ fd, k.file fd = some f → k'.file fd = some f)
    (hchildren : k'.children = k.children) (h : k.Held f) : k'.Held f := by
  rcases h with hown | ⟨c, hc, hchild⟩
  · obtain ⟨fd, hfd⟩ := (FdTable.mem_iff _ _).mp hown
    exact held_of_file (hfile fd hfd)
  · exact Or.inr ⟨c, hchildren ▸ hc, hchild⟩

theorem children_addHandler (grant : Bool) (d : Dir) (l : EventLoop Files H) (fresh : l.Free) (fd : Fd)
    (eh : Option H) :
    (l.addHandler (Files.ctl grant) d fresh fd eh).loop.kernel.children = l.kernel.children := by
  rcases l.addHandler_kernel (Files.ctl grant) d fresh fd eh with hk | ⟨op, _, hctl⟩
  · rw [hk]
  · obtain ⟨_, _, _, _, hk⟩ := Files.ctl_eq hctl
    rw [hk]

theorem children_eraseHandler (d : Dir) (l : EventLoop Files H) (fd : Fd) :
    (l.eraseHandler (Files.ctl true) d fd).loop.kernel.children = l.kernel.children := by
  rcases l.eraseHandler_kernel (Files.ctl true) d fd with hk | ⟨op, _, _, hctl⟩
  · rw [hk]
  · obtain ⟨_, _, _, _, hk⟩ := Files.ctl_eq hctl
    rw [hk]

theorem held_openFile {k : Files} {f : File} (h : k.Held f) (g : File) : (k.openFile g).Held f := by
  refine held_congr (k := k) (fun fd hfile => ?_) rfl h
  rw [Files.file_openFile, if_neg]
  · exact hfile
  · rintro rfl
    rw [Files.file_next] at hfile
    simp at hfile

theorem held_other {own : H → Bool} {l l' : EventLoop Files H} {o : Other H} (h : o.step own l = some l')
    (hheld : l.kernel.Held (.socket σ)) : l'.kernel.Held (.socket σ) := by
  refine held_congr (fun fd hfile => (Other.file_socket h fd σ).mpr hfile) ?_ hheld
  cases o with
  | opens n =>
    obtain rfl := Option.some.inj h
    rfl
  | adds fd d cb a grant =>
    simp only [Other.step, Option.ite_none_right_eq_some, Option.dite_none_right_eq_some, Option.some.injEq] at h
    obtain ⟨_, ha, rfl⟩ := h
    exact children_addHandler grant d l _ fd _
  | erases fd d =>
    simp only [Other.step, Option.ite_none_right_eq_some, Option.some.injEq] at h
    obtain ⟨_, rfl⟩ := h
    exact children_eraseHandler d l fd
  | closes fd =>
    simp only [Other.step, Option.ite_none_right_eq_some, Option.some.injEq] at h
    obtain ⟨_, rfl⟩ := h
    exact (children_eraseHandler .out _ fd).trans (children_eraseHandler .inp _ fd)

/-! ### Starting and stopping -/

theorem receiveSocket_iff : s.receiveSocket = some σ ↔
    s.server.eventLoop.kernel.file s.server.receiveEvent = some (.socket σ) := by
  unfold receiveSocket
  split
  · next τ hfile => rw [hfile, Option.some.injEq, Option.some.injEq, File.socket.injEq]
  · next hno => exact iff_of_false nofun fun hfile => hno σ hfile

theorem receiveSocket_none (h : s.server.receiveEvent = -1) : s.receiveSocket = none := by
  rw [receiveSocket, h]
  rfl

theorem start_socket {process : H} {server server' : MulticastServer C H} {k : Joining} {dataHandler : Option C}
    {err : Int} (h : server.start process σ τ k dataHandler = some (err, server'))
    (hunused : server.receiveEvent = -1) :
    (server'.receiveEvent = -1 ∨ server'.eventLoop.kernel.file server'.receiveEvent = some (.socket τ)) ∧
      ∀ f, server.eventLoop.kernel.Held f → server'.eventLoop.kernel.Held f := by
  have hsend : (server.setupSendSocket σ k).2.receiveEvent = -1 ∧
      ∀ f, server.eventLoop.kernel.Held f → (server.setupSendSocket σ k).2.eventLoop.kernel.Held f := by
    unfold MulticastServer.setupSendSocket
    split
    · exact ⟨hunused, fun _ => id⟩
    · exact ⟨hunused, fun _ hheld => held_openFile hheld _⟩
  have hreceive : ∀ server : MulticastServer C H, server.receiveEvent = -1 →
      ((server.setupReceiveSocket τ k).2.receiveEvent = -1 ∨
        (server.setupReceiveSocket τ k).2.eventLoop.kernel.file (server.setupReceiveSocket τ k).2.receiveEvent =
          some (.socket τ)) ∧
      ∀ f, server.eventLoop.kernel.Held f → (server.setupReceiveSocket τ k).2.eventLoop.kernel.Held f := by
    intro server hunused
    have hfile := (Files.file_openFile server.eventLoop.kernel (.socket τ) _).trans (if_pos rfl)
    unfold MulticastServer.setupReceiveSocket
    split_ifs
    · exact ⟨Or.inl hunused, fun _ => id⟩
    · exact ⟨Or.inl rfl, fun _ => id⟩
    all_goals exact ⟨Or.inr hfile, fun _ hheld => held_openFile hheld _⟩
  unfold MulticastServer.start at h
  obtain ⟨hevent, hheld⟩ := hsend
  generalize server.setupSendSocket σ k = send at h hevent hheld
  obtain ⟨err₁, server₁⟩ := send
  simp only at h
  split at h
  · obtain ⟨_, rfl⟩ := Prod.mk.inj (Option.some.inj h)
    exact ⟨Or.inl hevent, hheld⟩
  · obtain ⟨hevent₂, hheld₂⟩ := hreceive server₁ hevent
    generalize server₁.setupReceiveSocket τ k = receive at h hevent₂ hheld₂
    obtain ⟨err₂, server₂⟩ := receive
    have hboth := fun f hf => hheld₂ f (hheld f hf)
    simp only at h
    split at h
    · obtain ⟨_, rfl⟩ := Prod.mk.inj (Option.some.inj h)
      exact ⟨hevent₂, hboth⟩
    · split at h
      · obtain ⟨_, rfl⟩ := Prod.mk.inj (Option.some.inj h)
        exact ⟨hevent₂, hboth⟩
      · simp only [Option.dite_none_right_eq_some, Option.some.injEq, Prod.mk.injEq] at h
        obtain ⟨_, _, rfl⟩ := h
        refine ⟨hevent₂.imp id fun hfile => ?_, fun f hf => ?_⟩
        · exact (EventLoop.addHandler_file _ _ _ _ _ _ _).trans hfile
        · exact held_congr (fun fd hfile => (EventLoop.addHandler_file _ _ _ _ _ _ _).trans hfile)
            (children_addHandler _ _ _ _ _ _) (hboth f hf)

theorem mem_stop {m : Member} (hm : m ∈ (s.stop sys).joined σ) :
    (s.stop sys).server.eventLoop.kernel.Held (.socket σ) ∧ m ∈ s.joined σ ∧ (s.receiveSocket = some σ →
      sys.getaddrinfo s.multicastGroup = some (AF_INET, m.1) → m.2 ≠ 0 →
        ∀ a ∈ s.netadapterList.getArray, a.index ≠ m.2) := by
  unfold GroupMember.stop at hm ⊢
  generalize hs₁ : (if s.server.receiveEvent ≠ -1 then s.changes (s.dropAllInterfaces sys) else s) = s₁ at hm ⊢
  dsimp only [sweep] at hm ⊢
  split at hm
  · next hheld =>
    refine ⟨hheld, ?_⟩
    cases hτ : s.receiveSocket with
    | none =>
      have hsame : s₁ = s := by
        rw [← hs₁, changes_none _ hτ, ite_self]
      rw [hsame] at hm
      exact ⟨hm, nofun⟩
    | some τ =>
      have hopen : s.server.receiveEvent ≠ -1 := by
        intro hno
        rw [receiveSocket_none hno] at hτ
        simp at hτ
      rw [if_pos hopen] at hs₁
      rw [← hs₁] at hm
      by_cases hsame : τ = σ
      · subst hsame
        rw [joined_changes _ hτ] at hm
        obtain ⟨hold, hlisted⟩ := allInterfaces_drop _ hτ hm
        exact ⟨hold, fun _ => hlisted⟩
      · rw [changes_eq _ hτ] at hm
        dsimp only at hm
        rw [Function.update_of_ne (Ne.symm hsame)] at hm
        exact ⟨hm, fun heq => absurd (Option.some.inj heq) hsame⟩
  · simp at hm

theorem stop_server (s : GroupMember C H) (sys : GroupSystem) : (s.stop sys).server = s.server.stop := by
  unfold GroupMember.stop
  dsimp only [sweep]
  split
  · rw [(changes_server s _).1]
  · rfl

/-! ### Runs -/

/-- The server was stopped with the membership, which the list of adapters did not name. -/
def Outlived (tr : List (GroupMember C H × Act C H)) (σ : Nat) (m : Member) : Prop :=
  ∃ x ∈ tr, ∃ sys, x.2 = .stop sys ∧ x.1.receiveSocket = some σ ∧ m ∈ x.1.joined σ ∧
    (sys.getaddrinfo x.1.multicastGroup = some (AF_INET, m.1) → m.2 ≠ 0 →
      ∀ a ∈ x.1.netadapterList.getArray, a.index ≠ m.2)

theorem Outlived.cons {tr : List (GroupMember C H × Act C H)} {m : Member} (h : Outlived tr σ m)
    (x : GroupMember C H × Act C H) : Outlived (x :: tr) σ m := by
  obtain ⟨y, hy, hstop⟩ := h
  exact ⟨y, List.mem_cons_of_mem _ hy, hstop⟩

/-- `start` finds the server stopped. -/
def Unused (s : GroupMember C H) : Act C H → Prop
  | .start .. => s.server.sendEvent = -1 ∧ s.server.receiveEvent = -1
  | _ => True

instance (s : GroupMember C H) (a : Act C H) : Decidable (Unused s a) :=
  match a with
  | .start .. => inferInstanceAs (Decidable (_ ∧ _))
  | .stop _ | .addInterface .. | .dropInterface .. | .addAllInterfaces _ | .dropAllInterfaces _ | .update _ | .other _
  | .fork | .exit _ => isTrue trivial

variable {process : H} {tr : List (GroupMember C H × Act C H)} {a : Act C H}

structure Inv [DecidableEq H] (process : H) (tr : List (GroupMember C H × Act C H)) (s : GroupMember C H) : Prop where
  server : s.server.Inv process
  told : ∀ σ, s.receiveSocket = some σ → s.joined σ = told tr
  outlived : ∀ σ, ∀ m ∈ s.joined σ,
    s.receiveSocket = some σ ∨ (Outlived tr σ m ∧ s.server.eventLoop.kernel.Held (.socket σ))

variable [DecidableEq H]

theorem Inv.changes (h : Inv process tr s) (cs : List Change)
    (htold : GroupMember.told ((s, a) :: tr) = cs.foldl Change.apply (GroupMember.told tr)) :
    Inv process ((s, a) :: tr) (s.changes cs) := by
  refine ⟨?_, fun σ hσ => ?_, fun σ m hm => ?_⟩
  · rw [(changes_server s cs).1]
    exact h.server
  · rw [changes_receiveSocket] at hσ
    rw [joined_changes cs hσ, h.told σ hσ, htold]
  · rw [changes_receiveSocket, (changes_server s cs).1]
    by_cases hσ : s.receiveSocket = some σ
    · exact Or.inl hσ
    · have hsame : (s.changes cs).joined σ = s.joined σ := by
        cases hτ : s.receiveSocket with
        | none => rw [changes_none cs hτ]
        | some τ =>
          rw [changes_eq cs hτ]
          refine Function.update_of_ne ?_ ..
          rintro rfl
          exact hσ hτ
      rw [hsame] at hm
      exact (h.outlived σ m hm).imp id fun hout => ⟨hout.1.cons _, hout.2⟩

theorem Inv.start (h : Inv process tr s) {multicastGroup : List Char} {k : Joining} {dataHandler : Option C}
    (hunused : s.server.sendEvent = -1 ∧ s.server.receiveEvent = -1) {err : Int}
    (hs : s.start process multicastGroup σ τ k dataHandler = some (err, s')) :
    Inv process ((s, .start multicastGroup σ τ k dataHandler) :: tr) s' := by
  unfold GroupMember.start at hs
  split at hs
  · simp at hs
  · obtain ⟨⟨_, server⟩, hserver, hs⟩ := Option.map_eq_some_iff.mp hs
    obtain ⟨rfl, rfl⟩ := Prod.mk.inj hs
    obtain ⟨hevent, hheld⟩ := start_socket hserver hunused.2
    refine ⟨?_, fun ρ hρ => ?_, fun ρ m hm => ?_⟩
    · refine h.server.step (a := .start σ τ k dataHandler) hunused ?_
      rw [MulticastServer.step, hserver]
      rfl
    · have hρ := receiveSocket_iff.mp hρ
      rcases hevent with hno | hfile
      · exact absurd hno (Files.ne_of_file hρ)
      · rw [hfile, Option.some.injEq, File.socket.injEq] at hρ
        subst hρ
        exact Function.update_self ..
    · have hold : m ∈ s.joined ρ := by
        change m ∈ Function.update (Function.update s.joined σ ∅) τ ∅ ρ at hm
        rw [Function.update_apply, Function.update_apply] at hm
        split_ifs at hm
        · simp at hm
        · simp at hm
        · exact hm
      rcases h.outlived ρ m hold with hsome | ⟨hout, hρ⟩
      · rw [receiveSocket_none hunused.2] at hsome
        simp at hsome
      · exact Or.inr ⟨hout.cons _, hheld _ hρ⟩

theorem Inv.stop (h : Inv process tr s) (sys : GroupSystem) : Inv process ((s, .stop sys) :: tr) (s.stop sys) := by
  have hnone : (s.stop sys).receiveSocket = none := receiveSocket_none (by rw [stop_server]; rfl)
  refine ⟨?_, fun σ hσ => ?_, fun σ m hm => Or.inr ?_⟩
  · rw [stop_server]
    exact h.server.stop_released.holding
  · rw [hnone] at hσ
    simp at hσ
  · obtain ⟨hheld, hold, hlisted⟩ := mem_stop hm
    refine ⟨?_, hheld⟩
    rcases h.outlived σ m hold with hσ | ⟨hout, _⟩
    · exact ⟨_, List.mem_cons_self, sys, rfl, hσ, hold, hlisted hσ⟩
    · exact hout.cons _

/-- Where the descriptors of the process are as before, and no socket is released. -/
theorem Inv.kernel (h : Inv process tr s) {l : EventLoop Files H}
    (hfile : ∀ fd σ, l.kernel.file fd = some (.socket σ) ↔ s.server.eventLoop.kernel.file fd = some (.socket σ))
    (hserver : ({ s.server with eventLoop := l } : MulticastServer C H).Inv process) {joined : Nat → Finset Member}
    (hjoined : ∀ σ, joined σ = if l.kernel.Held (.socket σ) then s.joined σ else ∅)
    (htold : GroupMember.told ((s, a) :: tr) = GroupMember.told tr) :
    Inv process ((s, a) :: tr) { s with server.eventLoop := l, joined := joined } := by
  have hsocket : ∀ σ, ({ s with server.eventLoop := l, joined := joined } : GroupMember C H).receiveSocket = some σ ↔
      s.receiveSocket = some σ := by
    intro σ
    rw [receiveSocket_iff, receiveSocket_iff]
    exact hfile _ σ
  refine ⟨hserver, fun σ hσ => ?_, fun σ m hm => ?_⟩
  · have hold := (hsocket σ).mp hσ
    have hheld : l.kernel.Held (.socket σ) := held_of_file ((hfile _ σ).mpr (receiveSocket_iff.mp hold))
    dsimp only
    rw [hjoined, if_pos hheld, htold, h.told σ hold]
  · dsimp only at hm
    rw [hjoined] at hm
    split at hm
    · next hheld =>
      exact (h.outlived σ m hm).imp (hsocket σ).mpr fun hout => ⟨hout.1.cons _, hheld⟩
    · simp at hm

theorem Inv.held (h : Inv process tr s) {m : Member} (hm : m ∈ s.joined σ) :
    s.server.eventLoop.kernel.Held (.socket σ) :=
  (h.outlived σ m hm).elim (fun hσ => held_of_file (receiveSocket_iff.mp hσ)) And.right

theorem Inv.joined_eq (h : Inv process tr s) {k : Files}
    (hheld : ∀ σ, s.server.eventLoop.kernel.Held (.socket σ) → k.Held (.socket σ)) (σ : Nat) :
    s.joined σ = if k.Held (.socket σ) then s.joined σ else ∅ := by
  split
  · rfl
  · next hno => exact Finset.eq_empty_of_forall_notMem fun m hm => hno (hheld σ (h.held hm))

theorem Inv.step (h : Inv process tr s) (hunused : Unused s a) (hs : GroupMember.step process s a = some s') :
    Inv process ((s, a) :: tr) s' := by
  cases a with
  | start multicastGroup σ τ k dataHandler =>
    obtain ⟨⟨err, s₁⟩, hstart, rfl⟩ := Option.map_eq_some_iff.mp hs
    exact h.start hunused hstart
  | stop sys =>
    obtain rfl := Option.some.inj hs
    exact h.stop sys
  | update netadapterList =>
    obtain rfl := Option.some.inj hs
    exact ⟨h.server, h.told, fun σ m hm => (h.outlived σ m hm).imp id fun hout => ⟨hout.1.cons _, hout.2⟩⟩
  | other o =>
    obtain ⟨l, ho, rfl⟩ := Option.map_eq_some_iff.mp hs
    exact h.kernel (Other.file_socket ho) (Holding.other h.server ho) (h.joined_eq fun σ => held_other ho) rfl
  | fork =>
    obtain rfl := Option.some.inj hs
    refine h.kernel (l := { s.server.eventLoop with kernel := s.server.eventLoop.kernel.fork }) (fun _ _ => Iff.rfl)
      ⟨h.server.files, h.server.handlers⟩ (h.joined_eq fun σ hheld => ?_) rfl
    exact hheld.imp id fun ⟨c, hc, hchild⟩ => ⟨c, List.mem_cons_of_mem _ hc, hchild⟩
  | exit i =>
    obtain rfl := Option.some.inj hs
    exact h.kernel (l := { s.server.eventLoop with kernel := s.server.eventLoop.kernel.exit i }) (fun _ _ => Iff.rfl)
      ⟨h.server.files, h.server.handlers⟩ (fun _ => rfl) rfl
  | addInterface sys interface =>
    obtain rfl := Option.some.inj hs
    exact h.changes _ rfl
  | dropInterface sys interface =>
    obtain rfl := Option.some.inj hs
    exact h.changes _ rfl
  | addAllInterfaces sys =>
    obtain rfl := Option.some.inj hs
    exact h.changes _ rfl
  | dropAllInterfaces sys =>
    obtain rfl := Option.some.inj hs
    exact h.changes _ rfl

/-- **Return values tell what the socket receives.** In every order of starting, stopping, adding and dropping
interfaces, and of what others do, the memberships of the socket that receives are the ones that the return values since
`start` tell of; an interface that is told to be added already, or dropped already, is so. What a socket keeps that does
not receive any more was left behind by a `stop` whose list of adapters did not name the interface, and after a `stop`
only a command that was executed meanwhile holds such a socket. -/
theorem members_told {eventLoop : EventLoop Files H} {netadapterList : Adapters}
    (hrun : (GroupMember.step process).Run (.new eventLoop netadapterList) tr s)
    (hreleased : Released (fun h => h = process) eventLoop) (hunused : ∀ x ∈ tr, Unused x.1 x.2) :
    (∀ σ, s.receiveSocket = some σ → s.joined σ = GroupMember.told tr) ∧
    (∀ sys interface, (s.addInterface sys interface).1 =
      match s.asked sys interface true with
      | none => -1
      | some m => if m ∈ GroupMember.told tr then 0 else if sys.room then 1 else -1) ∧
    (∀ sys interface, (s.dropInterface sys interface).1 =
      match s.asked sys interface false with
      | none => -1
      | some m => if m ∈ GroupMember.told tr then 1 else 0) ∧
    (∀ σ, ∀ m ∈ s.joined σ, s.receiveSocket = some σ ∨ Outlived tr σ m) ∧
    (s.server.sendEvent = -1 → s.server.receiveEvent = -1 → ∀ σ, s.joined σ ≠ ∅ →
      ∃ c ∈ s.server.eventLoop.kernel.children, some (.socket σ) ∈ c) := by
  have hinv : Inv process tr s := by
    refine hrun.trace_induction (P := fun tr s => (∀ x ∈ tr, Unused x.1 x.2) → Inv process tr s) ?_ ?_ hunused
    · intro _
      exact ⟨hreleased.holding, fun _ hσ => absurd hσ nofun, fun _ _ hm => absurd hm (Finset.notMem_empty _)⟩
    · intro tr s a s' _ ih hs hunused
      exact (ih fun x hx => hunused x (List.mem_cons_of_mem _ hx)).step (hunused _ List.mem_cons_self) hs
  refine ⟨hinv.told, fun sys interface => ?_, fun sys interface => ?_, ?_, ?_⟩
  · rw [addInterface, dropOrAddInterface_eq hinv.told]
    split <;> [rfl; (simp only [if_true]; split_ifs <;> rfl)]
  · rw [dropInterface, dropOrAddInterface_eq hinv.told]
    split <;> [rfl; (simp only [Bool.false_eq_true, if_false]; split_ifs <;> rfl)]
  · exact fun σ m hm => (hinv.outlived σ m hm).imp id And.left
  · intro hsend hreceive σ hne
    obtain ⟨m, hm⟩ := Finset.nonempty_iff_ne_empty.mpr hne
    refine (hinv.held hm).resolve_left fun hown => ?_
    obtain ⟨fd, hfile⟩ := (FdTable.mem_iff _ _).mp hown
    rcases hinv.server.files fd σ hfile with rfl | rfl
    · exact Files.ne_of_file hfile hsend
    · exact Files.ne_of_file hfile hreceive

/-- Group 7 is known, and index `i` selects the interface `i`. -/
def systemOfSeven : GroupSystem where
  getaddrinfo _ := some (AF_INET, 7)
  interface
    | .index i => some i
    | .address _ => none
  room := true

/-- A command is executed while the server receives over interface 2, of which no adapter is left when it stops. The
server starts again and receives over interface 3. -/
theorem members_told_left_behind :
    ∃ (tr : List (GroupMember Nat Nat × Act Nat Nat)) (s : GroupMember Nat Nat),
      (GroupMember.step 10).Run (.new Session.idleLoop .empty) tr s ∧ s.joined 3 = {(7, 3)} ∧
      (s.addInterface systemOfSeven (.index 3)).1 = 0 ∧ (s.dropInterface systemOfSeven (.index 2)).1 = 0 ∧
      Outlived tr 1 (7, 2) := by
  let joining : Joining := ⟨true, 0, true, 0, 0, 0, 0, 0, true⟩
  have hexec : ((GroupMember.step 10).exec [] (.new Session.idleLoop .empty : GroupMember Nat Nat)
      [.start [] 0 1 joining (some 0), .addInterface systemOfSeven (.index 2), .fork, .stop systemOfSeven,
        .start [] 2 3 joining (some 0), .addInterface systemOfSeven (.index 3)]).map (fun x =>
      ((decide (∀ y ∈ x.1, Unused y.1 y.2), decide (GroupMember.told x.1 = {(7, 3)}),
          decide ((7, 2) ∈ x.2.joined 1)), x.2.receiveSocket, x.2.asked systemOfSeven (.index 3) true,
        x.2.asked systemOfSeven (.index 2) false)) =
      some ((true, true, true), some 3, some (7, 3), some (7, 2)) := by decide +kernel
  obtain ⟨⟨tr, s⟩, hexec, hseen⟩ := Option.map_eq_some_iff.mp hexec
  simp only [Prod.mk.injEq, decide_eq_true_eq] at hseen
  obtain ⟨⟨hunused, htold, hold⟩, hsocket, hask, hask'⟩ := hseen
  have hrun := Machine.run_of_exec _ _ _ hexec
  obtain ⟨hjoined, hadd, hdrop, hleft, _⟩ := members_told hrun (idleLoop_released _) hunused
  refine ⟨tr, s, hrun, (hjoined 3 hsocket).trans htold, ?_, ?_, (hleft 1 _ hold).resolve_left ?_⟩
  · rw [hadd, hask, htold]
    rfl
  · rw [hdrop, hask', htold]
    rfl
  · rw [hsocket]
    simp

end GroupMember

end Libhbk
