import Libhbk.Communication.ReceiveTelegram
import Libhbk.Sys.EventLoop.Diligent

/-!
# What the data handler is told

`MulticastServer::process` calls the data handler, which receives telegrams in a loop. Here it is beside the event loop,
while telegrams arrive: `recvmsg` takes them in their order, and each is told of once, with the interface it has come in
on. The overloads for an adapter lose those of an interface that is not in the list. Where the loop rests none is left
behind, if the data handler goes on until there is nothing.
-/

namespace Libhbk

/-- A telegram in the queue of the socket. -/
structure Telegram where
  bytes : List UInt8
  ifindex : Nat
  addresses : List UInt8
  ifindex_lt : ifindex < 2 ^ 32
  length_addresses : addresses.length = 8

namespace Telegrams

open ReceiveTelegram

/-- A call of `receiveTelegram`: the length of `msgbuf`, the list that the overloads for an adapter look into, what is on
the stack, whether `recvmsg` fails although there may be a telegram, and which `CMSG_NXTHDR` the library has. -/
structure Receive where
  len : Nat
  netadapterList : Option Adapters
  stack : Memory
  fails : Bool
  checksNext : Bool

/-- The interface, by its index or by its adapter, if it is set. -/
inductive Sender where
  | index (adapterIndex : Nat)
  | adapter (adapter : Option Netadapter)

/-- What a call says: the return value, what is in `msgbuf`, the interface and `ttl`. -/
structure Told where
  ret : Int
  msgbuf : List UInt8
  sender : Sender
  ttl : Int

/-- `recvmsg`: what it returns and leaves, what it has put into `msgbuf`, and the queue. -/
def recvmsg (queue : List Telegram) (x : Receive) : ReceiveTelegram.Received × List UInt8 × List Telegram :=
  match x.fails, queue with
  | false, t :: queue =>
    let control := putAll x.stack [pktinfo t.ifindex t.addresses]
    (⟨(min t.bytes.length x.len : Nat), control.mem, control.used⟩, t.bytes.take x.len, queue)
  | _, queue => (⟨-1, x.stack, sizeofControlbuffer⟩, [], queue)

/-- `receiveTelegram`, one of the three. -/
def receive (queue : List Telegram) (x : Receive) : Option (Told × List Telegram) :=
  let (r, msgbuf, queue) := recvmsg queue x
  match x.netadapterList with
  | none => (receiveTelegram x.checksNext 6 r).map fun (nbytes, info, _) =>
      (⟨nbytes, msgbuf, .index info.adapterIndex, info.ttl⟩, queue)
  | some netadapterList => (receiveTelegramFrom x.checksNext netadapterList 6 r).map fun (nbytes, adapter, ttl) =>
      (⟨nbytes, msgbuf, .adapter adapter, ttl⟩, queue)

/-- One call after another, with what those say that have taken a telegram. -/
def receives (queue : List Telegram) : List Receive → Option (List (Receive × Told) × List Telegram)
  | [] => some ([], queue)
  | x :: xs =>
    (receive queue x).bind fun (told, rest) => (receives rest xs).map fun r =>
      (if (recvmsg queue x).1.nbytes < 0 then r.1 else (x, told) :: r.1, r.2)

/-- What the data handler does in one call: it receives, and returns a value. -/
structure DataHandler where
  calls : List Receive
  ret : Int

/-- `MulticastServer::process`, for telegrams that arrive. -/
def source : Source (List Telegram) Telegram DataHandler where
  outside t queue := some (queue ++ [t])
  signalled _ := true
  handle handler queue := (receives queue handler.calls).map fun r => (some handler.ret, r.2)

/-- The data handler wants to be called again, or its last `recvmsg` has found nothing. -/
def Attentive (queue : List Telegram) (handler : DataHandler) : Prop :=
  0 < handler.ret ∨ ∃ x ∈ handler.calls.getLast?, x.fails = false ∧
    ∃ r ∈ receives queue handler.calls.dropLast, (recvmsg r.2 x).1.nbytes < 0

instance (queue : List Telegram) (handler : DataHandler) : Decidable (Attentive queue handler) :=
  inferInstanceAs (Decidable (_ ∨ _))

/-- What is to be said of a telegram: its interface, if it has bytes, and that `ttl` is 1. -/
def tell (x : Receive) (t : Telegram) : Told :=
  let nbytes := min t.bytes.length x.len
  let msgbuf := t.bytes.take x.len
  match x.netadapterList with
  | none => ⟨nbytes, msgbuf, .index (if nbytes = 0 then 0 else t.ifindex), 1⟩
  | some netadapterList =>
    if nbytes = 0 then ⟨0, msgbuf, .adapter none, 1⟩
    else match netadapterList.find? t.ifindex with
      | some adapter => ⟨nbytes, msgbuf, .adapter (some adapter), 1⟩
      | none => ⟨-1, msgbuf, .adapter none, 1⟩

variable {queue rest : List Telegram} {x : Receive} {answer : Told}

/-! ### What a call takes -/

theorem recvmsg_cons (hfails : x.fails = false) (t : Telegram) (queue : List Telegram) :
    recvmsg (t :: queue) x = (⟨(min t.bytes.length x.len : Nat), (putAll x.stack [pktinfo t.ifindex t.addresses]).mem,
      (putAll x.stack [pktinfo t.ifindex t.addresses]).used⟩, t.bytes.take x.len, queue) := by
  unfold recvmsg
  rw [hfails]

theorem recvmsg_nothing (h : x.fails = true ∨ queue = []) :
    recvmsg queue x = (⟨-1, x.stack, sizeofControlbuffer⟩, [], queue) := by
  unfold recvmsg
  split
  · next hfails => simp [hfails] at h
  · rfl

theorem receive_cons (hfails : x.fails = false) (t : Telegram) (queue : List Telegram) :
    receive (t :: queue) x = some (tell x t, queue) := by
  obtain ⟨reads, hreceive⟩ := receiveTelegram_pktinfo x.checksNext x.stack t.ifindex_lt t.length_addresses
    (min t.bytes.length x.len : Nat) (Nat.le_refl 6)
  rw [receive, recvmsg_cons hfails, tell]
  dsimp only
  cases x.netadapterList with
  | none =>
    dsimp only
    rw [hreceive]
    dsimp only [Option.map_some]
    by_cases hzero : min t.bytes.length x.len = 0
    · rw [if_pos hzero, if_neg (by omega)]
    · rw [if_neg hzero, if_pos (by omega)]
  | some netadapterList =>
    dsimp only
    rw [receiveTelegramFrom_eq hreceive]
    by_cases hzero : min t.bytes.length x.len = 0
    · rw [if_pos hzero, hzero]
      rfl
    · have hpos : (0 : Int) < (min t.bytes.length x.len : Nat) := by omega
      rw [if_neg hzero, if_pos hpos]
      dsimp only
      rw [if_pos hpos]
      cases netadapterList.find? t.ifindex <;> rfl

theorem receive_nothing (h : x.fails = true ∨ queue = []) : ∃ told, receive queue x = some (told, queue) := by
  rw [receive, recvmsg_nothing h]
  dsimp only
  cases x.netadapterList <;> exact ⟨_, rfl⟩

theorem receive_cases (queue : List Telegram) (x : Receive) :
    (∃ t rest, queue = t :: rest ∧ receive queue x = some (tell x t, rest) ∧ ¬ (recvmsg queue x).1.nbytes < 0) ∨
      ((∃ told, receive queue x = some (told, queue)) ∧ (recvmsg queue x).1.nbytes < 0) := by
  by_cases h : x.fails = true ∨ queue = []
  · refine Or.inr ⟨receive_nothing h, ?_⟩
    rw [recvmsg_nothing h]
    exact show (-1 : Int) < 0 by decide
  · obtain ⟨hfails, hqueue⟩ := not_or.mp h
    obtain ⟨t, rest, rfl⟩ := List.exists_cons_of_ne_nil hqueue
    have hfails := Bool.eq_false_of_not_eq_true hfails
    refine Or.inl ⟨t, rest, rfl, receive_cons hfails t rest, ?_⟩
    rw [recvmsg_cons hfails]
    exact Int.not_lt.mpr (Int.natCast_nonneg _)

theorem receives_cons (h : receive queue x = some (answer, rest)) (xs : List Receive) :
    receives queue (x :: xs) = (receives rest xs).map fun r =>
      (if (recvmsg queue x).1.nbytes < 0 then r.1 else (x, answer) :: r.1, r.2) := by
  rw [receives, h]
  rfl

theorem receives_eq (queue : List Telegram) (calls : List Receive) : ∃ tolds taken rest,
    receives queue calls = some (tolds, rest) ∧ queue = taken ++ rest ∧
      List.Forall₂ (fun t y => y.2 = tell y.1 t) taken tolds := by
  induction calls generalizing queue with
  | nil => exact ⟨[], [], queue, rfl, rfl, .nil⟩
  | cons x xs ih =>
    rcases receive_cases queue x with ⟨t, rest, rfl, hreceive, hnbytes⟩ | ⟨⟨told, hreceive⟩, hnbytes⟩
    · obtain ⟨tolds, taken, left, hreceives, hrest, htolds⟩ := ih rest
      refine ⟨(x, tell x t) :: tolds, t :: taken, left, ?_, congrArg (t :: ·) hrest, .cons rfl htolds⟩
      rw [receives_cons hreceive, hreceives, Option.map_some, if_neg hnbytes]
    · obtain ⟨tolds, taken, left, hreceives, hqueue, htolds⟩ := ih queue
      refine ⟨tolds, taken, left, ?_, hqueue, htolds⟩
      rw [receives_cons hreceive, hreceives, Option.map_some, if_pos hnbytes]

theorem receives_concat {calls : List Receive} {tolds : List (Receive × Told)}
    (h : receives queue (calls ++ [x]) = some (tolds, rest)) :
    ∃ r ∈ receives queue calls, ∃ told, receive r.2 x = some (told, rest) := by
  induction calls generalizing queue tolds with
  | nil =>
    obtain ⟨⟨told, left⟩, hreceive, h⟩ := Option.bind_eq_some_iff.mp h
    obtain ⟨_, rfl⟩ := Prod.mk.inj (Option.some.inj h)
    exact ⟨([], queue), rfl, told, hreceive⟩
  | cons y ys ih =>
    obtain ⟨⟨told, left⟩, hreceive, h⟩ := Option.bind_eq_some_iff.mp h
    obtain ⟨⟨tolds', rest'⟩, hreceives, h⟩ := Option.map_eq_some_iff.mp h
    obtain ⟨_, rfl⟩ := Prod.mk.inj h
    obtain ⟨r, hr, hlast⟩ := ih hreceives
    refine ⟨(if (recvmsg queue y).1.nbytes < 0 then r.1 else (y, told) :: r.1, r.2), ?_, hlast⟩
    rw [receives_cons hreceive, Option.mem_def.mp hr]
    rfl

theorem receives_attentive {handler : DataHandler} {tolds : List (Receive × Told)}
    (h : receives queue handler.calls = some (tolds, rest)) (hattentive : Attentive queue handler) :
    0 < handler.ret ∨ rest = [] := by
  refine hattentive.imp id ?_
  intro ⟨x, hlast, hfails, r, hr, hnbytes⟩
  rw [← List.dropLast_append_getLast? x hlast] at h
  obtain ⟨r', hr', told, hreceive⟩ := receives_concat h
  obtain rfl := Option.mem_unique hr hr'
  cases hqueue : r.2 with
  | nil =>
    obtain ⟨told', hnothing⟩ := receive_nothing (x := x) (Or.inr (rfl : ([] : List Telegram) = []))
    rw [hqueue, hnothing] at hreceive
    exact (Prod.mk.inj (Option.some.inj hreceive)).2.symm
  | cons t left =>
    rw [hqueue, recvmsg_cons hfails] at hnbytes
    exact absurd hnbytes (Int.not_lt.mpr (Int.natCast_nonneg _))

/-! ### Runs -/

open Source (ended)

variable {H : Type}

/-- A step beside the event loop, with the state it is made in. -/
abbrev Entry (H : Type) := Source.State H (List Telegram) × Source.Act H Telegram DataHandler

/-- What has arrived; the newest step comes first. -/
def arrived : List (Entry H) → List Telegram
  | [] => []
  | (_, .outside t) :: tr => arrived tr ++ [t]
  | _ :: tr => arrived tr

/-- The calls that have taken a telegram, with what they have said. -/
def told : List (Entry H) → List (Receive × Told)
  | [] => []
  | (s, a) :: tr =>
    match ended a with
    | some handler => told tr ++ ((receives s.items handler.calls).map Prod.fst).getD []
    | none => told tr

theorem arrived_ended {s : Source.State H (List Telegram)} {a : Source.Act H Telegram DataHandler}
    {handler : DataHandler} (h : ended a = some handler) (tr : List (Entry H)) : arrived ((s, a) :: tr) = arrived tr := by
  cases a with
  | outside t => simp [ended] at h
  | _ => rfl

variable [DecidableEq H] {fd stopFd : Fd} {p : Addr} {process : H} {sys : Sys H}

/-- **The data handler is told of every telegram.** Whatever else the event loop does, the telegrams are taken in the
order in which they have arrived, each once, and each call that takes one says what is to be said of it. If every call of
the data handler that returns a value `≤ 0` goes on until `recvmsg` has found nothing, then all of them have been told
of where `execute` waits with nothing to report for the descriptor. -/
theorem every_telegram_told (hreg : sys.Registered fd stopFd p process) {tr : List (Entry H)}
    {s : Source.State H (List Telegram)}
    (hrun : (source.step fd stopFd p process).Run (Source.start sys []) tr s) :
    (∃ taken, arrived tr = taken ++ s.items ∧ List.Forall₂ (fun t y => y.2 = tell y.1 t) taken (told tr)) ∧
    ((∀ y ∈ tr, ∀ handler ∈ ended y.2, Attentive y.1.items handler) → s.draining = false → s.sys.pc = .wait →
      s.sys.loop.kernel.wait [fd] = none →
        List.Forall₂ (fun t y => y.2 = tell y.1 t) (arrived tr) (told tr)) := by
  have htaken : ∃ taken, arrived tr = taken ++ s.items ∧
      List.Forall₂ (fun t y => y.2 = tell y.1 t) taken (told tr) := by
    refine Source.items_induction (P := fun tr (queue : List Telegram) => ∃ taken, arrived tr = taken ++ queue ∧
      List.Forall₂ (fun t y => y.2 = tell y.1 t) taken (told tr)) ?_ ?_ ?_ ?_ hrun
    · exact ⟨[], rfl, .nil⟩
    · intro tr s b h
      exact h
    · intro tr s t queue ⟨taken, harrived, htold⟩ hout
      obtain rfl := Option.some.inj hout
      refine ⟨taken, ?_, htold⟩
      rw [arrived, harrived, List.append_assoc]
    · intro tr s a handler o queue ⟨taken, harrived, htold⟩ hended hh
      obtain ⟨tolds, more, rest, hreceives, hitems, htolds⟩ := receives_eq s.items handler.calls
      have hresult : some (some handler.ret, rest) = some (o, queue) := by
        rw [← hh]
        change _ = (receives s.items handler.calls).map _
        rw [hreceives]
        rfl
      obtain ⟨_, rfl⟩ := Prod.mk.inj (Option.some.inj hresult)
      refine ⟨taken ++ more, ?_, ?_⟩
      · rw [arrived_ended hended, harrived, hitems, List.append_assoc]
      · rw [told, hended]
        dsimp only
        rw [hreceives]
        exact List.rel_append htold htolds
  refine ⟨htaken, fun hattentive hdraining hpc hnothing => ?_⟩
  have hempty : s.items = [] := by
    refine Source.nothing_stranded (· = []) (fun _ _ _ _ hno => absurd hno (by simp [source])) hreg hrun ?_
      hdraining hpc hnothing
    intro y hy handler o queue hended hh
    obtain ⟨⟨tolds, rest⟩, hreceives, hresult⟩ := Option.map_eq_some_iff.mp hh
    obtain ⟨rfl, rfl⟩ := Prod.mk.inj hresult
    exact (receives_attentive hreceives (hattentive y hy handler hended)).imp (fun hpos => ⟨_, rfl, hpos⟩) id
  obtain ⟨taken, harrived, htold⟩ := htaken
  rw [harrived, hempty, List.append_nil]
  exact htold

/-- Two telegrams, from different interfaces. The second is received with the overload for an adapter, whose list is
empty, and one more call finds nothing. -/
theorem every_telegram_told_two :
    ∃ (tr : List (Entry Nat)) (s : Source.State Nat (List Telegram)),
      (source.step 5 3 0 10).Run (Source.start (Sys.serving 5 3 0 10 []) []) tr s ∧ s.sys.pc = .wait ∧
      (told tr).map (fun y => y.2.ret) = [3, -1] ∧
      List.Forall₂ (fun t y => y.2 = tell y.1 t) (arrived tr) (told tr) := by
  have hexec : ((source.step 5 3 0 10).exec [] (Source.start (Sys.serving 5 3 0 10 []) [])
      [.outside ⟨[1, 2, 3], 2, List.replicate 8 0, by decide, rfl⟩,
        .drain ⟨[⟨1024, none, fun _ => 170, false, true⟩, ⟨1024, none, fun _ => 170, false, true⟩], 0⟩,
        .outside ⟨[4, 5], 7, List.replicate 8 0, by decide, rfl⟩, .loop (.wait [5]), .loop .assign, .loop .lock,
        .loop .step, .loop .step,
        .process ⟨[⟨1, some .empty, fun _ => 170, false, false⟩, ⟨1024, none, fun _ => 170, false, false⟩], 0⟩,
        .loop .step, .loop .step]).map (fun x => (x.1.all fun y => decide (∀ handler ∈ ended y.2, Attentive y.1.items handler),
          (told x.1).map (fun y => y.2.ret), (x.2.draining, x.2.sys.pc),
          (x.2.sys.loop.kernel.wait [5]).isNone)) =
      some (true, [3, -1], (false, .wait), true) := by
    decide +kernel
  obtain ⟨⟨tr, s⟩, hrun, hend⟩ := Option.map_eq_some_iff.mp hexec
  simp only [Prod.mk.injEq, List.all_eq_true, decide_eq_true_eq, Option.isNone_iff_eq_none] at hend
  obtain ⟨hattentive, htold, ⟨hdraining, hpc⟩, hnothing⟩ := hend
  have hrun := Machine.run_of_exec _ _ _ hrun
  have hall := every_telegram_told (.first [] (by decide) (by decide)) hrun
  exact ⟨tr, s, hrun, hpc, htold, hall.2 hattentive hdraining hpc hnothing⟩

end Telegrams

end Libhbk
