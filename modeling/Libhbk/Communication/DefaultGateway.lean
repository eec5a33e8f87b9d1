import Libhbk.Base.Loop
import Libhbk.Communication.Netmask

/-!
# The default gateway

`getIpv4DefaultGateway` reads the route table line by line. A line of which `fscanf` converts only the leading fields is
tested like any other, with what the variables of the other fields hold.
-/

namespace Libhbk

/-- What `fscanf` converts of a line: how many fields, and those that are looked at later. -/
structure RouteLine where
  count : Nat
  destination : UInt64
  gateway : UInt64
  flags : UInt32
  count_le : count ≤ 11

/-- `/proc/net/route`: not to be opened, without a first line, or the lines behind it up to the end of the file. -/
inductive RouteFile
  | closed
  | noHeader
  | table (lines : List RouteLine)

/-- The variables of the loop; `none` has never been assigned. -/
structure RouteVars where
  destination : Option UInt64
  gateway : Option UInt64
  flags : Option UInt32

def RouteVars.new : RouteVars := ⟨none, none, none⟩

namespace DefaultGateway

open Loop
open Ipv4Address (Inet Denotes)

def ROUTE_GW : UInt32 := 0x0002

def ROUTE_UP : UInt32 := 0x0001

def INADDR_ANY : UInt64 := 0

/-- `fscanf` leaves alone the variables of the fields that it does not convert. -/
def scan (vars : RouteVars) (line : RouteLine) : RouteVars where
  destination := if 2 ≤ line.count then some line.destination else vars.destination
  gateway := if 3 ≤ line.count then some line.gateway else vars.gateway
  flags := if 4 ≤ line.count then some line.flags else vars.flags

/-- The variables are declared in the body of the loop. They are new in every iteration, or are `kept` where they were. -/
def enter (kept : Bool) (vars : RouteVars) : RouteVars := if kept then vars else .new

/-- The conditions behind `fscanf`: the gateway if they are met; `none` if a variable is evaluated that has never been
assigned. -/
def test (inet : Inet) (vars : RouteVars) : Option (Option (List Char)) := do
  let flags ← vars.flags
  if flags &&& ROUTE_GW ≠ 0 ∧ flags &&& ROUTE_UP ≠ 0 then
    let destination ← vars.destination
    if destination = INADDR_ANY then
      let gateway ← vars.gateway
      return some (inet.inetNtoa gateway.toUInt32)
  return none

/-- `while (1)`: that `result` is not 11 matters at the end of the file only. -/
def body (inet : Inet) (kept : Bool) : Loop (RouteVars × List RouteLine) (Option (List Char))
  | (_, []) => .inr (some [])
  | (vars, line :: lines) =>
    let vars := scan (enter kept vars) line
    match test inet vars with
    | none => .inr none
    | some none => .inl (vars, lines)
    | some (some gatewayString) => .inr (some gatewayString)

theorem body_ends (inet : Inet) (kept : Bool) (lines : List RouteLine) :
    (run (body inet kept) (lines.length + 1) (.new, lines)).isSome := by
  refine run_isSome (I := fun _ => True) (μ := fun x => x.2.length) ?_ trivial (Nat.lt_succ_self lines.length)
  rintro ⟨vars, lines⟩ x - hnext
  refine ⟨trivial, ?_⟩
  cases lines with
  | nil => contradiction
  | cons line lines =>
    rw [body] at hnext
    split at hnext
    · contradiction
    · obtain rfl := Sum.inl.inj hnext
      exact Nat.lt_succ_self _
    · contradiction

/-- The result; `none` if a variable is evaluated that has never been assigned. -/
def getIpv4DefaultGateway (inet : Inet) (kept : Bool) : RouteFile → Option (List Char)
  | .closed => some []
  | .noHeader => some []
  | .table lines => (run (body inet kept) (lines.length + 1) (.new, lines)).get (body_ends inet kept lines)

theorem returns_getIpv4DefaultGateway (inet : Inet) (kept : Bool) (lines : List RouteLine) :
    Returns (body inet kept) (.new, lines) (getIpv4DefaultGateway inet kept (.table lines)) :=
  returns_of_run (Option.some_get _).symm

/-! ### What the variables hold -/

/-- The lines of which the variables may hold fields behind the last one. -/
def scanned (kept : Bool) (lines : List RouteLine) : List RouteLine := if kept then lines else lines.getLast?.toList

/-- A field of the last line of which at least `need` fields are converted. -/
def latest {α : Type} (need : Nat) (field : RouteLine → α) (lines : List RouteLine) : Option α :=
  (lines.filter fun line => need ≤ line.count).getLast?.map field

/-- The variables behind the last line. -/
def held (kept : Bool) (lines : List RouteLine) : RouteVars :=
  lines.foldl (fun vars line => scan (enter kept vars) line) .new

variable {inet : Inet} {kept : Bool} {before after lines : List RouteLine} {line : RouteLine} {text : List Char}

theorem held_append (kept : Bool) (lines : List RouteLine) (line : RouteLine) :
    held kept (lines ++ [line]) = scan (enter kept (held kept lines)) line := by
  rw [held, List.foldl_append]
  rfl

theorem latest_append {α : Type} (need : Nat) (field : RouteLine → α) (lines : List RouteLine) (line : RouteLine) :
    latest need field (lines ++ [line]) = if need ≤ line.count then some (field line) else latest need field lines := by
  rw [latest, List.filter_append]
  by_cases hneed : need ≤ line.count
  · rw [if_pos hneed, List.filter_cons_of_pos (by simpa using hneed), List.filter_nil, List.getLast?_concat,
      Option.map_some]
  · rw [if_neg hneed, List.filter_cons_of_neg (by simpa using hneed), List.filter_nil, List.append_nil, latest]

theorem latest_scanned_append {α : Type} (need : Nat) (field : RouteLine → α) (kept : Bool) (lines : List RouteLine)
    (line : RouteLine) :
    latest need field (scanned kept (lines ++ [line])) =
      if need ≤ line.count then some (field line) else if kept then latest need field (scanned kept lines) else none := by
  cases kept with
  | true => exact latest_append need field lines line
  | false =>
    rw [scanned, if_neg Bool.false_ne_true, List.getLast?_concat, if_neg Bool.false_ne_true]
    exact latest_append need field [] line

/-- **The variables hold the fields that were converted last.** -/
theorem held_eq (kept : Bool) (lines : List RouteLine) :
    held kept lines = ⟨latest 2 (·.destination) (scanned kept lines), latest 3 (·.gateway) (scanned kept lines),
      latest 4 (·.flags) (scanned kept lines)⟩ := by
  induction lines using List.reverseRecOn with
  | nil => cases kept <;> rfl
  | append_singleton lines line ih =>
    rw [held_append, latest_scanned_append, latest_scanned_append, latest_scanned_append, scan, ih]
    cases kept <;> rfl

/-- A line of which the flags are converted is among those that the variables may hold fields of. -/
def Assigned (kept : Bool) (lines : List RouteLine) : Prop := ∃ line ∈ scanned kept lines, 4 ≤ line.count

/-- The flags and the destination converted last are those of a default route. -/
def Passes (kept : Bool) (lines : List RouteLine) : Prop :=
  (∃ flags ∈ latest 4 (·.flags) (scanned kept lines), flags &&& ROUTE_GW ≠ 0 ∧ flags &&& ROUTE_UP ≠ 0) ∧
    latest 2 (·.destination) (scanned kept lines) = some INADDR_ANY

theorem latest_eq_none_iff {α : Type} {need : Nat} {field : RouteLine → α} :
    latest need field lines = none ↔ ∀ line ∈ lines, ¬ need ≤ line.count := by
  rw [latest, Option.map_eq_none_iff, List.getLast?_eq_none_iff, List.filter_eq_nil_iff]
  simp only [decide_eq_true_eq]

theorem Assigned.exists_latest {α : Type} {need : Nat} (h : Assigned kept lines) (hneed : need ≤ 4)
    (field : RouteLine → α) : ∃ x, latest need field (scanned kept lines) = some x := by
  obtain ⟨line, hmem, hcount⟩ := h
  apply Option.ne_none_iff_exists'.mp
  intro hnone
  exact latest_eq_none_iff.mp hnone line hmem (hneed.trans hcount)

theorem Passes.assigned (h : Passes kept lines) : Assigned kept lines := by
  obtain ⟨⟨flags, hflags, -⟩, -⟩ := h
  by_contra hunassigned
  have hnone : latest 4 (·.flags) (scanned kept lines) = none :=
    latest_eq_none_iff.mpr fun line hmem hcount => hunassigned ⟨line, hmem, hcount⟩
  rw [hnone] at hflags
  contradiction

theorem test_unassigned (h : ¬ Assigned kept lines) : test inet (held kept lines) = none := by
  have hnone : latest 4 (·.flags) (scanned kept lines) = none :=
    latest_eq_none_iff.mpr fun line hmem hcount => h ⟨line, hmem, hcount⟩
  rw [held_eq, test, hnone]
  rfl

theorem test_passes (inet : Inet) (h : Passes kept lines) :
    ∃ gateway, latest 3 (·.gateway) (scanned kept lines) = some gateway ∧
      test inet (held kept lines) = some (some (inet.inetNtoa gateway.toUInt32)) := by
  obtain ⟨gateway, hgateway⟩ := h.assigned.exists_latest (show 3 ≤ 4 by decide) (·.gateway)
  obtain ⟨⟨flags, hflags, hset⟩, hdestination⟩ := h
  refine ⟨gateway, hgateway, ?_⟩
  rw [held_eq, test, hgateway, hdestination, Option.mem_def.mp hflags, Option.bind_eq_bind, Option.bind_some, if_pos hset]
  rfl

theorem test_fails (hassigned : Assigned kept lines) (h : ¬ Passes kept lines) :
    test inet (held kept lines) = some none := by
  obtain ⟨flags, hflags⟩ := hassigned.exists_latest (Nat.le_refl 4) (·.flags)
  obtain ⟨destination, hdestination⟩ := hassigned.exists_latest (show 2 ≤ 4 by decide) (·.destination)
  rw [held_eq, test, hflags, hdestination, Option.bind_eq_bind, Option.bind_some]
  split_ifs with hset
  · have hother : destination ≠ INADDR_ANY := by
      rintro rfl
      exact h ⟨⟨flags, hflags, hset⟩, hdestination⟩
    rw [Option.bind_eq_bind, Option.bind_some, if_neg hother]
    rfl
  · rfl

/-! ### The first default route -/

/-- A default route that is completely converted. -/
def IsDefault (line : RouteLine) : Prop :=
  line.count = 11 ∧ (line.flags &&& ROUTE_GW ≠ 0 ∧ line.flags &&& ROUTE_UP ≠ 0) ∧ line.destination = INADDR_ANY

instance : DecidablePred IsDefault := fun _ => inferInstanceAs (Decidable (_ ∧ _))

/-- None of the lines ends the loop. -/
def Reached (kept : Bool) (before : List RouteLine) : Prop := ∀ lines, lines <+: before → ¬ Passes kept lines

theorem passes_iff_of_complete (h : line.count = 11) : Passes kept (before ++ [line]) ↔ IsDefault line := by
  rw [Passes, latest_scanned_append, latest_scanned_append, h, if_pos (by decide), if_pos (by decide), IsDefault,
    Option.some.injEq, and_iff_right h]
  simp only [Option.mem_def, Option.some.injEq, exists_eq_left']

theorem reached_nil (kept : Bool) : Reached kept [] := by
  intro lines hlines hpasses
  obtain rfl := List.prefix_nil.mp hlines
  obtain ⟨line, hmem, -⟩ := hpasses.assigned
  cases kept <;> contradiction

theorem Reached.append (h : Reached kept before) (hfails : ¬ Passes kept (before ++ [line])) :
    Reached kept (before ++ [line]) := by
  intro lines hlines
  rcases List.prefix_concat_iff.mp hlines with rfl | hlines
  · exact hfails
  · exact h lines hlines

theorem Reached.find? (h : Reached kept before) (hcount : line.count = 11) (hpasses : Passes kept (before ++ [line])) :
    (before ++ line :: after).find? (IsDefault ·) = some line := by
  have hbefore : before.find? (IsDefault ·) = none := by
    apply List.find?_eq_none.mpr
    intro earlier hmem hdefault
    have hdefault : IsDefault earlier := of_decide_eq_true hdefault
    obtain ⟨l, l', rfl⟩ := List.append_of_mem hmem
    apply h (l ++ [earlier]) ⟨l', by simp⟩
    exact (passes_iff_of_complete hdefault.1).mpr hdefault
  rw [List.find?_append, hbefore, Option.none_or]
  exact List.find?_cons_of_pos (decide_eq_true ((passes_iff_of_complete hcount).mp hpasses))

/-! ### Where lines are not mixed -/

/-- The text is the gateway of the first default route. -/
def OfFirst (inet : Inet) (lines : List RouteLine) (text : List Char) : Prop :=
  ∃ first ∈ lines.find? (IsDefault ·), text = inet.inetNtoa first.gateway.toUInt32

/-- The loop ends, only assigned variables are evaluated, and a text that is not empty comes from one single line. -/
def NeverMixes (inet : Inet) (kept : Bool) (lines : List RouteLine) : Prop :=
  ∃ text, Returns (body inet kept) (.new, lines) (some text) ∧
    getIpv4DefaultGateway inet kept (.table lines) = some text ∧ (text ≠ [] → OfFirst inet lines text)

/-- At a line that is tested there are flags, and if it ends the loop all of its fields are converted, or else the
gateway converted last happens to be that of the first default route. -/
structure Settled (kept : Bool) (lines before : List RouteLine) (line : RouteLine) : Prop where
  assigned : Assigned kept (before ++ [line])
  whole : Passes kept (before ++ [line]) → line.count = 11 ∨
    ∃ first ∈ lines.find? (IsDefault ·), ∃ gateway ∈ latest 3 (·.gateway) (scanned kept (before ++ [line])),
      gateway.toUInt32 = first.gateway.toUInt32

theorem ofFirst_iff (hlines : lines = before ++ line :: after) (hreached : Reached kept before)
    (hpasses : Passes kept (before ++ [line])) {gateway : UInt64}
    (hgateway : latest 3 (·.gateway) (scanned kept (before ++ [line])) = some gateway) :
    OfFirst inet lines (inet.inetNtoa gateway.toUInt32) ↔ Settled kept lines before line := by
  constructor
  · rintro ⟨first, hfirst, htext⟩
    exact ⟨hpasses.assigned, fun _ => Or.inr ⟨first, hfirst, gateway, hgateway, inet.inetNtoa_injective htext⟩⟩
  · intro hsettled
    rcases hsettled.whole hpasses with hcount | ⟨first, hfirst, gateway', hgateway', heq⟩
    · rw [latest_scanned_append, hcount, if_pos (by decide)] at hgateway
      refine ⟨line, ?_, ?_⟩
      · rw [hlines]
        exact hreached.find? hcount hpasses
      · rw [Option.some.inj hgateway]
    · rw [hgateway] at hgateway'
      refine ⟨first, hfirst, ?_⟩
      rw [Option.some.inj hgateway', heq]

theorem body_nil (vars : RouteVars) : body inet kept (vars, []) = .inr (some []) := rfl

theorem body_cons (inet : Inet) (kept : Bool) (before : List RouteLine) (line : RouteLine) (after : List RouteLine) :
    body inet kept (held kept before, line :: after) =
      match test inet (held kept (before ++ [line])) with
      | none => .inr none
      | some none => .inl (held kept (before ++ [line]), after)
      | some (some gatewayString) => .inr (some gatewayString) := by
  rw [held_append]
  rfl

/-- The lines of `rest` that are tested behind those of `before`. -/
def SettledFrom (kept : Bool) (lines before rest : List RouteLine) : Prop :=
  ∀ l line after, rest = l ++ line :: after → Reached kept (before ++ l) → Settled kept lines (before ++ l) line

theorem settledFrom_nil (kept : Bool) (lines before : List RouteLine) : SettledFrom kept lines before [] := by
  intro l line after hrest
  simp at hrest

theorem settledFrom_cons {rest : List RouteLine} (hreached : Reached kept before) :
    SettledFrom kept lines before (line :: rest) ↔ Settled kept lines before line ∧
      (¬ Passes kept (before ++ [line]) → SettledFrom kept lines (before ++ [line]) rest) := by
  constructor
  · intro hall
    refine ⟨?_, fun _ l line' after hrest hreached' => ?_⟩
    · have hsettled := hall [] line rest rfl
      rw [List.append_nil] at hsettled
      exact hsettled hreached
    · rw [← List.append_cons] at hreached' ⊢
      exact hall (line :: l) line' after (by rw [hrest, List.cons_append]) hreached'
  · rintro ⟨hsettled, hrest'⟩ l line' after hrest hreached'
    cases l with
    | nil =>
      obtain ⟨rfl, rfl⟩ := List.cons.inj hrest
      rwa [List.append_nil]
    | cons first l =>
      obtain ⟨rfl, rfl⟩ := List.cons.inj hrest
      have hfails : ¬ Passes kept (before ++ [line]) := hreached' _ ⟨l, by simp⟩
      rw [List.append_cons] at hreached' ⊢
      exact hrest' hfails l line' after rfl hreached'

theorem body_iff (inet : Inet) {rest : List RouteLine} (hlines : lines = before ++ rest) (hreached : Reached kept before) :
    (∃ text, Returns (body inet kept) (held kept before, rest) (some text) ∧ (text ≠ [] → OfFirst inet lines text)) ↔
      SettledFrom kept lines before rest := by
  induction rest generalizing before with
  | nil =>
    apply iff_of_true
    · exact ⟨[], .leave (body_nil _), fun hne => absurd rfl hne⟩
    · exact settledFrom_nil kept lines before
  | cons line rest ih =>
    rw [settledFrom_cons hreached]
    have hbody := body_cons inet kept before line rest
    by_cases hassigned : Assigned kept (before ++ [line])
    · by_cases hpasses : Passes kept (before ++ [line])
      · obtain ⟨gateway, hgateway, htest⟩ := test_passes inet hpasses
        have hne : inet.inetNtoa gateway.toUInt32 ≠ [] := (inet.inetNtoa_denotes _).ne_nil
        rw [htest] at hbody
        simp only [returns_of_leave hbody, Option.some.injEq, exists_eq_left, ne_eq, hne, not_false_iff, true_imp_iff]
        rw [ofFirst_iff hlines hreached hpasses hgateway, and_iff_left fun hfails => absurd hpasses hfails]
      · have hsettled : Settled kept lines before line := ⟨hassigned, fun h => absurd h hpasses⟩
        rw [test_fails hassigned hpasses] at hbody
        simp only [returns_of_next hbody]
        rw [ih (by rw [hlines, List.append_assoc]; rfl) (hreached.append hpasses), and_iff_right hsettled,
          forall_prop_of_true hpasses]
    · rw [test_unassigned hassigned] at hbody
      apply iff_of_false
      · rintro ⟨text, hreturns, -⟩
        have hnone := (returns_of_leave hbody).mp hreturns
        contradiction
      · rintro ⟨hsettled, -⟩
        exact hassigned hsettled.assigned

theorem neverMixes_iff_settledFrom (inet : Inet) (kept : Bool) (lines : List RouteLine) :
    NeverMixes inet kept lines ↔ SettledFrom kept lines [] lines := by
  have hreturns := returns_getIpv4DefaultGateway inet kept lines
  have hbody := body_iff inet (List.nil_append lines).symm (reached_nil kept)
  rw [← hbody]
  constructor
  · rintro ⟨text, hreturns', -, hfirst⟩
    exact ⟨text, hreturns', hfirst⟩
  · rintro ⟨text, hreturns', hfirst⟩
    exact ⟨text, hreturns', hreturns.unique hreturns', hfirst⟩

/-- **No lines are mixed** exactly if the flags have been converted at every line that is tested, and the one that ends
the loop is completely converted or has the gateway it should have all the same. -/
theorem neverMixes_iff (inet : Inet) (kept : Bool) (lines : List RouteLine) :
    NeverMixes inet kept lines ↔ ∀ before line after, lines = before ++ line :: after → Reached kept before →
      Settled kept lines before line :=
  neverMixes_iff_settledFrom inet kept lines

/-- A line for a network, and one that cannot be read behind its destination. -/
def shortLine : List RouteLine := [⟨11, 0x0000000a, 0x0100000a, 3, by decide⟩, ⟨2, 0, 0, 0, by decide⟩]

theorem shortLine_mixed :
    getIpv4DefaultGateway (.reference false) true (.table shortLine) = some "10.0.0.1".toList ∧
      ¬ NeverMixes (.reference false) true shortLine ∧ ¬ NeverMixes (.reference false) false shortLine := by
  have hmixed : getIpv4DefaultGateway (.reference false) true (.table shortLine) = some "10.0.0.1".toList := by decide
  have hunassigned : getIpv4DefaultGateway (.reference false) false (.table shortLine) = none := by decide
  have hnone : shortLine.find? (IsDefault ·) = none := by decide
  refine ⟨hmixed, ?_, ?_⟩
  · rintro ⟨text, -, hresult, hfirst⟩
    rw [hmixed] at hresult
    obtain rfl := Option.some.inj hresult
    obtain ⟨first, hmem, -⟩ := hfirst (by decide)
    rw [hnone] at hmem
    contradiction
  · rintro ⟨text, -, hresult, -⟩
    rw [hunassigned] at hresult
    contradiction

end DefaultGateway

end Libhbk
