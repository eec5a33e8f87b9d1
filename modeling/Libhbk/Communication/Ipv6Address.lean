import Libhbk.Base.Hex
import Libhbk.Communication.Ipv4Address

/-!
# IPv6 addresses

`Denotes`: eight groups of up to four hexadecimal digits, separated by colons, stand for 128 bits. Once, two colons may
stand for groups that are zero, and the last two groups may be written as a dotted quad. `parse` reads such texts. `Inet6`
are the functions of the C library.
-/

namespace Libhbk

structure Ipv6Address where
  address : List Char
  prefixLen : Nat
  deriving DecidableEq

namespace Ipv6Address

open BigEndian Occurrence Strings

/-! ### Texts -/

structure IsGroup (p : List Char) : Prop where
  number : Hex.IsNumber p
  length : p.length ≤ 4

instance (p : List Char) : Decidable (IsGroup p) :=
  decidable_of_iff (Hex.IsNumber p ∧ p.length ≤ 4) ⟨fun h => ⟨h.1, h.2⟩, fun h => ⟨h.number, h.length⟩⟩

/-- The parts stand for these words of 16 bits; `quadLast` if the last one may be a dotted quad. -/
inductive Words (quadLast : Bool) : List (List Char) → List Nat → Prop
  | nil : Words quadLast [] []
  | group {p : List Char} {parts : List (List Char)} {ws : List Nat} :
      IsGroup p → Words quadLast parts ws → Words quadLast (p :: parts) (Hex.value p :: ws)
  | quad {q : List Char} {n : Nat} :
      quadLast = true → Ipv4Address.Denotes q n → Words quadLast [q] [n / 2 ^ 16, n % 2 ^ 16]

/-- The parts, joined with colons. -/
def Half (quadLast : Bool) (s : List Char) (ws : List Nat) : Prop :=
  ∃ parts, Words quadLast parts ws ∧ s = [':'].intercalate parts

/-- The words of `ws`, zeros, and the words of `vs`. -/
def fill (ws vs : List Nat) : List Nat := ws ++ List.replicate (8 - (ws.length + vs.length)) 0 ++ vs

inductive Denotes : List Char → Nat → Prop
  | full {s : List Char} {ws : List Nat} : Half true s ws → ws.length = 8 → Denotes s (ofDigits (2 ^ 16) ws)
  | compressed {l r : List Char} {ws vs : List Nat} : Half false l ws → Half true r vs → ws.length + vs.length ≤ 7 →
      Denotes (l ++ ([':', ':'] ++ r)) (ofDigits (2 ^ 16) (fill ws vs))

variable {quadLast : Bool} {s p : List Char} {parts : List (List Char)} {ws vs : List Nat} {n : Nat}

theorem IsGroup.value_lt (h : IsGroup p) : Hex.value p < 2 ^ 16 := by
  have hpow : 16 ^ p.length ≤ 16 ^ 4 := Nat.pow_le_pow_right (by decide) h.length
  have hlt := Hex.value_lt p
  omega

theorem Words.lt (h : Words quadLast parts ws) : ∀ w ∈ ws, w < 2 ^ 16 := by
  induction h with
  | nil => simp
  | group hp _ ih =>
    rw [List.forall_mem_cons]
    exact ⟨hp.value_lt, ih⟩
  | quad _ hq =>
    have hlt := (Ipv4Address.denotes_iff.mp hq).2
    simp only [List.forall_mem_cons, List.not_mem_nil, false_imp_iff, implies_true, and_true]
    omega

theorem length_fill (h : ws.length + vs.length ≤ 7) : (fill ws vs).length = 8 := by
  simp only [fill, List.length_append, List.length_replicate]
  omega

theorem Denotes.lt (h : Denotes s n) : n < 2 ^ 128 := by
  have hall {ws : List Nat} (hlength : ws.length = 8) (hlt : ∀ w ∈ ws, w < 2 ^ 16) : ofDigits (2 ^ 16) ws < 2 ^ 128 := by
    have hbound := ofDigits_lt (by decide) hlt
    rwa [hlength, ← Nat.pow_mul] at hbound
  cases h with
  | full hs hlength =>
    obtain ⟨parts, hparts, -⟩ := hs
    exact hall hlength hparts.lt
  | compressed hl hr hlength =>
    obtain ⟨parts, hparts, -⟩ := hl
    obtain ⟨parts', hparts', -⟩ := hr
    refine hall (length_fill hlength) fun w hw => ?_
    simp only [fill, List.mem_append, List.mem_replicate] at hw
    rcases hw with (hw | ⟨-, rfl⟩) | hw
    · exact hparts.lt w hw
    · decide
    · exact hparts'.lt w hw

/-! ### Reading them -/

/-- The 32 bits of a dotted quad. -/
def quad? (q : List Char) : Option Nat :=
  if (splitChar q '.').length = 4 ∧ ∀ p ∈ splitChar q '.', Ipv4Address.IsOctet p then
    some (Ipv4Address.ofOctets ((splitChar q '.').map Decimal.value))
  else none

def words? (quadLast : Bool) : List (List Char) → Option (List Nat)
  | [] => some []
  | p :: parts =>
    if IsGroup p then (words? quadLast parts).map (Hex.value p :: ·)
    else if quadLast = true ∧ parts = [] then (quad? p).map fun n => [n / 2 ^ 16, n % 2 ^ 16]
    else none

def half? (quadLast : Bool) (s : List Char) : Option (List Nat) :=
  words? quadLast (if s = [] then [] else splitChar s ':')

def parse (s : List Char) : Option Nat :=
  match find? [':', ':'] s with
  | none => (half? true s).bind fun ws => if ws.length = 8 then some (ofDigits (2 ^ 16) ws) else none
  | some i =>
    (half? false (s.take i)).bind fun ws => (half? true (s.drop (i + 2))).bind fun vs =>
      if ws.length + vs.length ≤ 7 then some (ofDigits (2 ^ 16) (fill ws vs)) else none

theorem quad?_iff {q : List Char} : quad? q = some n ↔ Ipv4Address.Denotes q n := by
  rw [quad?, Ipv4Address.denotes_iff_split]
  split
  · next h => rw [and_iff_right h, Option.some.injEq]
  · next h => simp [h]

theorem not_isGroup_of_denotes {q : List Char} (h : Ipv4Address.Denotes q n) : ¬ IsGroup q := by
  intro hq
  have hdot : '.' ∉ q := hq.number.not_mem (by decide)
  have hcount := h.count_dot
  rw [List.count_eq_zero_of_not_mem hdot] at hcount
  contradiction

theorem words?_iff : words? quadLast parts = some ws ↔ Words quadLast parts ws := by
  constructor
  · intro h
    induction parts generalizing ws with
    | nil =>
      obtain rfl := Option.some.inj h
      exact .nil
    | cons p parts ih =>
      rw [words?] at h
      split_ifs at h with hp hlast
      · obtain ⟨vs, hvs, rfl⟩ := Option.map_eq_some_iff.mp h
        exact .group hp (ih hvs)
      · obtain ⟨n, hn, rfl⟩ := Option.map_eq_some_iff.mp h
        obtain ⟨hquad, rfl⟩ := hlast
        exact .quad hquad (quad?_iff.mp hn)
  · intro h
    induction h with
    | nil => rfl
    | group hp _ ih => rw [words?, if_pos hp, ih, Option.map_some]
    | quad hquad hq =>
      rw [words?, if_neg (not_isGroup_of_denotes hq), if_pos ⟨hquad, rfl⟩, quad?_iff.mpr hq, Option.map_some]

theorem Words.not_mem {c : Char} (h : Words quadLast parts ws) (hc : Hex.isDigit c = false) (hdot : c ≠ '.') :
    ∀ p ∈ parts, c ∉ p := by
  induction h with
  | nil => simp
  | group hp _ ih =>
    rw [List.forall_mem_cons]
    exact ⟨hp.number.not_mem hc, ih⟩
  | quad _ hq =>
    have hdigit : c.isDigit = false := by
      rw [Bool.eq_false_iff]
      intro hdigit
      obtain ⟨d, hd, rfl⟩ := Decimal.exists_digitChar hdigit
      rw [Hex.isDigit_digitChar (by omega)] at hc
      contradiction
    rw [List.forall_mem_singleton]
    exact hq.not_mem hdigit hdot

theorem Words.part (h : Words quadLast parts ws) : ∀ p ∈ parts, p ≠ [] ∧ ':' ∉ p := by
  intro p hp
  refine ⟨?_, h.not_mem (by decide) (by decide) p hp⟩
  induction h with
  | nil => exact absurd hp List.not_mem_nil
  | group hgroup _ ih =>
    rcases List.mem_cons.mp hp with rfl | hp
    · exact hgroup.number.ne_nil
    · exact ih hp
  | quad _ hq =>
    rw [List.mem_singleton.mp hp, (Ipv4Address.denotes_iff.mp hq).1, Ipv4Address.dotted_eq]
    simp

theorem intercalate_eq_cons (hne : parts ≠ []) (h : ∀ p ∈ parts, p ≠ [] ∧ ':' ∉ p) :
    ∃ c t, [':'].intercalate parts = c :: t ∧ c ≠ ':' := by
  obtain ⟨p, parts, rfl⟩ := List.exists_cons_of_ne_nil hne
  obtain ⟨hp, hcolon⟩ := h p List.mem_cons_self
  obtain ⟨c, p, rfl⟩ := List.exists_cons_of_ne_nil hp
  have hc : c ≠ ':' := by
    rintro rfl
    exact hcolon List.mem_cons_self
  cases parts with
  | nil => exact ⟨c, p, List.intercalate_singleton, hc⟩
  | cons q parts => exact ⟨c, _, List.intercalate_cons_cons, hc⟩

theorem half?_iff : half? quadLast s = some ws ↔ Half quadLast s ws := by
  rw [half?, words?_iff]
  constructor
  · intro h
    refine ⟨_, h, ?_⟩
    split
    · next hs => exact hs
    · rw [Strings.splitChar_eq]
      exact (pieces_split (List.cons_ne_nil _ _) s).intercalate.symm
  · rintro ⟨parts, hparts, rfl⟩
    by_cases hnil : parts = []
    · subst hnil
      exact hparts
    · have hsplit : splitChar ([':'].intercalate parts) ':' = parts := by
        rw [Strings.splitChar_eq]
        exact (pieces_split (List.cons_ne_nil _ _) _).unique
          (pieces_intercalate_singleton hnil fun p hp => (hparts.part p hp).2)
      obtain ⟨c, t, heq, -⟩ := intercalate_eq_cons hnil hparts.part
      rw [if_neg (by rw [heq]; exact List.cons_ne_nil c t), hsplit]
      exact hparts

theorem noneBegins_intercalate (h : ∀ p ∈ parts, p ≠ [] ∧ ':' ∉ p) (t : List Char) :
    NoneBegins [':', ':'] ([':'].intercalate parts) t := by
  have hpart {p : List Char} (hp : ':' ∉ p) (t : List Char) : NoneBegins [':', ':'] p t := by
    intro i hi hocc
    rw [List.drop_append_of_le_length (by omega), List.drop_eq_getElem_cons hi, List.cons_append] at hocc
    obtain ⟨heq, -⟩ := List.cons_prefix_cons.mp hocc
    exact hp (heq ▸ List.getElem_mem hi)
  induction parts with
  | nil => exact noneBegins_nil
  | cons p parts ih =>
    obtain ⟨hp, htail⟩ := List.forall_mem_cons.mp h
    by_cases hnil : parts = []
    · subst hnil
      rw [List.intercalate_singleton]
      exact hpart hp.2 t
    · obtain ⟨c, u, heq, hc⟩ := intercalate_eq_cons hnil htail
      rw [List.intercalate_cons_of_ne_nil hnil, noneBegins_append, noneBegins_append]
      refine ⟨⟨hpart hp.2 _, noneBegins_cons.mpr ⟨?_, noneBegins_nil⟩⟩, ih htail⟩
      intro hocc
      rw [heq] at hocc
      exact hc (List.cons_prefix_cons.mp (List.cons_prefix_cons.mp hocc).2).1.symm

theorem Half.noneBegins (h : Half quadLast s ws) (t : List Char) : NoneBegins [':', ':'] s t := by
  obtain ⟨parts, hparts, rfl⟩ := h
  exact noneBegins_intercalate hparts.part t

theorem Half.not_infix (h : Half quadLast s ws) : ¬ [':', ':'] <:+: s := by
  rw [← List.append_nil s, infix_append_of_noneBegins (h.noneBegins [])]
  simp

/-- **`parse` reads exactly the texts.** -/
theorem parse_iff : parse s = some n ↔ Denotes s n := by
  rw [parse]
  constructor
  · intro h
    obtain ⟨hfind, -⟩ | ⟨b, a, hfind, hcut⟩ := find?_cases [':', ':'] s
    · simp only [hfind, Option.bind_eq_some_iff, Option.ite_none_right_eq_some, Option.some.injEq] at h
      obtain ⟨ws, hws, hlength, rfl⟩ := h
      exact .full (half?_iff.mp hws) hlength
    · have htake : s.take b.length = b := by rw [hcut.eq, List.take_left]
      have hdrop : s.drop (b.length + 2) = a := by
        have htwo : b.length + 2 = (b ++ [':', ':']).length := by rw [List.length_append]; rfl
        rw [hcut.eq, htwo, ← List.append_assoc, List.drop_left]
      simp only [hfind, htake, hdrop, Option.bind_eq_some_iff, Option.ite_none_right_eq_some, Option.some.injEq] at h
      obtain ⟨ws, hws, vs, hvs, hlength, rfl⟩ := h
      rw [hcut.eq]
      exact .compressed (half?_iff.mp hws) (half?_iff.mp hvs) hlength
  · intro h
    cases h with
    | full hs hlength =>
      have hfind : find? [':', ':'] s = none := by
        obtain ⟨hnone, -⟩ | ⟨b, a, -, hcut⟩ := find?_cases [':', ':'] s
        · exact hnone
        · exact absurd hcut.isInfix hs.not_infix
      simp only [hfind, half?_iff.mpr hs, Option.bind_some, hlength, if_true]
    | @compressed l r ws vs hl hr hlength =>
      have hcut : Cut [':', ':'] (l ++ ([':', ':'] ++ r)) l r := ⟨rfl, hl.noneBegins _⟩
      have htwo : l.length + 2 = (l ++ [':', ':']).length := by rw [List.length_append]; rfl
      have hdrop : (l ++ ([':', ':'] ++ r)).drop (l.length + 2) = r := by
        rw [htwo, ← List.append_assoc, List.drop_left]
      simp only [hcut.find?_eq, List.take_left, hdrop, half?_iff.mpr hl, half?_iff.mpr hr, Option.bind_some, hlength,
        if_true]

theorem Denotes.unique {m : Nat} (hm : Denotes s m) (hn : Denotes s n) : m = n := by
  rw [← parse_iff] at hm hn
  rw [hm] at hn
  exact Option.some.inj hn

theorem Denotes.not_mem {c : Char} (h : Denotes s n) (hc : Hex.isDigit c = false) (hdot : c ≠ '.') (hcolon : c ≠ ':') :
    c ∉ s := by
  have hhalf {quadLast : Bool} {s : List Char} {ws : List Nat} (h : Half quadLast s ws) : c ∉ s := by
    obtain ⟨parts, hparts, rfl⟩ := h
    have hpart := hparts.not_mem hc hdot
    clear hparts
    induction parts with
    | nil => exact List.not_mem_nil
    | cons p parts ih =>
      obtain ⟨hp, htail⟩ := List.forall_mem_cons.mp hpart
      by_cases hnil : parts = []
      · subst hnil
        rwa [List.intercalate_singleton]
      · rw [List.intercalate_cons_of_ne_nil hnil]
        simp [hp, hcolon, ih htail]
  cases h with
  | full hs => exact hhalf hs
  | compressed hl hr =>
    have hleft := hhalf hl
    have hright := hhalf hr
    simp [hleft, hright, hcolon]

/-! ### The functions of the C library -/

/-- `inet_pton` and `inet_ntop` for `AF_INET6`; the 16 bytes are one number. -/
structure Inet6 where
  inetPton : List Char → Option Nat
  inetNtop : Nat → List Char
  inetPton_iff : ∀ s n, inetPton s = some n ↔ Denotes s n
  inetNtop_denotes : ∀ n < 2 ^ 128, Denotes (inetNtop n) n

/-! The library by what it is documented to do -/

def words (n : Nat) : List Nat :=
  [n / 2 ^ 112 % 2 ^ 16, n / 2 ^ 96 % 2 ^ 16, n / 2 ^ 80 % 2 ^ 16, n / 2 ^ 64 % 2 ^ 16,
    n / 2 ^ 48 % 2 ^ 16, n / 2 ^ 32 % 2 ^ 16, n / 2 ^ 16 % 2 ^ 16, n % 2 ^ 16]

def joined (ws : List Nat) : List Char := [':'].intercalate (ws.map Hex.print)

/-- Where two colons may stand: the runs of two or more words, long ones first. -/
def runs : List (Nat × Nat) :=
  [8, 7, 6, 5, 4, 3, 2].flatMap fun k => (List.range (9 - k)).map fun i => (i, k)

/-- The first one of the longest runs of zeros is left out. -/
def canonical (ws : List Nat) : List Char :=
  match runs.find? fun x => (ws.drop x.1).take x.2 = List.replicate x.2 0 with
  | some (i, k) => joined (ws.take i) ++ ([':', ':'] ++ joined (ws.drop (i + k)))
  | none => joined ws

theorem ofDigits_words (hn : n < 2 ^ 128) : ofDigits (2 ^ 16) (words n) = n := by
  simp only [ofDigits, words, List.foldl_cons, List.foldl_nil]
  omega

theorem words_lt : ∀ w ∈ words n, w < 2 ^ 16 := by
  simp only [words, List.forall_mem_cons, List.not_mem_nil, false_imp_iff, implies_true, and_true]
  omega

theorem half_joined (h : ∀ w ∈ ws, w < 2 ^ 16) : Half quadLast (joined ws) ws := by
  refine ⟨ws.map Hex.print, ?_, rfl⟩
  induction ws with
  | nil => exact .nil
  | cons w ws ih =>
    obtain ⟨hw, hws⟩ := List.forall_mem_cons.mp h
    have hgroup : IsGroup (Hex.print w) := ⟨Hex.isNumber_print w, (Hex.length_print_le (by decide)).mpr hw⟩
    have hwords := Words.group hgroup (ih hws)
    rwa [Hex.value_print] at hwords

theorem denotes_canonical (hlength : ws.length = 8) (h : ∀ w ∈ ws, w < 2 ^ 16) :
    Denotes (canonical ws) (ofDigits (2 ^ 16) ws) := by
  rw [canonical]
  split
  · next i k hfind =>
    have hzero : (ws.drop i).take k = List.replicate k 0 := by simpa using List.find?_some hfind
    have hrun : ∀ x ∈ runs, 2 ≤ x.2 ∧ x.1 + x.2 ≤ 8 := by decide
    obtain ⟨hk, hle⟩ := hrun _ (List.mem_of_find?_eq_some hfind)
    dsimp only at hk hle
    have hfill : fill (ws.take i) (ws.drop (i + k)) = ws := by
      have hcount : 8 - ((ws.take i).length + (ws.drop (i + k)).length) = k := by
        rw [List.length_take, List.length_drop]
        omega
      rw [fill, hcount, ← hzero, ← List.drop_drop, List.append_assoc, List.take_append_drop, List.take_append_drop]
    have hleft : Half false (joined (ws.take i)) (ws.take i) := half_joined fun w hw => h w (List.mem_of_mem_take hw)
    have hright : Half true (joined (ws.drop (i + k))) (ws.drop (i + k)) :=
      half_joined fun w hw => h w (List.mem_of_mem_drop hw)
    have hdenotes := Denotes.compressed hleft hright (by
      rw [List.length_take, List.length_drop]
      omega)
    rwa [hfill] at hdenotes
  · exact .full (half_joined h) hlength

def Inet6.reference : Inet6 where
  inetPton := parse
  inetNtop n := canonical (words n)
  inetPton_iff _ _ := parse_iff
  inetNtop_denotes n hn := by
    have hdenotes : Denotes (canonical (words n)) (ofDigits (2 ^ 16) (words n)) := denotes_canonical rfl words_lt
    rwa [ofDigits_words hn] at hdenotes

/-! ### Link local addresses -/

open Ipv4Address (cStr)

/-- The text begins with `fe80::`, in any letter case. -/
def LinkLocalNet (address : List Char) : Prop := (address.take 6).map Char.toLower = "fe80::".toList

instance (address : List Char) : Decidable (LinkLocalNet address) := inferInstanceAs (Decidable (_ = _))

def isLinkLocalAddress (inet : Inet6) (address : List Char) : Bool :=
  if (inet.inetPton (cStr address)).isNone then false
  else if ¬ LinkLocalNet address then false
  else true

/-- Both addresses are printed again, in less than the 64 characters that are compared. -/
def equal (inet : Inet6) (a op : Ipv6Address) : Bool :=
  if a.prefixLen ≠ op.prefixLen then false
  else
    match inet.inetPton (cStr a.address) with
    | none => false
    | some addrStruct =>
      match inet.inetPton (cStr op.address) with
      | none => false
      | some opAddrStruct => inet.inetNtop addrStruct = inet.inetNtop opAddrStruct

variable (inet : Inet6) {a b : Ipv6Address}

theorem isLinkLocalAddress_iff (s : List Char) :
    isLinkLocalAddress inet s = true ↔ (∃ n, Denotes (cStr s) n) ∧ LinkLocalNet s := by
  rw [isLinkLocalAddress]
  cases hpton : inet.inetPton (cStr s) with
  | none =>
    refine iff_of_false Bool.false_ne_true ?_
    rintro ⟨⟨n, hn⟩, -⟩
    rw [(inet.inetPton_iff _ n).mpr hn] at hpton
    contradiction
  | some n =>
    rw [and_iff_right ⟨n, (inet.inetPton_iff _ n).mp hpton⟩]
    simp

theorem equal_iff : equal inet a b = true ↔
    a.prefixLen = b.prefixLen ∧ ∃ n, Denotes (cStr a.address) n ∧ Denotes (cStr b.address) n := by
  simp only [← inet.inetPton_iff]
  rw [equal]
  split
  · next hlen => simp [hlen]
  · next hlen =>
    rw [and_iff_right (not_not.mp hlen)]
    cases ha : inet.inetPton (cStr a.address) with
    | none => simp
    | some x =>
      cases hb : inet.inetPton (cStr b.address) with
      | none => simp
      | some y =>
        simp only [decide_eq_true_eq, Option.some.injEq]
        constructor
        · intro h
          have hx := inet.inetNtop_denotes x ((inet.inetPton_iff _ x).mp ha).lt
          have hy := inet.inetNtop_denotes y ((inet.inetPton_iff _ y).mp hb).lt
          rw [h] at hx
          exact ⟨x, rfl, hy.unique hx⟩
        · rintro ⟨n, rfl, rfl⟩
          rfl

/-- **The notation matters**: equal addresses are told apart exactly where one text begins with `fe80::` and the other
does not. -/
theorem isLinkLocalAddress_agrees_iff (inet : Inet6) (a b : Ipv6Address) :
    (equal inet a b = true → isLinkLocalAddress inet a.address = isLinkLocalAddress inet b.address) ↔
      (a.prefixLen = b.prefixLen → (∃ n, Denotes (cStr a.address) n ∧ Denotes (cStr b.address) n) →
        (LinkLocalNet a.address ↔ LinkLocalNet b.address)) := by
  rw [equal_iff, and_imp]
  refine forall_congr' fun _ => forall_congr' fun ⟨n, ha, hb⟩ => ?_
  rw [Bool.eq_iff_iff, isLinkLocalAddress_iff, isLinkLocalAddress_iff, and_iff_right ⟨n, ha⟩, and_iff_right ⟨n, hb⟩]

/-- The second group of zeros is written out. -/
theorem isLinkLocalAddress_written_out :
    ¬ (equal .reference ⟨"fe80::1".toList, 64⟩ ⟨"fe80:0::1".toList, 64⟩ = true →
      isLinkLocalAddress .reference "fe80::1".toList = isLinkLocalAddress .reference "fe80:0::1".toList) := by
  decide +kernel

end Ipv6Address

end Libhbk
