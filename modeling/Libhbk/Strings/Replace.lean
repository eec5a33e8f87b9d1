import Libhbk.Strings.Split

/-!
# `replace`

The loop of `replace` finds the next occurrence from `position` on, puts the substitute there and moves `position` by
the length of the search string, not of the substitute. `Rewrites` is that loop on the rest of the text alone.

`replace_ends_iff` says when it ends, `replaces_all_iff` when the result is the split text joined with the
substitute.
-/

namespace Libhbk.Strings

open Occurrence Loop

variable {α : Type*}

/-- `replace(text, search, substitute)` for characters. -/
def replaceChar [DecidableEq α] (text : List α) (search substitute : α) : List α :=
  text.map fun c => if c = search then substitute else c

/-- `text.replace(position, n, substitute)` -/
def replaceAt (text : List α) (position n : Nat) (substitute : List α) : List α :=
  text.take position ++ substitute ++ text.drop (position + n)

structure ReplaceState (α : Type*) where
  text : List α
  position : Nat

def replaceBody [DecidableEq α] (search substitute : List α) : Loop (ReplaceState α) (List α)
  | ⟨text, position⟩ =>
    match find text search position with
    | none => .inr text
    | some position => .inl ⟨replaceAt text position search.length substitute, position + search.length⟩

/-- `replace(text, search, substitute)` returns `result`. -/
def ReplaceReturns [DecidableEq α] (text search substitute result : List α) : Prop :=
  Returns (replaceBody search substitute) ⟨text, 0⟩ result

/-! ### The loop on the rest of the text -/

namespace ReplaceState

/-- What the loop looks at no more. -/
def done (x : ReplaceState α) : List α := x.text.take x.position

def rest (x : ReplaceState α) : List α := x.text.drop x.position

theorem done_append_rest (x : ReplaceState α) : x.done ++ x.rest = x.text := List.take_append_drop _ _

end ReplaceState

/-- `position` may be behind the end of the text, but not if the search string is empty. -/
def Sound (search : List α) (x : ReplaceState α) : Prop := search ≠ [] ∨ x.position ≤ x.text.length

/-- From a rest of the text to what it becomes: the rest of the next iteration begins with what the substitute has
beyond the length of the search string. -/
inductive Rewrites (search substitute : List α) : List α → List α → Prop
  | last {t : List α} : ¬ search <:+: t → Rewrites search substitute t t
  | cut {t b a r : List α} : Cut search t b a →
      Rewrites search substitute ((substitute ++ a).drop search.length) r →
      Rewrites search substitute t (b ++ (substitute ++ a).take search.length ++ r)

variable {text search substitute t b a r : List α} {x x' : ReplaceState α}

section Body

variable [DecidableEq α]

theorem replaceBody_last (h : ¬ search <:+: x.rest) : replaceBody search substitute x = .inr x.text := by
  have hfind : find x.text search x.position = none := by
    apply find_none
    intro k hle hocc
    exact h (infix_drop_iff.mpr ⟨k, hle, hocc⟩)
  rw [replaceBody, hfind]

theorem replaceBody_cut (substitute : List α) (hx : Sound search x) (h : Cut search x.rest b a) :
    ∃ x', replaceBody search substitute x = .inl x' ∧ Sound search x' ∧
      x'.done = x.done ++ (b ++ (substitute ++ a).take search.length) ∧
      x'.rest = (substitute ++ a).drop search.length := by
  have hlength := h.length
  rw [ReplaceState.rest, List.length_drop] at hlength
  have hpos : x.position ≤ x.text.length := by
    rcases hx with hs | hpos
    · have := List.length_pos_of_ne_nil hs
      omega
    · exact hpos
  have hdone : (x.done ++ b).length = x.position + b.length := by
    rw [List.length_append, ReplaceState.done, List.length_take, Nat.min_eq_left hpos]
  have htext : x.text = x.done ++ b ++ (search ++ a) := by
    rw [List.append_assoc, ← h.eq, x.done_append_rest]
  have hnew : replaceAt x.text (x.position + b.length) search.length substitute = x.done ++ b ++ (substitute ++ a) := by
    rw [replaceAt, htext, ← hdone, List.take_left, List.drop_length_add_append, List.drop_left, List.append_assoc]
  refine ⟨⟨x.done ++ b ++ (substitute ++ a), (x.done ++ b).length + search.length⟩, ?_, ?_, ?_, ?_⟩
  · rw [replaceBody, find_of_cut h hpos]
    dsimp only
    rw [hnew, hdone]
  · by_cases hs : search = []
    · refine Or.inr ?_
      subst hs
      simp
    · exact Or.inl hs
  · rw [ReplaceState.done, List.take_length_add_append, List.append_assoc]
  · rw [ReplaceState.rest, List.drop_length_add_append]

theorem returns_iff_rewrites (hx : Sound search x) :
    Returns (replaceBody search substitute) x r ↔ ∃ r', Rewrites search substitute x.rest r' ∧ r = x.done ++ r' := by
  constructor
  · intro h
    induction h with
    | @leave x r hleave =>
      by_cases hocc : search <:+: x.rest
      · obtain ⟨b, a, hcut⟩ := exists_cut hocc
        obtain ⟨x', hnext, -⟩ := replaceBody_cut substitute hx hcut
        rw [hleave] at hnext
        contradiction
      · rw [replaceBody_last hocc] at hleave
        exact ⟨x.rest, .last hocc, by rw [x.done_append_rest, Sum.inr.inj hleave]⟩
    | @next x x' r hnext _ ih =>
      by_cases hocc : search <:+: x.rest
      · obtain ⟨b, a, hcut⟩ := exists_cut hocc
        obtain ⟨x'', hnext', hx', hdone, hrest⟩ := replaceBody_cut substitute hx hcut
        rw [hnext] at hnext'
        obtain rfl := Sum.inl.inj hnext'
        obtain ⟨r', hr', rfl⟩ := ih hx'
        rw [hrest] at hr'
        exact ⟨_, .cut hcut hr', by rw [hdone]; simp only [List.append_assoc]⟩
      · rw [replaceBody_last hocc] at hnext
        contradiction
  · rintro ⟨r', hr', rfl⟩
    generalize ht : x.rest = t at hr'
    induction hr' generalizing x with
    | last hnot =>
      subst ht
      refine .leave ?_
      rw [replaceBody_last hnot, x.done_append_rest]
    | cut hcut _ ih =>
      subst ht
      obtain ⟨x', hnext, hx', hdone, hrest⟩ := replaceBody_cut substitute hx hcut
      refine .next hnext ?_
      have hret := ih hx' hrest
      rw [hdone] at hret
      simpa only [List.append_assoc] using hret

theorem replaceReturns_iff : ReplaceReturns text search substitute r ↔ Rewrites search substitute text r := by
  rw [ReplaceReturns, returns_iff_rewrites (Or.inr (Nat.zero_le _))]
  constructor
  · rintro ⟨r', hr', rfl⟩
    exact hr'
  · intro h
    exact ⟨r, h, rfl⟩

end Body

/-! ### When the loop ends -/

/-- What the substitute has beyond the length of the search string; the loop searches it again. -/
def surplus (search substitute : List α) : List α := substitute.drop search.length

theorem Rewrites.not_infix_surplus (h : Rewrites search substitute t r) (hocc : search <:+: t) :
    ¬ search <:+: surplus search substitute := by
  induction h with
  | last hnot => contradiction
  | cut _ _ ih =>
    intro hsurplus
    refine ih ?_ hsurplus
    rw [List.drop_append]
    exact hsurplus.trans (List.prefix_append _ _).isInfix

/-- Where the surplus does not contain the search string, each occurrence takes something from behind it. -/
theorem exists_rewrites (hsurplus : ¬ search <:+: surplus search substitute) (y : List α) :
    ∃ r, Rewrites search substitute (surplus search substitute ++ y) r := by
  by_cases hocc : search <:+: surplus search substitute ++ y
  · obtain ⟨b, a, hcut⟩ := exists_cut hocc
    have hless : a.length < y.length := by
      by_contra hle
      have hlength := hcut.length
      rw [List.length_append] at hlength
      have hbegin : b ++ search <+: surplus search substitute := by
        have hwhole : b ++ search <+: surplus search substitute ++ y := by
          rw [hcut.eq, ← List.append_assoc]
          exact List.prefix_append _ _
        apply List.prefix_of_prefix_length_le hwhole (List.prefix_append _ _)
        rw [List.length_append]
        omega
      exact hsurplus ((List.suffix_append b search).isInfix.trans hbegin.isInfix)
    have hrest : (a.drop (search.length - substitute.length)).length < y.length := by
      rw [List.length_drop]
      omega
    obtain ⟨r, hr⟩ := exists_rewrites hsurplus (a.drop (search.length - substitute.length))
    rw [surplus, ← List.drop_append] at hr
    exact ⟨_, .cut hcut hr⟩
  · exact ⟨_, .last hocc⟩
termination_by y.length

/-- **`replace` ends** exactly if there is nothing to replace, or the surplus does not contain the search string. -/
theorem replace_ends_iff [DecidableEq α] (text search substitute : List α) :
    (∃ result, ReplaceReturns text search substitute result) ↔
      ¬ (search <:+: text ∧ search <:+: surplus search substitute) := by
  simp only [replaceReturns_iff, not_and]
  constructor
  · rintro ⟨r, hr⟩ hocc
    exact hr.not_infix_surplus hocc
  · intro h
    by_cases hocc : search <:+: text
    · obtain ⟨b, a, hcut⟩ := exists_cut hocc
      obtain ⟨r, hr⟩ := exists_rewrites (h hocc) (a.drop (search.length - substitute.length))
      rw [surplus, ← List.drop_append] at hr
      exact ⟨_, .cut hcut hr⟩
    · exact ⟨text, .last hocc⟩

/-- An empty search string is found at the same place again and again; `a` is found again in the `aa` put for it. -/
theorem replace_never_ends :
    (¬ ∃ result, ReplaceReturns "".toList "".toList "".toList result) ∧
      ¬ ∃ result, ReplaceReturns "a".toList "a".toList "aa".toList result := by
  constructor
  · rw [replace_ends_iff]
    decide
  · rw [replace_ends_iff]
    decide

/-! ### When all occurrences are replaced -/

/-- `replace` returns what `split` leaves, joined with the substitute. -/
def ReplacesAll [DecidableEq α] (text search substitute : List α) : Prop :=
  ReplaceReturns text search substitute (substitute.intercalate (split text search))

/-- With `a` behind a cut, the loop misses no occurrence in what it skips, and finds none that begins in the surplus. -/
def Clear (search substitute a : List α) : Prop :=
  NoneBegins search (a.take (search.length - substitute.length)) (a.drop (search.length - substitute.length)) ∧
    NoneBegins search (surplus search substitute) a

theorem clear_of_le (hle : search.length ≤ substitute.length) (h : NoneBegins search (surplus search substitute) a) :
    Clear search substitute a := by
  refine ⟨?_, h⟩
  rw [Nat.sub_eq_zero_of_le hle]
  exact noneBegins_nil

theorem clear_of_ge (hle : substitute.length ≤ search.length)
    (h : NoneBegins search (a.take (search.length - substitute.length)) (a.drop (search.length - substitute.length))) :
    Clear search substitute a := by
  refine ⟨h, ?_⟩
  rw [surplus, List.drop_of_length_le hle]
  exact noneBegins_nil

theorem rewrites_cut_iff (h : Cut search t b a) :
    Rewrites search substitute t r ↔ ∃ r', Rewrites search substitute ((substitute ++ a).drop search.length) r' ∧
      r = b ++ (substitute ++ a).take search.length ++ r' := by
  constructor
  · intro hr
    cases hr with
    | last hnot => exact absurd h.isInfix hnot
    | cut hcut hr' =>
      obtain ⟨rfl, rfl⟩ := h.unique hcut
      exact ⟨_, hr', rfl⟩
  · rintro ⟨r', hr', rfl⟩
    exact .cut h hr'

theorem rewrites_append_iff {x : List α} (h : NoneBegins search x t) :
    Rewrites search substitute (x ++ t) r ↔ ∃ r', Rewrites search substitute t r' ∧ r = x ++ r' := by
  by_cases hocc : search <:+: t
  · obtain ⟨b, a, hcut⟩ := exists_cut hocc
    rw [rewrites_cut_iff (cut_append h hcut)]
    simp only [rewrites_cut_iff hcut]
    constructor
    · rintro ⟨r', hr', rfl⟩
      exact ⟨_, ⟨r', hr', rfl⟩, by simp only [List.append_assoc]⟩
    · rintro ⟨_, ⟨r', hr', rfl⟩, rfl⟩
      exact ⟨r', hr', by simp only [List.append_assoc]⟩
  · have hnot : ¬ search <:+: x ++ t := by rwa [infix_append_of_noneBegins h]
    constructor
    · intro hr
      cases hr with
      | last => exact ⟨t, .last hocc, rfl⟩
      | cut hcut _ => exact absurd hcut.isInfix hnot
    · rintro ⟨r', hr', rfl⟩
      cases hr' with
      | last => exact .last hnot
      | cut hcut _ => exact absurd hcut.isInfix hocc

theorem rewrites_clear_iff (h : Cut search t b a) (hclear : Clear search substitute a) :
    Rewrites search substitute t r ↔ ∃ r', Rewrites search substitute a r' ∧ r = b ++ substitute ++ r' := by
  rw [rewrites_cut_iff h]
  rcases Nat.le_total search.length substitute.length with hle | hle
  · have hdrop : (substitute ++ a).drop search.length = surplus search substitute ++ a :=
      List.drop_append_of_le_length hle
    have hsplit (r' : List α) : b ++ substitute.take search.length ++ (surplus search substitute ++ r') =
        b ++ substitute ++ r' := by
      rw [← List.append_assoc, List.append_assoc b, surplus, List.take_append_drop]
    rw [hdrop, List.take_append_of_le_length hle]
    simp only [rewrites_append_iff hclear.2]
    constructor
    · rintro ⟨_, ⟨r', hr', rfl⟩, rfl⟩
      exact ⟨r', hr', hsplit r'⟩
    · rintro ⟨r', hr', rfl⟩
      exact ⟨_, ⟨r', hr', rfl⟩, (hsplit r').symm⟩
  · have hskip (r' : List α) : Rewrites search substitute (a.take _ ++ a.drop _) r' ↔ _ :=
      rewrites_append_iff hclear.1
    rw [List.take_append_drop] at hskip
    rw [List.drop_append, List.take_append, List.drop_of_length_le hle, List.take_of_length_le hle, List.nil_append]
    simp only [hskip]
    constructor
    · rintro ⟨r', hr', rfl⟩
      exact ⟨_, ⟨r', hr', rfl⟩, by simp only [List.append_assoc]⟩
    · rintro ⟨_, ⟨r', hr', rfl⟩, rfl⟩
      exact ⟨r', hr', by simp only [List.append_assoc]⟩

theorem rewrites_of_clear {ps : List (List α)} (h : Pieces search t ps)
    (hclear : ∀ a, Behind search t a → Clear search substitute a) :
    Rewrites search substitute t (substitute.intercalate ps) := by
  induction h with
  | last hnot =>
    rw [List.intercalate_singleton]
    exact .last hnot
  | @cut t b a ps hcut hps ih =>
    have ha := ih fun a' ha' => hclear a' (.later hcut ha')
    rw [List.intercalate_cons_of_ne_nil hps.ne_nil]
    exact (rewrites_clear_iff hcut (hclear a (.here hcut))).mpr ⟨_, ha, rfl⟩

/-! What the substitute does whatever the text is -/

/-- Nowhere in the surplus does an occurrence begin, whatever follows. -/
def SurplusClear (search substitute : List α) : Prop :=
  ∀ i < (surplus search substitute).length,
    ¬ search <+: (surplus search substitute).drop i ∧ ¬ (surplus search substitute).drop i <+: search

theorem clear_of_surplusClear (hle : search.length ≤ substitute.length) (h : SurplusClear search substitute)
    (a : List α) : Clear search substitute a := by
  apply clear_of_le hle
  intro i hi hocc
  rw [List.drop_append_of_le_length hi.le] at hocc
  rcases List.prefix_or_prefix_of_prefix hocc (List.prefix_append _ a) with hsearch | hend
  · exact (h i hi).1 hsearch
  · exact (h i hi).2 hend

theorem Rewrites.length_le (hle : search.length ≤ substitute.length) (h : Rewrites search substitute t r) :
    t.length ≤ r.length := by
  induction h with
  | last => exact Nat.le_refl _
  | cut hcut _ ih =>
    rw [hcut.length]
    simp only [List.length_append, List.length_take, List.length_drop] at ih ⊢
    omega

theorem Rewrites.length_lt (hlt : search.length < substitute.length) (h : Rewrites search substitute t r)
    (hocc : search <:+: t) : t.length < r.length := by
  cases h with
  | last hnot => contradiction
  | cut hcut hr =>
    have hle := hr.length_le hlt.le
    rw [hcut.length]
    simp only [List.length_append, List.length_take, List.length_drop] at hle ⊢
    omega

/-! What the length of the result says, where occurrences do not overlap -/

variable [DecidableEq α]

/-- The rest has no less occurrences if the substitute is longer, and no more if it is shorter. -/
theorem occurrences_rest_le (search substitute a : List α) :
    occurrences search a * substitute.length +
        occurrences search ((substitute ++ a).drop search.length) * search.length ≤
      occurrences search ((substitute ++ a).drop search.length) * substitute.length +
        occurrences search a * search.length := by
  rcases Nat.le_total search.length substitute.length with hle | hle
  · rw [List.drop_append_of_le_length hle]
    have hmore := occurrences_le_append search (substitute.drop search.length) a
    obtain ⟨e, he⟩ := Nat.exists_eq_add_of_le hle
    have hmul := Nat.mul_le_mul_right e hmore
    rw [he, Nat.mul_add, Nat.mul_add]
    omega
  · rw [List.drop_append, List.drop_of_length_le hle, List.nil_append]
    obtain ⟨d, hd⟩ := Nat.exists_eq_add_of_le hle
    have hskip : search.length - substitute.length = d := by omega
    have hless := occurrences_le_append search (a.take d) (a.drop d)
    rw [List.take_append_drop] at hless
    have hmul := Nat.mul_le_mul_right d hless
    rw [hskip, hd, Nat.mul_add, Nat.mul_add]
    omega

theorem clear_of_occurrences_rest_le (h : occurrences search ((substitute ++ a).drop search.length) * substitute.length +
        occurrences search a * search.length ≤
      occurrences search a * substitute.length +
        occurrences search ((substitute ++ a).drop search.length) * search.length) :
    Clear search substitute a := by
  rcases Nat.lt_trichotomy search.length substitute.length with hlt | heq | hlt
  · apply clear_of_le hlt.le
    rw [List.drop_append_of_le_length hlt.le] at h
    obtain ⟨e, he⟩ := Nat.exists_eq_add_of_le hlt.le
    rw [he, Nat.mul_add, Nat.mul_add] at h
    rw [noneBegins_iff_occurrences_le]
    apply Nat.le_of_mul_le_mul_right (c := e)
    · rw [surplus]
      omega
    · omega
  · apply clear_of_le heq.le
    rw [surplus, List.drop_of_length_le heq.ge]
    exact noneBegins_nil
  · apply clear_of_ge hlt.le
    obtain ⟨d, hd⟩ := Nat.exists_eq_add_of_le hlt.le
    have hskip : search.length - substitute.length = d := by omega
    rw [List.drop_append, List.drop_of_length_le hlt.le, List.nil_append, hskip, hd, Nat.mul_add, Nat.mul_add] at h
    rw [noneBegins_iff_occurrences_le, List.take_append_drop, hskip]
    apply Nat.le_of_mul_le_mul_right (c := d)
    · omega
    · omega

/-- The result is never shorter than the right one: the loop finds no more occurrences than there are if the
substitute is shorter, no less if it is longer. -/
theorem Rewrites.length_ge (hs : search ≠ []) (hu : Unbordered search) (h : Rewrites search substitute t r) :
    t.length + occurrences search t * substitute.length ≤ r.length + occurrences search t * search.length := by
  induction h with
  | last hnot => rw [occurrences_eq_zero hnot, Nat.zero_mul, Nat.zero_mul]
  | @cut t b a r hcut _ ih =>
    have hparts := congrArg List.length (List.take_append_drop search.length (substitute ++ a))
    have hrest := occurrences_rest_le search substitute a
    rw [hu.occurrences_cut hs hcut, hcut.length]
    simp only [List.length_append, Nat.succ_mul] at hparts ⊢
    omega

theorem clear_of_length (hs : search ≠ []) (hu : Unbordered search) (hcut : Cut search t b a)
    (h : Rewrites search substitute t r)
    (hr : r.length + occurrences search t * search.length ≤ t.length + occurrences search t * substitute.length) :
    Clear search substitute a := by
  obtain ⟨r', hr', rfl⟩ := (rewrites_cut_iff hcut).mp h
  have hge := hr'.length_ge hs hu
  have hparts := congrArg List.length (List.take_append_drop search.length (substitute ++ a))
  rw [hu.occurrences_cut hs hcut, hcut.length] at hr
  simp only [List.length_append, Nat.succ_mul] at hparts hr
  apply clear_of_occurrences_rest_le
  omega

theorem clear_behind (hs : search ≠ []) (hu : Unbordered search) (hbehind : Behind search t a)
    (h : Rewrites search substitute t r)
    (hr : r.length + occurrences search t * search.length ≤ t.length + occurrences search t * substitute.length) :
    Clear search substitute a := by
  induction hbehind generalizing r with
  | here hcut => exact clear_of_length hs hu hcut h hr
  | later hcut _ ih =>
    have hclear := clear_of_length hs hu hcut h hr
    obtain ⟨r', hr', rfl⟩ := (rewrites_clear_iff hcut hclear).mp h
    refine ih hr' ?_
    rw [hu.occurrences_cut hs hcut, hcut.length] at hr
    simp only [List.length_append, Nat.succ_mul] at hr
    omega

theorem replacesAll_of_clear (hs : search ≠ [])
    (hclear : ∀ a, Behind search text a → Clear search substitute a) : ReplacesAll text search substitute :=
  replaceReturns_iff.mpr (rewrites_of_clear (pieces_split hs text) hclear)

theorem clear_of_replacesAll (hs : search ≠ []) (hu : Unbordered search) (h : ReplacesAll text search substitute)
    (hbehind : Behind search text a) : Clear search substitute a := by
  have hpieces := pieces_split hs text
  have hlength := hpieces.length_intercalate substitute
  rw [hu.length_pieces hs hpieces, Nat.add_sub_cancel] at hlength
  exact clear_behind hs hu hbehind (replaceReturns_iff.mp h) hlength.le

/-- **One character is replaced as a string of one.** The overload for characters returns what the loop returns. -/
theorem replaceChar_returns (text : List α) (c d : α) : ReplaceReturns text [c] [d] (replaceChar text c d) := by
  have hjoin {t : List α} {ps : List (List α)} (h : Pieces [c] t ps) : [d].intercalate ps = replaceChar t c d := by
    have hkeep {b : List α} (hb : c ∉ b) : replaceChar b c d = b := by
      rw [replaceChar, List.map_congr_left, List.map_id']
      intro e he
      rw [if_neg]
      rintro rfl
      exact hb he
    induction h with
    | last hnot =>
      rw [List.intercalate_singleton, hkeep fun hmem => hnot ((List.singleton_infix_iff c _).mpr hmem)]
    | cut hcut hps ih =>
      have hb := hkeep (noneBegins_singleton.mp hcut.leftmost)
      rw [replaceChar] at hb
      rw [List.intercalate_cons_of_ne_nil hps.ne_nil, ih, hcut.eq]
      simp [replaceChar, hb]
  have hall : ReplacesAll text [c] [d] := by
    apply replacesAll_of_clear (List.cons_ne_nil c [])
    intro a _
    exact ⟨noneBegins_nil, noneBegins_nil⟩
  rw [ReplacesAll, hjoin (pieces_split (List.cons_ne_nil c []) text)] at hall
  exact hall

/-! Search strings and substitutes that are right in every text -/

instance (search substitute : List α) : Decidable (SurplusClear search substitute) :=
  inferInstanceAs (Decidable (∀ i < (surplus search substitute).length, _))

/-- An occurrence that begins in the surplus, with `v` behind it, is replaced once more. -/
theorem not_replacesAll_of_longer (hs : search ≠ []) (hlt : search.length < substitute.length) {v : List α}
    (hv : ¬ search <:+: v) (hocc : search <:+: surplus search substitute ++ v) :
    ¬ ReplacesAll (search ++ v) search substitute := by
  intro h
  have hcut : Cut search (search ++ v) [] v := ⟨rfl, noneBegins_nil⟩
  have hsplit : split (search ++ v) search = [[], v] := (pieces_split hs _).unique (.cut hcut (.last hv))
  obtain ⟨r, hr, heq⟩ := (rewrites_cut_iff hcut).mp (replaceReturns_iff.mp h)
  rw [List.drop_append_of_le_length hlt.le] at hr
  have hmore := hr.length_lt hlt hocc
  have hlength := congrArg List.length heq
  rw [hsplit] at hlength
  simp at hlength hmore
  omega

theorem not_replacesAll_of_shorter (hs : search ≠ []) (hlt : substitute.length < search.length) :
    ¬ ReplacesAll (search ++ search) search substitute := by
  intro h
  have hcut : Cut search (search ++ search) [] search := ⟨rfl, noneBegins_nil⟩
  have hcut' : Cut search search [] [] := ⟨by simp, noneBegins_nil⟩
  have hnil : ¬ search <:+: [] := by rwa [List.infix_nil]
  have hsplit : split (search ++ search) search = [[], [], []] :=
    (pieces_split hs _).unique (.cut hcut (.cut hcut' (.last hnil)))
  obtain ⟨r, hr, heq⟩ := (rewrites_cut_iff hcut).mp (replaceReturns_iff.mp h)
  have hshort : ¬ search <:+: (substitute ++ search).drop search.length := by
    intro hocc
    have hle := hocc.length_le
    rw [List.length_drop, List.length_append] at hle
    omega
  have hlength := congrArg List.length heq
  have hsame : r = (substitute ++ search).drop search.length := by
    cases hr with
    | last => rfl
    | cut hcut _ => exact absurd hcut.isInfix hshort
  rw [hsplit, hsame] at hlength
  simp at hlength
  omega

/-- **When `replace` joins the split text with the substitute**: in every text if the substitute has the length of
the search string, or a surplus in which no occurrence can begin; in one text if each cut of it is clear, and, if
occurrences do not overlap, only then. -/
theorem replaces_all_iff (search : List α) (hs : search ≠ []) (substitute : List α) :
    ((∀ text, ReplacesAll text search substitute) ↔
        search.length ≤ substitute.length ∧ SurplusClear search substitute) ∧
      (∀ text, (∀ a, Behind search text a → Clear search substitute a) → ReplacesAll text search substitute) ∧
      (Unbordered search → ∀ text,
        (ReplacesAll text search substitute ↔ ∀ a, Behind search text a → Clear search substitute a)) := by
  refine ⟨⟨fun h => ?_, fun h text => ?_⟩, fun text => replacesAll_of_clear hs, fun hu text => ?_⟩
  · have hle : search.length ≤ substitute.length := by
      by_contra hlt
      exact not_replacesAll_of_shorter hs (by omega) (h _)
    refine ⟨hle, fun i hi => ?_⟩
    have hlt : search.length < substitute.length := by
      rw [surplus, List.length_drop] at hi
      omega
    have hlonger (v : List α) (hv : ¬ search <:+: v) : ¬ search <:+: surplus search substitute ++ v :=
      fun hocc => not_replacesAll_of_longer hs hlt hv hocc (h _)
    have hend : (surplus search substitute).drop i <:+ surplus search substitute := List.drop_suffix _ _
    constructor
    · intro hocc
      apply hlonger [] (by rwa [List.infix_nil])
      rw [List.append_nil]
      exact hocc.isInfix.trans hend.isInfix
    · rintro ⟨v, hv⟩
      apply hlonger v
      · intro hocc
        have hlength := hocc.length_le
        rw [← hv, List.length_append, List.length_drop] at hlength
        omega
      · obtain ⟨x, hx⟩ := hend
        rw [← hx, List.append_assoc, hv]
        exact (List.suffix_append _ _).isInfix
  · exact replacesAll_of_clear hs fun a _ => clear_of_surplusClear h.1 h.2 a
  · exact ⟨fun h a => clear_of_replacesAll hs hu h, replacesAll_of_clear hs⟩

theorem replaces_all_colons :
    (∀ text, ReplacesAll text "::".toList "  ".toList) ∧ ReplacesAll "a:b".toList ":".toList "".toList ∧
      (ReplacesAll "a:b".toList ":".toList "".toList ↔
        ∀ a, Behind ":".toList "a:b".toList a → Clear ":".toList "".toList a) := by
  have hclear : ∀ a, Behind ":".toList "a:b".toList a → Clear ":".toList "".toList a := by
    have hcut : Cut ":".toList "a:b".toList "a".toList "b".toList := ⟨rfl, noneBegins_singleton.mpr (by decide)⟩
    have hlast : ¬ ":".toList <:+: "b".toList := by decide
    intro a h
    cases h with
    | here h =>
      obtain ⟨-, rfl⟩ := hcut.unique h
      exact ⟨noneBegins_singleton.mpr (by decide), noneBegins_nil⟩
    | later h hlater =>
      obtain ⟨-, rfl⟩ := hcut.unique h
      cases hlater with
      | here h => exact absurd h.isInfix hlast
      | later h => exact absurd h.isInfix hlast
  exact ⟨(replaces_all_iff "::".toList (by decide) "  ".toList).1.mpr (by decide),
    (replaces_all_iff ":".toList (by decide) "".toList).2.1 _ hclear,
    (replaces_all_iff ":".toList (by decide) "".toList).2.2 (unbordered_singleton ':') _⟩

/-- Where occurrences overlap the loop may look in the wrong place, and the result is right all the same. -/
example : ReplacesAll "aaaaaaaa".toList "aaa".toList "a".toList ∧ ¬ Clear "aaa".toList "a".toList "aaaaa".toList := by
  constructor
  · exact returns_of_run (n := 3) (by decide +kernel)
  · intro h
    exact h.1 0 (by decide) (by decide)

/-- The second `a` is skipped; the `a` put for `ab` makes another `ab` with what follows. -/
theorem replace_misses :
    ¬ ReplacesAll "aa".toList "a".toList "".toList ∧ ¬ ReplacesAll "abb".toList "ab".toList "xya".toList := by
  constructor
  · exact not_replacesAll_of_shorter (by decide) (by decide)
  · exact not_replacesAll_of_longer (by decide) (by decide) (v := "b".toList) (by decide) (by decide)

end Libhbk.Strings
