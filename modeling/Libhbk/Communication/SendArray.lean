import Libhbk.Communication.SendBlocks

/-!
# What sending leaves of the array

`sendBlocks` moves on in the array of its caller: where the kernel stops inside a block, the block is advanced
in place, and nothing puts it back. The array is the same afterwards exactly if the kernel stopped at the
border of a block each time.
-/

namespace Libhbk

open Machine

variable {β : Type} {mem : Nat → β} {blocks : List DataBlock}

/-! ### Positions in an array -/

theorem stream_append (mem : Nat → β) (blocks blocks' : List DataBlock) :
    stream mem (blocks ++ blocks') = stream mem blocks ++ stream mem blocks' :=
  List.flatMap_append

theorem length_stream_take_drop (mem : Nat → β) (blocks : List DataBlock) (k : Nat) :
    (stream mem (blocks.take k)).length + (stream mem (blocks.drop k)).length = (stream mem blocks).length := by
  rw [← List.length_append, ← stream_append, List.take_append_drop]

theorem length_stream_take_succ {k : Nat} {a : DataBlock} (ha : blocks[k]? = some a) :
    (stream mem (blocks.take (k + 1))).length = (stream mem (blocks.take k)).length + a.size := by
  rw [List.take_add_one, ha, stream_append, List.length_append]
  congr 1
  rw [Option.toList_some, stream_cons, List.length_append, a.length_bytes]
  rfl

theorem length_stream_take_mono (mem : Nat → β) (blocks : List DataBlock) {j k : Nat} (h : j ≤ k) :
    (stream mem (blocks.take j)).length ≤ (stream mem (blocks.take k)).length := by
  have hsplit := length_stream_take_drop mem (blocks.take k) j
  rw [List.take_take, Nat.min_eq_left h] at hsplit
  omega

theorem length_stream_set {k : Nat} {a : DataBlock} (ha : blocks[k]? = some a) (b : DataBlock) :
    (stream mem (blocks.set k b)).length + a.size = (stream mem blocks).length + b.size := by
  induction blocks generalizing k with
  | nil => exact nomatch ha
  | cons c blocks ih =>
    cases k with
    | zero =>
      obtain rfl := Option.some.inj ha
      rw [List.set_cons_zero, stream_cons, stream_cons, List.length_append, List.length_append, b.length_bytes,
        c.length_bytes]
      omega
    | succ k =>
      have hset := ih (k := k) ha
      rw [List.set_cons_succ, stream_cons, stream_cons, List.length_append, List.length_append]
      omega

/-- `n` bytes are the first blocks of the array, without a part of another. -/
def AtBorder (mem : Nat → β) (blocks : List DataBlock) (n : Nat) : Prop :=
  ∃ k, n = (stream mem (blocks.take k)).length

theorem atBorder_iff {k r : Nat} {a : DataBlock} (ha : blocks[k]? = some a) (hr : r < a.size) :
    AtBorder mem blocks ((stream mem (blocks.take k)).length + r) ↔ r = 0 := by
  constructor
  · rintro ⟨j, hj⟩
    rcases Nat.lt_or_ge k j with hlt | hle
    · have hmono := length_stream_take_mono mem blocks (show k + 1 ≤ j from hlt)
      rw [length_stream_take_succ ha] at hmono
      omega
    · have hmono := length_stream_take_mono mem blocks hle
      omega
  · rintro rfl
    exact ⟨k, rfl⟩

theorem reorganize_eq (mem : Nat → β) {off k : Nat} {b : DataBlock} (h : reorganize off blocks = some (k, b)) :
    ∃ a r, blocks[k]? = some a ∧ off = (stream mem (blocks.take k)).length + r ∧ r < a.size ∧
      b = ⟨a.pData + r, a.size - r⟩ := by
  induction blocks generalizing off k with
  | nil => exact nomatch h
  | cons c blocks ih =>
    rw [reorganize] at h
    split at h
    · next hsize =>
      obtain ⟨⟨k', b'⟩, hk', ⟨⟩⟩ := Option.map_eq_some_iff.mp h
      obtain ⟨a, r, ha, hoff, hr, hb⟩ := ih hk'
      refine ⟨a, r, ha, ?_, hr, hb⟩
      rw [List.take_succ_cons, stream_cons, List.length_append, c.length_bytes]
      change off = c.size + (stream mem (blocks.take k')).length + r
      omega
    · next hsize =>
      obtain ⟨rfl, rfl⟩ := Prod.mk.inj (Option.some.inj h)
      exact ⟨c, off, rfl, (Nat.zero_add _).symm, by omega, rfl⟩

/-! ### The array during the run -/

namespace SendBlocks

variable {s s' : SendBlocks β}

/-- Every number of bytes the kernel took ended at the border of a block. -/
def StopsAtBorders (mem : Nat → β) (blocks : List DataBlock) (tr : List (SendBlocks β × Act)) : Prop :=
  ∀ x ∈ tr, ∀ n, x.2 = .sendmsg (.count n) → AtBorder mem blocks (x.1.accepted.length + n)

/-- The array as it was as long as the kernel stops at borders, and a shorter one from then on. -/
structure Spent (mem : Nat → β) (blocks : List DataBlock) (tr : List (SendBlocks β × Act)) (s : SendBlocks β) :
    Prop where
  same : StopsAtBorders mem blocks tr → s.blocks = blocks
  shorter : ¬ StopsAtBorders mem blocks tr → (stream mem s.blocks).length < (stream mem blocks).length

theorem stopsAtBorders_cons {tr : List (SendBlocks β × Act)} {a : Act} :
    StopsAtBorders mem blocks ((s, a) :: tr) ↔
      (∀ n, a = .sendmsg (.count n) → AtBorder mem blocks (s.accepted.length + n)) ∧ StopsAtBorders mem blocks tr :=
  List.forall_mem_cons

theorem Spent.le {tr : List (SendBlocks β × Act)} (h : Spent mem blocks tr s) :
    (stream mem s.blocks).length ≤ (stream mem blocks).length := by
  by_cases hb : StopsAtBorders mem blocks tr
  · rw [h.same hb]
  · exact Nat.le_of_lt (h.shorter hb)

/-- A step that leaves the array alone, if it does not stop inside a block of the array as it was. -/
theorem Spent.keep {tr : List (SendBlocks β × Act)} {a : Act} (h : Spent mem blocks tr s)
    (hblocks : s'.blocks = s.blocks)
    (hborder : s.blocks = blocks → ∀ n, a = .sendmsg (.count n) → AtBorder mem blocks (s.accepted.length + n)) :
    Spent mem blocks ((s, a) :: tr) s' := by
  constructor
  · intro hb
    rw [hblocks, h.same (stopsAtBorders_cons.mp hb).2]
  · intro hb
    rw [hblocks]
    by_cases htr : StopsAtBorders mem blocks tr
    · exact absurd (stopsAtBorders_cons.mpr ⟨hborder (h.same htr), htr⟩) hb
    · exact h.shorter htr

/-- As long as the array is the same, what was accepted are the blocks up to the present one. -/
theorem Sending.length_accepted (hs : Sending mem blocks 0 s) (hblocks : s.blocks = blocks) :
    s.accepted.length = (stream mem (blocks.take s.pBlockPos)).length := by
  have htaken := congrArg List.length hs.taken
  have hsplit := length_stream_take_drop mem blocks s.pBlockPos
  rw [List.length_append, List.drop_zero, hblocks] at htaken
  omega

/-- What `written` does to the array: nothing, or it advances the block in which the kernel stopped. -/
theorem written_blocks (htotal : (stream mem blocks).length < 2 ^ 63) (hcount : blocks.length < 2 ^ 64) {n : Nat}
    (hs : Sending mem blocks n s) :
    ∃ k r, n = (stream mem ((s.blocks.drop s.pBlockPos).take k)).length + r ∧
      (r = 0 ∧ (s.written n).blocks = s.blocks ∨
        ∃ a, s.blocks[s.pBlockPos + k]? = some a ∧ 0 < r ∧ r < a.size ∧
          (s.written n).blocks = s.blocks.set (s.pBlockPos + k) ⟨a.pData + r, a.size - r⟩) := by
  rcases written_cases htotal hcount hs with ⟨hdone, hw⟩ | ⟨_, k, b, hreorg, _, _, hw⟩
  · rw [hw]
    refine ⟨(s.blocks.drop s.pBlockPos).length, 0, ?_, Or.inl ⟨rfl, rfl⟩⟩
    rw [List.take_length, ← hs.remaining, hdone]
    rfl
  · rw [hw]
    obtain ⟨a, r, ha, hoff, hr, rfl⟩ := reorganize_eq mem hreorg
    rw [List.getElem?_drop] at ha
    refine ⟨k, r, hoff, ?_⟩
    rcases Nat.eq_zero_or_pos r with rfl | hpos
    · refine Or.inl ⟨rfl, ?_⟩
      obtain ⟨hk, rfl⟩ := List.getElem?_eq_some_iff.mp ha
      exact List.set_getElem_self hk
    · exact Or.inr ⟨a, ha, hpos, hr, rfl⟩

/-- **Step rule.** -/
theorem step_spent (htotal : (stream mem blocks).length < 2 ^ 63) (hcount : blocks.length < 2 ^ 64) {a : Act}
    {tr : List (SendBlocks β × Act)} (hinv : Inv mem blocks s) (h : Spent mem blocks tr s)
    (hstep : step mem s a = some s') : Spent mem blocks ((s, a) :: tr) s' := by
  rcases a with ⟨n | again⟩ | ⟨err, intr⟩
  · -- `sendmsg` takes `n` bytes
    simp only [step, Option.ite_none_right_eq_some] at hstep
    obtain ⟨⟨hpc, hn⟩, hstep⟩ := hstep
    have hs := hinv.sending (Or.inl hpc)
    rw [hs.iov_eq] at hn hstep
    split at hstep
    · next hzero =>
      obtain rfl := Option.some.inj hstep
      subst hzero
      refine h.keep rfl ?_
      rintro hblocks _ ⟨⟩
      exact ⟨_, hs.length_accepted hblocks⟩
    · obtain rfl := Option.some.inj hstep
      obtain ⟨k, r, hoff, hcase⟩ := written_blocks htotal hcount (hs.take hn)
      have hpos (hblocks : s.blocks = blocks) :
          s.accepted.length + n = (stream mem (blocks.take (s.pBlockPos + k))).length + r := by
        rw [hs.length_accepted hblocks, hoff, ← Nat.add_assoc, ← List.length_append, ← stream_append, hblocks,
          List.take_add]
      rcases hcase with ⟨rfl, hsame⟩ | ⟨b, hb, hr, hlt, hset⟩
      · refine h.keep hsame ?_
        rintro hblocks _ ⟨⟩
        exact ⟨_, hpos hblocks⟩
      · constructor
        · intro hstops
          obtain ⟨hborder, htr⟩ := stopsAtBorders_cons.mp hstops
          have hblocks := h.same htr
          have hmem := hborder n rfl
          rw [hpos hblocks] at hmem
          have hzero := (atBorder_iff (hblocks ▸ hb) hlt).mp hmem
          omega
        · intro _
          have hle := h.le
          have hlen : (stream mem (s.blocks.set (s.pBlockPos + k) ⟨b.pData + r, b.size - r⟩)).length + b.size =
              (stream mem s.blocks).length + (b.size - r) := length_stream_set hb _
          rw [hset]
          change (stream mem (s.blocks.set (s.pBlockPos + k) _)).length < _
          omega
  · -- `sendmsg` fails
    simp only [step, Option.ite_none_right_eq_some] at hstep
    obtain ⟨hpc, hstep⟩ := hstep
    obtain rfl := Option.some.inj hstep
    refine h.keep ?_ (by rintro _ _ ⟨⟩)
    split
    · obtain ⟨k, r, hoff, hcase⟩ := written_blocks htotal hcount (hinv.sending (Or.inl hpc))
      rcases hcase with ⟨_, hsame⟩ | ⟨_, _, hr, _⟩
      · exact hsame
      · omega
    · rfl
  · -- waiting for the socket to become writable
    refine h.keep ?_ (by rintro _ _ ⟨⟩)
    simp only [step, Option.ite_none_right_eq_some] at hstep
    obtain ⟨_, hstep⟩ := hstep
    split_ifs at hstep <;> obtain rfl := Option.some.inj hstep <;> rfl

/-- **Sending leaves the array alone.** At any point of any run the array is the one that was passed exactly if
every number of bytes the kernel took ended at the border of a block. -/
theorem array_unchanged_iff (mem : Nat → β) (blocks : List DataBlock) (more : Bool)
    (htotal : (stream mem blocks).length < 2 ^ 63) (hcount : blocks.length < 2 ^ 64)
    {tr : List (SendBlocks β × Act)} (h : (step mem).Run (start blocks more) tr s) :
    s.blocks = blocks ↔ StopsAtBorders mem blocks tr := by
  have hstart : Spent mem blocks [] (start blocks more : SendBlocks β) :=
    ⟨fun _ => rfl, fun hb => absurd (fun _ hx => nomatch hx) hb⟩
  have hrun : Inv mem blocks s ∧ Spent mem blocks tr s := by
    refine h.trace_induction (P := fun tr s => Inv mem blocks s ∧ Spent mem blocks tr s)
      ⟨start_inv more htotal, hstart⟩ ?_
    intro tr s a s' _ hs hstep
    exact ⟨step_inv htotal hcount hs.1 hstep, step_spent htotal hcount hs.1 hs.2 hstep⟩
  refine ⟨fun hsame => ?_, hrun.2.same⟩
  by_contra hb
  have hshorter := hrun.2.shorter hb
  rw [hsame] at hshorter
  exact Nat.lt_irrefl _ hshorter

/-- The kernel stops behind the second of three blocks. -/
theorem array_unchanged_border :
    let blocks : List DataBlock := [⟨10, 2⟩, ⟨20, 3⟩, ⟨30, 1⟩]
    ∃ tr s, (step (fun n => n)).Run (start blocks false) tr s ∧ s.pc = .returned 6 ∧ s.blocks = blocks := by
  let blocks : List DataBlock := [⟨10, 2⟩, ⟨20, 3⟩, ⟨30, 1⟩]
  let moved (pc : Pc) : SendBlocks Nat := ⟨blocks, 1, msgNoSignal, 6, 1, 2, pc, [10, 11, 20, 21, 22]⟩
  have h : (step (fun n => n)).Run (start blocks false)
      [(moved .sendmsg, .sendmsg (.count 1)), (moved .poll, .poll 1 false), (start blocks false, .sendmsg (.count 5))]
      ⟨blocks, 1, msgNoSignal, 6, 0, 2, .returned 6, [10, 11, 20, 21, 22, 30]⟩ :=
    run_of_exec _ _ [.sendmsg (.count 5), .poll 1 false, .sendmsg (.count 1)] (by decide +kernel)
  refine ⟨_, _, h, rfl, ?_⟩
  refine (array_unchanged_iff (fun n => n) blocks false (by decide) (by decide) h).mpr ?_
  simp only [stopsAtBorders_cons]
  refine ⟨?_, ?_, ?_, fun _ hx => nomatch hx⟩
  · rintro n ⟨⟩
    exact ⟨3, rfl⟩
  · exact fun _ he => nomatch he
  · rintro n ⟨⟩
    exact ⟨2, rfl⟩

/-- The kernel stops in the middle of the only block: the array describes the second half afterwards. -/
theorem partial_write_consumes :
    ¬ ∀ (mem : Nat → Nat) (blocks : List DataBlock) (more : Bool) (tr : List (SendBlocks Nat × Act))
      (s : SendBlocks Nat) (r : Int), (step mem).Run (start blocks more) tr s → s.pc = .returned r →
      s.blocks = blocks := by
  intro h
  obtain ⟨tr, hrun⟩ := exists_run_of_exec (step (fun n => n)) (start [⟨10, 2⟩] false)
    [.sendmsg (.count 1), .poll 1 false, .sendmsg (.count 1)]
    ⟨[⟨11, 1⟩], 1, msgNoSignal, 2, 0, 0, .returned 2, [10, 11]⟩ (by decide +kernel)
  have hsame := h _ _ _ _ _ 2 hrun rfl
  exact absurd hsame (by decide)

end SendBlocks

end Libhbk
