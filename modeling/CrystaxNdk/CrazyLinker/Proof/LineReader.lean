import CrystaxNdk.CrazyLinker.ProcMaps
import CrystaxNdk.Lib.Fields

/-!
# The lines a `LineReader` gives

Between two calls the reader stands for what is still to come (`rest`): the bytes of the buffer that
were not given yet and those still in the file. A pass of the loop keeps it, however `read` cuts the
file. `grow` keeps it too when the buffer leaves `buff0_`, and when a block grows where it is. A
block that is moved is overwritten with `buff0_`, and with what stands behind `buff0_`.
`nextLine_line` is what one call of `GetNextLine` does; what a sequence of calls does follows by
induction on the lines.
-/

namespace CrystaxNdk.CrazyLinker.LineReader

open Lib List

variable {w : ReaderWorld} {r r' : LineReader}

/-- What is in the buffer and was not given as a line yet. -/
def pending (r : LineReader) : CString :=
  (r.buff.take r.buffSize).drop (r.lineStart + r.lineLen)

def rest (r : LineReader) : CString := r.pending ++ r.input

structure Valid (r : LineReader) : Prop where
  buff0 : r.buff0.length = buff0Size
  cells : r.buff.length = r.buffCapacity
  capacity : ∃ k, r.buffCapacity = buff0Size * 2 ^ k ∧ (r.heap = none ↔ k = 0)
  used : r.lineStart + r.lineLen ≤ r.buffSize
  fits : r.buffSize ≤ r.buffCapacity
  /-- At the end of the file there is room for one more newline. -/
  atEnd : r.eof = true →
    r.input = [] ∧ r.buffSize < r.buffCapacity + (r.lineStart + r.lineLen)

theorem valid_opened (w : ReaderWorld) (content : CString) :
    Valid (opened w (some content)) where
  buff0 := by simp [opened]
  cells := by simp [opened, buff]
  capacity := ⟨0, by simp [opened], by simp [opened]⟩
  used := Nat.le_refl 0
  fits := Nat.zero_le _
  atEnd := by simp [opened]

theorem rest_opened (w : ReaderWorld) (content : CString) :
    (opened w (some content)).rest = content := by
  simp [opened, rest, pending]

theorem Valid.length_pending (h : Valid r) :
    r.pending.length = r.buffSize - (r.lineStart + r.lineLen) := by
  have hfits : r.buffSize ≤ r.buff.length := h.cells ▸ h.fits
  rw [pending, length_drop, length_take, Nat.min_eq_left hfits]

theorem Valid.capacity_pos (h : Valid r) : 0 < r.buffCapacity := by
  obtain ⟨k, hk, -⟩ := h.capacity
  rw [hk]
  exact Nat.mul_pos (by decide) (Nat.two_pow_pos k)

/-! ## Writing to the buffer -/

theorem buff_setBuff (r : LineReader) (cells : CString) : (r.setBuff cells).buff = cells := by
  unfold setBuff
  split
  · rename_i hnone
    simp [buff, Option.isNone_iff_eq_none.mp hnone]
  · simp [buff]

theorem Valid.setBuff (h : Valid r) {cells : CString} (hlen : cells.length = r.buffCapacity)
    {input : CString} {eof : Bool} {start len size : Nat} (hused : start + len ≤ size)
    (hfits : size ≤ r.buffCapacity)
    (hend : eof = true → input = [] ∧ size < r.buffCapacity + (start + len)) :
    Valid { r.setBuff cells with
      input := input, eof := eof, lineStart := start, lineLen := len, buffSize := size } := by
  obtain ⟨k, hk, hheap⟩ := h.capacity
  unfold LineReader.setBuff
  split
  · rename_i hnone
    have hnone := Option.isNone_iff_eq_none.mp hnone
    have hbuff0 : cells.length = buff0Size := by rw [hlen, hk, hheap.mp hnone, pow_zero, mul_one]
    exact ⟨hbuff0, by simpa [buff, hnone] using hlen, ⟨k, hk, hheap⟩, hused, hfits, hend⟩
  · rename_i hsome
    have hsome : r.heap ≠ none := fun hnone => hsome (by rw [hnone]; rfl)
    refine ⟨h.buff0, by simpa [buff] using hlen, ⟨k, hk, ?_⟩, hused, hfits, hend⟩
    simpa using mt hheap.mpr hsome

theorem setBuff_fields (r : LineReader) (cells : CString) :
    (r.setBuff cells).lineStart = r.lineStart ∧ (r.setBuff cells).lineLen = r.lineLen ∧
      (r.setBuff cells).buffSize = r.buffSize ∧
      (r.setBuff cells).buffCapacity = r.buffCapacity := by
  unfold LineReader.setBuff
  split <;> exact ⟨rfl, rfl, rfl, rfl⟩

/-! ## The steps of a pass -/

/-- Eating the start of the buffer moves the pending bytes to its front. -/
theorem Valid.eatStart (h : Valid r) (hlen : r.lineLen = 0) :
    Valid r.eatStart ∧ r.eatStart.lineStart = 0 ∧ r.eatStart.lineLen = 0 ∧
      r.eatStart.pending = r.pending ∧ r.eatStart.buffCapacity = r.buffCapacity := by
  unfold LineReader.eatStart
  split
  · rename_i hstart
    have hpending : (r.buff.take r.buffSize).drop r.lineStart = r.pending := by
      rw [pending, hlen, Nat.add_zero]
    have hlength := h.length_pending
    have hused := h.used
    have hfits := h.fits
    have hcells := h.cells
    rw [hlen, Nat.add_zero] at hlength hused
    obtain ⟨hstart', hlen', hsize', hcapacity'⟩ :=
      setBuff_fields r (blit r.buff 0 ((r.buff.take r.buffSize).drop r.lineStart))
    have hblit : (blit r.buff 0 r.pending).length = r.buffCapacity := by
      rw [length_blit (by omega), hcells]
    rw [hpending] at hlen' hcapacity' ⊢
    refine ⟨h.setBuff hblit (by omega) (by omega) fun heof => ?_, rfl, hlen'.trans hlen, ?_,
      hcapacity'⟩
    · rw [setBuff_eof] at heof
      rw [setBuff_input, hlen', hlen]
      have hend := h.atEnd heof
      exact ⟨hend.1, by omega⟩
    · show ((((r.setBuff (blit r.buff 0 r.pending)).buff).take (r.buffSize - r.lineStart)).drop
        (0 + (r.setBuff (blit r.buff 0 r.pending)).lineLen)) = r.pending
      rw [hlen', hlen, buff_setBuff, take_blit (Nat.zero_le _) (by omega)]
      simp
  · exact ⟨h, by omega, hlen, rfl, rfl⟩

/-- A buffer that is not full stays, one that is grows and keeps what it has, unless it is a block
    that gets moved. -/
theorem Valid.grow (w : ReaderWorld) (h : Valid r) :
    (r.buffSize < r.buffCapacity ∧ r.grow w = some r) ∨
      (r.buffSize = r.buffCapacity ∧ buff0Size < r.buffCapacity ∧
        w.moves r.buffCapacity = true ∧ r.grow w = none) ∨
      (r.buffSize = r.buffCapacity ∧
        (buff0Size < r.buffCapacity → w.moves r.buffCapacity = false) ∧
        ∃ r', r.grow w = some r' ∧ Valid r' ∧ r'.rest = r.rest ∧ r'.lineLen = r.lineLen ∧
          r'.eof = r.eof ∧ r'.buffSize = r.buffSize ∧ r'.buffCapacity = r.buffCapacity * 2) := by
  obtain ⟨k, hk, hheap⟩ := h.capacity
  have hpos := h.capacity_pos
  rcases Nat.lt_or_eq_of_le h.fits with hlt | hfull
  · exact Or.inl ⟨hlt, if_neg hlt.ne⟩
  refine Or.inr ?_
  -- the new cells hold the old ones, copied from `buff0_` or kept by `realloc`
  have key : ∀ cells : CString, cells.length = r.buffCapacity * 2 →
      cells.take r.buffCapacity = r.buff →
      Valid { r with heap := some cells, buffCapacity := r.buffCapacity * 2 } ∧
        ({ r with heap := some cells, buffCapacity := r.buffCapacity * 2 } : LineReader).rest =
          r.rest := by
    intro cells hlen htake
    have hused := h.used
    refine ⟨⟨h.buff0, by simpa [buff] using hlen, ⟨k + 1, by simp [hk, pow_succ, mul_assoc],
      by simp⟩, h.used, ?_, fun heof => ⟨(h.atEnd heof).1, ?_⟩⟩, ?_⟩
    · show r.buffSize ≤ r.buffCapacity * 2
      omega
    · show r.buffSize < r.buffCapacity * 2 + (r.lineStart + r.lineLen)
      omega
    · rw [rest, rest, pending, pending]
      show (cells.take r.buffSize).drop _ ++ r.input = _
      rw [hfull, htake, ← h.cells, take_length]
  cases hblock : r.heap with
  | none =>
    have hinline : r.buffCapacity = buff0Size := by rw [hk, hheap.mp hblock, pow_zero, mul_one]
    have hbuff : r.buff = r.buff0 := by rw [buff, hblock, Option.getD_none]
    refine Or.inr ⟨hfull, fun hlt => absurd hinline hlt.ne', ?_⟩
    have hlen : (r.buff0.take r.buffCapacity).length = r.buffCapacity := by
      rw [length_take, h.buff0, hinline, Nat.min_self]
    obtain ⟨hvalid, hrest⟩ := key (blit ((List.range (r.buffCapacity * 2)).map
        (w.stale r.buffCapacity)) 0 (r.buff0.take r.buffCapacity))
      (by
        rw [length_blit, length_map, length_range]
        simp only [length_map, length_range]
        omega)
      (by
        rw [take_blit (Nat.zero_le _) (by omega), take_zero, nil_append, hbuff, hinline,
          ← h.buff0, take_length])
    refine ⟨_, ?_, hvalid, hrest, rfl, rfl, rfl, rfl⟩
    simp [LineReader.grow, hfull, hblock, hinline]
  | some block =>
    have hk0 : k ≠ 0 := fun hk0 => by simpa [hblock] using hheap.mpr hk0
    have hbuff : r.buff = block := by rw [buff, hblock, Option.getD_some]
    have hlarge : buff0Size < r.buffCapacity := by
      rw [hk]
      exact lt_mul_of_one_lt_right (by decide) (Nat.one_lt_two_pow hk0)
    have hlength : block.length = r.buffCapacity := hbuff ▸ h.cells
    cases hmoves : w.moves r.buffCapacity with
    | true =>
      refine Or.inl ⟨hfull, hlarge, rfl, ?_⟩
      simp [LineReader.grow, hfull, hmoves, hlarge]
    | false =>
      refine Or.inr ⟨hfull, fun _ => rfl, ?_⟩
      obtain ⟨hvalid, hrest⟩ := key (block ++ (List.range (r.buffCapacity * 2 - block.length)).map
          (w.stale r.buffCapacity))
        (by
          simp only [length_append, length_map, length_range]
          omega)
        ((take_left' hlength).trans hbuff.symm)
      refine ⟨_, ?_, hvalid, hrest, rfl, rfl, rfl, rfl⟩
      simp [LineReader.grow, hfull, hmoves, hblock]

theorem Valid.fill (w : ReaderWorld) (h : Valid r) (hroom : r.buffSize < r.buffCapacity) :
    Valid (r.fill w) ∧ (r.fill w).rest = r.rest ∧ (r.fill w).lineLen = r.lineLen ∧
      (r.fill w).buffCapacity = r.buffCapacity := by
  have hused := h.used
  have hcells := h.cells
  unfold LineReader.fill
  simp only
  split
  · rename_i hret
    refine ⟨⟨h.buff0, h.cells, h.capacity, h.used, h.fits, fun _ => ⟨?_, ?_⟩⟩, rfl, rfl, rfl⟩
    · have hinput : r.input.length = 0 := by omega
      exact eq_nil_of_length_eq_zero hinput
    · exact Nat.lt_of_lt_of_le hroom (Nat.le_add_right _ _)
  · rename_i hret
    generalize hn : min (max 1 (w.chunk r.input.length))
      (min (r.buffCapacity - r.buffSize) r.input.length) = n at hret ⊢
    have hlen : (r.input.take n).length = n := by
      rw [length_take]
      omega
    obtain ⟨hstart', hlen', hsize', hcapacity'⟩ :=
      setBuff_fields r (blit r.buff r.buffSize (r.input.take n))
    have hblit : (blit r.buff r.buffSize (r.input.take n)).length = r.buffCapacity := by
      rw [length_blit (by omega), hcells]
    refine ⟨h.setBuff hblit ?_ (by omega) fun heof => ?_, ?_, hlen', hcapacity'⟩
    · rw [hstart', hlen']
      omega
    · rw [setBuff_eof] at heof
      have hinput := (h.atEnd heof).1
      rw [hinput] at hlen
      simp at hlen
      omega
    · rw [rest, rest, pending, pending]
      show (((r.setBuff _).buff.take (r.buffSize + n)).drop ((r.setBuff _).lineStart +
        (r.setBuff _).lineLen)) ++ r.input.drop n = _
      rw [hstart', hlen', buff_setBuff, take_blit (by omega) (by omega),
        drop_append_of_le_length, append_assoc, take_append_drop]
      rw [length_take]
      omega

/-! ## A pass of the loop -/

theorem nextLine_of_findLine (h : r.findLine = some r') : nextLine w r = some (true, r') := by
  rw [nextLine, h]

theorem nextLine_of_eof (h : r.findLine = none) (heof : r.eof = true) :
    nextLine w r = some r.eatStart.lastLine := by
  rw [nextLine, h]
  simp only [heof, dif_pos]

theorem nextLine_of_grow (h : r.findLine = none) (heof : r.eof = false)
    (hgrow : r.eatStart.grow w = some r') : nextLine w r = nextLine w (r'.fill w) := by
  rw [nextLine, h]
  simp only [heof, Bool.false_eq_true, dif_neg, not_false_eq_true]
  split
  · rename_i hnone
    rw [hgrow] at hnone
    cases hnone
  · rename_i grown hsome
    rw [hgrow] at hsome
    cases hsome
    rfl

theorem nextLine_of_moved (h : r.findLine = none) (heof : r.eof = false)
    (hgrow : r.eatStart.grow w = none) : nextLine w r = none := by
  rw [nextLine, h]
  simp only [heof, Bool.false_eq_true, dif_neg, not_false_eq_true]
  split
  · rfl
  · rename_i grown hsome
    rw [hgrow] at hsome
    cases hsome

/-! ## One line -/

/-- Of the blocks from `capacity` on that `length` characters fill, `realloc` moves none. -/
def Stays (w : ReaderWorld) (capacity length : Nat) : Prop :=
  ∀ k, 1 ≤ k → capacity ≤ buff0Size * 2 ^ k → buff0Size * 2 ^ k ≤ length →
    w.moves (buff0Size * 2 ^ k) = false

theorem stays_of_lt {capacity length : Nat} (h : length < capacity) : Stays w capacity length :=
  fun _ _ hge hle => absurd h (Nat.not_lt.mpr (hge.trans hle))

theorem buff0Size_mul_le {j k : Nat} : buff0Size * 2 ^ j ≤ buff0Size * 2 ^ k ↔ j ≤ k := by
  rw [Nat.mul_le_mul_left_iff (by decide), Nat.pow_le_pow_iff_right (by decide)]

/-- The capacities from one on are itself and those from its double on. -/
theorem le_buff0Size_mul_iff {capacity k : Nat} (h : ∃ j, capacity = buff0Size * 2 ^ j) :
    capacity ≤ buff0Size * 2 ^ k ↔
      capacity = buff0Size * 2 ^ k ∨ capacity * 2 ≤ buff0Size * 2 ^ k := by
  obtain ⟨j, rfl⟩ := h
  rw [mul_assoc, ← pow_succ, buff0Size_mul_le, buff0Size_mul_le]
  constructor
  · intro hle
    rcases Nat.eq_or_lt_of_le hle with rfl | hlt
    · exact Or.inl rfl
    · exact Or.inr hlt
  · rintro (heq | hlt)
    · exact buff0Size_mul_le.mp heq.le
    · omega

theorem stays_double {capacity length : Nat} (h : ∃ j, capacity = buff0Size * 2 ^ j)
    (hmoves : buff0Size < capacity → w.moves capacity = false) :
    Stays w (capacity * 2) length ↔ Stays w capacity length := by
  constructor
  · intro hstays k hk hge hle
    rcases (le_buff0Size_mul_iff h).mp hge with rfl | hge'
    · exact hmoves (lt_mul_of_one_lt_right (by decide) (Nat.one_lt_two_pow (by omega)))
    · exact hstays k hk hge' hle
  · intro hstays k hk hge hle
    exact hstays k hk (by omega) hle

/-- The reader after it has given `body` with a newline, with `tail` still to come. It has grown no
    further than `body` made it. -/
structure Gives (r : LineReader) (body tail : CString) (r' : LineReader) : Prop where
  valid : Valid r'
  line : r'.line = body ++ ['\n']
  rest : r'.rest = tail
  room : body.length < r'.buffCapacity
  le : r.buffCapacity ≤ r'.buffCapacity
  grown : ∀ k, r.buffCapacity ≤ buff0Size * 2 ^ k → buff0Size * 2 ^ k < r'.buffCapacity →
    buff0Size * 2 ^ k ≤ body.length

theorem Gives.of_capacity {r₁ : LineReader} {body tail : CString} (h : Gives r₁ body tail r')
    (hcapacity : r₁.buffCapacity = r.buffCapacity) : Gives r body tail r' :=
  ⟨h.valid, h.line, h.rest, h.room, hcapacity ▸ h.le, hcapacity ▸ h.grown⟩

theorem Gives.of_double {r₁ : LineReader} {body tail : CString} (h : Gives r₁ body tail r')
    (hvalid : Valid r) (hcapacity : r₁.buffCapacity = r.buffCapacity * 2)
    (hle : r.buffCapacity ≤ body.length) : Gives r body tail r' := by
  obtain ⟨j, hj, -⟩ := hvalid.capacity
  refine ⟨h.valid, h.line, h.rest, h.room, ?_, fun k hge hlt => ?_⟩
  · exact (Nat.le_mul_of_pos_right _ (by decide)).trans (hcapacity ▸ h.le)
  · rcases (le_buff0Size_mul_iff ⟨j, hj⟩).mp hge with heq | hge'
    · exact heq ▸ hle
    · exact h.grown k (hcapacity ▸ hge') hlt

theorem Valid.findLine (h : Valid r) (hlen : r.lineLen = 0) {body t : CString}
    (hbody : '\n' ∉ body) (hpending : r.pending = body ++ '\n' :: t) :
    ∃ r', r.findLine = some r' ∧ Gives r body (t ++ r.input) r' := by
  have hlength := h.length_pending
  have hfits := h.fits
  have hcells := h.cells
  have hdrop : (r.buff.take r.buffSize).drop r.lineStart = body ++ '\n' :: t := by
    rw [← hpending, pending, hlen, Nat.add_zero]
  rw [hpending, hlen, length_append, length_cons] at hlength
  refine ⟨{ r with lineLen := body.length + 1 }, ?_, ⟨?_, ?_, ?_, ?_, Nat.le_refl _, ?_⟩⟩
  · rw [LineReader.findLine, hdrop, idxOf?_append_cons hbody, Option.map_some]
  · refine ⟨h.buff0, h.cells, h.capacity, ?_, h.fits, fun heof => ⟨(h.atEnd heof).1, ?_⟩⟩
    · show r.lineStart + (body.length + 1) ≤ r.buffSize
      omega
    · have hend := (h.atEnd heof).2
      show r.buffSize < r.buffCapacity + (r.lineStart + (body.length + 1))
      omega
  · show (r.buff.drop r.lineStart).take (body.length + 1) = body ++ ['\n']
    have htake : (r.buff.drop r.lineStart).take (r.buffSize - r.lineStart) = body ++ '\n' :: t := by
      rw [← hdrop, drop_take]
    have hle : body.length + 1 ≤ r.buffSize - r.lineStart := by omega
    rw [← Nat.min_eq_left hle, ← take_take, htake, append_cons]
    exact take_left' (by simp)
  · show (r.buff.take r.buffSize).drop (r.lineStart + (body.length + 1)) ++ r.input = t ++ r.input
    rw [← drop_drop, hdrop, append_cons]
    rw [drop_left' (by simp)]
  · show body.length < r.buffCapacity
    omega
  · exact fun k hge hlt => absurd hlt (Nat.not_lt.mpr hge)

theorem Valid.lastLine (h : Valid r) (hlen : r.lineLen = 0) (hstart : r.lineStart = 0)
    (heof : r.eof = true) (hne : r.pending ≠ []) :
    ∃ r', r.lastLine = (true, r') ∧ Gives r r.pending [] r' := by
  have hlength := h.length_pending
  obtain ⟨hinput, hroom⟩ := h.atEnd heof
  have hcells := h.cells
  rw [hlen, hstart] at hlength hroom
  have hpos := length_pos_iff.mpr hne
  have htake : r.buff.take r.buffSize = r.pending := by
    rw [pending, hlen, hstart, Nat.add_zero, drop_zero]
  have hblit : (blit r.buff r.buffSize ['\n']).length = r.buffCapacity := by
    rw [length_blit, hcells]
    rw [length_singleton]
    omega
  obtain ⟨hstart', -, -, hcapacity'⟩ := setBuff_fields r (blit r.buff r.buffSize ['\n'])
  have hnew : (blit r.buff r.buffSize ['\n']).take (r.buffSize + 1) = r.pending ++ ['\n'] := by
    have hle : r.buffSize ≤ r.buff.length := by omega
    rw [take_blit hle (by simp), htake]
  refine ⟨_, if_pos ⟨by omega, by omega⟩, ⟨?_, ?_, ?_, ?_, ?_, ?_⟩⟩
  · refine h.setBuff hblit ?_ (by omega) fun _ => ⟨?_, ?_⟩
    · rw [hstart', hstart, Nat.zero_add]
    · rw [setBuff_input, hinput]
    · omega
  · show ((r.setBuff _).buff.drop (r.setBuff _).lineStart).take (r.buffSize + 1) = _
    rw [buff_setBuff, hstart', hstart, drop_zero, hnew]
  · show ((r.setBuff _).buff.take (r.buffSize + 1)).drop ((r.setBuff _).lineStart +
      (r.buffSize + 1)) ++ (r.setBuff _).input = []
    rw [buff_setBuff, hnew, hstart', hstart, setBuff_input, hinput, append_nil]
    refine drop_eq_nil_of_le ?_
    rw [length_append, length_singleton]
    omega
  · show r.pending.length < (r.setBuff _).buffCapacity
    rw [hcapacity']
    omega
  · exact hcapacity'.ge
  · intro k hge hlt
    exact absurd hlt (Nat.not_lt.mpr (hcapacity'.le.trans hge))

/-- What follows the body of a line: its newline, or the end of a file that has none there. -/
inductive Ending (body : CString) : CString → CString → Prop
  | newline (tail : CString) : Ending body ('\n' :: tail) tail
  | missing : body ≠ [] → Ending body [] []

theorem Ending.of_append {body ending tail p input : CString} (h : Ending body ending tail)
    (heq : p ++ input = body ++ ending) (hp : '\n' ∉ p) :
    ∃ more, body = p ++ more ∧ input = more ++ ending := by
  rcases append_eq_append_iff.mp heq with ⟨more, hbody, hinput⟩ | ⟨more, rfl, hending⟩
  · exact ⟨more, hbody, hinput⟩
  · cases h with
    | missing =>
      obtain ⟨rfl, rfl⟩ := nil_eq_append_iff.mp hending
      exact ⟨[], by simp, rfl⟩
    | newline tail =>
      cases more with
      | nil => exact ⟨[], by simp, hending.symm⟩
      | cons c more =>
        rw [cons_append, List.cons.injEq] at hending
        exact absurd (by simp [← hending.1]) hp

theorem Ending.of_append_cons {body ending tail b t input : CString} (h : Ending body ending tail)
    (hbody : '\n' ∉ body) (hb : '\n' ∉ b) (heq : (b ++ '\n' :: t) ++ input = body ++ ending) :
    body = b ∧ tail = t ++ input := by
  rw [append_assoc, cons_append] at heq
  cases h with
  | missing =>
    rw [append_nil] at heq
    exact absurd (by simp [← heq]) hbody
  | newline tail =>
    have hlength : some b.length = some body.length := by
      rw [← idxOf?_append_cons hb (t ++ input), heq, idxOf?_append_cons hbody]
    obtain ⟨rfl, hcons⟩ := append_inj heq (Option.some.inj hlength)
    exact ⟨rfl, (List.cons.inj hcons).2.symm⟩

theorem Valid.length_pending_le (h : Valid r) : r.pending.length ≤ r.buffCapacity := by
  have hlength := h.length_pending
  have hfits := h.fits
  omega

theorem findLine_eq_none (hlen : r.lineLen = 0) (h : '\n' ∉ r.pending) :
    r.findLine = none := by
  rw [pending, hlen, Nat.add_zero] at h
  rw [LineReader.findLine, Option.map_eq_none_iff, idxOf?_eq_none_iff]
  exact h

/-- The loop gives the next line, if no block is moved on the way to it, and else reads past the end
    of `buff0_`. -/
theorem nextLine_line {body ending tail : CString} (hending : Ending body ending tail)
    (hbody : '\n' ∉ body) (h : Valid r) (hlen : r.lineLen = 0) (hrest : r.rest = body ++ ending) :
    (Stays w r.buffCapacity body.length →
      ∃ r', nextLine w r = some (true, r') ∧ Gives r body tail r') ∧
    (¬ Stays w r.buffCapacity body.length → nextLine w r = none) := by
  -- by induction on what is ahead: each pass of the loop reads something or comes to the end
  induction hn : r.ahead using Nat.strong_induction_on generalizing r with
  | _ n ih =>
    subst hn
    have hle := h.length_pending_le
    by_cases hmem : '\n' ∈ r.pending
    · obtain ⟨b, t, hpending, hb⟩ := eq_append_cons_of_mem hmem
      rw [rest, hpending] at hrest
      obtain ⟨rfl, rfl⟩ := hending.of_append_cons hbody hb hrest
      obtain ⟨r', hfind, hgives⟩ := h.findLine hlen hb hpending
      refine ⟨fun _ => ⟨r', nextLine_of_findLine hfind, hgives⟩, fun hstays => ?_⟩
      rw [hpending, length_append, length_cons] at hle
      exact absurd (stays_of_lt (by omega)) hstays
    -- no newline in the buffer: what is there is the beginning of the line
    have hfind := findLine_eq_none hlen hmem
    obtain ⟨more, hsplit, hinput⟩ := hending.of_append hrest hmem
    obtain ⟨heat, hstart0, hlen0, hpending0, hcapacity0⟩ := h.eatStart hlen
    have hrest0 : r.eatStart.rest = r.rest := by rw [rest, rest, hpending0, eatStart_input]
    have hlength0 := heat.length_pending
    rw [hstart0, hlen0, hpending0] at hlength0
    have hpendingle : r.pending.length ≤ body.length := by
      rw [hsplit, length_append]
      omega
    cases heof : r.eof with
    | true =>
      obtain ⟨rfl, rfl⟩ := append_eq_nil_iff.mp (hinput.symm.trans (h.atEnd heof).1)
      rw [append_nil] at hsplit
      subst hsplit
      cases hending with
      | missing hne =>
        obtain ⟨r', hlast, hgives⟩ := heat.lastLine hlen0 hstart0 ((eatStart_eof r).trans heof)
          (hpending0 ▸ hne)
        rw [hpending0] at hgives
        refine ⟨fun _ => ⟨r', ?_, hgives.of_capacity hcapacity0⟩, fun hstays => ?_⟩
        · rw [nextLine_of_eof hfind heof, hlast]
        · have hroom := (heat.atEnd ((eatStart_eof r).trans heof)).2
          exact absurd (stays_of_lt (by omega)) hstays
    | false =>
      rcases heat.grow w with ⟨hlt, hgrow⟩ | ⟨hfull, hlarge, hmoves, hgrow⟩ |
        ⟨hfull, hmoves, grown, hgrow, hvalid, hrest1, hlen1, heof1, hsize1, hcapacity1⟩
      · obtain ⟨hvalid, hrest1, hlen1, hcapacity1⟩ := heat.fill w hlt
        have hpass := ih _ (pass_ahead heof hgrow) hvalid (hlen1.trans hlen0)
          ((hrest1.trans hrest0).trans hrest) rfl
        rw [hcapacity1, hcapacity0] at hpass
        rw [nextLine_of_grow hfind heof hgrow]
        refine ⟨fun hstays => ?_, hpass.2⟩
        obtain ⟨r', hnext, hgives⟩ := hpass.1 hstays
        exact ⟨r', hnext, hgives.of_capacity (hcapacity1.trans hcapacity0)⟩
      · -- `realloc` moves a block, and what it is overwritten with is not in `buff0_`
        rw [hcapacity0] at hfull hlarge hmoves
        refine ⟨fun hstays => ?_, fun _ => nextLine_of_moved hfind heof hgrow⟩
        obtain ⟨k, hk, -⟩ := h.capacity
        have hk0 : k ≠ 0 := by
          rintro rfl
          rw [hk, pow_zero, mul_one] at hlarge
          exact absurd hlarge (Nat.lt_irrefl _)
        have hfilled : r.buffCapacity ≤ body.length := by omega
        have hstay := hstays k (by omega) hk.le (hk.ge.trans hfilled)
        rw [← hk, hmoves] at hstay
        cases hstay
      · -- the buffer is full and grows; what is to be given stays the same
        rw [hcapacity0] at hfull hmoves hcapacity1
        have hpos := h.capacity_pos
        obtain ⟨hvalid2, hrest2, hlen2, hcapacity2⟩ := hvalid.fill w (by omega)
        have hpass := ih _ (pass_ahead heof hgrow) hvalid2 (hlen2.trans (hlen1.trans hlen0))
          ((hrest2.trans (hrest1.trans hrest0)).trans hrest) rfl
        obtain ⟨k, hk, -⟩ := h.capacity
        rw [hcapacity2, hcapacity1, stays_double ⟨k, hk⟩ hmoves] at hpass
        rw [nextLine_of_grow hfind heof hgrow]
        refine ⟨fun hstays => ?_, hpass.2⟩
        obtain ⟨r', hnext, hgives⟩ := hpass.1 hstays
        exact ⟨r', hnext, hgives.of_double h (hcapacity2.trans hcapacity1) (by omega)⟩

theorem nextLine_end (h : Valid r) (hlen : r.lineLen = 0) (hrest : r.rest = []) :
    ∃ r', nextLine w r = some (false, r') := by
  induction hn : r.ahead using Nat.strong_induction_on generalizing r with
  | _ n ih =>
    subst hn
    obtain ⟨hpending, hinput⟩ := append_eq_nil_iff.mp hrest
    have hfind := findLine_eq_none hlen (by rw [hpending]; exact not_mem_nil)
    obtain ⟨heat, hstart0, hlen0, hpending0, hcapacity0⟩ := h.eatStart hlen
    have hlength0 := heat.length_pending
    rw [hstart0, hlen0, hpending0, hpending] at hlength0
    have hsize : r.eatStart.buffSize = 0 := by simpa using hlength0.symm
    cases heof : r.eof with
    | true =>
      refine ⟨r.eatStart, ?_⟩
      rw [nextLine_of_eof hfind heof, lastLine, if_neg (by omega)]
    | false =>
      have hroom : r.eatStart.buffSize < r.eatStart.buffCapacity := hsize ▸ heat.capacity_pos
      have hgrow : r.eatStart.grow w = some r.eatStart := if_neg hroom.ne
      obtain ⟨hvalid, hrest1, hlen1, -⟩ := heat.fill w hroom
      rw [nextLine_of_grow hfind heof hgrow]
      refine ih _ (pass_ahead heof hgrow) hvalid (hlen1.trans hlen0) ?_ rfl
      rw [hrest1, rest, hpending0, hpending, eatStart_input, hinput, append_nil]

/-!
## All lines

The buffer grows only when it is full with the beginning of one line, and it has to hold a whole
line with its newline. So it depends on the longest lines, and on nothing else, which blocks grow,
and the lines come out right unless `realloc` moves one of these blocks.
-/

variable {w : ReaderWorld} {r r' : LineReader}

/-- The text has so many characters in a row without a newline. -/
def HasRun (content : CString) (length : Nat) : Prop :=
  ∃ run, run <:+: content ∧ '\n' ∉ run ∧ length ≤ run.length

/-- No block from `capacity` on that the text fills is moved. -/
def AllStay (w : ReaderWorld) (capacity : Nat) (content : CString) : Prop :=
  ∀ k, 1 ≤ k → capacity ≤ buff0Size * 2 ^ k → HasRun content (buff0Size * 2 ^ k) →
    w.moves (buff0Size * 2 ^ k) = false

def terminated (content : CString) : CString :=
  if content = [] ∨ content.getLast? = some '\n' then content else content ++ ['\n']

/-- The lines end with their only newline and make up the text. -/
structure LinesOf (content : CString) (lines : List CString) : Prop where
  newline : ∀ l ∈ lines, ∃ body, '\n' ∉ body ∧ l = body ++ ['\n']
  flatten : lines.flatten = terminated content

variable {body tail : CString}

theorem infix_of_not_mem {run : CString} (h : run <:+: body ++ '\n' :: tail) (hrun : '\n' ∉ run) :
    run <:+: body ∨ run <:+: tail := by
  induction body with
  | nil =>
    rcases infix_cons_iff.mp h with hbegins | hinfix
    · cases run with
      | nil => exact Or.inl (infix_refl [])
      | cons c run =>
        rw [cons_prefix_cons] at hbegins
        exact absurd (by simp [hbegins.1]) hrun
    · exact Or.inr hinfix
  | cons c body ih =>
    rw [cons_append] at h
    rcases infix_cons_iff.mp h with hbegins | hinfix
    · rw [← cons_append] at hbegins
      rcases prefix_append_cases hbegins with ⟨hshort, -⟩ | ⟨more, rfl, hmore⟩
      · exact Or.inl hshort.isInfix
      · cases more with
        | nil => exact Or.inl (by simp)
        | cons d more =>
          rw [cons_prefix_cons] at hmore
          exact absurd (by simp [hmore.1]) hrun
    · rcases ih hinfix with hbody | htail
      · exact Or.inl (hbody.trans (suffix_cons c body).isInfix)
      · exact Or.inr htail

variable {ending : CString}

/-- The runs of a text are those of its first line and those of the rest. -/
theorem Ending.hasRun_iff (h : Ending body ending tail) (hbody : '\n' ∉ body) {n : Nat} :
    HasRun (body ++ ending) n ↔ n ≤ body.length ∨ HasRun tail n := by
  constructor
  · rintro ⟨run, hinfix, hrun, hle⟩
    cases h with
    | newline tail =>
      rcases infix_of_not_mem hinfix hrun with hinfix | hinfix
      · exact Or.inl (hle.trans hinfix.length_le)
      · exact Or.inr ⟨run, hinfix, hrun, hle⟩
    | missing =>
      rw [append_nil] at hinfix
      exact Or.inl (hle.trans hinfix.length_le)
  · rintro (hle | ⟨run, hinfix, hrun, hle⟩)
    · exact ⟨body, infix_append [] body ending, hbody, hle⟩
    · refine ⟨run, hinfix.trans ?_, hrun, hle⟩
      cases h with
      | newline tail => exact ((suffix_cons _ _).trans (suffix_append _ _)).isInfix
      | missing => exact nil_infix

theorem terminated_append_cons (body tail : CString) :
    terminated (body ++ '\n' :: tail) = body ++ '\n' :: terminated tail := by
  cases tail with
  | nil => simp [terminated]
  | cons c tail =>
    have hlast : (body ++ '\n' :: c :: tail).getLast? = (c :: tail).getLast? := by
      rw [getLast?_append, getLast?_cons_cons]
      simp [getLast?_cons]
    rw [terminated, terminated, hlast]
    by_cases hnl : (c :: tail).getLast? = some '\n'
    · rw [if_pos (Or.inr hnl), if_pos (Or.inr hnl)]
    · rw [if_neg (by simp [hnl]), if_neg (by simp [hnl]), append_assoc, cons_append]

theorem Ending.linesOf (h : Ending body ending tail) (hbody : '\n' ∉ body) {lines : List CString}
    (hlines : LinesOf tail lines) :
    LinesOf (body ++ ending) ((body ++ ['\n']) :: lines) := by
  refine ⟨?_, ?_⟩
  · intro l hl
    rcases mem_cons.mp hl with rfl | hl
    · exact ⟨body, hbody, rfl⟩
    · exact hlines.newline l hl
  · rw [flatten_cons, hlines.flatten]
    cases h with
    | newline tail => rw [terminated_append_cons, append_assoc, singleton_append]
    | missing hne =>
      have hlast : body.getLast? ≠ some '\n' := fun hlast => hbody (mem_of_getLast? hlast)
      simp [terminated, hne, hlast]

theorem Ending.length_lt (h : Ending body ending tail) :
    tail.length < (body ++ ending).length := by
  rw [length_append]
  cases h with
  | newline tail =>
    rw [length_cons]
    omega
  | missing hne =>
    have hpos := length_pos_iff.mpr hne
    rw [length_nil]
    omega

theorem exists_ending {content : CString} (h : content ≠ []) :
    ∃ body ending tail, Ending body ending tail ∧ '\n' ∉ body ∧ content = body ++ ending := by
  by_cases hmem : '\n' ∈ content
  · obtain ⟨body, tail, heq, hbody⟩ := eq_append_cons_of_mem hmem
    exact ⟨body, _, tail, .newline tail, hbody, heq⟩
  · exact ⟨content, [], [], .missing h, hmem, (append_nil _).symm⟩

/-- What the rest of the text asks of `realloc` once its first line was given. -/
theorem Gives.allStay_iff (h : Gives r body tail r') (hending : Ending body ending tail)
    (hbody : '\n' ∉ body) (hstays : Stays w r.buffCapacity body.length) :
    AllStay w r.buffCapacity (body ++ ending) ↔ AllStay w r'.buffCapacity tail := by
  constructor
  · intro hall k hk hge hrun
    exact hall k hk (h.le.trans hge) ((hending.hasRun_iff hbody).mpr (Or.inr hrun))
  · intro hall k hk hge hrun
    rcases (hending.hasRun_iff hbody).mp hrun with hle | hrun
    · exact hstays k hk hge hle
    · rcases lt_or_ge (buff0Size * 2 ^ k) r'.buffCapacity with hlt | hge'
      · exact hstays k hk hge (h.grown k hge hlt)
      · exact hall k hk hge' hrun

theorem Valid.eatLine (h : Valid r) :
    Valid { r with lineStart := r.lineStart + r.lineLen, lineLen := 0 } where
  buff0 := h.buff0
  cells := h.cells
  capacity := h.capacity
  used := h.used
  fits := h.fits
  atEnd := h.atEnd

/-- The lines of successive calls are those of the text, if no block is moved that the text fills,
    and else a call reads past the end of `buff0_`. -/
theorem linesRead_spec (w : ReaderWorld) (h : Valid r) :
    (AllStay w r.buffCapacity r.rest →
      ∃ lines, LinesOf r.rest lines ∧
        ∀ calls, r.rest.length < calls → linesRead w calls r = some lines) ∧
    (¬ AllStay w r.buffCapacity r.rest →
      ∀ calls, r.rest.length < calls → linesRead w calls r = none) := by
  -- by induction on what is left: one call takes a line away from it
  induction hn : r.rest.length using Nat.strong_induction_on generalizing r with
  | _ n ih =>
    subst hn
    by_cases hnil : r.rest = []
    · rw [hnil]
      obtain ⟨r', hnext⟩ := nextLine_end (w := w) h.eatLine rfl hnil
      refine ⟨fun _ => ⟨[], ⟨by simp, by simp [terminated]⟩, fun calls hcalls => ?_⟩, ?_⟩
      · obtain ⟨more, rfl⟩ := Nat.exists_eq_add_of_lt hcalls
        rw [linesRead, getNextLine, hnext]
      · refine fun hall => absurd (fun k hk _ hrun => ?_) hall
        obtain ⟨run, hinfix, -, hle⟩ := hrun
        have hpos := Nat.mul_pos (show 0 < buff0Size by decide) (Nat.two_pow_pos k)
        rw [infix_nil.mp hinfix, length_nil] at hle
        omega
    · obtain ⟨body, ending, tail, hending, hbody, hrest⟩ := exists_ending hnil
      have hline := nextLine_line (w := w) hending hbody h.eatLine rfl hrest
      rw [hrest]
      by_cases hstays : Stays w r.buffCapacity body.length
      · obtain ⟨r', hnext, hgives⟩ := hline.1 hstays
        have hgives : Gives r body tail r' := hgives.of_capacity rfl
        have hrun := ih _ (by rw [hgives.rest, hrest]; exact hending.length_lt) hgives.valid rfl
        rw [hgives.rest, ← hgives.allStay_iff hending hbody hstays] at hrun
        have hstep : ∀ calls, (body ++ ending).length < calls →
            ∃ calls', tail.length < calls' ∧
              linesRead w calls r = (linesRead w calls' r').map ((body ++ ['\n']) :: ·) := by
          intro calls hcalls
          obtain ⟨more, rfl⟩ := Nat.exists_eq_add_of_lt hcalls
          have hlt := hending.length_lt
          refine ⟨(body ++ ending).length + more, by omega, ?_⟩
          rw [linesRead, getNextLine, hnext]
          show (linesRead w ((body ++ ending).length + more) r').map (r'.line :: ·) = _
          rw [hgives.line]
        refine ⟨fun hall => ?_, fun hall calls hcalls => ?_⟩
        · obtain ⟨lines, hlines, hcall⟩ := hrun.1 hall
          refine ⟨_, hending.linesOf hbody hlines, fun calls hcalls => ?_⟩
          obtain ⟨calls', hcalls', hread⟩ := hstep calls hcalls
          rw [hread, hcall calls' hcalls', Option.map_some]
        · obtain ⟨calls', hcalls', hread⟩ := hstep calls hcalls
          rw [hread, hrun.2 hall calls' hcalls', Option.map_none]
      · refine ⟨fun hall => absurd (fun k hk hge hle => ?_) hstays, fun _ calls hcalls => ?_⟩
        · exact hall k hk hge ((hending.hasRun_iff hbody).mpr (Or.inl hle))
        · obtain ⟨more, rfl⟩ := Nat.exists_eq_add_of_lt hcalls
          rw [linesRead, getNextLine, hline.2 hstays]

/-- On a file with this text, successive calls of `GetNextLine` give the lines of the text, and then
    there are no more. -/
def ReadsLines (w : ReaderWorld) (content : CString) : Prop :=
  ∃ lines, LinesOf content lines ∧
    ∃ enough, ∀ calls, enough ≤ calls → linesRead w calls (opened w (some content)) = some lines

theorem readsLines_iff_allStay (w : ReaderWorld) (content : CString) :
    ReadsLines w content ↔ AllStay w buff0Size content := by
  have hspec := linesRead_spec w (valid_opened w content)
  rw [rest_opened] at hspec
  constructor
  · rintro ⟨lines, -, enough, hread⟩
    by_contra hall
    have hnone := hspec.2 hall (max enough (content.length + 1)) (by omega)
    rw [hread _ (Nat.le_max_left _ _)] at hnone
    cases hnone
  · intro hall
    obtain ⟨lines, hlines, hread⟩ := hspec.1 hall
    exact ⟨lines, hlines, content.length + 1, hread⟩

/-- The lines are read whatever the chunks are, if and only if `realloc` leaves every block where it
    is that so many characters in a row without a newline fill. -/
theorem readsLines_iff (w : ReaderWorld) (content : CString) :
    ReadsLines w content ↔
      ∀ k, 1 ≤ k → HasRun content (buff0Size * 2 ^ k) → w.moves (buff0Size * 2 ^ k) = false := by
  rw [readsLines_iff_allStay]
  constructor
  · exact fun hall k hk hrun => hall k hk (Nat.le_mul_of_pos_right _ (Nat.two_pow_pos k)) hrun
  · exact fun hall k hk _ hrun => hall k hk hrun

/-- A line of 256 characters, and a `realloc` that moves the block of 256 bytes. -/
theorem not_readsLines_of_moved :
    ¬ ReadsLines ⟨fun left => left, fun _ => true, fun _ _ => '\x00'⟩ (List.replicate 256 'a') := by
  rw [readsLines_iff_allStay]
  intro hall
  have hrun : HasRun (List.replicate 256 'a') (buff0Size * 2 ^ 1) :=
    ⟨_, infix_refl _, fun hmem => absurd (eq_of_mem_replicate hmem) (by decide),
      length_replicate.ge⟩
  exact Bool.noConfusion (hall 1 (Nat.le_refl 1) (by decide) hrun)

end CrystaxNdk.CrazyLinker.LineReader
