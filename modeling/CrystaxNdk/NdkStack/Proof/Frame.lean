import CrystaxNdk.Lib.Fields
import CrystaxNdk.NdkStack.Parser

/-!
# Frames that are symbolized

A line of a frame has a word `pc`, `eip` or `ip`, and behind it the address and the path of the
module. When `ParseLine` finds such a word it hands the line on to `ParseFrame`. That looks for the
word again, now from the number of the frame on, takes the two tokens behind it, and calls
`addr2line_main` with the address and with the file in the directory of symbols that has the base
name of the module.

Two things can go wrong. `find_pc` only looks at the first place where each of the words occurs
(`findPc_eq_some_iff`), so that `pc` in front of the frame hides the word of the frame when it is
part of something else there. And `ParseFrame` takes the two tokens for granted: where one is
missing it goes on with a buffer that was never written. What a line needs to be decoded as it
should be (`DecodesRight`) is therefore that the word found in the frame has two tokens behind it;
where no word is found, the line must not have one (`Decodable`).

The lemmas follow the calls: where `find_pc` finds a word, which tokens are behind it, and what
becomes of the line. Long tokens are cut to the sizes of the buffers, which changes nothing as long
as the base name fits (`NameFits`).
-/

namespace CrystaxNdk.NdkStack

open Lib List

variable {line frame str word token start symRoot t1 t2 : List Char} {pos so wrk size : Nat}

/-! ## What a frame is -/

/-- One of the words stands there, with a blank on both sides. -/
structure WordAt (line : List Char) (pos : Nat) (word : List Char) : Prop where
  mem : word ∈ pcstrs
  here : word <+: line.drop pos
  pos_ne : pos ≠ 0
  before : separatorAt line (pos - 1) = true
  behind : separatorAt line (pos + word.length) = true

/-- A word with two more tokens behind it. -/
def FrameWord (line : List Char) (pos : Nat) (t1 t2 : List Char) : Prop :=
  ∃ word rest, WordAt line pos word ∧
    tokens isSeparator (line.drop pos) = word :: t1 :: t2 :: rest

/-- The line is handed on exactly if it has such a word, and then with the address and the module
    behind it. -/
def DecodesRight (symRoot line : List Char) (so : Nat) (result : Option Result) : Prop :=
  ∃ r, result = some r ∧
    (r.symbolized.isSome = true ↔ ∃ pos t1 t2, FrameWord line pos t1 t2) ∧
    ∀ call, r.symbolized = some call → ∃ t1 t2, FrameWord line (so + call.wrk) t1 t2 ∧
      call.pcAddress = t1.take 16 ∧ call.symFile = symRoot ++ '/' :: moduleName t2

/-! ## When it is decoded -/

/-- The line gets to `ParseFrame`, which finds the word at `wrk`. -/
def Reached (line : List Char) (so wrk : Nat) : Prop :=
  strstr line crashDumpHeader = none ∧ findPc line ≠ none ∧ findPc (line.drop so) = some wrk

/-- The base name is not changed by the sizes of the two buffers. -/
def NameFits (symRoot modulePath : List Char) : Prop :=
  symRoot.length + 1 < pathSize ∧
    (moduleName (modulePath.take (pathSize - 1))).take (pathSize - 1 - (symRoot.length + 1)) =
      moduleName modulePath

/-- If `ParseFrame` finds a word, there is an address and a module behind it; and if it is not
    reached or finds none, then there is no frame in the line that could have been decoded. -/
def Decodable (symRoot line : List Char) (so : Nat) : Prop :=
  (∀ wrk, Reached line so wrk → ∃ t1 t2, FrameWord line (so + wrk) t1 t2 ∧ NameFits symRoot t2) ∧
    ((∃ wrk, Reached line so wrk) ∨ ¬∃ pos t1 t2, FrameWord line pos t1 t2)

theorem nameFits_of_length (hpath : t2.length < pathSize)
    (hfile : symRoot.length + 1 + (moduleName t2).length < pathSize) : NameFits symRoot t2 := by
  have htake : t2.take (pathSize - 1) = t2 := take_of_length_le (by omega)
  refine ⟨by omega, ?_⟩
  rw [htake]
  exact take_of_length_le (by omega)

theorem symFileOf_eq_iff :
    symFileOf symRoot (t2.take (pathSize - 1)) = symRoot ++ '/' :: moduleName t2 ↔
      NameFits symRoot t2 := by
  have hcut : symRoot ++ '/' :: moduleName (t2.take (pathSize - 1)) =
      (symRoot ++ ['/']) ++ moduleName (t2.take (pathSize - 1)) := by simp
  have hwhole : symRoot ++ '/' :: moduleName t2 = (symRoot ++ ['/']) ++ moduleName t2 := by simp
  have hlen : (symRoot ++ ['/']).length = symRoot.length + 1 := by simp
  rw [symFileOf, hcut, hwhole, take_append, hlen]
  unfold NameFits
  constructor
  · intro h
    -- the buffer has room for the root, or the two have different lengths
    have hroom : symRoot.length + 1 < pathSize := by
      have := congrArg List.length h
      simp only [length_append, length_take, hlen] at this
      have : 0 < pathSize := by decide
      omega
    rw [take_of_length_le (by omega)] at h
    exact ⟨hroom, append_cancel_left h⟩
  · rintro ⟨hroom, h⟩
    rw [take_of_length_le (by omega), h]

/-! ## Words -/

theorem not_isSeparator_of_mem_pcstrs (h : word ∈ pcstrs) : ∀ c ∈ word, isSeparator c = false := by
  have hall : pcstrs.all (·.all (!isSeparator ·)) = true := by decide
  intro c hc
  simpa using all_eq_true.mp (all_eq_true.mp hall word h) c hc

/-- The text occurs there, and not before. -/
def FirstAt (line word : List Char) (pos : Nat) : Prop :=
  word <+: line.drop pos ∧ ∀ j < pos, ¬ word <+: line.drop j

theorem strstr_eq_some_iff (hword : word ≠ []) :
    strstr line word = some pos ↔ FirstAt line word pos := by
  rw [strstr, findIdx?_eq_some_iff_getElem, FirstAt]
  simp only [getElem_tails, isPrefixOf_iff_prefix, length_tails]
  constructor
  · rintro ⟨-, hfirst⟩
    exact hfirst
  · intro h
    refine ⟨?_, h⟩
    by_contra hlt
    rw [drop_eq_nil_of_le (by omega), prefix_nil] at h
    exact hword h.1

theorem filter_strstr_eq_some_iff (hmem : word ∈ pcstrs) :
    (strstr frame word).filter (isWord frame · word.length) = some wrk ↔
      FirstAt frame word wrk ∧ WordAt frame wrk word := by
  have hne : word ≠ [] := by
    rintro rfl
    exact absurd hmem (by decide)
  rw [Option.filter_eq_some_iff, strstr_eq_some_iff hne, isWord]
  simp only [Bool.and_eq_true, decide_eq_true_eq]
  exact ⟨fun h => ⟨h.1, hmem, h.1.1, h.2.1.1, h.2.1.2, h.2.2⟩,
    fun h => ⟨h.1, ⟨h.2.pos_ne, h.2.before⟩, h.2.behind⟩⟩

/-- `find_pc` finds the first one of the three words that stands with a blank on both sides at its
    first occurrence in the text. -/
theorem findPc_eq_some_iff : findPc frame = some wrk ↔
    ∃ earlier word later, pcstrs = earlier ++ word :: later ∧ FirstAt frame word wrk ∧
      WordAt frame wrk word ∧
      ∀ other ∈ earlier, ∀ pos, FirstAt frame other pos → ¬WordAt frame pos other := by
  rw [findPc, findSome?_eq_some_iff]
  constructor
  · rintro ⟨earlier, word, later, hsplit, hfound, hnone⟩
    have hmem : word ∈ pcstrs := by simp [hsplit]
    obtain ⟨hfirst, hword⟩ := (filter_strstr_eq_some_iff hmem).mp hfound
    refine ⟨earlier, word, later, hsplit, hfirst, hword, fun other hother pos hat hwordAt => ?_⟩
    have hfound := (filter_strstr_eq_some_iff (by simp [hsplit, hother])).mpr ⟨hat, hwordAt⟩
    rw [hnone other hother] at hfound
    cases hfound
  · rintro ⟨earlier, word, later, hsplit, hfirst, hword, hnone⟩
    refine ⟨earlier, word, later, hsplit,
      (filter_strstr_eq_some_iff hword.mem).mpr ⟨hfirst, hword⟩, fun other hother => ?_⟩
    refine Option.eq_none_iff_forall_ne_some.mpr fun pos hpos => ?_
    obtain ⟨hat, hwordAt⟩ := (filter_strstr_eq_some_iff (by simp [hsplit, hother])).mp hpos
    exact hnone other hother pos hat hwordAt

theorem findPc_eq_none_iff : findPc frame = none ↔
    ∀ word ∈ pcstrs, ∀ pos, FirstAt frame word pos → ¬WordAt frame pos word := by
  rw [findPc, findSome?_eq_none_iff]
  refine forall₂_congr fun word hmem => ?_
  rw [Option.eq_none_iff_forall_ne_some]
  exact forall_congr' fun pos => by rw [ne_eq, filter_strstr_eq_some_iff hmem, not_and]

theorem exists_wordAt_of_findPc (h : findPc frame = some wrk) : ∃ word, WordAt frame wrk word := by
  obtain ⟨-, word, -, -, -, hword, -⟩ := findPc_eq_some_iff.mp h
  exact ⟨word, hword⟩

theorem separatorAt_drop (line : List Char) (so pos : Nat) :
    separatorAt (line.drop so) pos = separatorAt line (so + pos) := by
  rw [separatorAt, separatorAt, getElem?_drop]

theorem WordAt.of_drop (h : WordAt (line.drop so) wrk word) : WordAt line (so + wrk) word where
  mem := h.mem
  here := by
    rw [← drop_drop]
    exact h.here
  pos_ne := by
    have := h.pos_ne
    omega
  before := by
    have hpos := h.pos_ne
    have hbefore := h.before
    rw [separatorAt_drop] at hbefore
    rwa [show so + wrk - 1 = so + (wrk - 1) by omega]
  behind := by
    have hbehind := h.behind
    rwa [separatorAt_drop, ← Nat.add_assoc] at hbehind

theorem WordAt.takeWhile_eq (h : WordAt frame wrk word) :
    (frame.drop wrk).takeWhile (!isSeparator ·) = word := by
  obtain ⟨rest, hrest⟩ := h.here
  have hbehind := h.behind
  rw [← separatorAt_drop, ← hrest, separatorAt, getElem?_append_right (Nat.le_refl _),
    Nat.sub_self] at hbehind
  have hnone : ∀ c ∈ word, (!isSeparator c) = true := fun c hc => by
    simp [not_isSeparator_of_mem_pcstrs h.mem c hc]
  rw [← hrest, takeWhile_append_of_pos hnone]
  cases rest with
  | nil => cases hbehind
  | cons c rest =>
    have hc : isSeparator c = true := hbehind
    rw [takeWhile_cons_of_neg (by simp [hc]), append_nil]

theorem WordAt.tokens_eq (h : WordAt frame wrk word) :
    tokens isSeparator (frame.drop wrk) =
      word :: tokens isSeparator (nextSeparator (frame.drop wrk)) := by
  have hne : (frame.drop wrk).takeWhile (!isSeparator ·) ≠ [] := by
    rw [h.takeWhile_eq]
    rintro rfl
    exact absurd h.mem (by decide)
  rw [tokens_eq_cons hne, h.takeWhile_eq]
  rfl

/-! ## Tokens behind the word -/

theorem tokens_of_getNextToken (h : getNextToken str size = some (start, token)) :
    ∃ t, token = t.take (size - 1) ∧
      tokens isSeparator (nextSeparator str) = t :: tokens isSeparator (nextSeparator start) := by
  unfold getNextToken at h
  simp only [Option.ite_none_left_eq_some, Option.some.injEq, Prod.mk.injEq] at h
  obtain ⟨hne, rfl, rfl⟩ := h
  refine ⟨_, rfl, ?_⟩
  rw [← tokens_dropWhile]
  exact tokens_eq_cons hne

theorem tokens_eq_nil_of_getNextToken (h : getNextToken str size = none) :
    tokens isSeparator (nextSeparator str) = [] := by
  unfold getNextToken at h
  simp only [ite_eq_left_iff, reduceCtorEq, imp_false, not_not] at h
  exact tokens_eq_nil h

/-- What `ParseFrame` does with the two tokens behind the word. -/
theorem parseFrame_of_tokens {rest : List (List Char)} (host : Host)
    (hfind : findPc frame = some wrk)
    (htokens : tokens isSeparator (frame.drop wrk) = word :: t1 :: t2 :: rest) :
    parseFrame host symRoot frame = some (openSymbols host frame
      ⟨wrk, t1.take 16, symFileOf symRoot (t2.take (pathSize - 1))⟩) := by
  obtain ⟨w, hw⟩ := exists_wordAt_of_findPc hfind
  rw [hw.tokens_eq] at htokens
  have hbehind := tail_eq_of_cons_eq htokens
  unfold parseFrame
  rw [hfind]
  cases hpc : getNextToken (frame.drop wrk) pcSize with
  | none =>
    rw [tokens_eq_nil_of_getNextToken hpc] at hbehind
    cases hbehind
  | some found =>
    obtain ⟨start, pcAddress⟩ := found
    obtain ⟨t, rfl, ht⟩ := tokens_of_getNextToken hpc
    rw [ht] at hbehind
    cases hpath : getNextToken start pathSize with
    | none =>
      rw [tokens_eq_nil_of_getNextToken hpath] at hbehind
      cases hbehind
    | some found =>
      obtain ⟨start', modulePath⟩ := found
      obtain ⟨t', rfl, ht'⟩ := tokens_of_getNextToken hpath
      rw [ht'] at hbehind
      obtain ⟨rfl, hrest⟩ := List.cons.inj hbehind
      obtain ⟨rfl, -⟩ := List.cons.inj hrest
      simp only [hpc, hpath]
      rfl

/-- Conversely, `ParseFrame` only has a result when the two tokens are there. -/
theorem tokens_of_parseFrame {r : Result} {host : Host} (hfind : findPc frame = some wrk)
    (h : parseFrame host symRoot frame = some r) :
    ∃ word t1 t2 rest, tokens isSeparator (frame.drop wrk) = word :: t1 :: t2 :: rest := by
  obtain ⟨word, hword⟩ := exists_wordAt_of_findPc hfind
  unfold parseFrame at h
  rw [hfind] at h
  cases hpc : getNextToken (frame.drop wrk) pcSize with
  | none => simp [hpc] at h
  | some found =>
    obtain ⟨start, pcAddress⟩ := found
    obtain ⟨t, -, ht⟩ := tokens_of_getNextToken hpc
    cases hpath : getNextToken start pathSize with
    | none => simp [hpc, hpath] at h
    | some found =>
      obtain ⟨start', modulePath⟩ := found
      obtain ⟨t', -, ht'⟩ := tokens_of_getNextToken hpath
      exact ⟨word, t, t', _, by rw [hword.tokens_eq, ht, ht']⟩

/-! ## Lines -/

variable {parser : NdkCrashParser} (host : Host)

def ExpectsFrame (state : State) : Prop := state = .expectsSignalOrFrame ∨ state = .expectsFrame

theorem ne_nil_of_frameHeader (h : matchRegex line frameHeader = some so) : line ≠ [] := by
  rintro rfl
  have hnone : matchRegex [] frameHeader = none := by decide
  rw [hnone] at h
  cases h

/-- Behind the signal, if there is one, the line is taken as a frame. -/
theorem exists_parseFrameLine (hstate : ExpectsFrame parser.state) (hne : line ≠ [])
    (hheader : strstr line crashDumpHeader = none) :
    ∃ state printed, parseLine host parser line =
      parseFrameLine host parser.symRoot state printed line := by
  unfold parseLine
  rw [if_neg hne, if_neg (by simp [hheader])]
  rcases hstate with hstate | hstate <;> rw [hstate]
  · cases matchRegex line sigHeader with
    | none => exact ⟨_, _, rfl⟩
    | some pos => exact ⟨_, _, rfl⟩
  · exact ⟨_, _, rfl⟩

/-- In both states a line with a word gets to `ParseFrame`, which sees it from the number of the
    frame on; what was printed about the signal comes first. -/
theorem parseLine_reached (hstate : ExpectsFrame parser.state)
    (hmatch : matchRegex line frameHeader = some so)
    (hheader : strstr line crashDumpHeader = none) (hfind : findPc line ≠ none) :
    ∃ printed, parseLine host parser line =
      (parseFrame host parser.symRoot (line.drop so)).map fun r =>
        { r with printed := printed ++ r.printed } := by
  obtain ⟨state, printed, heq⟩ :=
    exists_parseFrameLine host hstate (ne_nil_of_frameHeader hmatch) hheader
  refine ⟨printed, heq.trans ?_⟩
  unfold parseFrameLine
  rw [hmatch]
  exact if_neg hfind

/-- A line that begins a dump, and one without a word, are not handed on. -/
theorem parseLine_skipped (hstate : ExpectsFrame parser.state)
    (hmatch : matchRegex line frameHeader = some so)
    (hskip : strstr line crashDumpHeader ≠ none ∨ findPc line = none) :
    ∃ r, parseLine host parser line = some r ∧ r.symbolized = none := by
  by_cases hheader : strstr line crashDumpHeader = none
  · obtain ⟨state, printed, heq⟩ :=
      exists_parseFrameLine host hstate (ne_nil_of_frameHeader hmatch) hheader
    refine ⟨notFound state printed, heq.trans ?_, rfl⟩
    unfold parseFrameLine
    rw [hmatch]
    exact if_pos (hskip.resolve_left (by simp [hheader]))
  · unfold parseLine
    rw [if_neg (ne_nil_of_frameHeader hmatch), if_pos (Option.isSome_iff_ne_none.mpr hheader)]
    exact ⟨_, rfl, rfl⟩

/-- The tokens behind a place are determined by the line. -/
theorem FrameWord.unique {t1' t2' : List Char} (h : FrameWord line pos t1 t2)
    (h' : FrameWord line pos t1' t2') : t1 = t1' ∧ t2 = t2' := by
  obtain ⟨word, rest, -, heq⟩ := h
  obtain ⟨word', rest', -, heq'⟩ := h'
  rw [heq] at heq'
  simp only [List.cons.injEq] at heq'
  exact ⟨heq'.2.1, heq'.2.2.1⟩

/-- Where the line is not handed on, it must not have a word. -/
theorem decodesRight_of_none {r : Result} {result : Option Result} (hresult : result = some r)
    (hnone : r.symbolized = none) :
    DecodesRight symRoot line so result ↔ ¬∃ pos t1 t2, FrameWord line pos t1 t2 := by
  constructor
  · rintro ⟨r', hr', hiff, -⟩
    cases hresult.symm.trans hr'
    rw [← hiff, hnone]
    simp
  · intro hno
    refine ⟨r, hresult, ?_, fun call hcall => ?_⟩
    · simp [hnone, hno]
    · rw [hnone] at hcall
      cases hcall

theorem frameWord_of_tokens {rest : List (List Char)} (hfind : findPc (line.drop so) = some wrk)
    (htokens : tokens isSeparator ((line.drop so).drop wrk) = word :: t1 :: t2 :: rest) :
    FrameWord line (so + wrk) t1 t2 := by
  obtain ⟨w, hw⟩ := exists_wordAt_of_findPc hfind
  have hword : w = word := by
    rw [hw.tokens_eq] at htokens
    exact (List.cons.inj htokens).1
  refine ⟨word, rest, hword ▸ hw.of_drop, ?_⟩
  rw [← drop_drop]
  exact htokens

/-- Nothing is handed on when `ParseFrame` is not reached, or does not find the word. -/
theorem parseLine_of_not_reached (hstate : ExpectsFrame parser.state)
    (hmatch : matchRegex line frameHeader = some so) (hreach : ¬∃ wrk, Reached line so wrk) :
    ∃ r, parseLine host parser line = some r ∧ r.symbolized = none := by
  by_cases hskip : strstr line crashDumpHeader ≠ none ∨ findPc line = none
  · exact parseLine_skipped host hstate hmatch hskip
  · rw [not_or, not_not] at hskip
    obtain ⟨printed, heq⟩ := parseLine_reached host hstate hmatch hskip.1 hskip.2
    cases hfind : findPc (line.drop so) with
    | some wrk => exact absurd ⟨wrk, hskip.1, hskip.2, hfind⟩ hreach
    | none =>
      unfold parseFrame at heq
      rw [hfind] at heq
      exact ⟨_, heq, rfl⟩

/-- The call of `addr2line_main`, when the symbols can be opened. -/
theorem parseLine_of_tokens {rest : List (List Char)} (hopen : ∀ file, host.fopen file = none)
    (hstate : ExpectsFrame parser.state) (hmatch : matchRegex line frameHeader = some so)
    (hreach : Reached line so wrk)
    (htokens : tokens isSeparator ((line.drop so).drop wrk) = word :: t1 :: t2 :: rest) :
    ∃ r, parseLine host parser line = some r ∧ r.symbolized =
      some ⟨wrk, t1.take 16, symFileOf parser.symRoot (t2.take (pathSize - 1))⟩ := by
  obtain ⟨printed, heq⟩ := parseLine_reached host hstate hmatch hreach.1 hreach.2.1
  rw [parseFrame_of_tokens host hreach.2.2 htokens] at heq
  refine ⟨_, heq, ?_⟩
  unfold openSymbols
  rw [hopen]

/-- `ParseLine` decodes a line that matches the frame expression as it should exactly if the word it
    finds in the frame has two tokens behind it, the second with a base name that fits; and, where
    it finds none, the line has no such word. -/
theorem decodesRight_iff (host : Host) (hopen : ∀ file, host.fopen file = none)
    (parser : NdkCrashParser) (hstate : ExpectsFrame parser.state) (line : List Char) (so : Nat)
    (hmatch : matchRegex line frameHeader = some so) :
    DecodesRight parser.symRoot line so (parseLine host parser line) ↔
      Decodable parser.symRoot line so := by
  by_cases hreach : ∃ wrk, Reached line so wrk
  · obtain ⟨wrk, hwrk⟩ := hreach
    have hunique : ∀ wrk', Reached line so wrk' → wrk' = wrk := fun wrk' h =>
      Option.some.inj (h.2.2.symm.trans hwrk.2.2)
    constructor
    · rintro ⟨r, hparse, -, hdata⟩
      have hr := hparse
      -- a result means that the two tokens are there
      obtain ⟨printed, heq⟩ := parseLine_reached host hstate hmatch hwrk.1 hwrk.2.1
      rw [heq, Option.map_eq_some_iff] at hr
      obtain ⟨r', hr', -⟩ := hr
      obtain ⟨word, t1, t2, rest, htokens⟩ := tokens_of_parseFrame hwrk.2.2 hr'
      obtain ⟨s, hs, hcall⟩ := parseLine_of_tokens host hopen hstate hmatch hwrk htokens
      have hsame : s = r := Option.some.inj (hs.symm.trans hparse)
      rw [hsame] at hcall
      -- and what was handed on is what stands behind the word, so the base name was not cut
      obtain ⟨t1', t2', hframe, -, hfile⟩ := hdata _ hcall
      have hfound := frameWord_of_tokens hwrk.2.2 htokens
      obtain ⟨-, rfl⟩ := hframe.unique hfound
      refine ⟨fun wrk' hwrk' => ?_, Or.inl ⟨wrk, hwrk⟩⟩
      rw [hunique wrk' hwrk']
      exact ⟨t1, _, hfound, symFileOf_eq_iff.mp hfile⟩
    · rintro ⟨hword, -⟩
      obtain ⟨t1, t2, hframe, hfits⟩ := hword wrk hwrk
      obtain ⟨word, rest, -, htokens⟩ := id hframe
      rw [← drop_drop] at htokens
      obtain ⟨r, hr, hcall⟩ := parseLine_of_tokens host hopen hstate hmatch hwrk htokens
      refine ⟨r, hr, ?_, fun call h => ?_⟩
      · simp only [hcall, Option.isSome_some, true_iff]
        exact ⟨_, t1, t2, hframe⟩
      · cases hcall.symm.trans h
        exact ⟨t1, t2, hframe, rfl, symFileOf_eq_iff.mpr hfits⟩
  · -- nothing is handed on, which is right for a line without a word, and only for such a line
    obtain ⟨r, hr, hnone⟩ := parseLine_of_not_reached host hstate hmatch hreach
    rw [decodesRight_of_none hr hnone]
    constructor
    · intro hno
      exact ⟨fun wrk hwrk => absurd ⟨wrk, hwrk⟩ hreach, Or.inr hno⟩
    · rintro ⟨-, h⟩
      exact h.resolve_left hreach

def openHost : Host := ⟨fun _ => none, fun _ => [], fun _ _ => ([], some 0)⟩

/-- A line of logcat that `ParseLine` decodes. -/
def strlenLine : List Char := "I/DEBUG( 31): #00 pc 0841e /lib/libc.so".toList

theorem decodesRight_strlenLine : matchRegex strlenLine frameHeader = some 14 ∧
    DecodesRight ['s'] strlenLine 14 (parseLine openHost ⟨['s'], .expectsFrame⟩ strlenLine) := by
  have hmatch : matchRegex strlenLine frameHeader = some 14 := by decide +kernel
  have hfind : findPc (strlenLine.drop 14) = some 4 := by decide +kernel
  have hreach : Reached strlenLine 14 4 := ⟨by decide +kernel, by decide +kernel, hfind⟩
  have htokens : tokens isSeparator ((strlenLine.drop 14).drop 4) =
      [['p', 'c'], "0841e".toList, "/lib/libc.so".toList] := by decide +kernel
  refine ⟨hmatch, (decodesRight_iff openHost (fun _ => rfl) ⟨['s'], .expectsFrame⟩ (Or.inr rfl)
    strlenLine 14 hmatch).mpr ⟨fun wrk hwrk => ?_, Or.inl ⟨4, hreach⟩⟩⟩
  cases hwrk.2.2.symm.trans hfind
  exact ⟨_, _, frameWord_of_tokens hfind htokens,
    nameFits_of_length (by decide) (by decide)⟩

/-- The tag of the log has a `pc` in it, so that the frame is skipped. -/
def pcmLine : List Char := "D/pcm: #00 pc 0841e libc.so".toList

/-- The line ends behind the address. -/
def cutLine : List Char := "#00 pc 0841e".toList

theorem parseLine_pcmLine_cutLine :
    (∃ so, matchRegex pcmLine frameHeader = some so ∧
      ¬DecodesRight ['s'] pcmLine so (parseLine openHost ⟨['s'], .expectsFrame⟩ pcmLine)) ∧
    ∃ so, matchRegex cutLine frameHeader = some so ∧
      ¬DecodesRight ['s'] cutLine so (parseLine openHost ⟨['s'], .expectsFrame⟩ cutLine) := by
  constructor
  · refine ⟨7, by decide +kernel, ?_⟩
    have hskip : parseLine openHost ⟨['s'], .expectsFrame⟩ pcmLine =
        some ⟨.expectsFrame, [], none, some 1⟩ := by decide +kernel
    rw [decodesRight_of_none hskip rfl, not_not]
    refine ⟨11, "0841e".toList, "libc.so".toList, ['p', 'c'], [], ?_, by decide +kernel⟩
    exact ⟨by decide, by decide +kernel, by decide, by decide +kernel, by decide +kernel⟩
  · refine ⟨0, by decide +kernel, ?_⟩
    rintro ⟨r, hr, -⟩
    have hnone : parseLine openHost ⟨['s'], .expectsFrame⟩ cutLine = none := by decide +kernel
    rw [hnone] at hr
    cases hr

end CrystaxNdk.NdkStack
