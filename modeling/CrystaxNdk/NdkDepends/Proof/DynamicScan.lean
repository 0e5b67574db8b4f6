import CrystaxNdk.NdkDepends.BuildGraph

/-!
# The scan of the dynamic section

A dynamic section holds as many entries as fit into it. `GetNext` does not count the first entry it
answers with: the size it compares is the one before that entry was taken, so it goes on for one
entry more, which lies behind the section. Only a section too small for any entry is scanned as it
is.

The names of the needed libraries are those of the section followed by the one of the entry behind
it, if that happens to be a `DT_NEEDED` one.
-/

namespace CrystaxNdk.NdkDepends.Reader

open Lib List

/-! ## What is in the file -/

structure Entry where
  pos : Nat
  tag : Nat
  value : Nat
deriving DecidableEq, Repr

variable (reader : Reader) (c : ElfClass)

/-- The dynamic section: where it is, and its size. -/
def dynamicSection : Nat × Nat := reader.getSectionOffsetByType c shtDynamic

/-- The string table that the dynamic section is linked to. -/
def dynamicStrings : Nat × Nat :=
  reader.getSectionOffsetByIndex c (reader.getDynamicStringTableIndex c)

def entryAt (pos : Nat) : Entry :=
  { pos := pos
    tag := reader.decode (reader.slice pos c.offBytes)
    value := reader.decode (reader.slice (pos + c.offBytes) c.offBytes) }

def entryCount : Nat := (reader.dynamicSection c).2 / c.entrySize

def entries : List Entry :=
  (List.range (reader.entryCount c)).map fun i =>
    reader.entryAt c ((reader.dynamicSection c).1 + i * c.entrySize)

/-- The string at an index of the string table, which ends with a NUL or with the table. -/
def stringAt (index : Nat) : List Char :=
  let table := reader.slice (reader.dynamicStrings c).1 (reader.dynamicStrings c).2
  ((table.drop index).takeWhile (· ≠ 0)).map fun byte => Char.ofNat byte.toNat

def entryNeeds (entry : Entry) : Option String :=
  if entry.tag = dtNeeded ∧ reader.stringAt c entry.value ≠ [] then
    some (String.ofList (reader.stringAt c entry.value))
  else none

/-- A part of the file that offsets of the class and the host reach. -/
structure Reaches (part : Nat × Nat) : Prop where
  inFile : part.1 + part.2 ≤ reader.file.length
  inRange : part.1 + part.2 ≤ c.offRange
  inHost : part.1 + part.2 ≤ 2 ^ 63

/-- The dynamic section and its string table are in bounds. -/
structure InBounds : Prop where
  dynamic : reader.Reaches c (reader.dynamicSection c)
  strings : reader.Reaches c (reader.dynamicStrings c)
  index : reader.getDynamicStringTableIndex c ≠ 0
  offset : (reader.dynamicStrings c).1 ≠ 0

def entryOf (iter : DynamicIterator) : Entry :=
  { pos := iter.dynOffset
    tag := reader.getTag c iter
    value := reader.getValue c iter }

/-- `DynamicIterator` visits the entries of the section, in order. -/
def VisitsEntries : Prop :=
  ∃ rounds, ∀ fuel ≥ rounds,
    (visits c fuel (reader.dynamicIterator c)).map (·.map (reader.entryOf c)) =
      some (reader.entries c)

/-- `GetNeededLibs` returns the names the entries of the section ask for, in order. -/
def FindsNeededLibs : Prop :=
  ∃ rounds, ∀ fuel ≥ rounds,
    reader.getNeededLibs c fuel = some ((reader.entries c).filterMap (reader.entryNeeds c))

/-! ## The iterator -/

variable {reader c}

theorem offBytes_pos : 0 < c.offBytes := by cases c <;> decide

theorem entrySize_pos : 0 < c.entrySize := Nat.mul_pos (by decide) offBytes_pos

def advanced (c : ElfClass) (offset size i : Nat) : DynamicIterator :=
  { dynOffset := (offset + i * c.entrySize) % c.offRange
    dynSize := size - i * c.entrySize
    started := true }

theorem getNext_advanced {offset size i : Nat} :
    getNext c (advanced c offset size i) =
      if size / c.entrySize ≤ i then none else some (advanced c offset size (i + 1)) := by
  have hiff : size - i * c.entrySize < c.entrySize ↔ size / c.entrySize ≤ i := by
    rw [← Nat.lt_succ_iff, Nat.div_lt_iff_lt_mul entrySize_pos, Nat.succ_mul]
    have := entrySize_pos (c := c)
    omega
  have hoffset : ((offset + i * c.entrySize) % c.offRange + c.entrySize) % c.offRange =
      (offset + (i + 1) * c.entrySize) % c.offRange := by
    rw [Nat.mod_add_mod, Nat.succ_mul, Nat.add_assoc]
  have hsize : size - i * c.entrySize - c.entrySize = size - (i + 1) * c.entrySize := by
    rw [Nat.succ_mul, Nat.sub_add_eq]
  simp [getNext, advanced, hiff, hoffset, hsize]

/-- From `i` entries on, the loop runs up to the count inclusively. -/
theorem visits_advanced {offset size fuel n i : Nat} (hn : n + i = size / c.entrySize)
    (hfuel : n < fuel) :
    visits c fuel (advanced c offset size i) =
      some ((List.range' (i + 1) n).map (advanced c offset size)) := by
  induction n generalizing i fuel with
  | zero =>
    obtain ⟨fuel, rfl⟩ := Nat.exists_eq_succ_of_ne_zero (Nat.ne_of_gt hfuel)
    rw [visits, getNext_advanced, if_pos (by omega)]
    rfl
  | succ n ih =>
    obtain ⟨fuel, rfl⟩ := Nat.exists_eq_succ_of_ne_zero (Nat.ne_zero_of_lt hfuel)
    rw [visits, getNext_advanced, if_neg (by omega)]
    dsimp only
    rw [ih (by omega) (by omega)]
    rfl

theorem getOffAt_lt (pos : Nat) : reader.getOffAt c pos < c.offRange := by
  have hbytes (size : Nat) : getUintAt size reader pos < 256 ^ size := by
    unfold getUintAt getBytesAt
    split_ifs with h
    · have hlt := ofLittleEndian_lt
        (if reader.bigEndian then (reader.slice pos size).reverse else reader.slice pos size)
      have hlength : (if reader.bigEndian then (reader.slice pos size).reverse
          else reader.slice pos size).length = size := by
        have hslice : (reader.slice pos size).length = size := by
          rw [slice, length_take, length_drop]
          omega
        split
        · rw [length_reverse, hslice]
        · exact hslice
      rw [hlength] at hlt
      exact hlt
    · exact Nat.pow_pos (by decide)
  cases c with
  | elf32 => exact hbytes 4
  | elf64 => exact hbytes 8

theorem dynamicSection_lt :
    (reader.dynamicSection c).1 < c.offRange ∧ (reader.dynamicSection c).2 < c.offRange := by
  unfold dynamicSection getSectionOffsetByType
  cases reader.shdrByType c shtDynamic with
  | none => exact ⟨Nat.pow_pos (by decide), Nat.pow_pos (by decide)⟩
  | some shdr => exact ⟨getOffAt_lt _, getOffAt_lt _⟩

/-- What the loop over the dynamic section runs with. -/
def visited (reader : Reader) (c : ElfClass) : List DynamicIterator :=
  if (reader.dynamicSection c).2 < c.entrySize then []
  else (List.range (reader.entryCount c + 1)).map
    (advanced c (reader.dynamicSection c).1 (reader.dynamicSection c).2)

/-- The loop ends, after one entry more than the section has. -/
theorem visits_dynamicIterator {fuel : Nat} (hfuel : reader.entryCount c + 1 < fuel) :
    visits c fuel (reader.dynamicIterator c) = some (reader.visited c) := by
  obtain ⟨fuel, rfl⟩ := Nat.exists_eq_succ_of_ne_zero (Nat.ne_zero_of_lt hfuel)
  unfold visited
  split_ifs with hsmall
  · have hnext : getNext c (reader.dynamicIterator c) = none := by
      simp only [dynamicSection] at hsmall
      simp [getNext, dynamicIterator, hsmall]
    rw [visits, hnext]
  · have hnext : getNext c (reader.dynamicIterator c) =
        some (advanced c (reader.dynamicSection c).1 (reader.dynamicSection c).2 0) := by
      have hmod : (reader.dynamicSection c).1 % c.offRange = (reader.dynamicSection c).1 :=
        Nat.mod_eq_of_lt dynamicSection_lt.1
      simp only [dynamicSection] at hsmall hmod
      simp [getNext, dynamicIterator, advanced, dynamicSection, hsmall, hmod]
    rw [visits, hnext]
    dsimp only
    rw [visits_advanced (Nat.add_zero _) (by unfold entryCount at hfuel; omega),
      range_succ_eq_map, range'_eq_map_range]
    simp [entryCount, Nat.add_comm]

/-! ## Reading in bounds -/

theorem getBytesAt_eq {pos size : Nat} (hsize : 0 < size) (hbuffer : size < 32)
    (h : reader.Reaches c (pos, size)) :
    reader.getBytesAt pos size = some (reader.slice pos size) := by
  have hhost := h.inHost
  have hfile := h.inFile
  dsimp only at hhost hfile
  exact if_pos ⟨hbuffer, by omega, hfile⟩

theorem getOffAt_eq {pos : Nat} (h : reader.Reaches c (pos, c.offBytes)) :
    reader.getOffAt c pos = reader.decode (reader.slice pos c.offBytes) := by
  have hbytes := getBytesAt_eq offBytes_pos (by cases c <;> decide) h
  cases c with
  | elf32 => exact congrArg (fun bytes => (bytes.map reader.decode).getD 0) hbytes
  | elf64 => exact congrArg (fun bytes => (bytes.map reader.decode).getD 0) hbytes

theorem Reaches.sub {whole part : Nat × Nat} (h : reader.Reaches c whole)
    (hle : part.1 + part.2 ≤ whole.1 + whole.2) : reader.Reaches c part :=
  ⟨hle.trans h.inFile, hle.trans h.inRange, hle.trans h.inHost⟩

/-- The loop over a string, by induction on what is left of the table. -/
theorem readString_eq {size pos : Nat} (h : reader.Reaches c (pos, size)) :
    reader.readString c size pos =
      ((reader.slice pos size).takeWhile (· ≠ 0)).map fun byte => Char.ofNat byte.toNat := by
  induction size generalizing pos with
  | zero => simp [readString, slice]
  | succ size ih =>
    have hfile : pos < reader.file.length := by
      have := h.inFile
      dsimp only at this
      omega
    have hdrop : reader.file.drop pos = reader.file[pos] :: reader.file.drop (pos + 1) :=
      drop_eq_getElem_cons hfile
    have hone : reader.getBytesAt pos 1 = some [reader.file[pos]] := by
      rw [getBytesAt_eq (by decide) (by decide) (h.sub (by dsimp only; omega)), slice, hdrop]
      rfl
    have hslice : reader.slice pos (size + 1) =
        reader.file[pos] :: reader.slice (pos + 1) size := by
      rw [slice, hdrop, take_succ_cons]
      rfl
    rw [readString, hone, hslice, takeWhile_cons]
    dsimp only
    by_cases hzero : reader.file[pos] = 0
    · simp [hzero]
    · rw [if_neg hzero, if_pos (by simpa using hzero), map_cons]
      congr 1
      -- the last increment may wrap around, but nothing is read behind it
      rcases Nat.eq_zero_or_pos size with rfl | hpos
      · simp [readString, slice]
      · have hrange := h.inRange
        dsimp only at hrange
        rw [Nat.mod_eq_of_lt (by omega)]
        exact ih (h.sub (by dsimp only; omega))

theorem getStringByIndex_eq (h : reader.InBounds c) (index : Nat) :
    reader.getStringByIndex c index (reader.getDynamicStringTableIndex c) =
      reader.stringAt c index := by
  have htable := h.strings
  have hoffset := h.offset
  unfold getStringByIndex stringAt
  rw [if_pos h.index]
  dsimp only
  change (if (reader.dynamicStrings c).1 ≠ 0 ∧ index < (reader.dynamicStrings c).2 then
    reader.readString c ((reader.dynamicStrings c).2 - index)
      (((reader.dynamicStrings c).1 + index) % c.offRange) else []) = _
  generalize reader.dynamicStrings c = table at htable hoffset ⊢
  have hdrop : (reader.slice table.1 table.2).drop index =
      reader.slice (table.1 + index) (table.2 - index) := by
    rw [slice, slice, drop_take, drop_drop]
  rw [hdrop]
  by_cases hlt : index < table.2
  · have hrange := htable.inRange
    rw [if_pos ⟨hoffset, hlt⟩, Nat.mod_eq_of_lt (by omega)]
    exact readString_eq (htable.sub (by dsimp only; omega))
  · rw [if_neg (fun hand => hlt hand.2), Nat.sub_eq_zero_of_le (not_lt.mp hlt)]
    simp [slice]

/-- What the body of the loop appends is what the entry it stands at asks for. -/
theorem neededLib_eq (h : reader.InBounds c) (iter : DynamicIterator) :
    reader.neededLib c (reader.getDynamicStringTableIndex c) iter =
      reader.entryNeeds c (reader.entryOf c iter) := by
  unfold neededLib entryNeeds entryOf
  rw [getStringByIndex_eq h]
  dsimp only
  by_cases htag : reader.getTag c iter = dtNeeded
  · simp only [htag, true_and, if_true]
  · simp only [htag, false_and, if_false]

theorem entryOf_advanced (h : reader.InBounds c) {i : Nat} (hi : i < reader.entryCount c) :
    reader.entryOf c
        (advanced c (reader.dynamicSection c).1 (reader.dynamicSection c).2 i) =
      reader.entryAt c ((reader.dynamicSection c).1 + i * c.entrySize) := by
  have hdyn := h.dynamic
  unfold entryCount at hi
  generalize reader.dynamicSection c = dyn at hdyn hi ⊢
  have hend : i * c.entrySize + c.entrySize ≤ dyn.2 := by
    rw [← Nat.succ_mul]
    exact (Nat.mul_le_mul_right _ hi).trans (Nat.div_mul_le_self _ _)
  have hrange := hdyn.inRange
  have hbytes := offBytes_pos (c := c)
  have hentry : c.entrySize = 2 * c.offBytes := rfl
  have hpos : (dyn.1 + i * c.entrySize) % c.offRange = dyn.1 + i * c.entrySize :=
    Nat.mod_eq_of_lt (by omega)
  have hvalue : (dyn.1 + i * c.entrySize + c.offBytes) % c.offRange =
      dyn.1 + i * c.entrySize + c.offBytes := Nat.mod_eq_of_lt (by omega)
  unfold entryOf entryAt getTag getValue advanced
  dsimp only
  rw [hpos, hvalue, getOffAt_eq (hdyn.sub (by dsimp only; omega)),
    getOffAt_eq (hdyn.sub (by dsimp only; omega))]

/-! ## The scan -/

def behind (reader : Reader) (c : ElfClass) : DynamicIterator :=
  advanced c (reader.dynamicSection c).1 (reader.dynamicSection c).2 (reader.entryCount c)

/-- What a whole scan finds: the names of the section, and that of the entry behind it. -/
theorem filterMap_visited (h : reader.InBounds c)
    (hsize : c.entrySize ≤ (reader.dynamicSection c).2) :
    (reader.visited c).filterMap (reader.neededLib c (reader.getDynamicStringTableIndex c)) =
      (reader.entries c).filterMap (reader.entryNeeds c) ++
        (reader.neededLib c (reader.getDynamicStringTableIndex c) (reader.behind c)).toList := by
  unfold visited
  rw [if_neg (not_lt.mpr hsize), range_succ, map_append, filterMap_append]
  refine congrArg₂ (· ++ ·) ?_ rfl
  unfold entries
  rw [filterMap_map, filterMap_map]
  apply filterMap_congr
  intro i hi
  simp only [Function.comp_apply]
  rw [neededLib_eq h, entryOf_advanced h (mem_range.mp hi)]

theorem entries_eq_nil (hsmall : (reader.dynamicSection c).2 < c.entrySize) :
    reader.entries c = [] := by
  rw [entries, entryCount, Nat.div_eq_of_lt hsmall]
  rfl

theorem visitsEntries_iff :
    reader.VisitsEntries c ↔ (reader.dynamicSection c).2 < c.entrySize := by
  constructor
  · intro h
    obtain ⟨rounds, hrounds⟩ := h
    have hvisits := hrounds (rounds + reader.entryCount c + 2) (by omega)
    rw [visits_dynamicIterator (by omega), Option.map_some, Option.some_inj] at hvisits
    by_contra hsize
    -- one more is visited than there are
    have hlength := congrArg List.length hvisits
    simp [visited, hsize, entries] at hlength
  · intro hsmall
    refine ⟨reader.entryCount c + 2, fun fuel hfuel => ?_⟩
    rw [visits_dynamicIterator (by omega), visited, if_pos hsmall, entries_eq_nil hsmall]
    rfl

theorem findsNeededLibs_iff_visited :
    reader.FindsNeededLibs c ↔
      (reader.visited c).filterMap (reader.neededLib c (reader.getDynamicStringTableIndex c)) =
        (reader.entries c).filterMap (reader.entryNeeds c) := by
  have hlibs (fuel : Nat) (hfuel : reader.entryCount c + 1 < fuel) : reader.getNeededLibs c fuel =
      some ((reader.visited c).filterMap
        (reader.neededLib c (reader.getDynamicStringTableIndex c))) := by
    rw [getNeededLibs, visits_dynamicIterator hfuel, Option.map_some]
  constructor
  · intro h
    obtain ⟨rounds, hrounds⟩ := h
    have hfound := hrounds (rounds + reader.entryCount c + 2) (by omega)
    rwa [hlibs _ (by omega), Option.some_inj] at hfound
  · intro h
    refine ⟨reader.entryCount c + 2, fun fuel hfuel => ?_⟩
    rw [hlibs fuel (by omega), h]

theorem findsNeededLibs_of_small (hsmall : (reader.dynamicSection c).2 < c.entrySize) :
    reader.FindsNeededLibs c := by
  rw [findsNeededLibs_iff_visited, visited, if_pos hsmall, entries_eq_nil hsmall]
  rfl

theorem findsNeededLibs_iff (h : reader.InBounds c) :
    reader.FindsNeededLibs c ↔ (reader.dynamicSection c).2 < c.entrySize ∨
      reader.neededLib c (reader.getDynamicStringTableIndex c) (reader.behind c) = none := by
  rcases lt_or_ge (reader.dynamicSection c).2 c.entrySize with hsmall | hsize
  · exact iff_of_true (findsNeededLibs_of_small hsmall) (Or.inl hsmall)
  · rw [findsNeededLibs_iff_visited, filterMap_visited h hsize, append_right_eq_self,
      Option.toList_eq_nil_iff, or_iff_right (not_lt.mpr hsize)]

/-- The scan is that of the section exactly if the section has no entry at all; the names found are
    those of the section exactly if the entry behind it asks for none. -/
theorem dynamicScan_iff (reader : Reader) (c : ElfClass) :
    (reader.VisitsEntries c ∧ reader.FindsNeededLibs c ↔
        (reader.dynamicSection c).2 < c.entrySize) ∧
      (reader.InBounds c → (reader.FindsNeededLibs c ↔
        (reader.dynamicSection c).2 < c.entrySize ∨
          reader.neededLib c (reader.getDynamicStringTableIndex c) (reader.behind c) = none)) := by
  refine ⟨⟨fun h => visitsEntries_iff.mp h.1, fun hsmall => ?_⟩, findsNeededLibs_iff⟩
  exact ⟨visitsEntries_iff.mpr hsmall, findsNeededLibs_of_small hsmall⟩

/-! ## An image -/

/-- A file of class `Elf32` with two sections: a dynamic one of `size` bytes at 132, and its string
    table at 148 with the string `a` at 1. At 140 is `DT_NEEDED` for that string. -/
def sample (size : UInt8) : Reader where
  file :=
    [0x7f, 69, 76, 70, 1, 1, 1, 0, 0, 0, 0, 0, 0, 0, 0, 0,
      3, 0, 40, 0, 1, 0, 0, 0, 0, 0, 0, 0, 0, 0, 0, 0, 52, 0, 0, 0, 0, 0, 0, 0,
      52, 0, 0, 0, 0, 0, 40, 0, 2, 0, 0, 0] ++
    [0, 0, 0, 0, 6, 0, 0, 0, 0, 0, 0, 0, 0, 0, 0, 0, 132, 0, 0, 0, size, 0, 0, 0,
      1, 0, 0, 0, 0, 0, 0, 0, 4, 0, 0, 0, 8, 0, 0, 0] ++
    [0, 0, 0, 0, 3, 0, 0, 0, 0, 0, 0, 0, 0, 0, 0, 0, 148, 0, 0, 0, 3, 0, 0, 0,
      0, 0, 0, 0, 0, 0, 0, 0, 1, 0, 0, 0, 0, 0, 0, 0] ++
    [0, 0, 0, 0, 0, 0, 0, 0] ++ [1, 0, 0, 0, 1, 0, 0, 0] ++ [0, 97, 0]
  bigEndian := false

theorem inBounds_sample_four : (sample 4).InBounds .elf32 where
  dynamic := ⟨by decide +kernel, by decide +kernel, by decide +kernel⟩
  strings := ⟨by decide +kernel, by decide +kernel, by decide +kernel⟩
  index := by decide +kernel
  offset := by decide +kernel

theorem inBounds_sample_eight : (sample 8).InBounds .elf32 where
  dynamic := ⟨by decide +kernel, by decide +kernel, by decide +kernel⟩
  strings := ⟨by decide +kernel, by decide +kernel, by decide +kernel⟩
  index := by decide +kernel
  offset := by decide +kernel

theorem dynamicScan_small :
    (sample 4).InBounds .elf32 ∧ (sample 4).VisitsEntries .elf32 ∧
      (sample 4).FindsNeededLibs .elf32 := by
  have hsmall : ((sample 4).dynamicSection .elf32).2 < ElfClass.entrySize .elf32 := by
    decide +kernel
  have hscan := dynamicScan_iff (sample 4) .elf32
  exact ⟨inBounds_sample_four, (hscan.1.mpr hsmall).1,
    (hscan.2 inBounds_sample_four).mpr (Or.inl hsmall)⟩

/-- A section of one entry: two are visited, and `a` is found, which is not in the section. -/
theorem dynamicScan_one_entry :
    (sample 8).InBounds .elf32 ∧ ¬ (sample 8).VisitsEntries .elf32 ∧
      ¬ (sample 8).FindsNeededLibs .elf32 ∧
      (sample 8).getNeededLibs .elf32 3 = some ["a"] ∧
      ((sample 8).entries .elf32).filterMap ((sample 8).entryNeeds .elf32) = [] := by
  have hsize : ¬ ((sample 8).dynamicSection .elf32).2 < ElfClass.entrySize .elf32 := by
    decide +kernel
  have hbehind : (sample 8).neededLib .elf32 ((sample 8).getDynamicStringTableIndex .elf32)
      ((sample 8).behind .elf32) ≠ none := by decide +kernel
  refine ⟨inBounds_sample_eight, fun h => hsize (visitsEntries_iff.mp h), fun h => ?_,
    by decide +kernel, by decide +kernel⟩
  exact ((findsNeededLibs_iff inBounds_sample_eight).mp h).elim hsize hbehind

end CrystaxNdk.NdkDepends.Reader
