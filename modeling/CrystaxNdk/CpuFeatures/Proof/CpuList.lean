import CrystaxNdk.CpuFeatures.CpuFeatures

/-!
# What a list of CPUs means

A list is written as items with commas between them, and a newline may follow. Every such text is
read as it is written, up to one slip: the loop that sets the bits of an item counts one past its
end, and `INT_MAX` has no successor. So an item that ends there, be it a single number, has
undefined behaviour; no other item has.
-/

namespace CrystaxNdk.CpuFeatures

open Lib List

/-! ## The format -/

def valueFrom (val : Nat) (digits : List (Fin 10)) : Nat :=
  digits.foldl (fun val d => val * 10 + d.val) val

/-- A decimal number that an `int` has. -/
structure Number where
  digits : List (Fin 10)
  nonempty : digits ≠ []
  small : valueFrom 0 digits ≤ intMax

namespace Number

def value (n : Number) : Nat := valueFrom 0 n.digits

def text (n : Number) : List Char := n.digits.map fun d => d.val.digitChar

end Number

inductive Item where
  | single (n : Number)
  | range (low high : Number)

namespace Item

def low : Item → Number
  | single n => n
  | range low _ => low

def high : Item → Number
  | single n => n
  | range _ high => high

def text : Item → List Char
  | single n => n.text
  | range low high => low.text ++ '-' :: high.text

def Lists (item : Item) (i : Nat) : Prop := item.low.value ≤ i ∧ i ≤ item.high.value

end Item

/-- A list, as it is in a file. -/
structure ListText where
  items : List Item
  newline : Bool

namespace ListText

def ending (t : ListText) : List Char := if t.newline then ['\n'] else []

def text (t : ListText) : List Char := [','].intercalate (t.items.map Item.text) ++ t.ending

/-- The mask gets exactly the listed CPUs. -/
def Parses (t : ListText) : Prop :=
  ∃ (mask : CpuMask) (rounds : Nat),
    (∀ fuel ≥ rounds, cpulistParse fuel cpulistInit t.text = some (.ok mask)) ∧
    ∀ i, mask.getLsbD i = true ↔ i < 32 ∧ ∃ item ∈ t.items, item.Lists i

end ListText

/-! ## Numbers -/

theorem le_valueFrom (val : Nat) (digits : List (Fin 10)) : val ≤ valueFrom val digits := by
  induction digits generalizing val with
  | nil => exact le_rfl
  | cons d digits ih => exact le_trans (by omega) (ih (val * 10 + d.val))

variable {rest : List Char}

theorem parseDigits_text {val : Nat} {digits : List (Fin 10)}
    (hsmall : valueFrom val digits ≤ intMax) (hrest : ∀ c ∈ rest.head?, hexValue c = none) :
    parseDigits 10 val (digits.map (fun d => d.val.digitChar) ++ rest) =
      .ok (valueFrom val digits, rest) := by
  induction digits generalizing val with
  | nil =>
    cases rest with
    | nil => rfl
    | cons c rest =>
      rw [map_nil, nil_append, parseDigits, hrest c rfl]
      rfl
  | cons d digits ih =>
    have hval : val * 10 + d.val ≤ intMax := (le_valueFrom _ digits).trans hsmall
    rw [map_cons, cons_append, parseDigits, hexValue_digitChar (by omega)]
    dsimp only
    rw [if_neg (by omega), if_neg (by omega)]
    exact ih hsmall

theorem parseDecimal_text (n : Number) (hrest : ∀ c ∈ rest.head?, hexValue c = none) :
    parseDecimal (n.text ++ rest) = .ok (some (n.value, rest)) := by
  have hlength : rest.length ≠ (n.text ++ rest).length := by
    have hpos := length_pos_iff.mpr n.nonempty
    rw [length_append, Number.text, length_map]
    omega
  rw [parseDecimal, parseNumber, Number.text, parseDigits_text n.small hrest]
  dsimp only
  rw [← Number.text, if_neg hlength]
  rfl

/-! ## Items -/

theorem parseItem_text (item : Item) (hrest : rest = [] ∨ rest = ['\n']) :
    parseItem (item.text ++ rest) = .ok (some (item.low.value, item.high.value)) := by
  have hstop : ∀ c ∈ rest.head?, hexValue c = none := by
    rcases hrest with rfl | rfl
    · simp
    · intro c hc
      cases hc
      decide
  cases item with
  | single n =>
    unfold parseItem Item.text
    dsimp only
    rw [parseDecimal_text n hstop]
    rcases hrest with rfl | rfl
    · rfl
    · rfl
  | range low high =>
    have hdash : ∀ c ∈ ('-' :: (high.text ++ rest)).head?, hexValue c = none := by
      intro c hc
      cases hc
      decide
    unfold parseItem Item.text
    dsimp only
    rw [append_assoc, cons_append, parseDecimal_text low hdash]
    dsimp only
    rw [if_pos head?_cons, tail_cons, parseDecimal_text high hstop]
    rfl

theorem digitChar_ne {d : Nat} (hd : d < 10) {c : Char} (hc : hexValue c = none) :
    d.digitChar ≠ c := by
  rintro rfl
  rw [hexValue_digitChar (by omega)] at hc
  cases hc

theorem comma_not_mem_number (n : Number) : ',' ∉ n.text := by
  intro h
  obtain ⟨d, -, hd⟩ := mem_map.mp h
  exact digitChar_ne d.isLt (by decide) hd

theorem comma_not_mem_text (item : Item) : ',' ∉ item.text := by
  cases item with
  | single n => exact comma_not_mem_number n
  | range low high =>
    intro h
    rcases mem_append.mp h with h | h
    · exact comma_not_mem_number low h
    · rcases mem_cons.mp h with h | h
      · cases h
      · exact comma_not_mem_number high h

/-- An item begins with a digit, so the loop does not stop at it. -/
theorem head?_text_append (item : Item) (rest : List Char) :
    item.text ++ rest ≠ [] ∧ (item.text ++ rest).head? ≠ some '\n' := by
  have hnumber (n : Number) (rest : List Char) :
      n.text ++ rest ≠ [] ∧ (n.text ++ rest).head? ≠ some '\n' := by
    obtain ⟨d, digits, hdigits⟩ := exists_cons_of_ne_nil n.nonempty
    rw [Number.text, hdigits]
    refine ⟨by simp, fun h => ?_⟩
    exact digitChar_ne d.isLt (by decide) (Option.some.inj h)
  cases item with
  | single n => exact hnumber n rest
  | range low high =>
    rw [Item.text, append_assoc]
    exact hnumber low _

/-! ## Masks -/

theorem getLsbD_cpulistSet (mask : CpuMask) (index i : Nat) :
    (cpulistSet mask index).getLsbD i = true ↔
      mask.getLsbD i = true ∨ (i < 32 ∧ i = index) := by
  unfold cpulistSet
  split_ifs with hindex
  · rw [BitVec.getLsbD_or, Bool.or_eq_true, BitVec.getLsbD_shiftLeft]
    simp only [Bool.and_eq_true, decide_eq_true_eq, Bool.not_eq_true', decide_eq_false_iff_not,
      BitVec.getLsbD_one]
    constructor
    · rintro (h | h)
      · exact Or.inl h
      · exact Or.inr (by omega)
    · rintro (h | h)
      · exact Or.inl h
      · exact Or.inr (by omega)
  · constructor
    · exact Or.inl
    · rintro (h | h)
      · exact h
      · omega

/-- The bits from `val` on, so many of them. -/
def setBits (mask : CpuMask) (val count : Nat) : CpuMask :=
  (List.range' val count).foldl cpulistSet mask

theorem getLsbD_setBits (mask : CpuMask) (val count i : Nat) :
    (setBits mask val count).getLsbD i = true ↔
      mask.getLsbD i = true ∨ (i < 32 ∧ val ≤ i ∧ i < val + count) := by
  unfold setBits
  induction count generalizing mask val with
  | zero =>
    rw [range'_zero, foldl_nil]
    constructor
    · exact Or.inl
    · rintro (h | h)
      · exact h
      · omega
  | succ count ih =>
    rw [range'_succ, foldl_cons, ih, getLsbD_cpulistSet, or_assoc]
    refine or_congr Iff.rfl ?_
    omega

variable {fuel : Nat}

/-- The loop for an item. It ends behind the last number, unless there is no such number. -/
theorem setLoop_eq {endValue val : Nat} (mask : CpuMask) (hval : val ≤ intMax)
    (hend : endValue ≤ intMax) (hfuel : endValue + 1 - val < fuel) :
    setLoop endValue fuel val mask =
      if endValue = intMax then some (.error .signedOverflow)
      else some (.ok (setBits mask val (endValue + 1 - val))) := by
  induction hcount : endValue + 1 - val generalizing fuel val mask with
  | zero =>
    obtain ⟨fuel, rfl⟩ := Nat.exists_eq_succ_of_ne_zero (Nat.ne_zero_of_lt hfuel)
    rw [setLoop, if_neg (by omega), if_neg (by omega)]
    rfl
  | succ count ih =>
    obtain ⟨fuel, rfl⟩ := Nat.exists_eq_succ_of_ne_zero (Nat.ne_zero_of_lt hfuel)
    rw [setLoop, if_pos (by omega)]
    by_cases hlast : val = intMax
    · rw [if_pos hlast, if_pos (by omega)]
    · rw [if_neg hlast, ih _ (by omega) (by omega) (by omega)]
      rfl

/-! ## Lists -/

def setItems : List Item → CpuMask → Except Undefined CpuMask
  | [], mask => .ok mask
  | item :: items, mask =>
    if item.high.value = intMax then .error .signedOverflow
    else setItems items
      (setBits mask item.low.value (item.high.value + 1 - item.low.value))

variable {rounds : Nat}

/-- One round: the item in front is taken, and what follows its comma is left. -/
theorem parseLoop_item (item : Item) {p left : List Char} (mask : CpuMask)
    (hp : p = item.text ++ rest) (hitem : p.takeWhile (· ≠ ',') = item.text ∨
      p.takeWhile (· ≠ ',') = item.text ++ ['\n']) (hleft : (p.dropWhile (· ≠ ',')).drop 1 = left)
    (hrounds : intMax + 1 < rounds) :
    parseLoop rounds (fuel + 1) p mask =
      if item.high.value = intMax then some (.error .signedOverflow)
      else parseLoop rounds fuel left
        (setBits mask item.low.value (item.high.value + 1 - item.low.value)) := by
  have hparse : parseItem (p.takeWhile (· ≠ ',')) =
      .ok (some (item.low.value, item.high.value)) := by
    rcases hitem with h | h
    · rw [h, ← parseItem_text item (Or.inl rfl), append_nil]
    · rw [h, parseItem_text item (Or.inr rfl)]
  have hhead := head?_text_append item rest
  rw [← hp] at hhead
  have hlow : item.low.value ≤ intMax := item.low.small
  have hhigh : item.high.value ≤ intMax := item.high.small
  rw [parseLoop, if_neg (not_or.mpr hhead), hparse]
  dsimp only
  rw [setLoop_eq mask hlow hhigh (by omega), hleft]
  split_ifs with hmax
  · rfl
  · rfl

theorem takeWhile_text (item : Item) (rest : List Char) :
    (item.text ++ rest).takeWhile (· ≠ ',') = item.text ++ rest.takeWhile (· ≠ ',') ∧
      (item.text ++ rest).dropWhile (· ≠ ',') = rest.dropWhile (· ≠ ',') := by
  have hall : ∀ c ∈ item.text, decide (c ≠ ',') = true := by
    intro c hc
    rw [decide_eq_true_eq]
    rintro rfl
    exact comma_not_mem_text item hc
  exact ⟨takeWhile_append_of_pos hall, dropWhile_append_of_pos hall⟩

/-- The round for the last item, behind which the loop is at the end, with or without a newline. -/
theorem parseLoop_last (item : Item) {ending : List Char} (mask : CpuMask)
    (hending : ending = [] ∨ ending = ['\n']) (hrounds : intMax + 1 < rounds) :
    parseLoop rounds (fuel + 1) (item.text ++ ending) mask =
      if item.high.value = intMax then some (.error .signedOverflow)
      else parseLoop rounds fuel []
        (setBits mask item.low.value (item.high.value + 1 - item.low.value)) := by
  obtain ⟨htake, hdrop⟩ := takeWhile_text item ending
  refine parseLoop_item item mask rfl ?_ ?_ hrounds
  · rw [htake]
    rcases hending with rfl | rfl
    · exact Or.inl (append_nil _)
    · exact Or.inr rfl
  · rw [hdrop]
    rcases hending with rfl | rfl
    · rfl
    · rfl

theorem parseLoop_comma (item : Item) (mask : CpuMask) (hrounds : intMax + 1 < rounds) :
    parseLoop rounds (fuel + 1) (item.text ++ ',' :: rest) mask =
      if item.high.value = intMax then some (.error .signedOverflow)
      else parseLoop rounds fuel rest
        (setBits mask item.low.value (item.high.value + 1 - item.low.value)) := by
  obtain ⟨htake, hdrop⟩ := takeWhile_text item (',' :: rest)
  refine parseLoop_item item mask rfl ?_ ?_ hrounds
  · rw [htake]
    exact Or.inl (append_nil _)
  · rw [hdrop]
    rfl

variable {items : List Item}

theorem parseLoop_text {ending : List Char} (mask : CpuMask)
    (hending : ending = [] ∨ ending = ['\n']) (hrounds : intMax + 1 < rounds)
    (hfuel : items.length < fuel) :
    parseLoop rounds fuel ([','].intercalate (items.map Item.text) ++ ending) mask =
      some (setItems items mask) := by
  induction items generalizing fuel mask with
  | nil =>
    obtain ⟨fuel, rfl⟩ := Nat.exists_eq_succ_of_ne_zero (Nat.ne_zero_of_lt hfuel)
    rcases hending with rfl | rfl
    · rfl
    · rfl
  | cons item items ih =>
    obtain ⟨fuel, rfl⟩ := Nat.exists_eq_succ_of_ne_zero (Nat.ne_zero_of_lt hfuel)
    rw [length_cons] at hfuel
    cases items with
    | nil =>
      have htext : [','].intercalate ([item].map Item.text) ++ ending = item.text ++ ending := by
        simp [List.intercalate]
      obtain ⟨fuel, rfl⟩ := Nat.exists_eq_succ_of_ne_zero (Nat.ne_zero_of_lt (by omega : 0 < fuel))
      rw [htext, parseLoop_last item mask hending hrounds, setItems]
      split_ifs with hmax
      · rfl
      · rfl
    | cons next items =>
      have htext : [','].intercalate ((item :: next :: items).map Item.text) ++ ending =
          item.text ++ ',' :: ([','].intercalate ((next :: items).map Item.text) ++ ending) := by
        simp [List.intercalate]
      rw [htext, parseLoop_comma item mask hrounds, setItems]
      split_ifs with hmax
      · rfl
      · exact ih _ (by omega)

theorem setItems_error (mask : CpuMask) (h : ∃ item ∈ items, item.high.value = intMax) :
    setItems items mask = .error .signedOverflow := by
  induction items generalizing mask with
  | nil => simp at h
  | cons item items ih =>
    rw [setItems]
    split_ifs with hmax
    · rfl
    · refine ih _ ?_
      obtain ⟨other, hmem, hother⟩ := h
      rcases mem_cons.mp hmem with rfl | hmem
      · exact absurd hother hmax
      · exact ⟨other, hmem, hother⟩

theorem setItems_ok (mask : CpuMask) (h : ∀ item ∈ items, item.high.value ≠ intMax) :
    ∃ mask', setItems items mask = .ok mask' ∧ ∀ i, mask'.getLsbD i = true ↔
      mask.getLsbD i = true ∨ (i < 32 ∧ ∃ item ∈ items, item.Lists i) := by
  induction items generalizing mask with
  | nil => exact ⟨mask, rfl, by simp⟩
  | cons item items ih =>
    rw [setItems, if_neg (h item mem_cons_self)]
    obtain ⟨mask', hmask, hbits⟩ := ih
      (setBits mask item.low.value (item.high.value + 1 - item.low.value))
      fun other hother => h other (mem_cons_of_mem item hother)
    refine ⟨mask', hmask, fun i => ?_⟩
    have hrange : (item.low.value ≤ i ∧
        i < item.low.value + (item.high.value + 1 - item.low.value)) ↔ item.Lists i := by
      unfold Item.Lists
      omega
    simp only [mem_cons, exists_eq_or_imp]
    rw [hbits, getLsbD_setBits, hrange, and_or_left, or_assoc]

/-! ## The result -/

theorem cpulistParse_text (t : ListText) (hfuel : intMax + 2 + t.items.length ≤ fuel) :
    cpulistParse fuel cpulistInit t.text = some (setItems t.items cpulistInit) := by
  have hending : t.ending = [] ∨ t.ending = ['\n'] := by
    unfold ListText.ending
    split_ifs
    · exact Or.inr rfl
    · exact Or.inl rfl
  exact parseLoop_text cpulistInit hending (by omega) (by omega)

variable {t : ListText}

theorem parses_of_ne (h : ∀ item ∈ t.items, item.high.value ≠ intMax) :
    t.Parses := by
  obtain ⟨mask, hmask, hbits⟩ := setItems_ok cpulistInit h
  refine ⟨mask, intMax + 2 + t.items.length, fun fuel hfuel => ?_, fun i => ?_⟩
  · rw [cpulistParse_text t hfuel, hmask]
  · rw [hbits]
    simp [cpulistInit]

theorem cpulistParse_error (h : ∃ item ∈ t.items, item.high.value = intMax)
    (hfuel : intMax + 2 + t.items.length ≤ fuel) :
    cpulistParse fuel cpulistInit t.text = some (.error .signedOverflow) := by
  rw [cpulistParse_text t hfuel, setItems_error cpulistInit h]

theorem not_parses (h : ∃ item ∈ t.items, item.high.value = intMax) :
    ¬ t.Parses := by
  rintro ⟨mask, rounds, hrounds, -⟩
  have hparse := hrounds (rounds + (intMax + 2 + t.items.length)) (by omega)
  rw [cpulistParse_error h (by omega)] at hparse
  cases hparse

/-- A list is read as it is written exactly if no item ends with `INT_MAX`. If one does, a signed
    integer overflows. -/
theorem cpulistParse_iff (t : ListText) :
    (t.Parses ↔ ∀ item ∈ t.items, item.high.value ≠ intMax) ∧
      ((∃ item ∈ t.items, item.high.value = intMax) → ∃ rounds, ∀ fuel ≥ rounds,
        cpulistParse fuel cpulistInit t.text = some (.error .signedOverflow)) := by
  refine ⟨⟨fun h item hmem hmax => not_parses ⟨item, hmem, hmax⟩ h, parses_of_ne⟩, fun h => ?_⟩
  exact ⟨_, fun fuel hfuel => cpulistParse_error h hfuel⟩

def maxNumber : Number where
  digits := [2, 1, 4, 7, 4, 8, 3, 6, 4, 7]
  nonempty := by decide
  small := by decide

def threeNumber : Number where
  digits := [0, 3]
  nonempty := by decide
  small := by decide

/-- `03,2147483647-03` is read, the second item being empty, and `2147483647` overflows. -/
theorem cpulistParse_three_max :
    (ListText.mk [.single threeNumber, .range maxNumber threeNumber] true).Parses ∧
      ∃ rounds, ∀ fuel ≥ rounds,
        cpulistParse fuel cpulistInit (ListText.mk [.single maxNumber] true).text =
          some (.error .signedOverflow) := by
  constructor
  · refine (cpulistParse_iff _).1.mpr fun item hmem => ?_
    have hhigh : item.high = threeNumber := by
      rcases mem_cons.mp hmem with rfl | hmem
      · rfl
      · rw [mem_singleton.mp hmem]
        rfl
    rw [hhigh]
    decide
  · exact (cpulistParse_iff _).2 ⟨_, mem_singleton_self _, by decide⟩

theorem cpulistParse_max :
    (ListText.mk [.single maxNumber] false).text = "2147483647".toList ∧
      ¬ (ListText.mk [.single maxNumber] false).Parses :=
  ⟨by decide, not_parses ⟨_, mem_singleton_self _, by decide⟩⟩

/-! ## The number of CPUs -/

def ListText.Lists (t : ListText) (i : Nat) : Prop := ∃ item ∈ t.items, item.Lists i

theorem cpulistReadFrom_text (hlength : t.text.length ≤ 64)
    (h : ∀ item ∈ t.items, item.high.value ≠ intMax) :
    ∃ (mask : CpuMask) (rounds : Nat),
      (∀ fuel ≥ rounds, cpulistReadFrom fuel (some t.text) = some (.ok mask)) ∧
      ∀ i, mask.getLsbD i = true ↔ i < 32 ∧ t.Lists i := by
  obtain ⟨mask, rounds, hparse, hbits⟩ := parses_of_ne h
  refine ⟨mask, rounds, fun fuel hfuel => ?_, hbits⟩
  rw [cpulistReadFrom, take_of_length_le hlength]
  exact hparse fuel hfuel

open Classical in
/-- The count is the number of CPUs that both lists name, of the first 32. -/
theorem getCpuCount_text (present possible : ListText) (hpresent : present.text.length ≤ 64)
    (hpossible : possible.text.length ≤ 64)
    (h : ∀ item ∈ present.items ++ possible.items, item.high.value ≠ intMax) :
    ∃ rounds, ∀ fuel ≥ rounds, getCpuCount fuel (some present.text) (some possible.text) =
      some (.ok ((range 32).countP fun i => present.Lists i ∧ possible.Lists i)) := by
  obtain ⟨mask₁, rounds₁, hread₁, hbits₁⟩ := cpulistReadFrom_text hpresent fun item hitem =>
    h item (mem_append_left _ hitem)
  obtain ⟨mask₂, rounds₂, hread₂, hbits₂⟩ := cpulistReadFrom_text hpossible fun item hitem =>
    h item (mem_append_right _ hitem)
  refine ⟨max rounds₁ rounds₂, fun fuel hfuel => ?_⟩
  have hcount : cpulistCount (cpulistAnd mask₁ mask₂) =
      (range 32).countP fun i => present.Lists i ∧ possible.Lists i := by
    refine countP_congr fun i hi => ?_
    rw [cpulistAnd, BitVec.getLsbD_and, Bool.and_eq_true, hbits₁, hbits₂]
    simp [mem_range.mp hi]
  rw [← hcount, getCpuCount, hread₁ fuel (le_of_max_le_left hfuel),
    hread₂ fuel (le_of_max_le_right hfuel)]
  rfl

theorem getCpuCount_text_three : ∃ rounds, ∀ fuel ≥ rounds,
    getCpuCount fuel (some "03\n".toList) (some "03\n".toList) = some (.ok 1) := by
  obtain ⟨rounds, hcount⟩ := getCpuCount_text (.mk [.single threeNumber] true)
    (.mk [.single threeNumber] true) (by decide) (by decide) (by decide)
  refine ⟨rounds, fun fuel hfuel => (hcount fuel hfuel).trans ?_⟩
  have hone : (range 32).countP (· = 3) = 1 := by decide
  rw [← hone]
  congr 2
  refine countP_congr fun i _ => ?_
  have hvalue : threeNumber.value = 3 := by decide
  simp [ListText.Lists, Item.Lists, Item.low, Item.high, hvalue]
  omega

end CrystaxNdk.CpuFeatures
