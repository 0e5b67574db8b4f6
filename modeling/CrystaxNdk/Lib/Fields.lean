import Mathlib

/-!
# Taking a text apart

Three ways in which a text is made of parts. A record is written as fields one after the other, and
read back by taking so many elements from the front; what has been cut off somewhere ends within a
field, and all fields before that are whole. Tokens are what is between the separators of a text,
however many separators stand together. Items are separated by one separator each, and may be empty.
Numbers in fields are written with their lowest byte first.
-/

namespace CrystaxNdk.Lib

open List

section Fields

variable {β : Type*}

/-- The first `count` elements and the rest, if there are so many. -/
def takeField (count : Nat) (file : List β) : Option (List β × List β) :=
  if file.length < count then none else some (file.take count, file.drop count)

variable {count : Nat} {field rest file : List β}

theorem takeField_append (rest : List β) (h : field.length = count) :
    takeField count (field ++ rest) = some (field, rest) := by
  subst h
  simp [takeField]

theorem takeField_short (h : file.length < count) : takeField count file = none := if_pos h

theorem length_of_takeField (h : takeField count file = some (field, rest)) :
    file.length = count + rest.length := by
  unfold takeField at h
  split_ifs at h
  cases h
  rw [length_drop]
  omega

theorem prefix_append_cases (h : file <+: field ++ rest) :
    (file <+: field ∧ file.length < field.length) ∨
      ∃ file', file = field ++ file' ∧ file' <+: rest := by
  rcases lt_or_ge file.length field.length with hlt | hge
  · exact Or.inl ⟨prefix_of_prefix_length_le h (prefix_append field rest) hlt.le, hlt⟩
  · obtain ⟨file', rfl⟩ := prefix_of_prefix_length_le (prefix_append field rest) h hge
    exact Or.inr ⟨file', rfl, (prefix_append_right_inj field).mp h⟩

/-- A beginning of records ends with one that is not whole, or with none. -/
theorem prefix_flatMap_cases {α : Type*} {f : α → List β} {l : List α} (h : file <+: l.flatMap f) :
    ∃ k last, file = (l.take k).flatMap f ++ last ∧
      (last = [] ∨ ∃ x ∈ l, last <+: f x ∧ last.length < (f x).length) := by
  induction l generalizing file with
  | nil => exact ⟨0, [], by simpa using h, Or.inl rfl⟩
  | cons x l ih =>
    rw [flatMap_cons] at h
    rcases prefix_append_cases h with ⟨hbegins, hlt⟩ | ⟨file', rfl, hrest⟩
    · exact ⟨0, file, rfl, Or.inr ⟨x, mem_cons_self, hbegins, hlt⟩⟩
    · obtain ⟨k, last, rfl, hlast⟩ := ih hrest
      refine ⟨k + 1, last, by simp, ?_⟩
      rcases hlast with rfl | ⟨y, hmem, hbegins, hlt⟩
      · exact Or.inl rfl
      · exact Or.inr ⟨y, mem_cons_of_mem x hmem, hbegins, hlt⟩

end Fields

section Numbers

/-- The lowest `count` bytes of a number, the lowest one first. -/
def littleEndian : (count n : Nat) → List UInt8
  | 0, _ => []
  | count + 1, n => UInt8.ofNat n :: littleEndian count (n / 256)

def ofLittleEndian : List UInt8 → Nat
  | [] => 0
  | b :: bytes => b.toNat + 256 * ofLittleEndian bytes

@[simp]
theorem length_littleEndian (count n : Nat) : (littleEndian count n).length = count := by
  induction count generalizing n with
  | zero => rfl
  | succ count ih => simp [littleEndian, ih]

theorem ofLittleEndian_lt (bytes : List UInt8) : ofLittleEndian bytes < 256 ^ bytes.length := by
  induction bytes with
  | nil => simp [ofLittleEndian]
  | cons b bytes ih =>
    have hb := b.toNat_lt
    rw [ofLittleEndian, length_cons, pow_succ]
    omega

theorem ofLittleEndian_littleEndian {count n : Nat} (h : n < 256 ^ count) :
    ofLittleEndian (littleEndian count n) = n := by
  induction count generalizing n with
  | zero =>
    rw [pow_zero, Nat.lt_one_iff] at h
    rw [h]
    rfl
  | succ count ih =>
    rw [pow_succ] at h
    rw [littleEndian, ofLittleEndian, ih (Nat.div_lt_of_lt_mul (by omega)), UInt8.toNat_ofNat']
    omega

end Numbers

/-!
## Tokens

A scanner gets at them one by one: it skips separators, and the token is what is in front of the
next one.
-/

variable {α : Type*} {sep : α → Bool} {text start token : List α}

/-- The parts of a text between its separators, without the empty ones. -/
def tokens (sep : α → Bool) (text : List α) : List (List α) :=
  (text.splitOnP sep).filter (!·.isEmpty)

@[simp]
theorem tokens_nil : tokens sep [] = [] := rfl

theorem tokens_append_sep {c : α} (hc : sep c = true) (text text' : List α) :
    tokens sep (text ++ c :: text') = tokens sep text ++ tokens sep text' := by
  rw [tokens, splitOnP_append_cons text text' hc, filter_append, tokens, tokens]

theorem tokens_eq_singleton (hne : token ≠ []) (htoken : ∀ c ∈ token, sep c = false) :
    tokens sep token = [token] := by
  rw [tokens, splitOnP_eq_singleton htoken]
  simp [hne]

theorem tokens_dropWhile (sep : α → Bool) (text : List α) :
    tokens sep (text.dropWhile sep) = tokens sep text := by
  induction text with
  | nil => rfl
  | cons c text ih =>
    by_cases hc : sep c = true
    · rw [dropWhile_cons_of_pos hc, ih]
      exact (tokens_append_sep hc [] text).symm
    · rw [dropWhile_cons_of_neg hc]

/-- The first token of a text that does not begin with a separator. -/
theorem tokens_eq_cons (hne : start.takeWhile (!sep ·) ≠ []) :
    tokens sep start = start.takeWhile (!sep ·) :: tokens sep (start.dropWhile (!sep ·)) := by
  have htoken : ∀ c ∈ start.takeWhile (!sep ·), sep c = false := fun c hc => by
    simpa using mem_takeWhile_imp hc
  have hcut : start.takeWhile (!sep ·) ++ start.dropWhile (!sep ·) = start :=
    takeWhile_append_dropWhile
  cases hrest : start.dropWhile (!sep ·) with
  | nil =>
    rw [hrest, append_nil] at hcut
    rw [tokens_nil, ← tokens_eq_singleton hne htoken, hcut]
  | cons c rest =>
    have hc : sep c = true := by
      have := head_dropWhile_not (!sep ·) (l := start) (by rw [hrest]; simp)
      simpa [hrest] using this
    have hskip : tokens sep (c :: rest) = tokens sep rest := tokens_append_sep hc [] rest
    rw [hskip]
    conv_lhs => rw [← hcut, hrest]
    rw [tokens_append_sep hc, tokens_eq_singleton hne htoken]
    rfl

theorem tokens_eq_nil (h : (text.dropWhile sep).takeWhile (!sep ·) = []) :
    tokens sep text = [] := by
  rw [← tokens_dropWhile]
  cases hstart : text.dropWhile sep with
  | nil => rfl
  | cons c start =>
    have hc : ¬sep c = true := by
      have := head_dropWhile_not sep (l := text) (by rw [hstart]; simp)
      simpa [hstart] using this
    rw [hstart, takeWhile_cons_of_pos (by simpa using hc)] at h
    cases h

/-!
## Items

The items of a text are what `List.splitOn` gives, without an empty one at the end: a separator at
the very end adds no item, and the empty text has none. Texts are joined with a separator that is
left out if the first one is empty or ends in one already, and the items of a joined text are those
of the two.
-/

variable {α : Type*} [DecidableEq α]

/-- The pieces without an empty last one. -/
def trimItems (pieces : List (List α)) : List (List α) :=
  if pieces.getLast? = some [] then pieces.dropLast else pieces

def separatedItems (sep : α) (text : List α) : List (List α) := trimItems (text.splitOn sep)

variable {sep : α} {text text' : List α}

theorem trimItems_append (pieces : List (List α)) {pieces' : List (List α)} (h : pieces' ≠ []) :
    trimItems (pieces ++ pieces') = pieces ++ trimItems pieces' := by
  rw [trimItems, trimItems, getLast?_append_of_ne_nil _ h, dropLast_append_of_ne_nil h]
  split <;> rfl

theorem splitOn_append_cons (sep : α) (text text' : List α) :
    (text ++ sep :: text').splitOn sep = text.splitOn sep ++ text'.splitOn sep :=
  splitOnP_append_cons text text' (by simp)

theorem splitOn_ne_nil (sep : α) (text : List α) : text.splitOn sep ≠ [] :=
  splitOnP_ne_nil _ _

@[simp]
theorem separatedItems_nil (sep : α) : separatedItems sep ([] : List α) = [] := by
  simp [separatedItems, trimItems]

theorem separatedItems_of_not_mem (h : sep ∉ text) (hne : text ≠ []) :
    separatedItems sep text = [text] := by
  simp [separatedItems, trimItems, splitOn_eq_singleton h, hne]

theorem separatedItems_append_cons (h : sep ∉ text) (text' : List α) :
    separatedItems sep (text ++ sep :: text') = text :: separatedItems sep text' := by
  rw [separatedItems, splitOn_append_cons, splitOn_eq_singleton h,
    trimItems_append _ (splitOn_ne_nil sep text'), singleton_append, separatedItems]

theorem exists_last_item (sep : α) (text : List α) :
    sep ∉ text ∨ ∃ before last, text = before ++ sep :: last ∧ sep ∉ last := by
  by_cases hmem : sep ∈ text
  · obtain ⟨before, after, heq, hbefore⟩ := eq_append_cons_of_mem (mem_reverse.mpr hmem)
    refine Or.inr ⟨after.reverse, before.reverse, ?_, by simpa using hbefore⟩
    rw [← reverse_reverse text, heq]
    simp
  · exact Or.inl hmem

/-- Nothing is trimmed unless the text is empty or ends in a separator. -/
theorem separatedItems_eq_splitOn (hne : text ≠ []) (hlast : text.getLast? ≠ some sep) :
    separatedItems sep text = text.splitOn sep := by
  rcases exists_last_item sep text with hmem | ⟨before, last, rfl, hmem⟩
  · rw [separatedItems_of_not_mem hmem hne, splitOn_eq_singleton hmem]
  · have hnil : last ≠ [] := by
      rintro rfl
      exact hlast (by simp)
    rw [separatedItems, splitOn_append_cons, splitOn_eq_singleton hmem,
      trimItems_append _ (cons_ne_nil _ _)]
    simp [trimItems, hnil]

/-- The items of two texts joined with a separator, where one is needed. -/
theorem separatedItems_join (sep : α) (text text' : List α) :
    separatedItems sep
        ((if text ≠ [] ∧ text.getLast? ≠ some sep then text ++ [sep] else text) ++ text') =
      separatedItems sep text ++ separatedItems sep text' := by
  by_cases hne : text = []
  · subst hne
    simp
  by_cases hlast : text.getLast? = some sep
  · obtain ⟨before, rfl⟩ := getLast?_eq_some_iff.mp hlast
    have hitems : separatedItems sep (before ++ [sep]) = before.splitOn sep := by
      rw [separatedItems, splitOn_append_cons, trimItems_append _ (splitOn_ne_nil sep [])]
      simp [trimItems]
    rw [if_neg (fun h => h.2 hlast), hitems, append_assoc, singleton_append,
      separatedItems, splitOn_append_cons, trimItems_append _ (splitOn_ne_nil sep text'),
      separatedItems]
  · rw [if_pos ⟨hne, hlast⟩, separatedItems_eq_splitOn hne hlast, append_assoc,
      singleton_append, separatedItems, splitOn_append_cons,
      trimItems_append _ (splitOn_ne_nil sep text'), separatedItems]

end CrystaxNdk.Lib
