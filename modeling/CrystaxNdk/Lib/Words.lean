import Mathlib

/-!
# Texts and word lists of GNU make

A value of make is a text, and its list functions split it at blanks. A `Word` is what they get:
not empty and without blanks. `filter` and `filter-out` take patterns, in which the first `%`
stands for any text; a word without `%` is a pattern that only matches itself, and it is only for
those that the two are the set operations they are mostly used as. `findstring` looks for a part of
a text, which may be a part of a word, and `subst` replaces all of them.
-/

namespace CrystaxNdk.Lib

open List

/-- The characters make splits at. -/
def isBlank (c : Char) : Bool := c ∈ [' ', '\t', '\n', '\r', '\x0b', '\x0c']

structure Word where
  chars : List Char
  ne_nil : chars ≠ []
  noBlank : ∀ c ∈ chars, isBlank c = false
deriving DecidableEq

namespace Word

def ofString (s : String) (h : s.toList ≠ [] ∧ ∀ c ∈ s.toList, isBlank c = false) : Word :=
  ⟨s.toList, h.1, h.2⟩

/-- A text without blanks, unless it is empty. -/
def ofChars? (cs : List Char) : Option Word :=
  if h : cs ≠ [] ∧ cs.all (!isBlank ·) = true then
    some ⟨cs, h.1, fun c hc => by simpa using all_eq_true.mp h.2 c hc⟩
  else none

/-- What is in front of the first `%` of a pattern, and what is behind it. -/
def splitPercent : List Char → Option (List Char × List Char)
  | [] => none
  | c :: cs =>
    if c = '%' then some ([], cs) else (splitPercent cs).map fun split => (c :: split.1, split.2)

/-- The first `%` of the pattern stands for any text. A backslash is a character like others: that
    make takes a `%` behind one for itself is left out. -/
def patternMatches (pattern word : Word) : Bool :=
  match splitPercent pattern.chars with
  | none => pattern = word
  | some (stem, tail) =>
    stem.isPrefixOf word.chars && tail.isSuffixOf word.chars &&
      stem.length + tail.length ≤ word.chars.length

def filter (patterns words : List Word) : List Word :=
  words.filter fun w => patterns.any (·.patternMatches w)

def filterOut (patterns words : List Word) : List Word :=
  words.filter fun w => !patterns.any (·.patternMatches w)

variable {pattern word : Word} {patterns words : List Word}

theorem splitPercent_eq_none {cs : List Char} (h : '%' ∉ cs) : splitPercent cs = none := by
  induction cs with
  | nil => rfl
  | cons c cs ih =>
    rw [mem_cons, not_or] at h
    rw [splitPercent, if_neg (fun hc => h.1 hc.symm), ih h.2]
    rfl

theorem patternMatches_iff (h : '%' ∉ pattern.chars) :
    pattern.patternMatches word = true ↔ pattern = word := by
  unfold patternMatches
  rw [splitPercent_eq_none h]
  simp

theorem eq_of_splitPercent {cs stem tail : List Char} (h : splitPercent cs = some (stem, tail)) :
    cs = stem ++ '%' :: tail := by
  induction cs generalizing stem with
  | nil => cases h
  | cons c cs ih =>
    rw [splitPercent] at h
    split_ifs at h with hc
    · cases h
      rw [hc]
      rfl
    · obtain ⟨split, hsplit, heq⟩ := Option.map_eq_some_iff.mp h
      cases heq
      rw [ih hsplit]
      rfl

theorem patternMatches_self (w : Word) : w.patternMatches w = true := by
  unfold patternMatches
  cases hsplit : splitPercent w.chars with
  | none => simp
  | some split =>
    have hsuffix : split.2 <:+ split.1 ++ '%' :: split.2 := ⟨split.1 ++ ['%'], by simp⟩
    rw [eq_of_splitPercent hsplit]
    simp [hsuffix]

/-- Without `%`, `filter-out` is a set difference. -/
theorem filterOut_eq (h : ∀ p ∈ patterns, '%' ∉ p.chars) :
    filterOut patterns words = words.filter (· ∉ patterns) := by
  refine filter_congr fun w _ => ?_
  rw [Bool.eq_iff_iff, Bool.not_eq_true', any_eq_false, decide_eq_true_eq]
  constructor
  · intro hnone hw
    exact hnone w hw ((patternMatches_iff (h w hw)).mpr rfl)
  · intro hw p hp hmatch
    rw [(patternMatches_iff (h p hp)).mp hmatch] at hp
    exact hw hp

/-- Without `%`, `filter` is an intersection. -/
theorem filter_eq (h : ∀ p ∈ patterns, '%' ∉ p.chars) :
    filter patterns words = words.filter (· ∈ patterns) := by
  refine filter_congr fun w _ => ?_
  rw [Bool.eq_iff_iff, any_eq_true, decide_eq_true_eq]
  constructor
  · rintro ⟨p, hp, hmatch⟩
    rwa [(patternMatches_iff (h p hp)).mp hmatch] at hp
  · intro hw
    exact ⟨w, hw, patternMatches_self w⟩

theorem filterOut_subset : filterOut patterns words ⊆ words :=
  filter_sublist.subset

/-! ## Texts -/

def split (text : List Char) : List Word := (text.splitOnP isBlank).filterMap ofChars?

@[simp]
theorem ofChars?_chars (w : Word) : ofChars? w.chars = some w := by
  have hall : w.chars.all (!isBlank ·) = true := by simpa using w.noBlank
  exact dif_pos ⟨w.ne_nil, hall⟩

@[simp]
theorem split_nil : split [] = [] := rfl

@[simp]
theorem split_chars (w : Word) : split w.chars = [w] := by
  rw [split, splitOnP_eq_singleton w.noBlank]
  simp

theorem split_append_blank {blank : Char} (hblank : isBlank blank = true)
    (text text' : List Char) : split (text ++ blank :: text') = split text ++ split text' := by
  rw [split, splitOnP_append_cons text text' hblank, filterMap_append, split, split]

/-- A text has no blanks, or it can be cut at the first one. -/
theorem blank_cases (text : List Char) : (∀ c ∈ text, isBlank c = false) ∨
    ∃ front blank back, text = front ++ blank :: back ∧ isBlank blank = true ∧
      ∀ c ∈ front, isBlank c = false := by
  induction text with
  | nil => exact Or.inl (by simp)
  | cons c text ih =>
    by_cases hc : isBlank c = true
    · exact Or.inr ⟨[], c, text, rfl, hc, by simp⟩
    · rw [Bool.not_eq_true] at hc
      rcases ih with hnone | ⟨front, blank, back, rfl, hblank, hfront⟩
      · exact Or.inl (by simpa [hc] using hnone)
      · exact Or.inr ⟨c :: front, blank, back, rfl, hblank, by simpa [hc] using hfront⟩

theorem infix_append_blank {w : Word} {blank : Char} (hblank : isBlank blank = true)
    {text text' : List Char} :
    w.chars <:+: text ++ blank :: text' ↔ w.chars <:+: text ∨ w.chars <:+: text' := by
  have hmem : blank ∉ w.chars := fun h => by
    rw [w.noBlank blank h] at hblank
    cases hblank
  rw [infix_append_iff]
  constructor
  · rintro (h | h | ⟨left, right, heq, hleft, hright⟩)
    · exact Or.inl h
    · rcases infix_cons_iff.mp h with hprefix | h
      · -- the blank would be in the word
        rcases prefix_cons_iff.mp hprefix with hnil | ⟨rest, heq, -⟩
        · exact absurd hnil w.ne_nil
        · exact absurd (by simp [heq]) hmem
      · exact Or.inr h
    · rcases prefix_cons_iff.mp hright with rfl | ⟨rest, rfl, -⟩
      · rw [append_nil] at heq
        exact Or.inl (heq ▸ hleft.isInfix)
      · exact absurd (by simp [heq]) hmem
  · rintro (h | h)
    · exact Or.inl h
    · exact Or.inr (Or.inl (infix_cons h))

/-- `findstring` of a word only sees the words one by one. -/
theorem infix_iff_split (w : Word) (text : List Char) :
    w.chars <:+: text ↔ ∃ v ∈ split text, w.chars <:+: v.chars := by
  induction hlength : text.length using Nat.strong_induction_on generalizing text with
  | _ n ih =>
    rcases blank_cases text with hnone | ⟨front, blank, back, rfl, hblank, -⟩
    · by_cases hnil : text = []
      · simp [hnil, w.ne_nil]
      · have hword : text = (⟨text, hnil, hnone⟩ : Word).chars := rfl
        rw [hword, split_chars]
        simp
    · simp only [length_append, length_cons] at hlength
      rw [infix_append_blank hblank, split_append_blank hblank,
        ih front.length (by omega) front rfl, ih back.length (by omega) back rfl]
      simp only [mem_append, or_and_right, exists_or]

end Word

/-!
## Substitution

Every occurrence of a text in another one is replaced, from left to right, and the search goes on
behind an occurrence. It is easiest to say what comes out where the first character of what is
looked for is nowhere but at the front: then there is at most that one occurrence.
-/

variable {α : Type*} [DecidableEq α]

/-- The loop, where `skip` more characters belong to the last occurrence. -/
def substituteFrom (find replace : List α) : Nat → List α → List α
  | _, [] => []
  | skip + 1, _ :: cs => substituteFrom find replace skip cs
  | 0, c :: cs =>
    if find.isPrefixOf (c :: cs) then
      replace ++ substituteFrom find replace (find.length - 1) cs
    else c :: substituteFrom find replace 0 cs

/-- All occurrences are replaced; the empty text is taken to occur once, at the end. -/
def substitute (find replace text : List α) : List α :=
  if find = [] then text ++ replace else substituteFrom find replace 0 text

variable {c : α} {find replace : List α}

theorem substituteFrom_of_not_mem {text : List α} (h : c ∉ text) (skip : Nat) :
    substituteFrom (c :: find) replace skip text = text.drop skip := by
  induction text generalizing skip with
  | nil => cases skip <;> rfl
  | cons d text ih =>
    rw [List.mem_cons, not_or] at h
    cases skip with
    | zero =>
      have hhead : ¬ (c :: find).isPrefixOf (d :: text) = true := by simp [h.1]
      rw [substituteFrom, if_neg hhead, ih h.2]
      rfl
    | succ skip =>
      rw [substituteFrom, ih h.2]
      rfl

/-- The text begins with the first character of what is looked for, which it has nowhere else. -/
theorem substitute_cons {text : List α} (h : c ∉ text) :
    substitute (c :: find) replace (c :: text) =
      if find <+: text then replace ++ text.drop find.length else c :: text := by
  rw [substitute, if_neg (List.cons_ne_nil c find), substituteFrom,
    substituteFrom_of_not_mem h, substituteFrom_of_not_mem h]
  simp

end CrystaxNdk.Lib
