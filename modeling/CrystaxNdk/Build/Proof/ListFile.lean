import CrystaxNdk.Build.Utils

/-!
# What gets into a list file

Each macro writes a slice of the list: the one for ten words at `n` the words with the numbers from
`10 * n` to `10 * n + 9`, and so on for the hundreds and thousands, where the number 0 is that of no
word. A macro that is left out would have written nothing. So nothing is missing and nothing is
there twice up to the last thousand, where the recipe ends: words from the number 6000 on are not
written.
-/

namespace CrystaxNdk.Build

open Lib List

variable {list : List Word} {n : Nat}

/-! ## Slices -/

/-- The words from position `a` up to, but not including, position `b`. -/
def slice (list : List Word) (a b : Nat) : List Word := (list.take b).drop a

variable {a b : Nat}

theorem slice_append {c : Nat} (hab : a ≤ b) (hbc : b ≤ c) :
    slice list a b ++ slice list b c = slice list a c := by
  have htake : list.take b = (list.take c).take b := by rw [take_take, min_eq_left hbc]
  rw [slice, slice, slice, htake, drop_take, ← Nat.add_sub_cancel' hab, ← drop_drop,
    Nat.add_sub_cancel_left]
  exact take_append_drop _ _

theorem slice_eq_nil (h : list.length ≤ a) : slice list a b = [] := by
  rw [slice, drop_eq_nil_iff]
  exact (length_take_le' b list).trans h

theorem word_ne_none_iff : word n list ≠ none ↔ n - 1 < list.length := by
  rw [word, ne_eq, List.getElem?_eq_none_iff, not_le]

/-- The words that the macro for `width` words at `n` is there for. -/
def portion (list : List Word) (width n : Nat) : List Word :=
  slice list (width * n - 1) (width * (n + 1) - 1)

/-! ## The macros -/

def Echoes (recipe : List Command) (words : List Word) : Prop :=
  ∃ parts : List (List Word), recipe = parts.map echoWords ∧ words = parts.flatten

theorem echoes_nil : Echoes [] [] := ⟨[], rfl, rfl⟩

theorem echoes_echoWords (words : List Word) : Echoes [echoWords words] words :=
  ⟨[words], rfl, by simp⟩

variable {recipe : List Command} {words : List Word}

theorem Echoes.append {recipe' : List Command} {words' : List Word} (h : Echoes recipe words)
    (h' : Echoes recipe' words') :
    Echoes (recipe ++ recipe') (words ++ words') := by
  obtain ⟨parts, rfl, rfl⟩ := h
  obtain ⟨parts', rfl, rfl⟩ := h'
  exact ⟨parts ++ parts', by simp, by simp⟩

theorem Echoes.slice_append {recipe' : List Command} {c : Nat} (hab : a ≤ b) (hbc : b ≤ c)
    (h : Echoes recipe (slice list a b)) (h' : Echoes recipe' (slice list b c)) :
    Echoes (recipe ++ recipe') (slice list a c) := by
  rw [← Build.slice_append hab hbc]
  exact h.append h'

theorem echoes_startGen10 : Echoes (listFileStartGen10 n list) (portion list 10 n) := by
  have hfirst : bump0To1 (10 * n) - 1 = 10 * n - 1 := by
    unfold bump0To1
    split_ifs <;> omega
  rw [listFileStartGen10, indexWordList, wordlist, hfirst]
  exact echoes_echoWords _

theorem echoes_alwaysGen10 : Echoes (listFileAlwaysGen10 n list) (portion list 10 n) :=
  echoes_echoWords _

theorem echoes_maybeGen10 : Echoes (listFileMaybeGen10 n list) (portion list 10 n) := by
  unfold listFileMaybeGen10
  split_ifs with hword
  · exact echoes_echoWords _
  · rw [word_ne_none_iff, not_lt] at hword
    rw [portion, slice_eq_nil hword]
    exact echoes_nil

theorem echoes_withDigits {gen : Nat → List Word → List Command} {width : Nat}
    (hgen : ∀ n, Echoes (gen n list) (portion list width n)) (n first count : Nat) :
    Echoes (withDigits gen n (List.range' first count) list)
      (slice list (width * (10 * n + first) - 1) (width * (10 * n + first + count) - 1)) := by
  induction count generalizing first with
  | zero =>
    have hempty : slice list (width * (10 * n + first) - 1)
        (width * (10 * n + first + 0) - 1) = [] := by
      rw [slice, Nat.add_zero, drop_eq_nil_iff]
      exact length_take_le _ _
    rw [hempty]
    exact echoes_nil
  | succ count ih =>
    have hfirst := hgen (10 * n + first)
    have hrest := ih (first + 1)
    have hend : 10 * n + (first + 1) + count = 10 * n + first + (count + 1) := by omega
    rw [hend, ← Nat.add_assoc] at hrest
    refine Echoes.slice_append ?_ ?_ hfirst hrest
    · exact Nat.sub_le_sub_right (Nat.mul_le_mul_left _ (by omega)) 1
    · exact Nat.sub_le_sub_right (Nat.mul_le_mul_left _ (by omega)) 1

section TenTimes

variable {start always maybe : Nat → List Word → List Command} {width : Nat}

/-- Ten times the width with the first call, and with calls for the other nine digits. -/
theorem echoes_start_withDigits
    (hstart : Echoes (start (10 * n) list) (portion list width (10 * n)))
    (halways : ∀ n, Echoes (always n list) (portion list width n)) :
    Echoes (start (10 * n) list ++ withDigits always n [1, 2, 3, 4, 5, 6, 7, 8, 9] list)
      (portion list (10 * width) n) := by
  have hrest := echoes_withDigits halways n 1 9
  have hall := Echoes.slice_append (Nat.sub_le_sub_right (Nat.mul_le_mul_left _ (by omega)) 1)
    (Nat.sub_le_sub_right (Nat.mul_le_mul_left _ (by omega)) 1) hstart hrest
  have hfirst : width * (10 * n) = 10 * width * n := by ring
  have hlast : width * (10 * n + 1 + 9) = 10 * width * (n + 1) := by ring
  rwa [hfirst, hlast] at hall

/-- The first call alone, and calls for the digits up to `count`, when there are no words behind
    them. -/
theorem echoes_start_short (hstart : Echoes (start (10 * n) list) (portion list width (10 * n)))
    {count : Nat} (hcount : count ≤ 9)
    (hrecipe : Echoes recipe (slice list (width * (10 * n + 1) - 1)
      (width * (10 * n + 1 + count) - 1))) (hshort : list.length ≤ width * (10 * n + 1 + count) - 1)
    :
    Echoes (start (10 * n) list ++ recipe) (portion list (10 * width) n) := by
  have hsome := Echoes.slice_append (Nat.sub_le_sub_right (Nat.mul_le_mul_left _ (by omega)) 1)
    (Nat.sub_le_sub_right (Nat.mul_le_mul_left _ (by omega)) 1) hstart hrecipe
  have hfirst : width * (10 * n) = 10 * width * n := by ring
  have hle : width * (10 * n + 1 + count) - 1 ≤ 10 * width * (n + 1) - 1 := by
    have hlast : 10 * width * (n + 1) = width * (10 * n + 10) := by ring
    rw [hlast]
    exact Nat.sub_le_sub_right (Nat.mul_le_mul_left _ (by omega)) 1
  have hle' : 10 * width * n - 1 ≤ width * (10 * n + 1 + count) - 1 := by
    rw [← hfirst]
    exact Nat.sub_le_sub_right (Nat.mul_le_mul_left _ (by omega)) 1
  rw [hfirst] at hsome
  rw [portion, ← slice_append hle' hle, slice_eq_nil hshort, append_nil]
  exact hsome

theorem echoes_maybe {all half last : Nat} (hall : all = 10 * width)
    (hhalf : half = 5 * width) (hlast : last + 1 = all)
    (hstart : ∀ n, Echoes (start n list) (portion list width n))
    (halways : ∀ n, Echoes (always n list) (portion list width n))
    (hmaybe : ∀ n, Echoes (maybe n list) (portion list width n)) :
    Echoes
      (if word (bump0To1 (all * n)) list ≠ none then
        if word (all * n + last) list ≠ none then
          start (10 * n) list ++ withDigits always n [1, 2, 3, 4, 5, 6, 7, 8, 9] list
        else if word (all * n + half) list ≠ none then
          start (10 * n) list ++ withDigits always n [1, 2, 3, 4] list ++
            withDigits maybe n [5, 6, 7, 8, 9] list
        else start (10 * n) list ++ withDigits maybe n [1, 2, 3, 4] list
      else []) (portion list all n) := by
  subst hall hhalf
  split_ifs with hword hwordLast hwordHalf
  · exact echoes_start_withDigits (hstart _) halways
  · have hdigits := Echoes.slice_append (Nat.sub_le_sub_right (Nat.mul_le_mul_left _ (by omega)) 1)
      (Nat.sub_le_sub_right (Nat.mul_le_mul_left _ (by omega)) 1)
      (echoes_withDigits halways n 1 4) (echoes_withDigits hmaybe n 5 5)
    rw [append_assoc]
    refine echoes_start_short (hstart _) le_rfl hdigits ?_
    rw [word_ne_none_iff, not_lt] at hwordLast
    refine hwordLast.trans ?_
    have hend : width * (10 * n + 1 + 9) = 10 * width * n + 10 * width := by ring
    omega
  · refine echoes_start_short (hstart _) (by omega) (echoes_withDigits hmaybe n 1 4) ?_
    rw [word_ne_none_iff, not_lt] at hwordHalf
    have hend : width * (10 * n + 1 + 4) = 10 * width * n + 5 * width := by ring
    omega
  · have hnone : list.length ≤ 10 * width * n - 1 := by
      rw [word_ne_none_iff, not_lt, bump0To1] at hword
      split_ifs at hword <;> omega
    rw [portion, slice_eq_nil hnone]
    exact echoes_nil

end TenTimes

theorem echoes_startGen100 : Echoes (listFileStartGen100 n list) (portion list 100 n) :=
  echoes_start_withDigits echoes_startGen10 fun _ => echoes_alwaysGen10

theorem echoes_alwaysGen100 : Echoes (listFileAlwaysGen100 n list) (portion list 100 n) :=
  echoes_start_withDigits echoes_alwaysGen10 fun _ => echoes_alwaysGen10

theorem echoes_maybeGen100 : Echoes (listFileMaybeGen100 n list) (portion list 100 n) :=
  echoes_maybe rfl rfl rfl (fun _ => echoes_startGen10) (fun _ => echoes_alwaysGen10)
    fun _ => echoes_maybeGen10

theorem echoes_maybeGen1000 : Echoes (listFileMaybeGen1000 n list) (portion list 1000 n) :=
  echoes_maybe rfl rfl rfl (fun _ => echoes_startGen100) (fun _ => echoes_alwaysGen100)
    fun _ => echoes_maybeGen100

theorem echoes_generateListFile : ∃ recipe, generateListFile list = .create [] :: recipe ∧
    Echoes recipe (list.take 5999) := by
  have hgen : ∀ n, Echoes (listFileMaybeGen1000 n list) (portion list 1000 n) :=
    fun _ => echoes_maybeGen1000
  have hdigits : withDigits listFileMaybeGen1000 0 (List.range' 0 6) list =
      [0, 1, 2, 3, 4, 5].flatMap fun n => listFileMaybeGen1000 n list := by
    simp only [withDigits, Nat.mul_zero, Nat.zero_add]
    rfl
  have hslice : slice list (1000 * (10 * 0 + 0) - 1) (1000 * (10 * 0 + 0 + 6) - 1) =
      list.take 5999 := by simp [slice]
  have hall := echoes_withDigits hgen 0 0 6
  rw [hdigits, hslice] at hall
  exact ⟨_, rfl, hall⟩

/-! ## The file -/

/-- No word has a character with a meaning to the shell. -/
def Plain (list : List Word) : Prop := ∀ w ∈ list, ∀ c ∈ w.chars, c ∉ shellSpecial

theorem run_echoWords (hplain : Plain words) (contents : List Char) :
    (echoWords words).run contents = some (contents ++ (unwords words ++ [' '])) := by
  have hnone : ¬(unwords words ++ [' ']).any (· ∈ shellSpecial) = true := by
    rw [any_eq_true]
    rintro ⟨c, hc, hmem⟩
    have hspecial := of_decide_eq_true hmem
    have hblank : ' ' ∉ shellSpecial := by decide
    rcases mem_append.mp hc with hc | hc
    · rcases mem_unwords hc with rfl | ⟨w, hw, hchar⟩
      · exact hblank hspecial
      · exact hplain w hw c hchar hspecial
    · rw [mem_singleton.mp hc] at hspecial
      exact hblank hspecial
  rw [echoWords, Command.run, if_neg hnone]

/-- The file ends in a blank, so that the next words are words of their own. -/
theorem Echoes.run (h : Echoes recipe words) (hplain : Plain words) (contents : List Char) :
    ∃ contents', runRecipe (contents ++ [' ']) recipe = some (contents' ++ [' ']) ∧
      Word.split contents' = Word.split contents ++ words := by
  obtain ⟨parts, rfl, rfl⟩ := h
  induction parts generalizing contents with
  | nil => exact ⟨contents, rfl, by simp⟩
  | cons part parts ih =>
    rw [flatten_cons] at hplain
    have hpart : Plain part := fun w hw => hplain w (mem_append_left _ hw)
    have hparts : Plain parts.flatten := fun w hw => hplain w (mem_append_right _ hw)
    obtain ⟨contents', hrun, hsplit⟩ := ih (contents ++ ' ' :: unwords part) hparts
    refine ⟨contents', ?_, ?_⟩
    · rw [runRecipe, map_cons, foldlM_cons, run_echoWords hpart]
      rw [runRecipe] at hrun
      simpa using hrun
    · have hblank : isBlank ' ' = true := rfl
      rw [hsplit, Word.split_append_blank hblank, split_unwords, flatten_cons,
        append_assoc]

/-- What is in the file after all commands: the first 5999 words. -/
theorem split_generateListFile (hplain : Plain list) (contents : List Char) :
    ∃ contents', runRecipe contents (generateListFile list) = some contents' ∧
      Word.split contents' = list.take 5999 := by
  obtain ⟨recipe, hrecipe, parts, rfl, hparts⟩ : ∃ recipe,
      generateListFile list = .create [] :: recipe ∧ Echoes recipe (list.take 5999) :=
    echoes_generateListFile
  have hwords : Plain (list.take 5999) := fun w hw => hplain w (mem_of_mem_take hw)
  rw [hparts] at hwords ⊢
  have hcreate : (Command.create []).run contents = some [] := by simp [Command.run]
  rw [hrecipe, runRecipe, foldlM_cons, hcreate]
  rcases parts with _ | ⟨part, parts⟩
  · exact ⟨[], rfl, rfl⟩
  · -- the first command begins an empty file
    rw [flatten_cons] at hwords ⊢
    have hpart : Plain part := fun w hw => hwords w (mem_append_left _ hw)
    have hrest : Plain parts.flatten := fun w hw => hwords w (mem_append_right _ hw)
    obtain ⟨contents', hrun, hsplit⟩ := Echoes.run ⟨parts, rfl, rfl⟩ hrest (unwords part)
    refine ⟨contents' ++ [' '], ?_, ?_⟩
    · rw [runRecipe] at hrun
      rw [map_cons]
      simpa [foldlM_cons, run_echoWords hpart] using hrun
    · have hblank : isBlank ' ' = true := rfl
      rw [Word.split_append_blank hblank, hsplit, split_unwords, Word.split_nil, append_nil]

theorem exists_split_ne (hplain : Plain list) (h : 6000 ≤ list.length) (contents : List Char) :
    ∃ contents', runRecipe contents (generateListFile list) = some contents' ∧
      Word.split contents' ≠ list := by
  obtain ⟨contents', hrun, hsplit⟩ := split_generateListFile hplain contents
  refine ⟨contents', hrun, fun heq => ?_⟩
  have hlength := congrArg List.length (hsplit.symm.trans heq)
  rw [length_take] at hlength
  omega

/-- The commands of `generate-list-file` write a list of words exactly when it has less than 6000
    of them. -/
theorem generateListFile_words_iff (list : List Word) (hplain : Plain list)
    (contents : List Char) : ∃ contents',
      runRecipe contents (generateListFile list) = some contents' ∧
        (Word.split contents' = list ↔ list.length < 6000) := by
  obtain ⟨contents', hrun, hsplit⟩ := split_generateListFile hplain contents
  refine ⟨contents', hrun, ?_⟩
  rw [hsplit, take_eq_self_iff]
  omega

section Objects

def mainO : Word := Word.ofString "main.o" (by simp [isBlank])

theorem plain_replicate (count : Nat) : Plain (List.replicate count mainO) := by
  have hplain : mainO.chars.all (· ∉ shellSpecial) = true := by decide
  intro w hw c hc
  rw [(mem_replicate.mp hw).2] at hc
  exact of_decide_eq_true (all_eq_true.mp hplain c hc)

theorem generateListFile_words_two : ∃ contents',
    runRecipe [] (generateListFile [mainO, mainO]) = some contents' ∧
      Word.split contents' = [mainO, mainO] := by
  obtain ⟨contents', hrun, hiff⟩ :=
    generateListFile_words_iff [mainO, mainO] (plain_replicate 2) []
  exact ⟨contents', hrun, hiff.mpr (by decide)⟩

/-- The last one of 6000 objects is not in the file. -/
theorem generateListFile_lost : ∃ contents',
    runRecipe [] (generateListFile (List.replicate 6000 mainO)) = some contents' ∧
      Word.split contents' ≠ List.replicate 6000 mainO :=
  exists_split_ne (plain_replicate 6000) (by rw [length_replicate]) []

end Objects

end CrystaxNdk.Build
