import CrystaxNdk.Lib.Words

/-!
# Lists of words in `definitions-utils.mk` and `definitions.mk`

A value of make is a text; what the build scripts make of it is mostly a list of words. This module
has what they do with such lists on their own.

A value gets into a variable through `eval`, which reads it once more, as the right side of an
assignment. What make does there is not part of the build scripts: it is a parameter (`Eval`), of
which it is known that it leaves a text without `$` and `#` as it is.

`remove-duplicates` collects the words of a list in the variable `__uniq_ret`, and asks `findstring`
whether a word is there already.

A long list of objects is passed to the linker in a file. `generate-list-file` makes the recipe that
writes it: one command for each ten words, so that no command gets too long. Which commands there
are is decided when the recipe is made, with `word` and `wordlist` on the list; the macros append a
digit to their argument, as in `$10` for the argument followed by a zero, and a number here stands
for its digits with or without zeros in front. The file is written under the name `<file>.tmp`, and
copied if it differs.
-/

namespace CrystaxNdk.Build

open Lib List

def unwords (words : List Word) : List Char := List.intercalate [' '] (words.map Word.chars)

section Unwords

variable {words : List Word}

theorem unwords_cons (w : Word) (hne : words ≠ []) :
    unwords (w :: words) = w.chars ++ ' ' :: unwords words := by
  obtain ⟨w', words, rfl⟩ := exists_cons_of_ne_nil hne
  simp [unwords, List.intercalate]

@[simp] theorem split_unwords (words : List Word) : Word.split (unwords words) = words := by
  induction words with
  | nil => rfl
  | cons w words ih =>
    by_cases hne : words = []
    · subst hne
      simp [unwords, List.intercalate]
    · rw [unwords_cons w hne, Word.split_append_blank rfl, Word.split_chars, ih]
      rfl

theorem mem_unwords {c : Char} (h : c ∈ unwords words) :
    c = ' ' ∨ ∃ w ∈ words, c ∈ w.chars := by
  induction words with
  | nil => cases h
  | cons w words ih =>
    by_cases hne : words = []
    · subst hne
      exact Or.inr ⟨w, by simp, by simpa [unwords, List.intercalate] using h⟩
    · rw [unwords_cons w hne, mem_append, mem_cons] at h
      rcases h with h | h | h
      · exact Or.inr ⟨w, mem_cons_self, h⟩
      · exact Or.inl h
      · rcases ih h with hblank | ⟨v, hv, hc⟩
        · exact Or.inl hblank
        · exact Or.inr ⟨v, mem_cons_of_mem _ hv, hc⟩

end Unwords

/-! ## `eval` -/

/-- The second reading. A text in which nothing is to be expanded, and that is not cut off by a
    comment, stays as it is. -/
structure Eval where
  reread : List Char → List Char
  reread_plain : ∀ text, '$' ∉ text → '#' ∉ text → reread text = text

/-- The second reading of texts in which there is nothing to expand. -/
def plainEval : Eval := ⟨id, fun _ _ _ => rfl⟩

namespace Eval

variable {eval : Eval} {value : List Word}

/-- The words of a variable to which a list was assigned. -/
def assigned (eval : Eval) (value : List Word) : List Word :=
  Word.split (eval.reread (unwords value))

theorem assigned_plain (h : ∀ w ∈ value, '$' ∉ w.chars ∧ '#' ∉ w.chars) :
    eval.assigned value = value := by
  have hnot : ∀ c, c ≠ ' ' → (∀ w ∈ value, c ∉ w.chars) → c ∉ unwords value := by
    intro c hblank hwords hmem
    rcases mem_unwords hmem with heq | ⟨w, hw, hc⟩
    · exact hblank heq
    · exact hwords w hw hc
  rw [assigned, eval.reread_plain _ (hnot '$' (by decide) fun w hw => (h w hw).1)
    (hnot '#' (by decide) fun w hw => (h w hw).2), split_unwords]

@[simp] theorem assigned_nil : eval.assigned [] = [] := assigned_plain (by simp)

end Eval

/-! ## `remove-duplicates` -/

def findstring (find : Word) (text : List Char) : Bool := text.tails.any find.chars.isPrefixOf

/-- The body of the loop in `remove-duplicates`; `+=` puts a blank in between. -/
def uniqAdd (eval : Eval) (uniqRet : List Char) (uniqItem : Word) : List Char :=
  if findstring uniqItem uniqRet then uniqRet else uniqRet ++ ' ' :: eval.reread uniqItem.chars

/-- `remove-duplicates`, with the words of its answer. -/
def removeDuplicates (eval : Eval) (list : List Word) : List Word :=
  Word.split (list.foldl (uniqAdd eval) [])

/-! ## List files -/

/-- The characters with a meaning to the shell, or to a conditional of make; the last two are both
    kinds of single quotes. -/
def shellSpecial : List Char :=
  ['|', '&', ';', '<', '>', '(', ')', '$', '\\', '"', '*', '?', '[', ']', '#', '~', '!', '\x7b',
    '\x7d', '\x27', '\x60']

/-- `$(HOST_ECHO_N) "<text>"`, with its output sent to the file. -/
inductive Command where
  | create (text : List Char)
  | append (text : List Char)

namespace Command

/-- What becomes of the contents of the file. Only texts without special characters get to the
    command as they are. -/
def run (contents : List Char) : Command → Option (List Char)
  | create text => if text.any (· ∈ shellSpecial) then none else some text
  | append text => if text.any (· ∈ shellSpecial) then none else some (contents ++ text)

end Command

def runRecipe (contents : List Char) (recipe : List Command) : Option (List Char) :=
  recipe.foldlM Command.run contents

/-- `$(word n,list)`. Words are counted from 1, and make stops at a 0. -/
def word (n : Nat) (list : List Word) : Option Word := list[n - 1]?

def wordlist (first last : Nat) (list : List Word) : List Word := (list.take last).drop (first - 1)

def bump0To1 (n : Nat) : Nat := if n = 0 then 1 else n

def indexWordList (first last : Nat) (list : List Word) : List Word :=
  wordlist (bump0To1 first) last list

/-- The command with these words, and a blank at the end. -/
def echoWords (words : List Word) : Command := .append (unwords words ++ [' '])

def listFileStartGen10 (n : Nat) (list : List Word) : List Command :=
  [echoWords (indexWordList (10 * n) (10 * n + 9) list)]

def listFileAlwaysGen10 (n : Nat) (list : List Word) : List Command :=
  [echoWords (wordlist (10 * n) (10 * n + 9) list)]

def listFileMaybeGen10 (n : Nat) (list : List Word) : List Command :=
  if word (10 * n) list ≠ none then [echoWords (wordlist (10 * n) (10 * n + 9) list)] else []

/-- A macro called with each of the digits behind `n`. -/
def withDigits (gen : Nat → List Word → List Command) (n : Nat) (digits : List Nat)
    (list : List Word) : List Command :=
  digits.flatMap fun digit => gen (10 * n + digit) list

def listFileStartGen100 (n : Nat) (list : List Word) : List Command :=
  listFileStartGen10 (10 * n) list ++
    withDigits listFileAlwaysGen10 n [1, 2, 3, 4, 5, 6, 7, 8, 9] list

def listFileAlwaysGen100 (n : Nat) (list : List Word) : List Command :=
  withDigits listFileAlwaysGen10 n [0, 1, 2, 3, 4, 5, 6, 7, 8, 9] list

def listFileMaybeGen100 (n : Nat) (list : List Word) : List Command :=
  if word (bump0To1 (100 * n)) list ≠ none then
    if word (100 * n + 99) list ≠ none then
      listFileStartGen10 (10 * n) list ++
        withDigits listFileAlwaysGen10 n [1, 2, 3, 4, 5, 6, 7, 8, 9] list
    else if word (100 * n + 50) list ≠ none then
      listFileStartGen10 (10 * n) list ++ withDigits listFileAlwaysGen10 n [1, 2, 3, 4] list ++
        withDigits listFileMaybeGen10 n [5, 6, 7, 8, 9] list
    else
      listFileStartGen10 (10 * n) list ++ withDigits listFileMaybeGen10 n [1, 2, 3, 4] list
  else []

def listFileMaybeGen1000 (n : Nat) (list : List Word) : List Command :=
  if word (bump0To1 (1000 * n)) list ≠ none then
    if word (1000 * n + 999) list ≠ none then
      listFileStartGen100 (10 * n) list ++
        withDigits listFileAlwaysGen100 n [1, 2, 3, 4, 5, 6, 7, 8, 9] list
    else if word (1000 * n + 500) list ≠ none then
      listFileStartGen100 (10 * n) list ++ withDigits listFileAlwaysGen100 n [1, 2, 3, 4] list ++
        withDigits listFileMaybeGen100 n [5, 6, 7, 8, 9] list
    else
      listFileStartGen100 (10 * n) list ++ withDigits listFileMaybeGen100 n [1, 2, 3, 4] list
  else []

/-- `generate-list-file-ev`, with the recipe of `<file>.tmp`. -/
def generateListFile (list : List Word) : List Command :=
  .create [] :: [0, 1, 2, 3, 4, 5].flatMap fun n => listFileMaybeGen1000 n list

end CrystaxNdk.Build
