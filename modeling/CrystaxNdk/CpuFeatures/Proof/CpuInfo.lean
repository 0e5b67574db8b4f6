import CrystaxNdk.CpuFeatures.CpuFeatures
import CrystaxNdk.Lib.Fields

/-!
# The lines of `/proc/cpuinfo`

The search for a field runs over the whole buffer. For a name without colons and newlines it can be
told line by line (`extracts_taken`): it stops at the first line that begins with the name, and from
there takes the first line that has a colon, if the colon is followed by a space. That a field is at
the beginning of its line, and that its value comes after a colon and a space, is what the function
asks for. It does not look whether the line has the name as its key, and so it takes the value of a
longer key, or of a later line, for the value of the field. Where the first line that begins with
the name has it as its key, the answer is that of the line.
-/

namespace CrystaxNdk.CpuFeatures

open Lib List

/-! ## Lines -/

structure Line where
  chars : List Char
  noNewline : '\n' ∉ chars
deriving DecidableEq

namespace Line

def HasColon (line : Line) : Prop := ':' ∈ line.chars

instance (line : Line) : Decidable line.HasColon := inferInstanceAs (Decidable (_ ∈ _))

/-- The text before the colon, without the blanks around it. -/
def key (line : Line) : Option (List Char) :=
  if line.HasColon then
    some (((line.chars.takeWhile (· ≠ ':')).dropWhile isItemBlank).rdropWhile isItemBlank)
  else none

def afterColon (line : Line) : List Char := (line.chars.dropWhile (· ≠ ':')).drop 1

def Spaced (line : Line) : Prop := line.afterColon.head? = some ' '

instance (line : Line) : Decidable line.Spaced := inferInstanceAs (Decidable (_ = _))

/-- The text behind the colon, without a space that follows it. -/
def value (line : Line) : List Char :=
  if line.Spaced then line.afterColon.tail else line.afterColon

def BeginsWith (field : List Char) (line : Line) : Prop := field.isPrefixOf line.chars = true

instance (field : List Char) (line : Line) : Decidable (line.BeginsWith field) :=
  inferInstanceAs (Decidable (_ = _))

end Line

/-- A text of lines, each with a newline at its end. -/
def linesText (lines : List Line) : List Char := lines.flatMap fun line => line.chars ++ ['\n']

/-- The value of the first line that has the field as its key. -/
def firstValue (lines : List Line) (field : List Char) : Option (List Char) :=
  (lines.find? fun line => line.key = some field).map Line.value

/-- The function returns so in the end. -/
def Extracts (buffer field : List Char) (result : Option (List Char)) : Prop :=
  ∃ rounds, ∀ fuel ≥ rounds, extractCpuinfoField fuel buffer field = some result

def takenLine (lines : List Line) (field : List Char) : Option Line :=
  (lines.dropWhile fun line => ¬ line.BeginsWith field).find? fun line => line.HasColon

def spacedValue (line : Line) : Option (List Char) := if line.Spaced then some line.value else none

@[simp]
theorem linesText_nil : linesText [] = [] := rfl

theorem linesText_cons (line : Line) (lines : List Line) :
    linesText (line :: lines) = line.chars ++ '\n' :: linesText lines := by
  simp [linesText]

/-! ## The value -/

theorem dropWhile_append_of_not_mem {a : Char} {front rest : List Char} (h : a ∉ front) :
    (front ++ rest).dropWhile (· ≠ a) = rest.dropWhile (· ≠ a) := by
  refine dropWhile_append_of_pos fun c hc => ?_
  rw [decide_eq_true_eq]
  rintro rfl
  exact h hc

theorem takeWhile_append_of_not_mem {a : Char} {front rest : List Char} (h : a ∉ front) :
    (front ++ a :: rest).takeWhile (· ≠ a) = front := by
  have hall : ∀ c ∈ front, decide (c ≠ a) = true := by
    intro c hc
    rw [decide_eq_true_eq]
    rintro rfl
    exact h hc
  rw [takeWhile_append_of_pos hall]
  simp

theorem Line.exists_afterColon {line : Line} (h : line.HasColon) :
    ∃ front, ':' ∉ front ∧ line.chars = front ++ ':' :: line.afterColon := by
  obtain ⟨front, back, hchars, hfront⟩ := eq_append_cons_of_mem h
  refine ⟨front, hfront, ?_⟩
  have hafter : line.afterColon = back := by
    rw [Line.afterColon, hchars, dropWhile_append_of_not_mem hfront]
    simp
  rw [hafter, hchars]

theorem copyValue_append {front rest : List Char} (h : ':' ∉ front) :
    copyValue (front ++ rest) = copyValue rest := by
  unfold copyValue
  rw [dropWhile_append_of_not_mem h]

theorem copyValue_colon {after : List Char} (hnewline : '\n' ∉ after) (rest : List Char) :
    copyValue (':' :: after ++ '\n' :: rest) =
      if after.head? = some ' ' then some after.tail else none := by
  have hstart : (':' :: after ++ '\n' :: rest).dropWhile (· ≠ ':') =
      ':' :: (after ++ '\n' :: rest) := by simp
  rw [copyValue, hstart]
  cases after with
  | nil => simp
  | cons c after =>
    have hafter : '\n' ∉ after := fun hmem => hnewline (mem_cons_of_mem c hmem)
    have htake : (after ++ '\n' :: rest).takeWhile (· ≠ '\n') = after :=
      takeWhile_append_of_not_mem hafter
    by_cases hspace : c = ' '
    · simpa [hspace] using htake
    · simp [hspace]

theorem copyValue_of_hasColon {line : Line} (h : line.HasColon) (rest : List Char) :
    copyValue (line.chars ++ '\n' :: rest) = spacedValue line := by
  obtain ⟨front, hfront, hchars⟩ := Line.exists_afterColon h
  have hnewline : '\n' ∉ line.afterColon := by
    intro hmem
    apply line.noNewline
    rw [hchars]
    exact mem_append_right _ (mem_cons_of_mem _ hmem)
  rw [hchars, append_assoc, copyValue_append hfront, copyValue_colon hnewline]
  unfold spacedValue Line.value
  by_cases hspaced : line.Spaced
  · rw [if_pos hspaced, if_pos hspaced]
    exact if_pos hspaced
  · rw [if_neg hspaced]
    exact if_neg hspaced

/-- The value is copied from the first line that has a colon. -/
theorem copyValue_linesText (lines : List Line) :
    copyValue (linesText lines) = (lines.find? fun line => line.HasColon).bind spacedValue := by
  induction lines with
  | nil => rfl
  | cons line lines ih =>
    rw [linesText_cons]
    by_cases hcolon : line.HasColon
    · rw [copyValue_of_hasColon hcolon, find?_cons_of_pos (by simpa using hcolon)]
      rfl
    · have hfront : ':' ∉ line.chars ++ ['\n'] := by
        simpa [Line.HasColon] using hcolon
      have htext : line.chars ++ '\n' :: linesText lines =
          (line.chars ++ ['\n']) ++ linesText lines := by simp
      rw [htext, copyValue_append hfront, ih, find?_cons_of_neg (by simpa using hcolon)]

/-! ## The search -/

/-- The loop comes to an end with this. -/
def Finds (field before rest : List Char) (found : Option (List Char)) : Prop :=
  ∃ rounds, ∀ fuel ≥ rounds, findField field fuel before rest = some found

section Search

variable {field before before' rest rest' : List Char} {found : Option (List Char)}

theorem Finds.congr (h : Finds field before rest found)
    (hmem : memmem field before' rest' = memmem field before rest) :
    Finds field before' rest' found := by
  obtain ⟨rounds, hrounds⟩ := h
  refine ⟨rounds, fun fuel hfuel => ?_⟩
  rw [← hrounds fuel hfuel]
  cases fuel with
  | zero => rfl
  | succ fuel => rw [findField, findField, hmem]

theorem memmem_of_isPrefixOf (h : field.isPrefixOf rest = true) :
    memmem field before rest = some (before, rest) := by
  cases rest with
  | nil =>
    have hfield : field = [] := prefix_nil.mp (List.isPrefixOf_iff_prefix.mp h)
    rw [memmem, if_pos hfield]
  | cons c rest => rw [memmem, if_pos h]

theorem memmem_skip {c : Char} (h : field.isPrefixOf (c :: rest) = false) :
    memmem field before (c :: rest) = memmem field (before ++ [c]) rest := by
  rw [memmem, if_neg (by simp [h])]

theorem isPrefixOf_newline {chars : List Char} (hnewline : '\n' ∉ field) :
    field.isPrefixOf (chars ++ '\n' :: rest) = field.isPrefixOf chars := by
  rw [Bool.eq_iff_iff, isPrefixOf_iff_prefix, isPrefixOf_iff_prefix]
  constructor
  · intro h
    rcases Lib.prefix_append_cases h with ⟨hmatches, -⟩ | ⟨more, rfl, hmore⟩
    · exact hmatches
    · cases more with
      | nil => simp
      | cons c more =>
        obtain ⟨rfl, -⟩ := cons_prefix_cons.mp hmore
        exact absurd (mem_append_right _ mem_cons_self) hnewline
  · exact fun h => h.trans (prefix_append _ _)

theorem not_startsLine_append (more : List Char) (hmore : more ≠ []) (hnewline : '\n' ∉ more) :
    ¬ StartsLine (before ++ more) := by
  unfold StartsLine
  rw [getLast?_append_of_ne_nil _ hmore, not_or]
  refine ⟨append_ne_nil_of_right_ne_nil _ hmore, fun h => ?_⟩
  exact hnewline (mem_of_getLast? h)

/-- Within a line nothing is found: the search gets to the next one. By induction on what is left of
    the line, of which a match takes the length of the name and anything else one character. -/
theorem Finds.pass {chars : List Char} (hfield : field ≠ []) (hnewline : '\n' ∉ field)
    (hchars : '\n' ∉ chars) (hbefore : ¬ StartsLine before)
    (h : Finds field (before ++ chars ++ ['\n']) rest found) :
    Finds field before (chars ++ '\n' :: rest) found := by
  induction hlength : chars.length using Nat.strong_induction_on generalizing chars before with
  | _ length ih =>
    cases hmatch : field.isPrefixOf (chars ++ '\n' :: rest) with
    | true =>
      rw [isPrefixOf_newline hnewline, isPrefixOf_iff_prefix] at hmatch
      obtain ⟨left, rfl⟩ := hmatch
      have hpos := length_pos_iff.mpr hfield
      have hleft : Finds field (before ++ field) (left ++ '\n' :: rest) found := by
        refine ih left.length ?_ ?_ (not_startsLine_append field hfield hnewline) ?_ rfl
        · rw [length_append] at hlength
          omega
        · exact fun hmem => hchars (mem_append_right _ hmem)
        · simpa using h
      obtain ⟨rounds, hrounds⟩ := hleft
      refine ⟨rounds + 1, fun fuel hfuel => ?_⟩
      obtain ⟨fuel, rfl⟩ := Nat.exists_eq_succ_of_ne_zero (Nat.ne_zero_of_lt hfuel)
      have hmatches : field.isPrefixOf (field ++ left ++ '\n' :: rest) = true := by
        rw [List.isPrefixOf_iff_prefix, append_assoc]
        exact prefix_append _ _
      rw [findField, memmem_of_isPrefixOf hmatches]
      dsimp only
      rw [if_neg hbefore, append_assoc, take_left, drop_left]
      exact hrounds fuel (Nat.le_of_succ_le_succ hfuel)
    | false =>
      cases chars with
      | nil =>
        refine h.congr ?_
        rw [append_nil]
        exact memmem_skip hmatch
      | cons c chars =>
        have hc : '\n' ∉ [c] := fun hmem =>
          hchars (mem_singleton.mp hmem ▸ mem_cons_self)
        have hleft : Finds field (before ++ [c]) (chars ++ '\n' :: rest) found := by
          refine ih chars.length ?_ ?_ (not_startsLine_append [c] (by simp) hc) ?_ rfl
          · rw [length_cons] at hlength
            omega
          · exact fun hmem => hchars (mem_cons_of_mem c hmem)
          · simpa using h
        exact hleft.congr (memmem_skip hmatch)

end Search

/-- From the beginning of a line, by induction on the lines. -/
theorem exists_finds (lines : List Line) {field before : List Char} (hcolon : ':' ∉ field)
    (hnewline : '\n' ∉ field) (hbefore : StartsLine before) :
    ∃ found, Finds field before (linesText lines) found ∧
      found.bind copyValue = (takenLine lines field).bind spacedValue := by
  induction lines generalizing before with
  | nil =>
    by_cases hfield : field = []
    · refine ⟨some [], ⟨1, fun fuel hfuel => ?_⟩, rfl⟩
      obtain ⟨fuel, rfl⟩ := Nat.exists_eq_succ_of_ne_zero (Nat.ne_zero_of_lt hfuel)
      simp [findField, memmem, hfield, hbefore]
    · refine ⟨none, ⟨1, fun fuel hfuel => ?_⟩, rfl⟩
      obtain ⟨fuel, rfl⟩ := Nat.exists_eq_succ_of_ne_zero (Nat.ne_zero_of_lt hfuel)
      simp [findField, memmem, hfield]
  | cons line lines ih =>
    by_cases hbegins : line.BeginsWith field
    · have htaken : takenLine (line :: lines) field =
          (line :: lines).find? fun line => line.HasColon := by
        rw [takenLine, dropWhile_cons_of_neg (by simpa using hbegins)]
      obtain ⟨left, hchars⟩ := isPrefixOf_iff_prefix.mp hbegins
      have hmatches : field.isPrefixOf (linesText (line :: lines)) = true := by
        rw [linesText_cons, isPrefixOf_newline hnewline]
        exact hbegins
      have hdrop : (linesText (line :: lines)).drop field.length =
          left ++ '\n' :: linesText lines := by
        rw [linesText_cons, ← hchars, append_assoc, drop_left]
      refine ⟨some (left ++ '\n' :: linesText lines), ⟨1, fun fuel hfuel => ?_⟩, ?_⟩
      · obtain ⟨fuel, rfl⟩ := Nat.exists_eq_succ_of_ne_zero (Nat.ne_zero_of_lt hfuel)
        rw [findField, memmem_of_isPrefixOf hmatches]
        dsimp only
        rw [if_pos hbefore, hdrop]
      · rw [htaken, ← copyValue_linesText, linesText_cons, ← hchars, append_assoc,
          copyValue_append hcolon]
        rfl
    · have htaken : takenLine (line :: lines) field = takenLine lines field := by
        rw [takenLine, dropWhile_cons_of_pos (by simpa using hbegins)]
        rfl
      have hfield : field ≠ [] := by
        rintro rfl
        exact hbegins rfl
      have hnext : StartsLine (before ++ line.chars ++ ['\n']) := Or.inr (by simp)
      obtain ⟨found, hfound, hvalue⟩ := ih hnext
      refine ⟨found, ?_, by rw [htaken, hvalue]⟩
      have hmatch : field.isPrefixOf (line.chars ++ '\n' :: linesText lines) = false := by
        rw [isPrefixOf_newline hnewline]
        exact Bool.eq_false_iff.mpr hbegins
      rw [linesText_cons]
      have hline := line.noNewline
      -- the first character is skipped, and then the search is within the line
      cases hchars : line.chars with
      | nil =>
        rw [hchars] at hmatch hfound
        rw [append_nil] at hfound
        exact hfound.congr (memmem_skip hmatch)
      | cons c chars =>
        rw [hchars] at hmatch hfound hline
        have hc : '\n' ∉ [c] := fun hmem =>
          hline (mem_singleton.mp hmem ▸ mem_cons_self)
        have hpass : Finds field (before ++ [c]) (chars ++ '\n' :: linesText lines) found := by
          refine Finds.pass hfield hnewline (fun hmem => hline (mem_cons_of_mem c hmem))
            (not_startsLine_append [c] (by simp) hc) ?_
          simpa using hfound
        exact hpass.congr (memmem_skip hmatch)

theorem extracts_taken {lines : List Line} {field : List Char} (hcolon : ':' ∉ field)
    (hnewline : '\n' ∉ field) :
    Extracts (linesText lines) field ((takenLine lines field).bind spacedValue) := by
  obtain ⟨found, hfound, hvalue⟩ := exists_finds lines hcolon hnewline (Or.inl rfl)
  obtain ⟨rounds, hrounds⟩ := hfound
  refine ⟨rounds, fun fuel hfuel => ?_⟩
  rw [extractCpuinfoField, hrounds fuel hfuel, ← hvalue]
  rfl

-- the value of a longer key, and that of another field
example : takenLine [⟨"ab: x".toList, by decide⟩, ⟨"a: y".toList, by decide⟩] "a".toList =
    some ⟨"ab: x".toList, by decide⟩ := by decide +kernel

example : takenLine [⟨"a".toList, by decide⟩, ⟨"b: x".toList, by decide⟩] "a".toList =
    some ⟨"b: x".toList, by decide⟩ := by decide +kernel

theorem Extracts.unique {buffer field : List Char} {a b : Option (List Char)}
    (ha : Extracts buffer field a) (hb : Extracts buffer field b) : a = b := by
  obtain ⟨m, hm⟩ := ha
  obtain ⟨n, hn⟩ := hb
  have heq := (hm (max m n) (le_max_left m n)).symm.trans (hn (max m n) (le_max_right m n))
  exact Option.some.inj heq

/-- If the first line that begins with the name has it as its key, its value is taken. -/
theorem takenLine_eq {lines : List Line} {field : List Char}
    (hfirst : ∀ line, lines.find? (fun line => line.BeginsWith field) = some line →
      line.key = some field) :
    takenLine lines field =
      lines.find? fun line => line.BeginsWith field ∧ line.key = some field := by
  unfold takenLine
  induction lines with
  | nil => rfl
  | cons line lines ih =>
    by_cases hbegins : line.BeginsWith field
    · have hkey := hfirst line (find?_cons_of_pos (by simpa using hbegins))
      have hcolon : line.HasColon := by
        by_contra hcolon
        rw [Line.key, if_neg hcolon] at hkey
        cases hkey
      rw [dropWhile_cons_of_neg (by simpa using hbegins),
        find?_cons_of_pos (by simpa using hcolon),
        find?_cons_of_pos (by simpa using And.intro hbegins hkey)]
    · rw [dropWhile_cons_of_pos (by simpa using hbegins),
        find?_cons_of_neg (by simp [hbegins])]
      refine ih fun other hother => hfirst other ?_
      rw [find?_cons_of_neg (by simpa using hbegins), hother]

/-! ## Lists of items -/

/-- The function answers so in the end. -/
def Answers (list : Option (List Char)) (item : List Char) (answer : Bool) : Prop :=
  ∃ rounds, ∀ fuel ≥ rounds, hasListItem fuel list item = some answer

theorem mem_tokens_blank (text : List Char) {item : List Char} (hitem : item ≠ []) :
    item ∈ tokens isItemBlank text ↔
      (text.dropWhile isItemBlank).takeWhile (!isItemBlank ·) = item ∨
        item ∈ tokens isItemBlank
          ((text.dropWhile isItemBlank).dropWhile (!isItemBlank ·)) := by
  by_cases hword : (text.dropWhile isItemBlank).takeWhile (!isItemBlank ·) = []
  · have hcut := takeWhile_append_dropWhile (p := (!isItemBlank ·))
      (l := text.dropWhile isItemBlank)
    rw [hword, nil_append] at hcut
    rw [hcut, tokens_dropWhile, hword, tokens_eq_nil hword]
    simp [hitem.symm]
  · rw [← tokens_dropWhile, tokens_eq_cons hword, mem_cons, eq_comm]

theorem length_dropWhile_lt {text : List Char} (h : text ≠ []) :
    ((text.dropWhile isItemBlank).dropWhile (!isItemBlank ·)).length < text.length := by
  obtain ⟨c, rest, rfl⟩ := exists_cons_of_ne_nil h
  have hrest := (dropWhile_suffix isItemBlank (l := rest)).length_le
  have hleft (more : List Char) := (dropWhile_suffix (!isItemBlank ·) (l := more)).length_le
  rw [length_cons]
  by_cases hc : isItemBlank c = true
  · rw [dropWhile_cons_of_pos hc]
    exact Nat.lt_succ_of_le ((hleft _).trans hrest)
  · rw [dropWhile_cons_of_neg hc, dropWhile_cons_of_pos (by simpa using hc)]
    exact Nat.lt_succ_of_le (hleft rest)

/-- The loop, by induction on the length of the text. -/
theorem answers_tokens (text : List Char) {item : List Char} (hitem : item ≠ []) :
    Answers (some text) item (decide (item ∈ tokens isItemBlank text)) := by
  unfold Answers hasListItem
  dsimp only
  induction hlength : text.length using Nat.strong_induction_on generalizing text with
  | _ length ih =>
    by_cases htext : text = []
    · refine ⟨1, fun fuel hfuel => ?_⟩
      obtain ⟨fuel, rfl⟩ := Nat.exists_eq_succ_of_ne_zero (Nat.ne_zero_of_lt hfuel)
      simp [listLoop, htext]
    · have hwords := mem_tokens_blank text hitem
      by_cases hword : (text.dropWhile isItemBlank).takeWhile (!isItemBlank ·) = item
      · refine ⟨1, fun fuel hfuel => ?_⟩
        obtain ⟨fuel, rfl⟩ := Nat.exists_eq_succ_of_ne_zero (Nat.ne_zero_of_lt hfuel)
        rw [listLoop, if_neg htext]
        dsimp only
        rw [if_pos ⟨by rw [hword], hword⟩, decide_eq_true (hwords.mpr (Or.inl hword))]
      · have hshort := length_dropWhile_lt htext
        obtain ⟨rounds, hrounds⟩ := ih _ (hlength ▸ hshort) _ rfl
        refine ⟨rounds + 1, fun fuel hfuel => ?_⟩
        obtain ⟨fuel, rfl⟩ := Nat.exists_eq_succ_of_ne_zero (Nat.ne_zero_of_lt hfuel)
        rw [listLoop, if_neg htext]
        dsimp only
        rw [if_neg (fun h => hword h.2), hrounds fuel (Nat.le_of_succ_le_succ hfuel)]
        simp only [hwords, hword, false_or]

/-! ## The result -/

/-- The value of the first line that begins with the field and has it as its key is extracted if a
    space follows the colon, provided that no other line that begins with the field comes before;
    and the items of a list are its words. -/
theorem cpuinfo_fields (lines : List Line) {field : List Char} (hcolon : ':' ∉ field)
    (hnewline : '\n' ∉ field)
    (hfirst : ∀ line, lines.find? (fun line => line.BeginsWith field) = some line →
      line.key = some field)
    (value : List Char) {item : List Char} (hitem : item ≠ []) :
    Extracts (linesText lines) field
        ((lines.find? fun line => line.BeginsWith field ∧ line.key = some field).bind
          spacedValue) ∧
      Answers (some value) item (decide (item ∈ tokens isItemBlank value)) := by
  refine ⟨?_, answers_tokens value hitem⟩
  rw [← takenLine_eq hfirst]
  exact extracts_taken hcolon hnewline

/-! Three lines: as they are in `/proc/cpuinfo`, with no space behind the colon, and with a blank
before the name. -/

def featuresLine : Line := ⟨"Features\t: neon vfp".toList, by decide⟩

def tightLine : Line := ⟨"Features:neon".toList, by decide⟩

def indentedLine : Line := ⟨" Features: neon".toList, by decide⟩

/-- Indented lines are passed over. -/
theorem cpuinfo_fields_features :
    Extracts (linesText [indentedLine, featuresLine]) "Features".toList
        (some "neon vfp".toList) ∧
      Answers (some "neon vfp".toList) "vfp".toList true := by
  have hfind : [indentedLine, featuresLine].find?
      (fun line => line.BeginsWith "Features".toList) = some featuresLine := by decide +kernel
  refine cpuinfo_fields [indentedLine, featuresLine] (by decide) (by decide) ?_
    "neon vfp".toList (by decide)
  intro line hline
  rw [hfind] at hline
  cases hline
  decide +kernel

/-- For a line with no space behind its colon, and for one that is indented, there is no answer. -/
theorem not_extracts_firstValue :
    ¬ Extracts (linesText [tightLine]) "Features".toList
        (firstValue [tightLine] "Features".toList) ∧
      ¬ Extracts (linesText [indentedLine]) "Features".toList
        (firstValue [indentedLine] "Features".toList) := by
  constructor
  · intro h
    exact absurd (h.unique (extracts_taken (by decide) (by decide))) (by decide +kernel)
  · intro h
    exact absurd (h.unique (extracts_taken (by decide) (by decide))) (by decide +kernel)

end CrystaxNdk.CpuFeatures
