import CrystaxNdk.CrazyLinker.ProcMaps
import CrystaxNdk.Lib.Blocks

/-!
# Printed maps lines are parsed back

The first six tokens of a printed line are the fields that were printed, whatever follows them. The
seventh is the path up to its first space, with the newline of the line; if there is a newline and
no path, it is the newline.
-/

namespace CrystaxNdk.CrazyLinker

open Lib List

variable {a : Arch} {separator : Char} {token p : CString}

/-! ## Tokens -/

theorem mapsToken_append (hmem : separator ∉ token) (hne : token ≠ []) (rest : CString) :
    mapsToken separator (token ++ separator :: rest) =
      { start := token ++ separator :: rest, token := token, next := rest } := by
  have hstart : (token ++ separator :: rest).dropWhile (· = separator) =
      token ++ separator :: rest := by
    cases token with
    | nil => exact absurd rfl hne
    | cons c token =>
      have hc : c ≠ separator := fun hc => hmem (hc ▸ mem_cons_self)
      rw [cons_append, dropWhile_cons_of_neg (by simpa using hc)]
  rw [mapsToken, hstart, idxOf?_append_cons hmem]
  simp

theorem mapsToken_last (hmem : separator ∉ token) :
    mapsToken separator token = { start := token, token := token, next := [] } := by
  have hstart : token.dropWhile (· = separator) = token := by
    rw [dropWhile_eq_self_iff]
    intro hpos hfirst
    exact hmem (by simpa using (of_decide_eq_true hfirst) ▸ getElem_mem hpos)
  rw [mapsToken, hstart, idxOf?_eq_none_iff.mpr hmem]

theorem mapsToken_replicate (separator : Char) (n : Nat) (p : CString) :
    mapsToken separator (List.replicate n separator ++ p) = mapsToken separator p := by
  rw [mapsToken, mapsToken, dropWhile_append_of_pos]
  intro c hc
  exact decide_eq_true (eq_of_mem_replicate hc)

theorem not_mem_token (separator : Char) (p : CString) :
    separator ∉ (mapsToken separator p).token := by
  rw [mapsToken]
  cases hidx : (p.dropWhile (· = separator)).idxOf? separator with
  | none => exact idxOf?_eq_none_iff.mp hidx
  | some n =>
    obtain ⟨_, _, hbefore⟩ := idxOf?_eq_some_iff.mp hidx
    intro hmem
    obtain ⟨i, hi, hget⟩ := getElem_of_mem hmem
    rw [getElem_take] at hget
    rw [length_take] at hi
    exact hbefore i (by omega) hget

theorem parseFields_cons (field : MapsField) (separator : Char) (hsep : field.separator = separator)
    (hmem : separator ∉ token) (hne : token ≠ []) (fields : List MapsField) (rest : CString)
    (entry : MapsEntry a) :
    parseFields (field :: fields) (token ++ separator :: rest) entry =
      parseFields fields rest (storeField entry
        { start := token ++ separator :: rest, token := token, next := rest } field) := by
  rw [parseFields, hsep, mapsToken_append hmem hne]
  exact if_neg hne

/-! ## Numbers -/

theorem digitChar_ne {d : Nat} (h : d < 16) :
    d.digitChar ≠ '-' ∧ d.digitChar ≠ ' ' ∧ d.digitChar ≠ '+' ∧ d.digitChar ≠ 'x' ∧
      d.digitChar ≠ 'X' ∧ isSpace d.digitChar = false := by
  interval_cases d <;> decide

/-- A number with `-` or a space behind it is read by `strtoumax`. -/
theorem strtoumax_hexPadded {width n : Nat} (hn : n < 2 ^ 64)
    (hsep : separator = '-' ∨ separator = ' ') (rest : CString) :
    strtoumax (Lib.hexPadded width n ++ separator :: rest) = n := by
  have hdigits : ∀ c ∈ Lib.hexPadded width n, ∃ d, d < 16 ∧ c = d.digitChar :=
    fun c hc => exists_digitChar_of_mem_hexPadded hc
  have hread : readHex 0 (Lib.hexPadded width n ++ separator :: rest) = n := by
    refine readHex_hexPadded width n fun c hc => ?_
    cases hc
    rcases hsep with rfl | rfl <;> decide
  obtain ⟨c, cs, hcons⟩ := exists_cons_of_ne_nil (hexPadded_ne_nil width n)
  rw [hcons] at hdigits hread ⊢
  obtain ⟨d, hd, rfl⟩ := hdigits c mem_cons_self
  obtain ⟨hminus, -, hplus, -, -, hspace⟩ := digitChar_ne hd
  have hx : ∀ x, x = 'x' ∨ x = 'X' →
      (d.digitChar :: (cs ++ separator :: rest)).take 2 ≠ ['0', x] := by
    intro x hx htake
    cases cs with
    | nil =>
      have hsepx : separator = x := by
        simp only [nil_append, take_succ_cons, take_zero, List.cons.injEq] at htake
        exact htake.2.1
      rcases hsep with rfl | rfl <;> rcases hx with rfl | rfl <;> exact absurd hsepx (by decide)
    | cons c cs =>
      obtain ⟨d', hd', rfl⟩ := hdigits c (by simp)
      obtain ⟨-, -, -, hlower, hupper, -⟩ := digitChar_ne hd'
      simp only [cons_append, take_succ_cons, take_zero, List.cons.injEq] at htake
      rcases hx with rfl | rfl
      · exact hlower htake.2.1
      · exact hupper htake.2.1
  rw [cons_append] at hread ⊢
  simp only [strtoumax, dropWhile_cons, hspace, Bool.false_eq_true, if_false,
    head?_cons, Option.some.injEq, hminus, hplus, or_self, hx 'x' (Or.inl rfl),
    hx 'X' (Or.inr rfl), hread]
  rw [if_neg (by omega)]

/-! ## A printed line -/

namespace MapsLine

variable (l : MapsLine a)

/-- What the first six tokens leave in the entry. -/
def stored (entry : MapsEntry a) : MapsEntry a :=
  { entry with
    vmaStart := l.start, vmaEnd := l.stop, protFlags := l.prot,
    loadOffset := BitVec.ofNat _ l.offset.toNat * 4096#_ }

def pathText : CString :=
  if l.padding = 0 then [] else List.replicate (l.padding - 1) ' ' ++ l.ending

theorem not_mem_hexPadded {c : Char} (hc : c = '-' ∨ c = ' ') (width n : Nat) :
    c ∉ Lib.hexPadded width n := by
  intro hmem
  obtain ⟨d, hd, rfl⟩ := exists_digitChar_of_mem_hexPadded hmem
  obtain ⟨hminus, hspace, -⟩ := digitChar_ne hd
  rcases hc with hc | hc
  · exact hminus hc
  · exact hspace hc

theorem space_not_mem_inode : ' ' ∉ Nat.toDigits 10 l.inode := fun hmem =>
  absurd (Nat.isDigit_of_mem_toDigits (by decide) (by decide) hmem) (by decide)

theorem protectionFlags_permissions : protectionFlags l.permissions = l.prot := by
  obtain ⟨-, -, ⟨read, write, exec⟩, shared, -⟩ := l
  cases read <;> cases write <;> cases exec <;> cases shared <;> rfl

theorem two_pow_wordBits_le (a : Arch) : 2 ^ (8 * a.wordBytes) ≤ 2 ^ 64 := by
  cases a <;> decide

theorem lt_two_pow_sixtyfour (x : Addr a) : x.toNat < 2 ^ 64 :=
  Nat.lt_of_lt_of_le x.isLt (two_pow_wordBits_le a)

theorem parseFields_inode (entry : MapsEntry a) :
    parseFields [.inode, .path]
        (Nat.toDigits 10 l.inode ++ (List.replicate l.padding ' ' ++ l.ending)) entry =
      parseFields [.path] l.pathText entry := by
  have hdigits := l.space_not_mem_inode
  rw [pathText]
  split
  · rename_i hpadding
    have hpath : l.path = [] := by
      by_contra hne
      have hle := l.padded hne
      omega
    have hending : ' ' ∉ Nat.toDigits 10 l.inode ++ l.ending := by
      rw [ending, hpath, mem_append, nil_append]
      rintro (hmem | hmem)
      · exact hdigits hmem
      · split at hmem
        · exact absurd (mem_singleton.mp hmem) (by decide)
        · exact not_mem_nil hmem
    have hne : Nat.toDigits 10 l.inode ++ l.ending ≠ [] :=
      append_ne_nil_of_left_ne_nil Nat.toDigits_ne_nil _
    rw [hpadding, replicate_zero, nil_append, parseFields, MapsField.separator,
      mapsToken_last hending]
    · exact if_neg hne
    · exact MapsField.noConfusion
  · rename_i hpadding
    obtain ⟨n, hn⟩ := Nat.exists_eq_succ_of_ne_zero hpadding
    rw [hn, replicate_succ, cons_append, Nat.succ_sub_one,
      parseFields_cons .inode ' ' rfl hdigits Nat.toDigits_ne_nil, storeField]

theorem parseProcMapsLine_print (entry : MapsEntry a) :
    parseProcMapsLine l.print entry = parseFields [.path] l.pathText (l.stored entry) := by
  have hminus : ∀ width n, '-' ∉ Lib.hexPadded width n := fun width n =>
    not_mem_hexPadded (Or.inl rfl) width n
  have hspace : ∀ width n, ' ' ∉ Lib.hexPadded width n := fun width n =>
    not_mem_hexPadded (Or.inr rfl) width n
  have hpermissions : ' ' ∉ l.permissions := by
    intro hmem
    simp only [permissions, mem_cons, not_mem_nil, or_false] at hmem
    rcases hmem with hmem | hmem | hmem | hmem <;> split at hmem <;>
      exact absurd hmem (by decide)
  have hdevice : ' ' ∉ Lib.hexPadded 2 l.major ++ ':' :: Lib.hexPadded 2 l.minor := by
    intro hmem
    rcases mem_append.mp hmem with hmem | hmem
    · exact hspace _ _ hmem
    · rcases mem_cons.mp hmem with hmem | hmem
      · exact absurd hmem (by decide)
      · exact hspace _ _ hmem
  rw [parseProcMapsLine, print,
    parseFields_cons .vmaStart '-' rfl (hminus _ _) (hexPadded_ne_nil _ _),
    parseFields_cons .vmaEnd ' ' rfl (hspace _ _) (hexPadded_ne_nil _ _),
    parseFields_cons .protection ' ' rfl hpermissions (by simp [permissions]),
    parseFields_cons .pageOffset ' ' rfl (hspace _ _) (hexPadded_ne_nil _ _),
    parseFields_cons .device ' ' rfl hdevice (by simp), parseFields_inode]
  simp only [storeField, strtoumax_hexPadded (lt_two_pow_sixtyfour _) (Or.inl rfl),
    strtoumax_hexPadded (lt_two_pow_sixtyfour _) (Or.inr rfl),
    strtoumax_hexPadded l.offset.isLt (Or.inr rfl), protectionFlags_permissions,
    BitVec.ofNat_toNat, BitVec.setWidth_eq, stored]

/-! ## The path -/

def tokenPath (token : CString) : Option CString :=
  if token = [] then none else some (token.rdropWhile (· = '\n'))

theorem parseFields_path (text : CString) (entry : MapsEntry a) :
    parseFields [.path] text entry =
      (true, { entry with path := tokenPath (mapsToken ' ' text).token }) := by
  rw [parseFields, tokenPath]
  show (if (mapsToken ' ' text).token = [] then _ else _) = _
  split
  · rfl
  · rfl

theorem token_pathText (h : l.padding ≠ 0) :
    mapsToken ' ' l.pathText = mapsToken ' ' l.ending := by
  rw [pathText, if_neg h, mapsToken_replicate]

theorem rdropWhile_newline {path : CString} (h : '\n' ∉ path) (newline : Bool) :
    (path ++ if newline then ['\n'] else []).rdropWhile (· = '\n') = path := by
  have hpath : path.rdropWhile (· = '\n') = path := by
    rw [rdropWhile_eq_self_iff]
    intro hne hlast
    exact h ((of_decide_eq_true hlast) ▸ getLast_mem hne)
  cases newline with
  | true => rw [if_pos rfl, rdropWhile_concat_pos _ _ _ (by simp), hpath]
  | false => rw [if_neg Bool.false_ne_true, append_nil, hpath]

/-- A path with a space does not come back, since tokens have none. -/
theorem tokenPath_ne_of_space {text path : CString} (h : ' ' ∈ path) :
    tokenPath (mapsToken ' ' text).token ≠ some path := by
  rw [tokenPath]
  split
  · exact (Option.some_ne_none path).symm
  · intro heq
    rw [← Option.some.inj heq] at h
    exact not_mem_token ' ' text ((List.rdropWhile_prefix _ _).subset h)

theorem tokenPath_of_path (hne : l.path ≠ []) (h : ' ' ∉ l.path) :
    tokenPath (mapsToken ' ' l.pathText).token = some l.path := by
  have hending : ' ' ∉ l.ending := by
    rw [ending, mem_append]
    rintro (hmem | hmem)
    · exact h hmem
    · split at hmem
      · exact absurd (mem_singleton.mp hmem) (by decide)
      · exact not_mem_nil hmem
  have hnil : l.ending ≠ [] := append_ne_nil_of_left_ne_nil hne _
  rw [l.token_pathText (Nat.one_le_iff_ne_zero.mp (l.padded hne)), mapsToken_last hending]
  show (if l.ending = [] then none else some (l.ending.rdropWhile (· = '\n'))) = some l.path
  rw [if_neg hnil, ending, rdropWhile_newline l.oneLine]

/-- Without a path the token is empty, or it is the newline. -/
theorem tokenPath_of_anonymous (h : l.path = []) :
    tokenPath (mapsToken ' ' l.pathText).token = none ↔ (l.newline = true → l.padding = 0) := by
  have hnone : mapsToken ' ' [] = { start := [], token := [], next := [] } :=
    mapsToken_last not_mem_nil
  have hnewline : mapsToken ' ' ['\n'] = { start := ['\n'], token := ['\n'], next := [] } :=
    mapsToken_last (by decide)
  by_cases hpadding : l.padding = 0
  · simp [pathText, hpadding, hnone, tokenPath]
  · rw [l.token_pathText hpadding, ending, h, nil_append]
    cases l.newline with
    | true => simp [hnewline, tokenPath, hpadding]
    | false => simp [hnone, tokenPath]

/-- The line is parsed, and the addresses, the flags and the path are those that were printed. -/
def Recovered (entry : MapsEntry a) : Prop :=
  (parseProcMapsLine l.print entry).1 = true ∧
    (parseProcMapsLine l.print entry).2.vmaStart = l.start ∧
    (parseProcMapsLine l.print entry).2.vmaEnd = l.stop ∧
    (parseProcMapsLine l.print entry).2.protFlags = l.prot ∧
    (parseProcMapsLine l.print entry).2.path = l.expectedPath

theorem recovered_iff_tokenPath (entry : MapsEntry a) :
    l.Recovered entry ↔ tokenPath (mapsToken ' ' l.pathText).token = l.expectedPath := by
  rw [Recovered, parseProcMapsLine_print, parseFields_path]
  simp [stored]

/-- A printed line is recovered if and only if its path has no space and, if it has no path, there
    are not both spaces and a newline after the inode. -/
theorem recovered_iff (entry : MapsEntry a) :
    l.Recovered entry ↔
      ' ' ∉ l.path ∧ (l.path = [] → l.newline = true → l.padding = 0) := by
  rw [recovered_iff_tokenPath, expectedPath]
  by_cases hpath : l.path = []
  · rw [if_pos hpath, l.tokenPath_of_anonymous hpath]
    simp [hpath]
  · rw [if_neg hpath]
    constructor
    · intro heq
      exact ⟨fun hspace => tokenPath_ne_of_space hspace heq, fun hnil => absurd hnil hpath⟩
    · exact fun h => l.tokenPath_of_path hpath h.1

/-- `"4005c000-40081000 r-xp 00000000 b3:01 141        /data/my lib.so\n"` and
    `"40084000-40088000 rw-p 00000000 00:00 0 \n"`. -/
theorem spaces_not_recovered :
    ¬ Recovered (a := .arm)
        { start := 0x4005c000, stop := 0x40081000, prot := ⟨true, false, true⟩, shared := false,
          offset := 0, major := 0xb3, minor := 1, inode := 141, padding := 8,
          path := "/data/my lib.so".toList, newline := true, padded := by decide,
          oneLine := by decide }
        ⟨0, 0, Prot.none, 0, none⟩ ∧
    ¬ Recovered (a := .arm)
        { start := 0x40084000, stop := 0x40088000, prot := ⟨true, true, false⟩, shared := false,
          offset := 0, major := 0, minor := 0, inode := 0, padding := 1, path := [],
          newline := true, padded := by decide, oneLine := by decide }
        ⟨0, 0, Prot.none, 0, none⟩ := by
  constructor
  · rw [recovered_iff_tokenPath]
    exact tokenPath_ne_of_space (by decide)
  · rw [recovered_iff_tokenPath, expectedPath, if_pos rfl, tokenPath_of_anonymous _ rfl]
    exact fun h => absurd (h rfl) one_ne_zero

end MapsLine

end CrystaxNdk.CrazyLinker
