import CrystaxNdk.Vfs.Proof.NormalForm

/-!
# `dirname` and `basename` put together

Both split the normal form of the path at its last slash. Where there is one that is not the first
character, the parts with a slash between them are the normal form again. Otherwise the directory is
`.` or `/`, which adds nothing to what follows it.
-/

namespace CrystaxNdk.Vfs

open Lib List

variable {path r : CString} {c : Course CString} {names : List CString} {name : CString}

/-! ## The parts -/

theorem normalizedPath_eq (hne : path ≠ []) (hlen : ∀ part ∈ parts path, part.length ≤ nameMax)
    (hnormalize : normalize (some path) = .ok (some r)) (hresult : Result path r) :
    normalizedPath path = .ok (some r) := by
  rw [normalizedPath]
  split
  · rename_i hnormalized
    rw [hresult.eq_of_isNormalized hne hlen hnormalized]
  · exact hnormalize

theorem strrchr_lt {ch : Char} {s : CString} {i : Nat} (h : strrchr ch s = some i) :
    i < s.length := by
  induction s generalizing i with
  | nil => cases h
  | cons x xs ih =>
    rw [strrchr] at h
    cases hxs : strrchr ch xs with
    | none =>
      rw [hxs] at h
      simp only [Option.ite_none_right_eq_some, Option.some.injEq] at h
      rw [← h.2]
      exact Nat.zero_lt_succ _
    | some j =>
      rw [hxs] at h
      cases h
      exact Nat.succ_lt_succ (ih hxs)

def splitDir (r : CString) : CString × CString :=
  match strrchr '/' r with
  | none => (['.'], r)
  | some s =>
    (if r.take s = [] then ['/'] else r.take s,
      if r.drop (s + 1) = [] then ['.'] else r.drop (s + 1))

theorem dirname_eq (hpath : normalizedPath path = .ok (some r)) (hne : r ≠ [])
    (hroom : r.length ≤ pathMax) : dirname (some path) = .ok (some (splitDir r).1) := by
  have hlen : r.length ≠ 0 := by simpa using hne
  rw [dirname, hpath, splitDir]
  show (if r.length = 0 then _ else _) = _
  rw [if_neg hlen]
  cases hslash : strrchr '/' r with
  | none => rfl
  | some s =>
    have hle : s < r.length := strrchr_lt hslash
    show (if pathMax < s then _ else _) = _
    rw [if_neg (by omega)]

theorem basename_eq (hnil : path ≠ []) (hpath : normalizedPath path = .ok (some r)) (hne : r ≠ [])
    (hshort : (splitDir r).2.length ≤ nameMax) :
    basename (some path) = .ok (some (splitDir r).2) := by
  have hlen : r.length ≠ 0 := by simpa using hne
  obtain ⟨x, path, rfl⟩ := exists_cons_of_ne_nil hnil
  rw [splitDir] at hshort ⊢
  rw [basename, hpath]
  case x_1 => exact hnil
  show (if r.length = 0 then _ else _) = _
  rw [if_neg hlen]
  cases hslash : strrchr '/' r with
  | none =>
    rw [hslash] at hshort
    exact if_pos hshort
  | some s =>
    rw [hslash] at hshort
    show (if r.length - s - 1 = 0 then _ else _) = _
    by_cases hlast : r.drop (s + 1) = []
    · have hdrop : r.length - s - 1 = 0 := by
        have hlength := congrArg List.length hlast
        rw [length_drop, length_nil] at hlength
        omega
      rw [if_pos hdrop]
      simp only [if_pos hlast]
    · have hdrop : r.length - s - 1 ≠ 0 := by
        have hlength := length_pos_iff.mpr hlast
        rw [length_drop] at hlength
        omega
      simp only [if_neg hlast] at hshort ⊢
      rw [if_neg hdrop, copyName, if_pos hshort]

theorem splitDir_of_not_mem (h : '/' ∉ r) : splitDir r = (['.'], r) := by
  rw [splitDir, strrchr_eq_none h]

theorem splitDir_append {front last : CString} (h : '/' ∉ last) :
    splitDir (front ++ '/' :: last) =
      (if front = [] then ['/'] else front, if last = [] then ['.'] else last) := by
  rw [splitDir, strrchr_append h]
  simp

/-! ## The parts together -/

/-- The parts of the normal form lead back to it, and `basename` has room for its own. -/
def JoinsBack (r : CString) : Prop :=
  normalize (some ((splitDir r).1 ++ '/' :: (splitDir r).2)) = .ok (some r) ∧
    (splitDir r).2.length ≤ nameMax

/-- A slash that is not the first character and not the last. -/
theorem joinsBack_append {front last : CString} (hslash : '/' ∉ last) (hfront : front ≠ [])
    (hlast : last ≠ []) (hshort : last.length ≤ nameMax)
    (hself : normalize (some (front ++ '/' :: last)) = .ok (some (front ++ '/' :: last))) :
    JoinsBack (front ++ '/' :: last) := by
  rw [JoinsBack, splitDir_append hslash, if_neg hfront, if_neg hlast]
  exact ⟨hself, hshort⟩

/-- `"//" + name`. -/
theorem joinsBack_root (hplain : Plain name) (hshort : name.length ≤ nameMax) :
    JoinsBack (absolute [name]) := by
  have hsplit : splitDir (absolute [name]) = (['/'], name) := by
    have happend : splitDir ([] ++ '/' :: name) = _ := splitDir_append hplain.slash
    rw [if_pos rfl, if_neg hplain.ne.1] at happend
    simpa [absolute] using happend
  have hroom : HasRoom ('/' :: '/' :: name) := by
    refine hasRoom_of_length rfl ?_
    have hle : nameMax + 2 ≤ pathMax := by decide
    simp only [length_cons]
    omega
  have hlocated : located ('/' :: '/' :: name) = [name] := by
    have hself : located (absolute [name]) = [name] :=
      located_absolute (by simpa using hplain) (by simpa using hshort)
    rw [absolute, join_singleton] at hself
    rw [← hself, located, clipped_cons_slash, map_cons, component_nil]
    rfl
  rw [JoinsBack, hsplit]
  refine ⟨?_, hshort⟩
  show normalize (some ('/' :: '/' :: name)) = _
  rw [(normalize_absolute rfl hroom).1, hlocated]

/-- `"./" + name`. -/
theorem joinsBack_name (hplain : Plain name) (hshort : name.length ≤ nameMax) :
    JoinsBack name := by
  have hparts : parts ('.' :: '/' :: name) = [['.'], name] := by
    have happend := parts_append ['.'] name
    have hname : parts name = [name] := splitOn_eq_singleton hplain.slash
    rw [hname] at happend
    exact happend
  have hlen : ∀ part ∈ parts ('.' :: '/' :: name), part.length ≤ nameMax := by
    rw [hparts]
    simpa using ⟨by decide, hshort⟩
  have hof : Scan.of (moves ('.' :: '/' :: name)) = ⟨⟨0, [name]⟩, false⟩ := by
    rw [moves, hparts, map_cons, map_cons, hplain.component]
    rfl
  have hfits : ScanFits ('.' :: '/' :: name) := by
    refine scanFits_of_length hlen ?_
    have hle : nameMax + 2 ≤ pathMax := by decide
    simp only [length_cons]
    omega
  rw [JoinsBack, splitDir_of_not_mem hplain.slash]
  refine ⟨?_, hshort⟩
  show normalize (some ('.' :: '/' :: name)) = _
  rw [((normalize_of_relative (by simp) (by simp) hlen).1 hfits).1, hof,
    relative_names (cons_ne_nil name []), join_singleton]

theorem Result.joinsBack (h : Result path r) (hroom : r.length ≤ pathMax) : JoinsBack r := by
  have hself := h.normalize_self hroom
  cases h with
  | absolute names _ _ plain short =>
    rcases eq_nil_or_concat' names with rfl | ⟨front, last, rfl⟩
    · exact ⟨rfl, by decide⟩
    · have hplain := plain last (by simp)
      have hshort := short last (by simp)
      rcases eq_or_ne front [] with rfl | hfront
      · exact joinsBack_root hplain hshort
      · have happend : Vfs.absolute (front ++ [last]) = Vfs.absolute front ++ '/' :: last := by
          rw [Vfs.absolute, join_concat hfront]
          rfl
        rw [happend] at hself ⊢
        exact joinsBack_append hplain.slash (cons_ne_nil _ _) hplain.ne.1 hshort hself
  | relative c _ _ plain short =>
    rcases eq_nil_or_concat' (comps c) with hcomps | ⟨front, last, hcomps⟩
    · rw [comps_eq_nil.mp hcomps]
      exact ⟨rfl, by decide⟩
    · have hmem : last ∈ comps c := by simp [hcomps]
      obtain ⟨hnil, -, hslash⟩ := mem_comps plain hmem
      have hshort : last.length ≤ nameMax := by
        rcases mem_append.mp hmem with hmem | hmem
        · rw [eq_of_mem_replicate hmem]
          decide
        · exact short last hmem
      have hrelative : Vfs.relative c = join (front ++ [last]) := by
        rw [relative_of_ne (by simp [hcomps]), hcomps]
      rcases eq_or_ne front [] with rfl | hfront
      · rw [hrelative, nil_append, join_singleton]
        rcases mem_append.mp hmem with hmem | hmem
        · rw [eq_of_mem_replicate hmem]
          exact ⟨rfl, by decide⟩
        · exact joinsBack_name (plain last hmem) hshort
      · rw [hrelative, join_concat hfront] at hself ⊢
        have hnames : ∀ name ∈ front, name ≠ [] := fun name hname =>
          (mem_comps plain (by simp [hcomps, hname])).1
        exact joinsBack_append hslash (join_ne_nil hnames hfront) hnil hshort hself

/-- `dirname` and `basename` return, and what they return leads to the same normal form as the
    path. -/
def SplitsAndJoins (path : CString) : Prop :=
  ∃ dir base r, dirname (some path) = .ok (some dir) ∧ basename (some path) = .ok (some base) ∧
    normalize (some path) = .ok (some r) ∧ normalize (some (dir ++ '/' :: base)) = .ok (some r)

theorem splitsAndJoins_of_scanFits (hne : path ≠ [])
    (hlen : ∀ part ∈ parts path, part.length ≤ nameMax) (hfits : ScanFits path) :
    SplitsAndJoins path := by
  obtain ⟨r, hnormalize, hroom, hresult⟩ := exists_result hne hlen hfits
  obtain ⟨hjoined, hshort⟩ := hresult.joinsBack hroom
  have hpath := normalizedPath_eq hne hlen hnormalize hresult
  have hr : r ≠ [] := by
    cases hresult with
    | absolute names _ _ _ _ => exact cons_ne_nil _ _
    | relative c _ _ plain _ => exact relative_ne_nil plain
  exact ⟨_, _, r, dirname_eq hpath hr hroom, basename_eq hne hpath hr hshort, hnormalize, hjoined⟩

/-- The parts of a path can be put together again if and only if there is room for its normal
    form. -/
theorem splitsAndJoins_iff (path : CString) (hne : path ≠ [])
    (hlen : ∀ part ∈ parts path, part.length ≤ nameMax) : SplitsAndJoins path ↔ ScanFits path := by
  constructor
  · rintro ⟨dir, base, r, -, -, hnormalize, -⟩
    exact scanFits_of_normalize hlen hnormalize
  · exact splitsAndJoins_of_scanFits hne hlen

theorem splitsAndJoins_dots :
    "../..".toList ≠ [] ∧ (∀ part ∈ parts "../..".toList, part.length ≤ nameMax) ∧
      SplitsAndJoins "../..".toList := by
  have hlen : ∀ part ∈ parts "../..".toList, part.length ≤ nameMax := by decide +kernel
  refine ⟨by decide +kernel, hlen, ?_⟩
  exact (splitsAndJoins_iff _ (by decide +kernel) hlen).mpr
    (scanFits_of_length hlen (by decide +kernel))

/-- The path of 2049 components `a` cannot. -/
theorem not_splitsAndJoins_longPath :
    (∀ part ∈ parts longPath, part.length ≤ nameMax) ∧ ¬SplitsAndJoins longPath := by
  refine ⟨length_parts_longPath, ?_⟩
  rintro ⟨dir, base, r, -, -, hnormalize, -⟩
  exact not_scanFits_longPath (scanFits_of_normalize length_parts_longPath hnormalize)

end CrystaxNdk.Vfs
