import CrystaxNdk.Vfs.Proof.Dispatch

/-!
# Paths below other paths

`is_subpath` and `relpath` compare the texts of two normalized absolute paths, and so their
components. What they compare is not always what they were given: `normalize` cuts names longer than
`NAME_MAX`, but a path that is already absolute and normalized is taken as it is; and a long path
has no absolute form, or overruns the buffer of `normalize`.
-/

namespace CrystaxNdk.Vfs

open Lib List

variable {path : CString} {names root : List CString}

/-! ## What is compared -/

/-- The components of the lexical absolute form of a path. The empty path has none. -/
def lexical (cwd : Cwd) (path : CString) : Option (List CString) :=
  if path = [] then none else some (resolve (directory cwd.path) path)

/-- Names cut to `NAME_MAX` characters. -/
def cutNames (names : List CString) : List CString := names.map (List.take nameMax)

section Cut

theorem component_take (part : CString) :
    (component part = .stay ∧ component (part.take nameMax) = .stay) ∨
    (component part = .up ∧ component (part.take nameMax) = .up) ∨
    component part = .down part ∧ component (part.take nameMax) = .down (part.take nameMax) := by
  by_cases hlen : part.length ≤ nameMax
  · rw [take_of_length_le hlen]
    unfold component
    split_ifs <;> simp
  · -- a name that is cut is still longer than those with a meaning of their own
    have htake : (part.take nameMax).length = nameMax := by
      rw [length_take]
      omega
    have hlong : ∀ other : CString, nameMax ≤ other.length → component other = .down other := by
      intro other hother
      have hmax : nameMax = 255 := rfl
      refine component_of_plain ?_ ?_ ?_ <;> rintro rfl <;>
        simp only [length_cons, length_nil] at hother <;> omega
    exact Or.inr (Or.inr ⟨hlong part (by omega), hlong _ htake.ge⟩)

theorem walk_take (dir ps : List CString) :
    walk (cutNames dir) ((ps.map (List.take nameMax)).map component) =
      cutNames (walk dir (ps.map component)) := by
  induction ps generalizing dir with
  | nil => rfl
  | cons part ps ih =>
    simp only [map_cons, walk_cons]
    rw [← ih]
    congr 1
    rcases component_take part with ⟨hpart, htake⟩ | ⟨hpart, htake⟩ | ⟨hpart, htake⟩
    · rw [hpart, htake]
      rfl
    · rw [hpart, htake]
      simp [Move.apply, cutNames, map_dropLast]
    · rw [hpart, htake]
      simp [Move.apply, cutNames]

theorem located_eq_cutNames (path : CString) : located path = cutNames (directory path) :=
  walk_take [] (parts path)

theorem cutNames_eq_self : cutNames names = names ↔ ∀ name ∈ names, name.length ≤ nameMax := by
  have hiff : names.map (List.take nameMax) = names.map id ↔ _ := map_inj_left
  rw [map_id] at hiff
  rw [cutNames, hiff]
  simp

theorem plain_cutNames (h : ∀ name ∈ names, Plain name) : ∀ name ∈ cutNames names, Plain name := by
  intro name hname
  obtain ⟨whole, hwhole, rfl⟩ := mem_map.mp hname
  refine ⟨fun hslash => (h whole hwhole).slash (mem_of_mem_take hslash), ?_⟩
  have hdown := (h whole hwhole).component
  rcases component_take whole with ⟨hpart, -⟩ | ⟨hpart, -⟩ | ⟨-, htake⟩
  · rw [hpart] at hdown
    cases hdown
  · rw [hpart] at hdown
    cases hdown
  · exact htake

theorem plain_directory (path : CString) : ∀ name ∈ directory path, Plain name := by
  intro name hname
  obtain ⟨hpart, hcomponent⟩ := mem_of_mem_walk hname
  exact ⟨slash_not_mem_of_mem_parts hpart, hcomponent⟩

end Cut

section Lexical

variable {cwd : Cwd}

theorem directory_cwd (cwd : Cwd) (path : CString) :
    directory (cwd.path ++ '/' :: path) = walk (directory cwd.path) (moves path) := by
  rw [directory, moves, parts_append, map_append, walk_append]
  rfl

/-- The lexical absolute form is that of the text that `absolutize` normalizes. -/
theorem lexical_eq (cwd : Cwd) (path : CString) :
    lexical cwd path = (absoluteText (some cwd) path).map directory := by
  unfold lexical absoluteText resolve
  by_cases hne : path = []
  · simp [hne]
  · by_cases habs : path[0]? = some '/'
    · simp [hne, habs, isAbsolute, directory]
    · simp [hne, habs, isAbsolute, directory_cwd]

theorem plain_lexical (h : lexical cwd path = some names) : ∀ name ∈ names, Plain name := by
  rw [lexical_eq] at h
  obtain ⟨text, -, rfl⟩ := Option.map_eq_some_iff.mp h
  exact plain_directory text

theorem locate_eq (cwd : Cwd) (path : CString) :
    locate (some cwd) path = (lexical cwd path).map cutNames := by
  rw [lexical_eq, locate, Option.map_map]
  congr 1
  funext text
  exact located_eq_cutNames text

end Lexical

/-! ## Absolute forms -/

/-- The path is absolute and normalized, and is taken as it is. -/
def TakenAsIs (path : CString) : Prop :=
  isAbsolute (some path) = true ∧ isNormalized (some path) = true

instance : Decidable (TakenAsIs path) := inferInstanceAs (Decidable (_ ∧ _))

/-- `normalize` does not overrun its buffer for the path. -/
def NoOverrun (path : CString) : Prop := path[0]? = some '/' → TakenAsIs path ∨ HasRoom path

/-- There is room for a relative path behind the working directory. -/
def FitsBuffer (cwd : Cwd) (path : CString) : Prop :=
  path[0]? ≠ some '/' → cwd.path.length + 1 + path.length ≤ pathMax

def compared (path : CString) (names : List CString) : List CString :=
  if TakenAsIs path then names else cutNames names

section Absolute

variable {cwd : Cwd}

theorem TakenAsIs.eq_absolute (h : TakenAsIs path) : path = absolute (directory path) := by
  obtain ⟨habs, hnormal⟩ := h
  obtain ⟨rest, rfl⟩ : ∃ rest, path = '/' :: rest := by
    cases path <;> simp_all [isAbsolute]
  rcases eq_or_ne rest [] with rfl | hne
  · decide
  · have hall : ∀ part ∈ parts rest, part ≠ [] ∧ part ≠ ['.'] ∧ part ≠ ['.', '.'] := by
      simpa [isNormalized, hne] using hnormal
    have hplain : ∀ part ∈ parts rest, Plain part := by
      intro part hpart
      obtain ⟨hnil, hdot, hdots⟩ := hall part hpart
      exact ⟨slash_not_mem_of_mem_parts hpart, component_of_plain hnil hdot hdots⟩
    have hdirectory := directory_absolute hplain
    rw [absolute, join_parts] at hdirectory
    rw [hdirectory, absolute, join_parts]

theorem plain_compared (h : ∀ name ∈ names, Plain name) :
    ∀ name ∈ compared path names, Plain name := by
  unfold compared
  split_ifs
  · exact h
  · exact plain_cutNames h

theorem absolutePath_of_takenAsIs (h : TakenAsIs path) :
    absolutePath (some cwd.path) (some path) = .ok (some path) := if_pos h

theorem absolutePath_of_not_takenAsIs (h : ¬TakenAsIs path) :
    absolutePath (some cwd.path) (some path) = absolutize (some cwd.path) (some path) := if_neg h

theorem canAbsolutize_of_noOverrun (hroom : NoOverrun path)
    (hfits : FitsBuffer cwd path) (has : ¬TakenAsIs path) : CanAbsolutize (some cwd) path := by
  unfold CanAbsolutize
  split_ifs with habs
  · exact (hroom habs).resolve_left has
  · exact ⟨cwd, rfl, hfits habs⟩

theorem absolutePath_of_fits (hroom : NoOverrun path) (hfits : FitsBuffer cwd path) :
    absolutePath (some cwd.path) (some path) =
      .ok ((lexical cwd path).map fun names => absolute (compared path names)) := by
  by_cases has : TakenAsIs path
  · have hne : path ≠ [] := by
      rintro rfl
      cases has.1
    have hlexical : lexical cwd path = some (directory path) := by
      rw [lexical, if_neg hne, resolve, if_pos has.1]
      rfl
    rw [absolutePath_of_takenAsIs has, hlexical, Option.map_some, compared, if_pos has,
      ← has.eq_absolute]
  · rw [absolutePath_of_not_takenAsIs has]
    rcases eq_or_ne path [] with rfl | hne
    · rfl
    · obtain ⟨p, hp⟩ := absolutize_iff hne |>.mpr (canAbsolutize_of_noOverrun hroom hfits has)
      obtain ⟨dir, hlocate, rfl, -⟩ := absolutize_spec hp
      rw [locate_eq] at hlocate
      obtain ⟨names, hlexical, rfl⟩ := Option.map_eq_some_iff.mp hlocate
      rw [hlexical, Option.map_some, compared, if_neg has]
      exact hp

theorem absolutePath_of_long (h : ¬FitsBuffer cwd path) :
    absolutePath (some cwd.path) (some path) = .ok none := by
  simp only [FitsBuffer, Classical.not_imp] at h
  obtain ⟨hrel, hlong⟩ := h
  have has : ¬TakenAsIs path := fun has => hrel (by simpa [isAbsolute] using has.1)
  rw [absolutePath_of_not_takenAsIs has]
  rcases eq_or_ne path [] with rfl | hne
  · rfl
  · rw [absolutize_of_relative hne hrel, if_neg hlong]

theorem noOverrun_of_absolutePath {res : Option CString}
    (h : absolutePath (some cwd.path) (some path) = .ok res) : NoOverrun path := by
  intro habs
  by_cases has : TakenAsIs path
  · exact Or.inl has
  · rw [absolutePath_of_not_takenAsIs has] at h
    have hnormalize :
        absolutize (Option.map Cwd.path (some cwd)) (some path) = normalize (some path) :=
      absolutize_of_slash habs
    exact Or.inr (hasRoom_of_normalize habs (hnormalize.symm.trans h))

end Absolute

/-! ## `relpath` -/

section Relpath

theorem relpath_of_absolutePath {cwd r p : Option CString} (hroot : ∀ name ∈ root, Plain name)
    (h : ∀ name ∈ names, Plain name) (hr : absolutePath cwd r = .ok (some (absolute root)))
    (hp : absolutePath cwd p = .ok (some (absolute names))) :
    relpath cwd r p =
      .ok (if root <+: names then some (join (names.drop root.length)) else none) := by
  unfold relpath
  rw [hr, hp]
  rcases eq_or_ne root [] with rfl | hne
  · rfl
  · simp only [bind, Except.bind, if_neg (absolute_ne_slash hroot hne),
      absolute_boundary_iff hroot h hne]
    by_cases hbelow : root <+: names
    · rw [if_pos hbelow, if_pos hbelow]
      obtain ⟨rest, rfl⟩ := hbelow
      rcases eq_or_ne rest [] with rfl | hrest
      · simp [pure, Except.pure]
      · have htext : absolute (root ++ rest) = absolute root ++ '/' :: join rest := by
          simp [absolute, join_append hne hrest]
        simp [htext, pure, Except.pure]
    · rw [if_neg hbelow, if_neg hbelow]
      rfl

theorem join_inj (h : ∀ name ∈ names, Plain name) (hroot : ∀ name ∈ root, Plain name)
    (heq : join names = join root) : names = root := by
  have hnil : ∀ {ns : List CString}, (∀ name ∈ ns, Plain name) → join ns = [] → ns = [] := by
    intro ns hns hjoin
    by_contra hne
    exact join_ne_nil (fun name hname => (hns name hname).ne.1) hne hjoin
  rcases eq_or_ne names [] with rfl | hne
  · exact (hnil hroot heq.symm).symm
  · rcases eq_or_ne root [] with rfl | hne'
    · exact hnil h heq
    · rw [← parts_join (fun name hname => (h name hname).slash) hne, heq,
        parts_join (fun name hname => (hroot name hname).slash) hne']

theorem moves_join (h : ∀ name ∈ names, Plain name) (dir : List CString) :
    walk dir (moves (join names)) = dir ++ names ∧ .up ∉ moves (join names) := by
  rcases eq_or_ne names [] with rfl | hne
  · simp [moves, parts, Move.apply]
  · have hmoves : moves (join names) = names.map .down := by
      rw [moves, parts_join (fun name hname => (h name hname).slash) hne, map_component_names h]
    have hcourse : course (names.map Move.down) = ⟨0, names⟩ := by
      simpa [Course.moves] using course_moves (c := ⟨0, names⟩)
    refine ⟨?_, by simp [hmoves]⟩
    rw [hmoves, walk_eq_apply, hcourse, Course.apply]
    simp

theorem moves_absolute (h : ∀ name ∈ names, Plain name) : .up ∉ moves (absolute names) := by
  rw [moves, absolute, parts_cons_slash, map_cons, component_nil]
  simpa [moves] using (moves_join h []).2

theorem length_absolute_le {names' : List CString} (h : names <+: names') :
    (absolute names).length ≤ (absolute names').length := by
  obtain ⟨rest, rfl⟩ := h
  rw [absolute, absolute, length_cons, length_cons, length_join, length_join,
    weight_append]
  omega

theorem normalize_append (hroot : ∀ name ∈ root, Plain name) (h : ∀ name ∈ names, Plain name)
    (hlen : (absolute (cutNames (root ++ names))).length ≤ pathMax) :
    normalize (some (absolute root ++ '/' :: join names)) =
      .ok (some (absolute (cutNames (root ++ names)))) := by
  have hmoves : moves (absolute root ++ '/' :: join names) =
      moves (absolute root) ++ moves (join names) := by
    rw [moves, parts_append, map_append]
    rfl
  have hdirectory : directory (absolute root ++ '/' :: join names) = root ++ names := by
    rw [directory, hmoves, walk_append]
    have hfirst : walk [] (moves (absolute root)) = root := directory_absolute hroot
    rw [hfirst, (moves_join h root).1]
  have hlocated : located (absolute root ++ '/' :: join names) = cutNames (root ++ names) := by
    rw [located_eq_cutNames, hdirectory]
  have hup : .up ∉ (clipped (absolute root ++ '/' :: join names)).map component := by
    intro hmem
    obtain ⟨part, hpart, hup⟩ := mem_map.mp hmem
    obtain ⟨whole, hwhole, rfl⟩ := mem_map.mp hpart
    have hwholeUp : component whole = .up := by
      rcases component_take whole with ⟨-, htake⟩ | ⟨hpart, -⟩ | ⟨-, htake⟩
      · rw [hup] at htake
        cases htake
      · exact hpart
      · rw [hup] at htake
        cases htake
    have hmoves' : .up ∈ moves (absolute root ++ '/' :: join names) :=
      mem_map.mpr ⟨whole, hwhole, hwholeUp⟩
    rw [hmoves, mem_append] at hmoves'
    rcases hmoves' with hroot' | hnames
    · exact moves_absolute hroot hroot'
    · exact (moves_join h []).2 hnames
  have hroom : HasRoom (absolute root ++ '/' :: join names) := by
    intro n
    rw [map_take]
    refine (length_absolute_le (prefix_walk_take hup n)).trans ?_
    rw [← hlocated] at hlen
    exact hlen
  rw [(normalize_absolute rfl hroom).1, hlocated]

end Relpath

/-! ## What the results should be -/

/-- The components of `root` are the first ones of `path`. -/
def Below (cwd : Cwd) (root path : CString) : Prop :=
  ∃ r p, lexical cwd root = some r ∧ lexical cwd path = some p ∧ r <+: p

/-- `is_subpath` tells whether the one path is below the other; `relpath` is `NULL` if it is not,
    and else what remains, from which `normalize` makes the absolute path again. -/
structure SubpathRight (cwd : Cwd) (root path : CString) : Prop where
  subpath : ∃ answer, isSubpath (some cwd.path) (some root) (some path) = .ok answer ∧
    (answer = true ↔ Below cwd root path)
  relpath : ∃ rel, Vfs.relpath (some cwd.path) (some root) (some path) = .ok rel ∧
    (rel = none ↔ ¬Below cwd root path) ∧
    ∀ r rest, lexical cwd root = some r → lexical cwd path = some (r ++ rest) →
      rel = some (join rest)
  rebuilt : ∀ rel, Vfs.relpath (some cwd.path) (some root) (some path) = .ok (some rel) →
    ∃ r p, absolutize (some cwd.path) (some root) = .ok (some r) ∧
      absolutize (some cwd.path) (some path) = .ok (some p) ∧
      normalize (some (r ++ '/' :: rel)) = .ok (some p)

/-- The texts are short enough for the buffers, and no name is so long that cutting it makes a
    difference. -/
structure Comparable (cwd : Cwd) (root path : CString) : Prop where
  rootRoom : NoOverrun root
  pathRoom : NoOverrun path
  below : ∀ r rest, lexical cwd root = some r → lexical cwd path = some (r ++ rest) →
    CanAbsolutize (some cwd) root ∧ CanAbsolutize (some cwd) path ∧
    (¬(TakenAsIs root ↔ TakenAsIs path) → ∀ name ∈ r, name.length ≤ nameMax) ∧
    (¬TakenAsIs path → ∀ name ∈ rest, name.length ≤ nameMax)
  apart : ∀ r p, lexical cwd root = some r → lexical cwd path = some p →
    FitsBuffer cwd root → FitsBuffer cwd path → ¬r <+: p → ¬compared root r <+: compared path p

section Results

variable {cwd : Cwd} {root path : CString} {r p rest : List CString}

theorem fitsBuffer_of_canAbsolutize (h : CanAbsolutize (some cwd) path) : FitsBuffer cwd path := by
  intro hrel
  unfold CanAbsolutize at h
  rw [if_neg hrel] at h
  obtain ⟨dir, hdir, hlen⟩ := h
  cases hdir
  exact hlen

theorem ne_nil_of_lexical (h : lexical cwd path = some p) : path ≠ [] := by
  rintro rfl
  cases h

theorem absolutize_of_canAbsolutize (hlexical : lexical cwd path = some p)
    (h : CanAbsolutize (some cwd) path) :
    absolutize (some cwd.path) (some path) = .ok (some (absolute (cutNames p))) ∧
      (absolute (cutNames p)).length ≤ pathMax := by
  have hne := ne_nil_of_lexical hlexical
  obtain ⟨res, hres⟩ := (absolutize_iff hne).mpr h
  obtain ⟨dir, hlocate, rfl, -⟩ := absolutize_spec hres
  rw [locate_eq, hlexical] at hlocate
  cases hlocate
  obtain ⟨text, -, habs, htext⟩ := exists_text_of_absolutize hres
  exact ⟨hres, length_le_of_normalize habs htext⟩

theorem compared_append_iff :
    compared path (r ++ rest) = compared root r ++ rest ↔
      (¬(TakenAsIs root ↔ TakenAsIs path) → ∀ name ∈ r, name.length ≤ nameMax) ∧
      (¬TakenAsIs path → ∀ name ∈ rest, name.length ≤ nameMax) := by
  have hcut : cutNames (r ++ rest) = cutNames r ++ cutNames rest := map_append
  have hlen : r.length = (cutNames r).length := by simp [cutNames]
  rw [← cutNames_eq_self, ← cutNames_eq_self]
  by_cases hroot : TakenAsIs root <;> by_cases hpath : TakenAsIs path <;>
    simp only [compared, hroot, hpath, if_true, if_false, hcut, not_true_eq_false,
      not_false_eq_true,
      false_imp_iff, true_imp_iff, and_self, iff_self, iff_true, iff_false, true_and, and_true,
      append_cancel_left_eq]
  · exact ⟨fun heq => append_inj heq hlen.symm, fun hand => by rw [hand.1, hand.2]⟩
  · rw [append_cancel_right_eq]
    exact eq_comm

variable (hroot : NoOverrun root) (hpath : NoOverrun path)
include hroot hpath

theorem results_of_fits (hrootFits : FitsBuffer cwd root) (hpathFits : FitsBuffer cwd path)
    (hr : lexical cwd root = some r) (hp : lexical cwd path = some p) :
    isSubpath (some cwd.path) (some root) (some path) =
        .ok ((compared root r).isPrefixOf (compared path p)) ∧
      relpath (some cwd.path) (some root) (some path) =
        .ok (if compared root r <+: compared path p then
          some (join ((compared path p).drop (compared root r).length)) else none) := by
  have hrootPath := absolutePath_of_fits hroot hrootFits
  have hpathPath := absolutePath_of_fits hpath hpathFits
  rw [hr, Option.map_some] at hrootPath
  rw [hp, Option.map_some] at hpathPath
  have hrPlain : ∀ name ∈ compared root r, Plain name := plain_compared (plain_lexical hr)
  have hpPlain : ∀ name ∈ compared path p, Plain name := plain_compared (plain_lexical hp)
  exact ⟨isSubpath_of_absolutePath hrPlain hpPlain hrootPath hpathPath,
    relpath_of_absolutePath hrPlain hpPlain hrootPath hpathPath⟩

/-- A path that is empty or too long has no absolute form. -/
theorem results_of_none
    (h : ¬∃ r p, lexical cwd root = some r ∧ lexical cwd path = some p ∧ FitsBuffer cwd root ∧
      FitsBuffer cwd path) :
    isSubpath (some cwd.path) (some root) (some path) = .ok false ∧
      relpath (some cwd.path) (some root) (some path) = .ok none := by
  have hform : ∀ {text : CString}, NoOverrun text →
      (∃ a names, lexical cwd text = some names ∧ FitsBuffer cwd text ∧
        absolutePath (some cwd.path) (some text) = .ok (some a)) ∨
      absolutePath (some cwd.path) (some text) = .ok none := by
    intro text hroom
    by_cases hfits : FitsBuffer cwd text
    · rw [absolutePath_of_fits hroom hfits]
      cases hlexical : lexical cwd text with
      | none => exact Or.inr rfl
      | some names => exact Or.inl ⟨_, names, rfl, hfits, rfl⟩
    · exact Or.inr (absolutePath_of_long hfits)
  unfold isSubpath relpath
  rcases hform hroot with ⟨a, r, hr, hrFits, ha⟩ | hnone
  · rcases hform hpath with ⟨b, p, hp, hpFits, -⟩ | hnone
    · exact absurd ⟨r, p, hr, hp, hrFits, hpFits⟩ h
    · rw [ha, hnone]
      exact ⟨rfl, rfl⟩
  · rcases hform hpath with ⟨b, p, -, -, hb⟩ | hnone'
    · rw [hnone, hb]
      exact ⟨rfl, rfl⟩
    · rw [hnone, hnone']
      exact ⟨rfl, rfl⟩

end Results

section Main

variable {cwd : Cwd} {root path : CString}

theorem SubpathRight.comparable (h : SubpathRight cwd root path) : Comparable cwd root path := by
  obtain ⟨answer, hsubpath, hanswer⟩ := h.subpath
  obtain ⟨a, hrootPath, hrest⟩ := bind_eq_ok.mp hsubpath
  obtain ⟨b, hpathPath, -⟩ := bind_eq_ok.mp hrest
  have hroot := noOverrun_of_absolutePath hrootPath
  have hpath := noOverrun_of_absolutePath hpathPath
  refine ⟨hroot, hpath, fun r rest hr hp => ?_, fun r p hr hp hrFits hpFits hnot hcompared => ?_⟩
  · obtain ⟨rel, hrel, -, hremains⟩ := h.relpath
    obtain rfl := hremains r rest hr hp
    obtain ⟨a, b, ha, hb, -⟩ := h.rebuilt (join rest) hrel
    have hrootCan : CanAbsolutize (some cwd) root :=
      (absolutize_iff (ne_nil_of_lexical hr)).mp ⟨a, ha⟩
    have hpathCan : CanAbsolutize (some cwd) path :=
      (absolutize_iff (ne_nil_of_lexical hp)).mp ⟨b, hb⟩
    refine ⟨hrootCan, hpathCan, compared_append_iff.mp ?_⟩
    rw [(results_of_fits hroot hpath (fitsBuffer_of_canAbsolutize hrootCan)
      (fitsBuffer_of_canAbsolutize hpathCan) hr hp).2] at hrel
    split_ifs at hrel with hbelow
    · obtain ⟨rest', hrest'⟩ := hbelow
      have hplain : ∀ name ∈ rest', Plain name := by
        intro name hname
        have hmem : name ∈ compared path (r ++ rest) := by
          rw [← hrest']
          exact mem_append_right _ hname
        exact plain_compared (plain_lexical hp) name hmem
      have hjoin : join rest' = join rest := by
        rw [← hrest', drop_left] at hrel
        exact Option.some.inj (Except.ok.inj hrel)
      rw [← hrest', join_inj hplain
        (fun name hname => plain_lexical hp name (by simp [hname])) hjoin]
    · cases hrel
  · rw [(results_of_fits hroot hpath hrFits hpFits hr hp).1] at hsubpath
    have htrue : answer = true := by
      rw [← Except.ok.inj hsubpath]
      exact isPrefixOf_iff_prefix.mpr hcompared
    obtain ⟨r', p', hr', hp', hbelow⟩ := hanswer.mp htrue
    rw [hr] at hr'
    rw [hp] at hp'
    cases hr'
    cases hp'
    exact hnot hbelow

theorem Comparable.subpathRight (h : Comparable cwd root path) : SubpathRight cwd root path := by
  by_cases hforms : ∃ r p, lexical cwd root = some r ∧ lexical cwd path = some p ∧
      FitsBuffer cwd root ∧ FitsBuffer cwd path
  · obtain ⟨r, p, hr, hp, hrFits, hpFits⟩ := hforms
    obtain ⟨hsubpath, hrelpath⟩ := results_of_fits h.rootRoom h.pathRoom hrFits hpFits hr hp
    by_cases hbelow : r <+: p
    · obtain ⟨rest, rfl⟩ := hbelow
      obtain ⟨hrootCan, hpathCan, hnames⟩ := h.below r rest hr hp
      have hyes : Below cwd root path := ⟨r, r ++ rest, hr, hp, prefix_append r rest⟩
      have hcompared := compared_append_iff.mpr hnames
      rw [hcompared, drop_left, if_pos (prefix_append _ rest)] at hrelpath
      refine ⟨⟨_, hsubpath, ?_⟩, ⟨_, hrelpath, by simp [hyes], fun r' rest' hr' hp' => ?_⟩,
        fun rel hrel => ?_⟩
      · simp [hcompared, hyes]
      · rw [hr] at hr'
        cases hr'
        rw [hp] at hp'
        rw [append_cancel_left (Option.some.inj hp')]
      · rw [hrelpath] at hrel
        cases hrel
        obtain ⟨hrootAbs, -⟩ := absolutize_of_canAbsolutize hr hrootCan
        obtain ⟨hpathAbs, hlen⟩ := absolutize_of_canAbsolutize hp hpathCan
        have htwice : cutNames (cutNames r ++ rest) = cutNames (r ++ rest) := by
          simp [cutNames, take_take]
        refine ⟨_, _, hrootAbs, hpathAbs, ?_⟩
        rw [← htwice] at hlen ⊢
        exact normalize_append (plain_cutNames (plain_lexical hr))
          (fun name hname => plain_lexical hp name (by simp [hname])) hlen
    · have hno : ¬Below cwd root path := by
        rintro ⟨r', p', hr', hp', hbelow'⟩
        rw [hr] at hr'
        rw [hp] at hp'
        cases hr'
        cases hp'
        exact hbelow hbelow'
      have hcompared := h.apart r p hr hp hrFits hpFits hbelow
      rw [if_neg hcompared] at hrelpath
      refine ⟨⟨_, hsubpath, ?_⟩, ⟨_, hrelpath, by simp [hno], fun r' rest' hr' hp' => ?_⟩,
        fun rel hrel => ?_⟩
      · rw [List.isPrefixOf_iff_prefix]
        exact iff_of_false hcompared hno
      · exact absurd ⟨r', r' ++ rest', hr', hp', prefix_append r' rest'⟩ hno
      · rw [hrelpath] at hrel
        cases hrel
  · obtain ⟨hsubpath, hrelpath⟩ := results_of_none h.rootRoom h.pathRoom hforms
    have hno : ¬Below cwd root path := by
      rintro ⟨r, p, hr, hp, ⟨rest, rfl⟩⟩
      obtain ⟨hrootCan, hpathCan, -⟩ := h.below r rest hr hp
      exact hforms ⟨r, r ++ rest, hr, hp, fitsBuffer_of_canAbsolutize hrootCan,
        fitsBuffer_of_canAbsolutize hpathCan⟩
    refine ⟨⟨false, hsubpath, by simp [hno]⟩,
      ⟨none, hrelpath, by simp [hno], fun r rest hr hp => ?_⟩,
      fun rel hrel => ?_⟩
    · exact absurd ⟨r, r ++ rest, hr, hp, prefix_append r rest⟩ hno
    · rw [hrelpath] at hrel
      cases hrel

/-- `is_subpath` and `relpath` do what they should exactly if both paths fit and nothing of
    importance is cut. -/
theorem subpathRight_iff (cwd : Cwd) (root path : CString) :
    SubpathRight cwd root path ↔ Comparable cwd root path :=
  ⟨SubpathRight.comparable, Comparable.subpathRight⟩

end Main

/-! ## Within the limits of the system -/

/-- Neither the absolute path nor a name in it is too long for the system. -/
def WithinLimits (cwd : Cwd) (path : CString) : Prop :=
  ∀ text, absoluteText (some cwd) path = some text →
    text.length ≤ pathMax ∧ ∀ part ∈ parts text, part.length ≤ nameMax

namespace WithinLimits

variable {cwd : Cwd} {root path : CString} {p : List CString}

theorem noOverrun (h : WithinLimits cwd path) : NoOverrun path := by
  intro habs
  have hne : path ≠ [] := by
    rintro rfl
    cases habs
  refine Or.inr (hasRoom_of_length habs (h path ?_).1)
  rw [absoluteText, if_neg hne, if_pos habs]

theorem canAbsolutize (h : WithinLimits cwd path) (hne : path ≠ []) :
    CanAbsolutize (some cwd) path := by
  unfold CanAbsolutize
  split_ifs with habs
  · refine hasRoom_of_length habs (h path ?_).1
    rw [absoluteText, if_neg hne, if_pos habs]
  · have hlen := (h (cwd.path ++ '/' :: path) (by
      rw [absoluteText, if_neg hne, if_neg habs, Option.map_some])).1
    rw [length_append, length_cons] at hlen
    exact ⟨cwd, rfl, by omega⟩

theorem length_le (h : WithinLimits cwd path) (hlexical : lexical cwd path = some p) :
    ∀ name ∈ p, name.length ≤ nameMax := by
  rw [lexical_eq] at hlexical
  obtain ⟨text, htext, rfl⟩ := Option.map_eq_some_iff.mp hlexical
  intro name hname
  exact (h text htext).2 name (mem_of_mem_walk hname).1

theorem subpathRight (hroot : WithinLimits cwd root) (hpath : WithinLimits cwd path) :
    SubpathRight cwd root path := by
  have hcompared : ∀ {text names}, WithinLimits cwd text → lexical cwd text = some names →
      compared text names = names := by
    intro text names hlimits hlexical
    unfold compared
    split_ifs
    · rfl
    · exact cutNames_eq_self.mpr (hlimits.length_le hlexical)
  refine Comparable.subpathRight ⟨hroot.noOverrun, hpath.noOverrun, fun r rest hr hp => ?_,
    fun r p hr hp _ _ hnot => ?_⟩
  · refine ⟨hroot.canAbsolutize (ne_nil_of_lexical hr), hpath.canAbsolutize (ne_nil_of_lexical hp),
      fun _ => hroot.length_le hr, fun _ name hname => ?_⟩
    exact hpath.length_le hp name (mem_append_right r hname)
  · rwa [hcompared hroot hr, hcompared hpath hp]

end WithinLimits

/-- A name that is too long for the system. -/
def longName : CString := List.replicate 256 'a'

/-- A path with such a name is not below itself if it is not written in the same way. -/
theorem subpath_cut :
    lexical ⟨['/'], rfl⟩ ('/' :: longName) = lexical ⟨['/'], rfl⟩ ('/' :: '/' :: longName) ∧
      isSubpath (some ['/']) (some ('/' :: longName)) (some ('/' :: '/' :: longName)) = .ok false ∧
      ¬SubpathRight ⟨['/'], rfl⟩ ('/' :: longName) ('/' :: '/' :: longName) := by
  have hforms : lexical ⟨['/'], rfl⟩ ('/' :: longName) = some [longName] ∧
      lexical ⟨['/'], rfl⟩ ('/' :: '/' :: longName) = some [longName] := by
    decide +kernel
  have hsubpath : isSubpath (some ['/']) (some ('/' :: longName)) (some ('/' :: '/' :: longName)) =
      .ok false := by
    decide +kernel
  refine ⟨hforms.1.trans hforms.2.symm, hsubpath, fun hright => ?_⟩
  obtain ⟨answer, hanswer, hiff⟩ := hright.subpath
  rw [hsubpath] at hanswer
  cases hanswer
  exact absurd (hiff.mpr ⟨_, _, hforms.1, hforms.2, prefix_refl _⟩) (by decide)

end CrystaxNdk.Vfs
