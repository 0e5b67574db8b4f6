import CrystaxNdk.Vfs.Mount
import CrystaxNdk.Vfs.Proof.Absolute

/-!
# Which driver a path belongs to

A driver is responsible for its root and what is below it, and of several such drivers the one that
was mounted last. `mount` looks for it component by component, with `is_subpath`. `find_driver`
compares the texts only, and so takes `/mnt/ab` for something below `/mnt/a`.
-/

namespace CrystaxNdk.Vfs

open Lib List

/-! ## What is asked for -/

/-- The absolute path that a path stands for, before it is normalized. -/
def absoluteText (cwd : Option Cwd) (path : CString) : Option CString :=
  if path = [] then none
  else if path[0]? = some '/' then some path
  else cwd.map fun cwd => cwd.path ++ '/' :: path

/-- The components of the normalized absolute form of a path. -/
def locate (cwd : Option Cwd) (path : CString) : Option (List CString) :=
  (absoluteText cwd path).map located

def Driver.covers (d : Driver) (dir : Option (List CString)) : Bool :=
  match d.root, dir with
  | some root, some dir => (directory root).isPrefixOf dir
  | _, _ => false

/-- The driver of a directory, with the drivers from the last to the first. -/
def dispatch (drivers : List Driver) (dir : Option (List CString)) : DriverPtr :=
  match drivers.find? (·.covers dir) with
  | none => .system
  | some d => .loaded d.addr

/-- There is room to make the path absolute and normalize it. -/
def CanAbsolutize (cwd : Option Cwd) (path : CString) : Prop :=
  if path[0]? = some '/' then HasRoom path
  else ∃ dir, cwd = some dir ∧ dir.path.length + 1 + path.length ≤ pathMax

/-! ## `absolutize` -/

section Absolutize

variable {cwd : Option Cwd} {path p : CString}

theorem normalize_absolute_eq (habs : path[0]? = some '/') {res : Option CString}
    (h : normalize (some path) = .ok res) :
    res = some (absolute (located path)) ∧ ∀ name ∈ located path, Plain name := by
  obtain ⟨heq, hplain⟩ := normalize_absolute habs (hasRoom_of_normalize habs h)
  rw [h] at heq
  exact ⟨by simpa using heq, hplain⟩

theorem absolutize_of_slash {cwd : Option CString} (habs : path[0]? = some '/') :
    absolutize cwd (some path) = normalize (some path) := by
  cases path <;> simp_all [absolutize]

theorem absolutize_of_relative (hne : path ≠ []) (hrel : path[0]? ≠ some '/') (dir : Cwd) :
    absolutize (some dir.path) (some path) =
      if dir.path.length + 1 + path.length ≤ pathMax then
        normalize (some (dir.path ++ '/' :: path))
      else .ok none := by
  obtain ⟨first, rest, rfl⟩ := exists_cons_of_ne_nil hne
  simp only [absolutize, if_neg hrel]
  split_ifs with hshort hfits hfits
  · omega
  · rfl
  · simp
  · omega

theorem absolutize_of_none (hne : path ≠ []) (hrel : path[0]? ≠ some '/') :
    absolutize none (some path) = .ok none := by
  obtain ⟨first, rest, rfl⟩ := exists_cons_of_ne_nil hne
  simp only [absolutize, if_neg hrel]

theorem slash_of_cwd (dir : Cwd) (path : CString) :
    (dir.path ++ '/' :: path)[0]? = some '/' := by
  have habs := dir.absolute
  cases hpath : dir.path <;> simp_all

/-- `absolutize` has a result exactly if there is room for it. -/
theorem absolutize_iff (hne : path ≠ []) :
    (∃ p, absolutize (cwd.map Cwd.path) (some path) = .ok (some p)) ↔ CanAbsolutize cwd path := by
  unfold CanAbsolutize
  split_ifs with habs
  · rw [absolutize_of_slash habs]
    constructor
    · rintro ⟨p, hp⟩
      exact hasRoom_of_normalize habs hp
    · intro hroom
      exact ⟨_, (normalize_absolute habs hroom).1⟩
  · cases cwd with
    | none => simp [absolutize_of_none hne habs]
    | some dir =>
      rw [Option.map_some, absolutize_of_relative hne habs]
      split_ifs with hlen
      · have hslash := slash_of_cwd dir path
        have hroom : HasRoom (dir.path ++ '/' :: path) := by
          refine hasRoom_of_length hslash ?_
          rw [length_append, length_cons]
          omega
        exact iff_of_true ⟨_, (normalize_absolute hslash hroom).1⟩ ⟨dir, rfl, hlen⟩
      · simp [hlen]

theorem exists_of_absolutize {cwd path : Option CString} (h : absolutize cwd path = .ok (some p)) :
    ∃ text, path = some text := by
  cases path with
  | none => cases h
  | some text => exact ⟨text, rfl⟩

/-- Whatever the path, it is `normalize` that makes the result, out of the absolute form. -/
theorem exists_text_of_absolutize
    (h : absolutize (cwd.map Cwd.path) (some path) = .ok (some p)) :
    ∃ text : CString, absoluteText cwd path = some text ∧ text[0]? = some '/' ∧
      normalize (some text) = .ok (some p) := by
  rcases eq_or_ne path [] with rfl | hne
  · simp [absolutize] at h
  · by_cases habs : path[0]? = some '/'
    · rw [absolutize_of_slash habs] at h
      exact ⟨path, by simp [absoluteText, hne, habs], habs, h⟩
    · cases cwd with
      | none => simp [absolutize_of_none hne habs] at h
      | some dir =>
        rw [Option.map_some, absolutize_of_relative hne habs] at h
        split_ifs at h
        · exact ⟨_, by simp [absoluteText, hne, habs], slash_of_cwd dir path, h⟩
        · simp at h

/-- The result is the shortest path of the directory. -/
theorem absolutize_spec (h : absolutize (cwd.map Cwd.path) (some path) = .ok (some p)) :
    ∃ dir, locate cwd path = some dir ∧ p = absolute dir ∧ ∀ name ∈ dir, Plain name := by
  obtain ⟨text, htext, habs, hres⟩ := exists_text_of_absolutize h
  obtain ⟨hp, hplain⟩ := normalize_absolute_eq habs hres
  exact ⟨located text, by rw [locate, htext, Option.map_some], Option.some.inj hp, hplain⟩

theorem length_le_of_normalize {text res : CString} (habs : text[0]? = some '/')
    (h : normalize (some text) = .ok (some res)) : res.length ≤ pathMax := by
  have hroom := hasRoom_of_normalize habs h (clipped text).length
  obtain ⟨hres, -⟩ := normalize_absolute_eq habs h
  rw [take_length] at hroom
  rw [Option.some.inj hres]
  exact hroom

theorem normalize_absolute_self {names : List CString} (hplain : ∀ name ∈ names, Plain name)
    (hnames : ∀ name ∈ names, name.length ≤ nameMax)
    (hlen : (absolute names).length ≤ pathMax) :
    normalize (some (absolute names)) = .ok (some (absolute names)) := by
  have habs : (absolute names)[0]? = some '/' := rfl
  rw [(normalize_absolute habs (hasRoom_of_length habs hlen)).1,
    located_absolute hplain hnames]

theorem absolutize_absolute {names : List CString} (cwd : Option CString)
    (hplain : ∀ name ∈ names, Plain name) (hnames : ∀ name ∈ names, name.length ≤ nameMax)
    (hlen : (absolute names).length ≤ pathMax) :
    absolutize cwd (some (absolute names)) = .ok (some (absolute names)) := by
  rw [absolutize_of_slash rfl, normalize_absolute_self hplain hnames hlen]

/-- The paths that `absolutize` makes: absolute, with nothing superfluous, and not too long. -/
theorem exists_absolutize_iff {path : CString} :
    (∃ (cwd : Option Cwd) (source : CString),
      absolutize (cwd.map Cwd.path) (some source) = .ok (some path)) ↔
    ∃ names, path = absolute names ∧ (∀ name ∈ names, Plain name) ∧
      (∀ name ∈ names, name.length ≤ nameMax) ∧ path.length ≤ pathMax := by
  constructor
  · rintro ⟨cwd, source, hmade⟩
    obtain ⟨text, -, habs, htext⟩ := exists_text_of_absolutize hmade
    obtain ⟨heq, hplain⟩ := normalize_absolute_eq habs htext
    exact ⟨located text, Option.some.inj heq, hplain, fun _ hname => length_le_of_mem_located hname,
      length_le_of_normalize habs htext⟩
  · rintro ⟨names, rfl, hplain, hnames, hlen⟩
    exact ⟨none, absolute names, absolutize_absolute none hplain hnames hlen⟩

end Absolutize

/-! ## `is_subpath` -/

section Subpath

variable {names root : List CString}

theorem isNormalized_absolute (h : ∀ name ∈ names, Plain name) :
    isNormalized (some (absolute names)) = true := by
  rcases eq_or_ne names [] with rfl | hne
  · rfl
  · have hjoin : join names ≠ [] := join_ne_nil (fun name hname => (h name hname).ne.1) hne
    have hparts : parts (join names) = names :=
      parts_join (fun name hname => (h name hname).slash) hne
    simp only [isNormalized, absolute, List.cons.injEq, true_and, hjoin, or_false, if_false,
      getElem?_cons_zero, if_true, tail_cons, hparts, all_eq_true,
      decide_eq_true_eq, reduceCtorEq]
    intro name hname
    exact (h name hname).ne

theorem absolutePath_absolute (cwd : Option CString) (h : ∀ name ∈ names, Plain name) :
    absolutePath cwd (some (absolute names)) = .ok (some (absolute names)) := by
  rw [absolutePath, if_pos ⟨rfl, isNormalized_absolute h⟩]

theorem absolute_prefix_iff (hroot : ∀ name ∈ root, Plain name) (h : ∀ name ∈ names, Plain name)
    (hne : root ≠ []) :
    (∃ rest, absolute names = absolute root ++ rest ∧ (rest = [] ∨ ∃ path, rest = '/' :: path)) ↔
      root <+: names := by
  have hparts : parts (join root) = root :=
    parts_join (fun name hname => (hroot name hname).slash) hne
  constructor
  · rintro ⟨rest, heq, hrest⟩
    have hjoin : join names = join root ++ rest := by simpa [absolute] using heq
    have hnil : names ≠ [] := by
      rintro rfl
      have hroot' := join_ne_nil (fun name hname => (hroot name hname).ne.1) hne
      simp_all
    have hnames : parts (join names) = names :=
      parts_join (fun name hname => (h name hname).slash) hnil
    rcases hrest with rfl | ⟨path, rfl⟩
    · rw [append_nil] at hjoin
      rw [← hnames, hjoin, hparts]
    · rw [hjoin, parts_append, hparts] at hnames
      exact ⟨parts path, hnames⟩
  · rintro ⟨rest, rfl⟩
    rcases eq_or_ne rest [] with rfl | hrest
    · exact ⟨[], by simp, Or.inl rfl⟩
    · exact ⟨'/' :: join rest, by simp [absolute, join_append hne hrest], Or.inr ⟨_, rfl⟩⟩

theorem prefix_and_boundary_iff {r p : CString} :
    (r.isPrefixOf p = true ∧ (p[r.length]? = none ∨ p[r.length]? = some '/')) ↔
      ∃ rest, p = r ++ rest ∧ (rest = [] ∨ ∃ path, rest = '/' :: path) := by
  have hrest : ∀ rest : CString,
      ((r ++ rest)[r.length]? = none ∨ (r ++ rest)[r.length]? = some '/') ↔
      (rest = [] ∨ ∃ path, rest = '/' :: path) := by
    intro rest
    rw [getElem?_append_right le_rfl, Nat.sub_self]
    cases rest <;> simp
  constructor
  · rintro ⟨hbegins, hbound⟩
    obtain ⟨rest, rfl⟩ := isPrefixOf_iff_prefix.mp hbegins
    exact ⟨rest, rfl, (hrest rest).mp hbound⟩
  · rintro ⟨rest, rfl, hbound⟩
    exact ⟨List.isPrefixOf_iff_prefix.mpr (prefix_append r rest), (hrest rest).mpr hbound⟩

/-- What `is_subpath` and `relpath` compare is whether the components are a prefix. -/
theorem absolute_boundary_iff (hroot : ∀ name ∈ root, Plain name)
    (h : ∀ name ∈ names, Plain name) (hne : root ≠ []) :
    ((absolute root).isPrefixOf (absolute names) = true ∧
      ((absolute names)[(absolute root).length]? = none ∨
        (absolute names)[(absolute root).length]? = some '/')) ↔ root <+: names :=
  prefix_and_boundary_iff.trans (absolute_prefix_iff hroot h hne)

theorem absolute_ne_slash (hroot : ∀ name ∈ root, Plain name) (hne : root ≠ []) :
    absolute root ≠ ['/'] := by
  simpa [absolute] using join_ne_nil (fun name hname => (hroot name hname).ne.1) hne

theorem isSubpath_of_absolutePath {cwd r p : Option CString} (hroot : ∀ name ∈ root, Plain name)
    (h : ∀ name ∈ names, Plain name) (hr : absolutePath cwd r = .ok (some (absolute root)))
    (hp : absolutePath cwd p = .ok (some (absolute names))) :
    isSubpath cwd r p = .ok (root.isPrefixOf names) := by
  unfold isSubpath
  rw [hr, hp]
  rcases eq_or_ne root [] with rfl | hne
  · rfl
  · have hiff := absolute_boundary_iff hroot h hne
    rw [← isPrefixOf_iff_prefix] at hiff
    simp only [bind, Except.bind, if_neg (absolute_ne_slash hroot hne), pure, Except.pure, hiff,
      Bool.decide_eq_true]

theorem isSubpath_absolute (cwd : Option CString) (hroot : ∀ name ∈ root, Plain name)
    (h : ∀ name ∈ names, Plain name) :
    isSubpath cwd (some (absolute root)) (some (absolute names)) = .ok (root.isPrefixOf names) :=
  isSubpath_of_absolutePath hroot h (absolutePath_absolute cwd hroot) (absolutePath_absolute cwd h)

theorem isSubpath_of_none (cwd root : Option CString) {p : Option CString}
    (h : absolutePath cwd root = .ok p) : isSubpath cwd root none = .ok false := by
  unfold isSubpath
  rw [h]
  cases p <;> rfl

theorem isSubpath_none (cwd path : Option CString) {p : Option CString}
    (h : absolutePath cwd path = .ok p) : isSubpath cwd none path = .ok false := by
  unfold isSubpath
  rw [h]
  rfl

end Subpath

/-! ## The loops -/

/-- The root, if there is one, is a normalized absolute path. -/
def Driver.Rooted (d : Driver) : Prop :=
  ∀ root, d.root = some root → ∃ names, root = absolute names ∧ ∀ name ∈ names, Plain name

section Loops

variable {ds : List Driver} {d : Driver}

theorem absolutePath_root (cwd : Option CString) (h : d.Rooted) :
    absolutePath cwd d.root = .ok d.root := by
  cases hroot : d.root with
  | none => rfl
  | some root =>
    obtain ⟨names, rfl, hplain⟩ := h root hroot
    exact absolutePath_absolute cwd hplain

variable {dir : Option (List CString)}

/-- For the roots of drivers, `is_subpath` answers what it should. -/
theorem isSubpath_root (cwd : Option CString) (h : d.Rooted)
    (hplain : ∀ names, dir = some names → ∀ name ∈ names, Plain name) :
    isSubpath cwd d.root (dir.map absolute) = .ok (d.covers dir) := by
  cases dir with
  | none =>
    rw [Option.map_none, isSubpath_of_none cwd d.root (absolutePath_root cwd h)]
    simp [Driver.covers]
  | some names =>
    have hnames := hplain names rfl
    rw [Option.map_some]
    cases hroot : d.root with
    | none =>
      rw [isSubpath_none cwd _ (absolutePath_absolute cwd hnames)]
      simp [Driver.covers, hroot]
    | some root =>
      obtain ⟨comps, rfl, hcomps⟩ := h root hroot
      rw [isSubpath_absolute cwd hcomps hnames]
      simp [Driver.covers, hroot, directory_absolute hcomps]

theorem dispatch_cons (dir : Option (List CString)) :
    dispatch (d :: ds) dir = if d.covers dir then .loaded d.addr else dispatch ds dir := by
  unfold dispatch
  rw [find?_cons]
  cases d.covers dir <;> rfl

theorem searchUnderlying_eq (cwd : Option CString) (dir : Option (List CString))
    (h : ∀ d ∈ ds, d.Rooted)
    (hplain : ∀ names, dir = some names → ∀ name ∈ names, Plain name) :
    searchUnderlying cwd (dir.map absolute) ds = .ok (dispatch ds dir) := by
  induction ds with
  | nil => rfl
  | cons d ds ih =>
    simp only [mem_cons, forall_eq_or_imp] at h
    rw [searchUnderlying, isSubpath_root cwd h.1 hplain, dispatch_cons]
    simp only [bind, Except.bind]
    split_ifs with hcovers
    · rfl
    · exact ih h.2

theorem dispatch_eq_system :
    dispatch ds dir = .system ↔ ∀ d ∈ ds, d.covers dir = false := by
  induction ds with
  | nil => simp [dispatch]
  | cons d ds ih =>
    rw [dispatch_cons]
    cases hcovers : d.covers dir <;> simp [hcovers, ih]

theorem addr_mem_of_dispatch {addr : Nat} (h : dispatch ds dir = .loaded addr) :
    addr ∈ ds.map Driver.addr := by
  induction ds with
  | nil => simp [dispatch] at h
  | cons d ds ih =>
    rw [dispatch_cons] at h
    split_ifs at h
    · cases h
      simp
    · simp [ih h]

theorem prefix_of_covers {names : List CString} (h : d.Rooted)
    (hcovers : d.covers (some names) = true) :
    ∃ root, d.root = some root ∧ root.isPrefixOf (absolute names) = true := by
  cases hroot : d.root with
  | none => simp [Driver.covers, hroot] at hcovers
  | some root =>
    obtain ⟨comps, rfl, hcomps⟩ := h root hroot
    simp only [Driver.covers, hroot, directory_absolute hcomps] at hcovers
    obtain ⟨rest, rfl⟩ := isPrefixOf_iff_prefix.mp hcovers
    refine ⟨_, rfl, isPrefixOf_iff_prefix.mpr ?_⟩
    rcases eq_or_ne comps [] with rfl | hne
    · exact ⟨join rest, rfl⟩
    · rcases eq_or_ne rest [] with rfl | hrest
      · simp
      · exact ⟨'/' :: join rest, by simp [absolute, join_append hne hrest]⟩

/-- `find_driver` finds the driver of the directory, unless it meets a driver before whose root is
    `NULL` or a beginning of the text. -/
theorem searchDriver_iff (names : List CString) (h : ∀ d ∈ ds, d.Rooted)
    (hnodup : (ds.map Driver.addr).Nodup) :
    searchDriver (absolute names) ds = .ok (dispatch ds (some names)) ↔
      ∀ d ∈ ds.takeWhile (fun d => !d.covers (some names)),
        ∃ root, d.root = some root ∧ ¬root <+: absolute names := by
  induction ds with
  | nil => simp [searchDriver, dispatch]
  | cons d ds ih =>
    simp only [mem_cons, forall_eq_or_imp] at h
    rw [map_cons, nodup_cons] at hnodup
    rw [searchDriver, dispatch_cons, takeWhile_cons]
    by_cases hcovers : d.covers (some names) = true
    · obtain ⟨root, hroot, hbegins⟩ := prefix_of_covers h.1 hcovers
      simp [hcovers, hroot, hbegins]
    · simp only [hcovers, Bool.not_false, if_true, mem_cons, forall_eq_or_imp]
      cases hroot : d.root with
      | none => simp
      | some root =>
        by_cases hbegins : root.isPrefixOf (absolute names) = true
        · -- the driver is taken for the right one, which has another address
          have hne : dispatch ds (some names) ≠ .loaded d.addr :=
            fun heq => hnodup.1 (addr_mem_of_dispatch heq)
          have hroot' : root <+: absolute names := isPrefixOf_iff_prefix.mp hbegins
          simp [hbegins, hroot', Ne.symm hne]
        · have hroot' : ¬root <+: absolute names :=
            fun hpre => hbegins (List.isPrefixOf_iff_prefix.mpr hpre)
          simpa [hbegins, hroot'] using ih h.2 hnodup.2

end Loops

/-! ## Mount tables -/

variable {target : Option CString} {result : MountResult}

theorem mount_cases {cwd : Option CString} {t t' : MountTable} {jvm : Bool}
    {source : Option CString} (h : mount cwd t jvm source target = .ok (t', result)) :
    (t' = t ∧ result ≠ .done) ∨
      ∃ abspath underlying root, absolutize cwd target = .ok abspath ∧
        searchUnderlying cwd abspath t.drivers.reverse = .ok underlying ∧
        normalize abspath = .ok root ∧
        t' = ⟨t.drivers ++ [⟨t.nextAddr, root, underlying⟩], t.nextAddr + 1⟩ := by
  unfold mount at h
  split_ifs at h with hfull
  · cases h
    exact Or.inl ⟨rfl, by simp⟩
  · obtain ⟨abspath, habspath, h⟩ := bind_eq_ok.mp h
    obtain ⟨underlying, hunder, h⟩ := bind_eq_ok.mp h
    obtain ⟨loaded, hload, h⟩ := bind_eq_ok.mp h
    cases loaded with
    | none =>
      cases h
      exact Or.inl ⟨rfl, by simp⟩
    | some driver =>
      cases h
      unfold loadDriver at hload
      split_ifs at hload
      · obtain ⟨root, hroot, heq⟩ := bind_eq_ok.mp hload
        cases heq
        exact Or.inr ⟨abspath, underlying, root, habspath, hunder, hroot, rfl⟩
      · cases hload

theorem removeDriver_sublist {cwd abspath : Option CString} {ds ds' : List Driver}
    (h : removeDriver cwd abspath ds = .ok (ds', result)) :
    ds'.Sublist ds := by
  induction ds generalizing ds' result with
  | nil =>
    cases h
    exact List.Sublist.slnil
  | cons d ds ih =>
    rw [removeDriver] at h
    obtain ⟨isBusy, -, h⟩ := bind_eq_ok.mp h
    split_ifs at h with hbusy hroot
    · cases h
      exact List.Sublist.refl _
    · cases h
      exact sublist_cons_self d ds
    · obtain ⟨rest, hrest, heq⟩ := bind_eq_ok.mp h
      cases heq
      exact (ih hrest).cons_cons d

theorem umount_sublist {cwd : Option CString} {t t' : MountTable}
    (h : umount cwd t target = .ok (t', result)) :
    t'.drivers.Sublist t.drivers ∧ t'.nextAddr = t.nextAddr := by
  rcases target with _ | _ | ⟨first, rest⟩
  · cases h
    exact ⟨List.Sublist.refl _, rfl⟩
  · cases h
    exact ⟨List.Sublist.refl _, rfl⟩
  · simp only [umount] at h
    obtain ⟨abspath, -, h⟩ := bind_eq_ok.mp h
    obtain ⟨removed, hremove, heq⟩ := bind_eq_ok.mp h
    cases heq
    refine ⟨?_, rfl⟩
    have hsublist := (removeDriver_sublist hremove).reverse
    rwa [reverse_reverse] at hsublist

namespace MountTable

variable {t t' : MountTable}

/-- Roots are normalized absolute paths, and drivers have addresses of their own. -/
structure WellFormed (t : MountTable) : Prop where
  rooted : ∀ d ∈ t.drivers, d.Rooted
  fresh : ∀ d ∈ t.drivers, d.addr < t.nextAddr
  nodup : (t.drivers.map Driver.addr).Nodup

theorem WellFormed.sublist (h : t.WellFormed) (hsublist : t'.drivers.Sublist t.drivers)
    (hnext : t'.nextAddr = t.nextAddr) : t'.WellFormed where
  rooted := fun d hd => h.rooted d (hsublist.subset hd)
  fresh := fun d hd => hnext ▸ h.fresh d (hsublist.subset hd)
  nodup := h.nodup.sublist (hsublist.map _)

theorem WellFormed.mount (h : t.WellFormed) {cwd : Option Cwd} {jvm : Bool}
    {source : Option CString}
    (hmount : Vfs.mount (cwd.map Cwd.path) t jvm source target = .ok (t', result)) :
    t'.WellFormed := by
  rcases mount_cases hmount with ⟨rfl, -⟩ | ⟨abspath, underlying, root, habspath, -, hroot, rfl⟩
  · exact h
  · refine ⟨?_, ?_, ?_⟩
    · intro d hd
      rcases mem_append.mp hd with hd | hd
      · exact h.rooted d hd
      · obtain rfl := mem_singleton.mp hd
        rintro r rfl
        -- the root was made absolute by `absolutize`, and is normalized again
        cases abspath with
        | none => cases hroot
        | some p =>
          obtain ⟨path, rfl⟩ := exists_of_absolutize habspath
          obtain ⟨dir, -, rfl, -⟩ := absolutize_spec habspath
          obtain ⟨heq, hplain⟩ := normalize_absolute_eq rfl hroot
          exact ⟨_, by simpa using heq, hplain⟩
    · intro d hd
      rcases mem_append.mp hd with hd | hd
      · exact (h.fresh d hd).trans (Nat.lt_succ_self _)
      · obtain rfl := mem_singleton.mp hd
        exact Nat.lt_succ_self _
    · rw [map_append, map_singleton]
      refine h.nodup.append (by simp) ?_
      intro addr haddr hnew
      obtain ⟨d, hd, rfl⟩ := mem_map.mp haddr
      have hlt := h.fresh d hd
      rw [mem_singleton.mp hnew] at hlt
      exact lt_irrefl _ hlt

theorem Reachable.wellFormed (h : t.Reachable) : t.WellFormed := by
  obtain ⟨results, hrun⟩ := h
  induction hrun with
  | nil => exact ⟨by simp [empty], by simp [empty], by simp [empty]⟩
  | @snoc _ t t' call result _ hstep ih =>
    cases call with
    | mount cwd jvm source target => exact ih.mount (eq_ok_of_toOption hstep)
    | umount cwd target =>
      obtain ⟨hsublist, hnext⟩ := umount_sublist (eq_ok_of_toOption hstep)
      exact ih.sublist hsublist hnext

/-- `find_driver` finds the driver of a path exactly if the path is not empty, and the table is, or
    there is room for the absolute path and no driver mounted after that one has no root or a root
    that the text of the path begins with. -/
theorem WellFormed.findDriver_iff (h : t.WellFormed) (cwd : Option Cwd) (path : CString) :
    findDriver (cwd.map Cwd.path) t.drivers (some path) =
        .ok (some (dispatch t.drivers.reverse (locate cwd path))) ↔
      path ≠ [] ∧ (t.drivers = [] ∨ CanAbsolutize cwd path ∧
        ∀ d ∈ t.drivers.reverse.takeWhile (fun d => !d.covers (locate cwd path)),
          ∃ root, d.root = some root ∧
            ∀ dir, locate cwd path = some dir → ¬root <+: absolute dir) := by
  rcases path with _ | ⟨first, rest⟩
  · simp [findDriver]
  · have hne : first :: rest ≠ [] := by simp
    simp only [findDriver, ne_eq, hne, not_false_eq_true, true_and]
    split_ifs with hempty
    · simp [hempty, dispatch]
    · simp only [hempty, false_or]
      rw [← absolutize_iff hne]
      cases habs : absolutize (cwd.map Cwd.path) (some (first :: rest)) with
      | error fault => simp [bind, Except.bind]
      | ok abspath =>
        cases abspath with
        | none => simp [bind, Except.bind]
        | some p =>
          obtain ⟨dir, hdir, rfl, hplain⟩ := absolutize_spec habs
          have hiff := searchDriver_iff dir (fun d hd => h.rooted d (mem_reverse.mp hd))
            (by rw [map_reverse]; exact nodup_reverse.mpr h.nodup)
          rw [hdir]
          simp only [bind, Except.bind, Option.some.injEq, Except.ok.injEq, exists_eq', true_and,
            forall_eq', ← hiff]
          cases searchDriver (absolute dir) t.drivers.reverse <;>
            simp [Functor.map, Except.map]

/-- The driver below a new one is the driver of its root exactly if there is room for the absolute
    path, or no driver is responsible for it. -/
theorem WellFormed.mount_iff (h : t.WellFormed) (cwd : Option Cwd) (jvm : Bool)
    (source target : Option CString)
    (hmount : Vfs.mount (cwd.map Cwd.path) t jvm source target = .ok (t', .done)) :
    ∃ d, t'.drivers = t.drivers ++ [d] ∧
      (d.underlying = dispatch t.drivers.reverse (target.bind (locate cwd)) ↔
        (∀ path, target = some path → CanAbsolutize cwd path) ∨
          ∀ d ∈ t.drivers, d.covers (target.bind (locate cwd)) = false) := by
  rcases mount_cases hmount with ⟨-, hdone⟩ | ⟨abspath, underlying, root, habspath, hunder, -, rfl⟩
  · exact absurd rfl hdone
  · refine ⟨_, rfl, ?_⟩
    have hrooted : ∀ d ∈ t.drivers.reverse, d.Rooted :=
      fun d hd => h.rooted d (mem_reverse.mp hd)
    cases abspath with
    -- `abspath` is compared with the roots, and the answer is the driver of its directory
    | some p =>
      obtain ⟨path, rfl⟩ := exists_of_absolutize habspath
      have hne : path ≠ [] := by
        rintro rfl
        cases habspath
      obtain ⟨dir, hdir, rfl, hplain⟩ := absolutize_spec habspath
      have hfound := searchUnderlying_eq (cwd.map Cwd.path) (some dir) hrooted (by simpa)
      rw [Option.map_some, hunder] at hfound
      refine iff_of_true (by simpa [hdir] using hfound) (Or.inl ?_)
      intro path' heq
      rw [← Option.some.inj heq]
      exact (absolutize_iff hne).mp ⟨_, habspath⟩
    | none =>
      -- without `abspath` no root covers it, and the driver of the system is taken
      have hfound := searchUnderlying_eq (cwd.map Cwd.path) none hrooted (by simp)
      have hsystem : dispatch t.drivers.reverse none = .system := by
        simp [dispatch_eq_system, Driver.covers]
      rw [Option.map_none, hunder, hsystem] at hfound
      obtain rfl : underlying = .system := by simpa using hfound
      rw [eq_comm, dispatch_eq_system]
      simp only [mem_reverse]
      refine ⟨Or.inr, fun hor => hor.elim (fun hcan => ?_) id⟩
      rcases target with _ | _ | ⟨first, rest⟩
      · simp [Driver.covers]
      · simp [Driver.covers, locate, absoluteText]
      · obtain ⟨p, hp⟩ := (absolutize_iff (by simp)).mpr (hcan _ rfl)
        rw [habspath] at hp
        simp at hp

/-- Whatever was mounted and unmounted before, `find_driver` answers the driver of the path, the one
    mounted last of those whose root is above it, exactly under the conditions on the right, and
    so does `mount` when it selects the driver below a new one. -/
theorem findDriver_dispatch_iff (t : MountTable) (h : t.Reachable) (cwd : Option Cwd) :
    (∀ path, findDriver (cwd.map Cwd.path) t.drivers (some path) =
        .ok (some (dispatch t.drivers.reverse (locate cwd path))) ↔
      path ≠ [] ∧ (t.drivers = [] ∨ CanAbsolutize cwd path ∧
        ∀ d ∈ t.drivers.reverse.takeWhile (fun d => !d.covers (locate cwd path)),
          ∃ root, d.root = some root ∧
            ∀ dir, locate cwd path = some dir → ¬root <+: absolute dir)) ∧
    ∀ t' jvm source target,
      Vfs.mount (cwd.map Cwd.path) t jvm source target = .ok (t', .done) →
      ∃ d, t'.drivers = t.drivers ++ [d] ∧
        (d.underlying = dispatch t.drivers.reverse (target.bind (locate cwd)) ↔
          (∀ path, target = some path → CanAbsolutize cwd path) ∨
            ∀ d ∈ t.drivers, d.covers (target.bind (locate cwd)) = false) :=
  ⟨h.wellFormed.findDriver_iff cwd,
    fun _ jvm source target => h.wellFormed.mount_iff cwd jvm source target⟩

def assetsMounted : MountTable := ⟨[⟨0, some "/mnt/a".toList, .system⟩], 1⟩

theorem assetsMounted_reachable : assetsMounted.Reachable := by
  have hrun : runActions step empty
      [.mount none true (some "/dev/assets".toList) (some "/mnt/./a".toList)] =
      some ([.done], assetsMounted) := by decide +kernel
  exact ⟨_, run_of_runActions hrun⟩

theorem findDriver_dispatch_assets :
    assetsMounted.Reachable ∧
      findDriver none assetsMounted.drivers (some "/mnt/a/b".toList) =
        .ok (some (dispatch assetsMounted.drivers.reverse (locate none "/mnt/a/b".toList))) ∧
      dispatch assetsMounted.drivers.reverse (locate none "/mnt/a/b".toList) = .loaded 0 := by
  refine ⟨assetsMounted_reachable, ?_, by decide +kernel⟩
  refine ((findDriver_dispatch_iff assetsMounted assetsMounted_reachable none).1 _).mpr
    ⟨by decide +kernel, Or.inr ⟨?_, ?_⟩⟩
  · rw [CanAbsolutize, if_pos (by decide +kernel)]
    exact hasRoom_of_length (by decide +kernel) (by decide +kernel)
  · have hnone : assetsMounted.drivers.reverse.takeWhile
        (fun d => !d.covers (locate none "/mnt/a/b".toList)) = [] := by decide +kernel
    rw [hnone]
    exact fun _ hmem => absurd hmem not_mem_nil

/-- `/mnt/ab` is not below `/mnt/a`. -/
theorem findDriver_sibling :
    assetsMounted.Reachable ∧
      findDriver none assetsMounted.drivers (some "/mnt/ab".toList) = .ok (some (.loaded 0)) ∧
      dispatch assetsMounted.drivers.reverse (locate none "/mnt/ab".toList) = .system :=
  ⟨assetsMounted_reachable, by decide +kernel, by decide +kernel⟩

end MountTable

end CrystaxNdk.Vfs
