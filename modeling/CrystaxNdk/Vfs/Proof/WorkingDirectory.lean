import CrystaxNdk.Vfs.Proof.Relpath

/-!
# The working directory after some calls of `chdir`

A call that succeeds leads to the directory that its path resolves to, as far as there is room to
make the path absolute, and no name in that directory is longer than `NAME_MAX`: such a name is cut.
A call that fails leaves the working directory as it is.
-/

namespace CrystaxNdk.Vfs

open Lib List

variable {s : WorkingDir} {dir : List CString} {c : ChdirCall}

structure WorkingDir.At (s : WorkingDir) (dir : List CString) : Prop where
  text : s.cpath.getD s.systemCwd = absolute dir
  plain : ∀ name ∈ dir, Plain name
  room : (absolute dir).length ≤ pathMax

theorem WorkingDir.At.getcwd (h : s.At dir) {size : Nat} (hsize : (absolute dir).length < size) :
    getcwd s size = some (absolute dir) := by
  have htext := h.text
  unfold Vfs.getcwd
  cases hcpath : s.cpath with
  | none =>
    rw [hcpath, Option.getD_none] at htext
    simp only [htext]
    exact if_neg (by omega)
  | some cpath =>
    rw [hcpath, Option.getD_some] at htext
    simp only [htext]
    exact if_neg (by omega)

def ChdirCall.follow (dir : List CString) (c : ChdirCall) : List CString :=
  if c.succeeds then resolve dir c.path else dir

/-- There is room to make the path absolute, and no name is cut if the call succeeds. -/
def ChdirCall.Proper (dir : List CString) (c : ChdirCall) : Prop :=
  CanAbsolutize (some ⟨absolute dir, rfl⟩) c.path ∧
    (c.succeeds = true → ∀ name ∈ resolve dir c.path, name.length ≤ nameMax)

/-! ## One call -/

theorem exists_searchDriver (abspath : CString) {drivers : List Driver}
    (h : ∀ d ∈ drivers, d.root.isSome) : ∃ d, searchDriver abspath drivers = .ok d := by
  induction drivers with
  | nil => exact ⟨_, rfl⟩
  | cons d below ih =>
    obtain ⟨root, hroot⟩ := Option.isSome_iff_exists.mp (h d mem_cons_self)
    rw [searchDriver, hroot]
    by_cases hprefix : root.isPrefixOf abspath = true
    · exact ⟨_, if_pos hprefix⟩
    · obtain ⟨d', hd'⟩ := ih fun d hd => h d (mem_cons_of_mem _ hd)
      exact ⟨d', (if_neg hprefix).trans hd'⟩

theorem exists_findDriver (cwd : Option CString) {drivers : List Driver}
    (hrooted : ∀ d ∈ drivers, d.root.isSome) {names : List CString}
    (hplain : ∀ name ∈ names, Plain name) (hshort : ∀ name ∈ names, name.length ≤ nameMax)
    (hroom : (absolute names).length ≤ pathMax) :
    ∃ d, findDriver cwd drivers (some (absolute names)) = .ok (some d) := by
  obtain ⟨d, hd⟩ : ∃ d, searchDriver (absolute names) drivers.reverse = .ok d :=
    exists_searchDriver _ fun d hd => hrooted d (mem_reverse.mp hd)
  by_cases hnil : drivers = []
  · exact ⟨.system, by simp [findDriver, absolute, hnil]⟩
  · refine ⟨d, ?_⟩
    have habsolutize := absolutize_absolute cwd hplain hshort hroom
    rw [absolute] at habsolutize hd ⊢
    simp [findDriver, hnil, habsolutize, hd, bind, Except.bind, Functor.map, Except.map]

theorem resolve_plain (hplain : ∀ name ∈ dir, Plain name) (hne : c.path ≠ []) :
    lexical ⟨absolute dir, rfl⟩ c.path = some (resolve dir c.path) := by
  rw [lexical, if_neg hne, directory_absolute hplain]

theorem WorkingDir.At.chdir (h : s.At dir)
    (hroom : CanAbsolutize (some ⟨absolute dir, rfl⟩) c.path) :
    ∃ s', chdir s c = .ok (c.succeeds, s') ∧
      s'.At (if c.succeeds then cutNames (resolve dir c.path) else dir) := by
  have hlexical := resolve_plain h.plain c.nonempty
  obtain ⟨habsolutize, hlength⟩ := absolutize_of_canAbsolutize hlexical hroom
  have hplain := plain_cutNames (plain_lexical hlexical)
  have hshort : ∀ name ∈ cutNames (resolve dir c.path), name.length ≤ nameMax := by
    intro name hname
    obtain ⟨whole, -, rfl⟩ := mem_map.mp hname
    exact length_take_le _ _
  have hcwd := h.getcwd (Nat.lt_succ_of_le h.room)
  obtain ⟨d, hd⟩ := exists_findDriver (some (absolute dir)) c.rooted hplain hshort hlength
  simp only [Vfs.chdir, hcwd, habsolutize, bind, Except.bind, hd]
  cases hstat : c.stat with
  | none =>
    have hfails : c.succeeds = false := by rw [ChdirCall.succeeds, hstat]
    rw [hfails]
    exact ⟨s, rfl, h⟩
  | some mode =>
    by_cases hmode : mode &&& sIfDir = 0
    · have hfails : c.succeeds = false := by simp [ChdirCall.succeeds, hstat, hmode]
      rw [hfails]
      exact ⟨s, if_pos hmode, h⟩
    · have hsucceeds : c.succeeds = true := by simp [ChdirCall.succeeds, hstat, hmode]
      rw [hsucceeds, if_pos rfl]
      exact ⟨_, if_neg hmode, rfl, hplain, hlength⟩

/-- Without room there is no result: `normalize` overruns its buffer, or the driver is `NULL`. -/
theorem WorkingDir.At.canAbsolutize (h : s.At dir) {res : Bool × WorkingDir}
    (hchdir : Vfs.chdir s c = .ok res) :
    CanAbsolutize (some ⟨absolute dir, rfl⟩) c.path := by
  rw [← absolutize_iff c.nonempty]
  have hcwd := h.getcwd (Nat.lt_succ_of_le h.room)
  simp only [Vfs.chdir, hcwd, bind, Except.bind] at hchdir
  show ∃ p, absolutize (some (absolute dir)) (some c.path) = .ok (some p)
  cases habsolutize : absolutize (some (absolute dir)) (some c.path) with
  | error fault =>
    rw [habsolutize] at hchdir
    cases hchdir
  | ok abspath =>
    rw [habsolutize] at hchdir
    cases abspath with
    | none => cases hchdir
    | some p => exact ⟨p, rfl⟩

/-! ## All calls -/

def followed (dir : List CString) (calls : List ChdirCall) : List CString :=
  calls.foldl ChdirCall.follow dir

/-- After each call `getcwd` returns the directory that the calls lead to. -/
def Tracks (s : WorkingDir) (dir : List CString) (calls : List ChdirCall) : Prop :=
  ∀ n, ∃ s', chdirs s (calls.take n) = .ok s' ∧
    ∀ size, (absolute (followed dir (calls.take n))).length < size →
      getcwd s' size = some (absolute (followed dir (calls.take n)))

/-- Each call is proper in the directory where it is made. -/
def AllProper : List CString → List ChdirCall → Prop
  | _, [] => True
  | dir, c :: calls => c.Proper dir ∧ AllProper (c.follow dir) calls

theorem chdirs_cons {s' : WorkingDir} {b : Bool} (h : chdir s c = .ok (b, s'))
    (calls : List ChdirCall) : chdirs s (c :: calls) = chdirs s' calls := by
  rw [chdirs, foldlM_cons, h]
  rfl

theorem tracks_cons {s' : WorkingDir} {b : Bool} (h : s.At dir) (hchdir : chdir s c = .ok (b, s'))
    (calls : List ChdirCall) : Tracks s dir (c :: calls) ↔ Tracks s' (c.follow dir) calls := by
  constructor
  · intro htracks n
    have hnext := htracks (n + 1)
    rw [take_succ_cons, chdirs_cons hchdir] at hnext
    exact hnext
  · intro htracks n
    cases n with
    | zero => exact ⟨s, rfl, fun size hsize => h.getcwd hsize⟩
    | succ n =>
      rw [take_succ_cons, chdirs_cons hchdir]
      exact htracks n

theorem absolute_inj {names names' : List CString} (h : ∀ name ∈ names, Plain name)
    (h' : ∀ name ∈ names', Plain name) (heq : absolute names = absolute names') :
    names = names' := by
  rw [← directory_absolute h, heq, directory_absolute h']

/-- After a call that is tracked the working directory is the one it leads to. -/
theorem WorkingDir.At.proper_of_tracks (h : s.At dir) {calls : List ChdirCall}
    (htracks : Tracks s dir (c :: calls)) : c.Proper dir := by
  obtain ⟨s', hrun, hgetcwd⟩ := htracks 1
  rw [take_succ_cons, take_zero, chdirs, foldlM_cons] at hrun
  cases hchdir : Vfs.chdir s c with
  | error fault =>
    rw [hchdir] at hrun
    cases hrun
  | ok res =>
    have hroom := h.canAbsolutize hchdir
    obtain ⟨s₁, hchdir₁, hat⟩ := h.chdir hroom
    rw [hchdir₁] at hrun
    cases hrun
    refine ⟨hroom, fun hsucceeds => ?_⟩
    have hplain := plain_lexical (resolve_plain h.plain c.nonempty)
    rw [take_succ_cons, take_zero] at hgetcwd
    have hfollow : followed dir [c] = resolve dir c.path := if_pos hsucceeds
    rw [if_pos hsucceeds] at hat
    rw [hfollow] at hgetcwd
    have hboth := hgetcwd (max (absolute (resolve dir c.path)).length
      (absolute (cutNames (resolve dir c.path))).length + 1) (by omega)
    rw [hat.getcwd (by omega)] at hboth
    exact cutNames_eq_self.mp (absolute_inj hat.plain hplain (Option.some.inj hboth))

theorem WorkingDir.At.chdir_proper (h : s.At dir) (hproper : c.Proper dir) :
    ∃ s', Vfs.chdir s c = .ok (c.succeeds, s') ∧ s'.At (c.follow dir) := by
  obtain ⟨s', hchdir, hat⟩ := h.chdir hproper.1
  refine ⟨s', hchdir, ?_⟩
  rw [ChdirCall.follow]
  split
  · rename_i hsucceeds
    rwa [if_pos hsucceeds, cutNames_eq_self.mpr (hproper.2 hsucceeds)] at hat
  · rename_i hfails
    rwa [if_neg hfails] at hat

/-- The working directory is the one that the successful calls lead to, after each of them, if and
    only if all calls are proper. -/
theorem tracks_iff (s : WorkingDir) (dir : List CString) (h : s.At dir) (calls : List ChdirCall) :
    Tracks s dir calls ↔ AllProper dir calls := by
  induction calls generalizing s dir with
  | nil =>
    refine iff_of_true (fun n => ⟨s, ?_, fun size hsize => ?_⟩) trivial
    · rw [take_nil]
      rfl
    · rw [take_nil] at hsize ⊢
      exact h.getcwd hsize
  | cons c calls ih =>
    constructor
    · intro htracks
      have hproper := h.proper_of_tracks htracks
      obtain ⟨s', hchdir, hat⟩ := h.chdir_proper hproper
      exact ⟨hproper, (ih s' _ hat).mp ((tracks_cons h hchdir calls).mp htracks)⟩
    · rintro ⟨hproper, hall⟩
      obtain ⟨s', hchdir, hat⟩ := h.chdir_proper hproper
      exact (tracks_cons h hchdir calls).mpr ((ih s' _ hat).mpr hall)

theorem at_root : WorkingDir.At ⟨none, ['/']⟩ [] := ⟨rfl, by simp, by decide⟩

/-- From `/`, `chdir("a")` succeeds and `chdir("../b")` fails. -/
theorem tracks_root :
    WorkingDir.At ⟨none, ['/']⟩ [] ∧
      Tracks ⟨none, ['/']⟩ []
        [⟨['a'], [], some sIfDir, true, by decide, by simp⟩,
         ⟨"../b".toList, [], none, true, by decide +kernel, by simp⟩] := by
  refine ⟨at_root, (tracks_iff _ _ at_root _).mpr ⟨⟨?_, fun _ => ?_⟩, ⟨?_, fun h => ?_⟩, trivial⟩⟩
  · exact ⟨_, rfl, by decide⟩
  · decide
  · exact ⟨_, rfl, by decide +kernel⟩
  · cases h

/-- From `/`, `chdir` to a name of 256 characters leads to one of 255 characters. -/
theorem not_tracks_longName :
    WorkingDir.At ⟨none, ['/']⟩ [] ∧
      ¬Tracks ⟨none, ['/']⟩ [] [⟨longName, [], some sIfDir, true, by decide, by simp⟩] := by
  refine ⟨at_root, fun htracks => ?_⟩
  have hproper := at_root.proper_of_tracks htracks
  have hshort := hproper.2 rfl longName (by decide +kernel)
  exact absurd hshort (by decide +kernel)

end CrystaxNdk.Vfs
