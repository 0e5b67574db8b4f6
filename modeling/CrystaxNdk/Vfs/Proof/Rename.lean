import CrystaxNdk.Vfs.Proof.MountStack

/-!
# Renaming between drivers

The driver that is asked compares the driver of the old path with the one it stands on, not with
itself. So a file is never renamed within the assets, and it is renamed into them from the driver
below if that is the system's. Out of the assets the driver of the system is asked, and asks
nobody. The call never gets further down than to the second driver: there the old path belongs to
that driver, which does not stand on itself.
-/

namespace CrystaxNdk.Vfs

open Lib List

section Pointers

variable {cwd : Option CString} {ds : List Driver} {d : Driver} {addr : Nat}

theorem mem_of_searchDriver {abspath : CString}
    (h : searchDriver abspath ds = .ok (.loaded addr)) : ∃ d ∈ ds, d.addr = addr := by
  induction ds with
  | nil => cases h
  | cons d below ih =>
    rw [searchDriver] at h
    cases hroot : d.root with
    | none =>
      rw [hroot] at h
      cases h
    | some root =>
      rw [hroot] at h
      dsimp only at h
      split at h
      · cases h
        exact ⟨d, mem_cons_self, rfl⟩
      · obtain ⟨d', hd', haddr⟩ := ih h
        exact ⟨d', mem_cons_of_mem d hd', haddr⟩

theorem mem_of_findDriver {path : Option CString}
    (h : findDriver cwd ds path = .ok (some (.loaded addr))) : ∃ d ∈ ds, d.addr = addr := by
  rcases path with _ | _ | ⟨first, rest⟩
  · cases h
  · cases h
  · simp only [findDriver] at h
    split at h
    · cases h
    · obtain ⟨abspath, -, h⟩ := bind_eq_ok.mp h
      cases abspath with
      | none => cases h
      | some abspath =>
        dsimp only at h
        cases hsearch : searchDriver abspath ds.reverse with
        | error fault =>
          rw [hsearch] at h
          cases h
        | ok driver =>
          rw [hsearch] at h
          cases h
          obtain ⟨d, hd, haddr⟩ := mem_of_searchDriver hsearch
          exact ⟨d, mem_reverse.mp hd, haddr⟩

theorem Stacked.underlying_ne (h : Stacked ds) (hnodup : (ds.map Driver.addr).Nodup)
    (hd : d ∈ ds) : d.underlying ≠ .loaded d.addr := by
  induction ds with
  | nil => cases hd
  | cons first below ih =>
    rw [map_cons, nodup_cons] at hnodup
    rcases mem_cons.mp hd with rfl | hd
    · intro hself
      rcases h.1 with hsystem | ⟨base, hbase, hunder, -⟩
      · rw [hsystem] at hself
        cases hself
      · rw [hunder] at hself
        have haddr : base.addr = d.addr := DriverPtr.loaded.inj hself
        exact hnodup.1 (haddr ▸ mem_map_of_mem hbase)
    · exact ih h.2 hnodup.2 hd

end Pointers

/-! ## What happens -/

/-- How it is to end, for the drivers the two paths belong to. -/
structure RenameRight (result : RenameResult) (old new : Option DriverPtr) : Prop where
  renames : result = .systemRename ↔ ∃ d, old = some d ∧ new = some d
  exdev : result = .exdev ↔ ∃ d d', old = some d ∧ new = some d' ∧ d ≠ d'

/-- The result for the drivers of the two paths, where `underlying` is what the new one stands
    on. -/
def renameResult (old new : Option DriverPtr) (underlying : DriverPtr) : RenameResult :=
  match old, new with
  | _, none => .failed
  | _, some .system => .systemRename
  | none, some (.loaded _) => .failed
  | some d, some (.loaded _) => if d = .system ∧ underlying = .system then .systemRename else .exdev

namespace MountTable

variable {t : MountTable} {cwd oldpath newpath : Option CString} {old new : Option DriverPtr}

theorem driverRename_loaded (hwf : t.WellFormed) (hstacked : Stacked t.drivers.reverse)
    {d : Driver} (hd : d ∈ t.drivers) (hold : findDriver cwd t.drivers oldpath = .ok old)
    {fuel : Nat} (hfuel : 3 ≤ fuel) :
    driverRename cwd t.drivers oldpath fuel (.loaded d.addr) =
      some (.ok (renameResult old (some (.loaded d.addr)) d.underlying)) := by
  have hnodup : (t.drivers.reverse.map Driver.addr).Nodup := by
    rw [map_reverse]
    exact nodup_reverse.mpr hwf.nodup
  obtain ⟨fuel, rfl⟩ := Nat.exists_eq_add_of_le' hfuel
  rw [driverRename, find?_addr hwf.nodup hd]
  dsimp only
  rw [hold]
  cases old with
  | none => rfl
  | some ptr =>
    dsimp only
    by_cases hptr : ptr = d.underlying
    · rw [if_neg (not_not.mpr hptr)]
      rcases hstacked.mem_underlying (mem_reverse.mpr hd) with hsystem | ⟨base, hbase, hunder⟩
      · rw [hptr, hsystem, driverRename]
        rfl
      · -- the next driver is that of the old path, and does not stand on itself
        have hbase := mem_reverse.mp hbase
        have hne : DriverPtr.loaded base.addr ≠ base.underlying :=
          (hstacked.underlying_ne hnodup (mem_reverse.mpr hbase)).symm
        rw [hunder, driverRename, find?_addr hwf.nodup hbase]
        dsimp only
        rw [hold]
        dsimp only
        rw [hptr, hunder, if_pos hne]
        rfl
    · rw [if_pos hptr, renameResult, if_neg]
      rintro ⟨rfl, hsystem⟩
      exact hptr hsystem.symm

/-- What the driver of the new path stands on. -/
def belowNew (t : MountTable) : Option DriverPtr → DriverPtr
  | some (.loaded addr) => (underlyingOf t.drivers addr).getD .system
  | _ => .system

/-- The system's `rename` is called by the driver of the system, and for files it has. -/
theorem rename_eq (h : t.Reachable) (hold : findDriver cwd t.drivers oldpath = .ok old)
    (hnew : findDriver cwd t.drivers newpath = .ok new) {fuel : Nat} (hfuel : 3 ≤ fuel) :
    rename cwd t.drivers oldpath newpath fuel =
      some (.ok (renameResult old new (t.belowNew new))) := by
  obtain ⟨results, hrun⟩ := h
  obtain ⟨hwf, hstacked⟩ := run_stacked hrun
  rw [rename, hnew]
  cases new with
  | none => cases old <;> rfl
  | some ptr =>
    cases ptr with
    | system =>
      obtain ⟨fuel, rfl⟩ := Nat.exists_eq_add_of_le' hfuel
      cases old <;> rfl
    | loaded addr =>
      obtain ⟨d, hd, rfl⟩ := mem_of_findDriver hnew
      rw [belowNew, underlyingOf_of_mem hwf.nodup hd]
      exact driverRename_loaded hwf hstacked hd hold hfuel

/-- The old path is the system's too if the new one is; otherwise it is not that of the same
    driver, and not the system's if that driver stands on it. -/
def RenameSafe (t : MountTable) (old new : Option DriverPtr) : Prop :=
  (new = some .system → old = some .system) ∧
    ∀ addr, new = some (.loaded addr) →
      old ≠ new ∧ (old = some .system → t.belowNew new ≠ .system)

theorem renameRight_iff (t : MountTable) (old new : Option DriverPtr) :
    RenameRight (renameResult old new (t.belowNew new)) old new ↔ t.RenameSafe old new := by
  unfold RenameSafe
  rcases new with _ | _ | addr
  · -- no driver is asked
    refine iff_of_true ⟨?_, ?_⟩ (by simp)
    · cases old <;> simp [renameResult]
    · cases old <;> simp [renameResult]
  · have hresult : renameResult old (some .system) (t.belowNew (some .system)) =
        .systemRename := by
      cases old <;> rfl
    rw [hresult]
    constructor
    · intro hright
      obtain ⟨d, hold, hnew⟩ := hright.renames.mp rfl
      cases hnew
      exact ⟨fun _ => hold, by simp⟩
    · rintro ⟨hold, -⟩
      obtain rfl := hold rfl
      constructor <;> simp
  · cases old with
    | none => exact iff_of_true ⟨by simp [renameResult], by simp [renameResult]⟩ (by simp)
    | some d =>
      rw [renameResult]
      split_ifs with hsystem
      · obtain ⟨rfl, hunder⟩ := hsystem
        refine iff_of_false (fun hright => ?_) fun hsafe => (hsafe.2 addr rfl).2 rfl hunder
        obtain ⟨d, hold, hnew⟩ := hright.renames.mp rfl
        cases hold
        cases hnew
      · constructor
        · intro hright
          obtain ⟨d₁, d₂, hold, hnew, hne⟩ := hright.exdev.mp rfl
          cases hold
          cases hnew
          refine ⟨by simp, fun addr' _ => ⟨fun heq => hne (Option.some.inj heq), ?_⟩⟩
          intro hd hunder
          exact hsystem ⟨Option.some.inj hd, hunder⟩
        · rintro ⟨-, hsafe⟩
          have hne : d ≠ .loaded addr := fun heq => (hsafe addr rfl).1 (congrArg some heq)
          refine ⟨iff_of_false (by simp) ?_, iff_of_true rfl ⟨d, _, rfl, rfl, hne⟩⟩
          rintro ⟨d', hold, hnew⟩
          cases hold
          exact hne (Option.some.inj hnew).symm

/-- `rename` ends as it is to end for the drivers the two paths belong to. -/
def RenamesRight (t : MountTable) (cwd oldpath newpath : Option CString) : Prop :=
  ∃ old new result, findDriver cwd t.drivers oldpath = .ok old ∧
    findDriver cwd t.drivers newpath = .ok new ∧
    (∀ fuel ≥ 3, rename cwd t.drivers oldpath newpath fuel = some (.ok result)) ∧
    RenameRight result old new

/-- **`rename`.** It renames within a driver and refuses to rename between drivers exactly if both
    paths are the system's, or the new one belongs to a driver that the old one does not belong to
    and that does not stand on the system if the old one is the system's. -/
theorem renamesRight_iff (h : t.Reachable) (cwd oldpath newpath : Option CString) :
    t.RenamesRight cwd oldpath newpath ↔
      ∃ old new, findDriver cwd t.drivers oldpath = .ok old ∧
        findDriver cwd t.drivers newpath = .ok new ∧ t.RenameSafe old new := by
  constructor
  · rintro ⟨old, new, result, hold, hnew, hrename, hright⟩
    have heq := (hrename 3 le_rfl).symm.trans (rename_eq h hold hnew le_rfl)
    refine ⟨old, new, hold, hnew, (renameRight_iff t old new).mp ?_⟩
    rwa [Except.ok.inj (Option.some.inj heq)] at hright
  · rintro ⟨old, new, hold, hnew, hsafe⟩
    exact ⟨old, new, _, hold, hnew, fun fuel hfuel => rename_eq h hold hnew hfuel,
      (renameRight_iff t old new).mpr hsafe⟩

/-- Within the driver of the system. -/
theorem renamesRight_system :
    assetsMounted.RenamesRight none (some "/x".toList) (some "/y".toList) := by
  refine (renamesRight_iff assetsMounted_reachable _ _ _).mpr ⟨some .system, some .system, ?_⟩
  exact ⟨by decide +kernel, by decide +kernel, fun _ => rfl, by simp⟩

/-- Within the assets it fails, into and out of them it does not. -/
theorem rename_assets :
    assetsMounted.Reachable ∧
    findDriver none assetsMounted.drivers (some "/mnt/a/x".toList) = .ok (some (.loaded 0)) ∧
    findDriver none assetsMounted.drivers (some "/mnt/a/y".toList) = .ok (some (.loaded 0)) ∧
    rename none assetsMounted.drivers (some "/mnt/a/x".toList) (some "/mnt/a/y".toList) 3 =
      some (.ok .exdev) ∧
    ¬ assetsMounted.RenamesRight none (some "/mnt/a/x".toList) (some "/mnt/a/y".toList) ∧
    rename none assetsMounted.drivers (some "/x".toList) (some "/mnt/a/y".toList) 3 =
      some (.ok .systemRename) ∧
    rename none assetsMounted.drivers (some "/mnt/a/x".toList) (some "/y".toList) 3 =
      some (.ok .systemRename) := by
  have hold : findDriver none assetsMounted.drivers (some "/mnt/a/x".toList) =
      .ok (some (.loaded 0)) := by decide +kernel
  have hnew : findDriver none assetsMounted.drivers (some "/mnt/a/y".toList) =
      .ok (some (.loaded 0)) := by decide +kernel
  have hrename : rename none assetsMounted.drivers (some "/mnt/a/x".toList)
      (some "/mnt/a/y".toList) 3 = some (.ok .exdev) := by decide +kernel
  refine ⟨assetsMounted_reachable, hold, hnew, hrename, ?_, by decide +kernel, by decide +kernel⟩
  rintro ⟨old, new, result, hold', hnew', hresult, hright⟩
  have hexdev := (hresult 3 le_rfl).symm.trans hrename
  cases hold.symm.trans hold'
  cases hnew.symm.trans hnew'
  cases hexdev
  obtain ⟨d, d', hd, hd', hne⟩ := hright.exdev.mp rfl
  cases hd
  cases hd'
  exact hne rfl

end MountTable

end CrystaxNdk.Vfs
