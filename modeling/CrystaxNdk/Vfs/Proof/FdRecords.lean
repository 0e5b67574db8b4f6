import CrystaxNdk.Vfs.FdTable

/-!
# What calls do to the records

Each function that changes the table stores a record in the first free slot, or frees a slot, or
leaves all records as they are. `fd_table_top` is of no importance here but in `free_dirp`, which
looks for the handle below it.
-/

namespace CrystaxNdk.Vfs.FdTable

open Lib

variable {n bits : Nat} {t t' : FdTable n} {fd : Fin n}

def InUse (t : FdTable n) (fd : Fin n) : Prop := 0 ≤ (t.record fd).extfd

instance : Decidable (t.InUse fd) := inferInstanceAs (Decidable (0 ≤ _))

/-! ## Allocating -/

section Allocate

variable {r : FdRecord}

theorem freeSlot_eq_none : t.freeSlot = none ↔ ∀ fd, t.InUse fd := by
  simp only [freeSlot, Fin.find?_eq_none_iff, decide_eq_false_iff_not, not_lt, InUse]

theorem freeSlot_eq_some :
    t.freeSlot = some fd ↔ ¬t.InUse fd ∧ ∀ other, ¬t.InUse other → fd ≤ other := by
  simp only [freeSlot, Fin.find?_eq_some_iff, decide_eq_true_eq, decide_eq_false_iff_not, InUse,
    not_le]
  refine and_congr_right fun _ => forall_congr' fun other => ?_
  rw [← not_imp_not, not_not, not_lt]

theorem allocFd_fst (t : FdTable n) (path : Option CString) (extfd : Int) (driver : DriverPtr) :
    (t.allocFd path extfd driver).1 =
      t.freeSlot.elim t fun fd => t.store fd ⟨0, extfd, 0, some driver, path⟩ := by
  unfold allocFd
  cases t.freeSlot <;> rfl

theorem allocDirp_fst (t : FdTable n) (path : Option CString) (extdirp : DirPtr) (extfd : Int)
    (driver : DriverPtr) :
    (t.allocDirp path extdirp extfd driver).1 =
      t.freeSlot.elim t fun fd => t.store fd ⟨dirpOf fd, extfd, extdirp, some driver, path⟩ := by
  unfold allocDirp
  cases t.freeSlot <;> rfl

section Slots

variable {path : Option CString} {extfd : Int} {extdirp : DirPtr} {driver : DriverPtr}

theorem allocFd_of_none (h : t.freeSlot = none) : t.allocFd path extfd driver = (t, -1) := by
  rw [allocFd, h]

theorem allocFd_of_some (h : t.freeSlot = some fd) :
    t.allocFd path extfd driver =
      (t.store fd ⟨0, extfd, 0, some driver, path⟩, (fd.val : Int)) := by
  rw [allocFd, h]

theorem allocDirp_of_none (h : t.freeSlot = none) :
    t.allocDirp path extdirp extfd driver = (t, 0) := by
  rw [allocDirp, h]

theorem allocDirp_of_some (h : t.freeSlot = some fd) :
    t.allocDirp path extdirp extfd driver =
      (t.store fd ⟨dirpOf fd, extfd, extdirp, some driver, path⟩, dirpOf fd) := by
  rw [allocDirp, h]

end Slots

theorem call_allocFd (t : FdTable n) (bits : Nat) (path : Option CString) (extfd : Int)
    (driver : DriverPtr) :
    t.call bits (.allocFd path extfd driver) =
      .ok ((t.allocFd path extfd driver).1, .fd (t.allocFd path extfd driver).2) := rfl

theorem call_allocDirp (t : FdTable n) (bits : Nat) (path : Option CString) (extdirp : DirPtr)
    (extfd : Int) (driver : DriverPtr) :
    t.call bits (.allocDirp path extdirp extfd driver) =
      .ok ((t.allocDirp path extdirp extfd driver).1,
        .dirp (t.allocDirp path extdirp extfd driver).2) := rfl

@[simp]
theorem store_top : (t.store fd r).top = max t.top fd := rfl

theorem inUse_store_self : (t.store fd r).InUse fd ↔ 0 ≤ r.extfd := by
  simp [InUse, store]

theorem inUse_store_of_ne {other : Fin n} (h : other ≠ fd) :
    (t.store fd r).InUse other ↔ t.InUse other := by
  simp [InUse, store, h]

end Allocate

/-! ## Freeing -/

def clear (t : FdTable n) (fd : Fin n) : FdTable n := ⟨Function.update t.record fd .free, t.top⟩

theorem inUse_clear {other : Fin n} : (t.clear fd).InUse other ↔ other ≠ fd ∧ t.InUse other := by
  rcases eq_or_ne other fd with rfl | hne
  · simp [InUse, clear, FdRecord.free]
  · simp [InUse, clear, hne]

theorem release_eq : t.release bits fd =
    if t.top = fd then do
      let top ← (t.clear fd).lowerTop bits (t.top + 1) t.top
      return ⟨(t.clear fd).record, top⟩
    else .ok (t.clear fd) := rfl

theorem lowerTop_ok (t : FdTable n) (bits i top : Nat) (hi : i ≤ n) :
    ∃ top', t.lowerTop bits i top = .ok top' := by
  induction i generalizing top with
  | zero => exact ⟨top, rfl⟩
  | succ i ih =>
    rw [lowerTop, dif_pos (Nat.lt_of_succ_le hi)]
    split_ifs
    · exact ⟨top, rfl⟩
    · exact ih _ (Nat.le_of_succ_le hi)

theorem release_record (t : FdTable n) (bits : Nat) (fd : Fin n) :
    ∃ t', t.release bits fd = .ok t' ∧ t'.record = Function.update t.record fd .free := by
  rw [release_eq]
  split_ifs with htop
  · obtain ⟨top, hlower⟩ :=
      lowerTop_ok (t.clear fd) bits (t.top + 1) t.top (by rw [htop]; exact fd.isLt)
    exact ⟨⟨(t.clear fd).record, top⟩, by rw [hlower]; rfl, rfl⟩
  · exact ⟨t.clear fd, rfl, rfl⟩

/-- The loop of `free_dirp` stops at the first record of the handle. -/
theorem searchDirp_spec {dirp : DirPtr} {left i : Nat} {found : Option (Fin n)}
    (h : t.searchDirp dirp left i = .ok found) :
    found = some fd ↔ i ≤ fd.val ∧ fd.val < i + left ∧ (t.record fd).dirp = dirp ∧
      ∀ other, i ≤ other.val → other < fd → (t.record other).dirp ≠ dirp := by
  induction left generalizing i with
  | zero =>
    cases h
    constructor
    · intro hsome
      cases hsome
    · rintro ⟨hle, hlt, -⟩
      omega
  | succ left ih =>
    rw [searchDirp] at h
    split_ifs at h with hi hdirp
    · cases h
      constructor
      · intro hsome
        cases hsome
        refine ⟨le_refl i, by simp, hdirp, fun other hle hlt => ?_⟩
        exact absurd hlt (not_lt.mpr hle)
      · intro hfd
        by_contra hne
        refine hfd.2.2.2 ⟨i, hi⟩ (le_refl i) ?_ hdirp
        exact lt_of_le_of_ne hfd.1 fun heq => hne (congrArg some heq)
    · have hskip : ∀ other : Fin n, (t.record other).dirp = dirp → other.val ≠ i := by
        rintro other heq rfl
        exact hdirp heq
      rw [ih h]
      constructor
      · rintro ⟨hle, hlt, heq, hfirst⟩
        refine ⟨by omega, by omega, heq, fun other hother hlt' hrecord => ?_⟩
        have := hskip other hrecord
        exact hfirst other (by omega) hlt' hrecord
      · rintro ⟨hle, hlt, heq, hfirst⟩
        have := hskip fd heq
        exact ⟨by omega, by omega, heq, fun other hother => hfirst other (by omega)⟩

/-- It stays in the table if that has as many records, or if there is a record of the handle. -/
theorem searchDirp_ok (t : FdTable n) (dirp : DirPtr) (left i : Nat)
    (h : i + left ≤ n ∨ ∃ fd, i ≤ fd.val ∧ (t.record fd).dirp = dirp) :
    ∃ found, t.searchDirp dirp left i = .ok found := by
  induction left generalizing i with
  | zero => exact ⟨none, rfl⟩
  | succ left ih =>
    have hi : i < n := by
      rcases h with hle | ⟨fd, hle, -⟩
      · omega
      · exact hle.trans_lt fd.isLt
    rw [searchDirp, dif_pos hi]
    split_ifs with hdirp
    · exact ⟨_, rfl⟩
    · refine ih (i + 1) ?_
      rcases h with hle | ⟨fd, hle, heq⟩
      · exact Or.inl (by omega)
      · refine Or.inr ⟨fd, lt_of_le_of_ne hle ?_, heq⟩
        rintro rfl
        exact hdirp heq

theorem freeDirp_cases {dirp : DirPtr} (h : t.freeDirp bits dirp = .ok t') :
    t' = t ∨ ∃ fd, fd.val < t.top ∧ (t.record fd).dirp = dirp ∧ t.InUse fd ∧
      t'.record = Function.update t.record fd .free := by
  unfold freeDirp at h
  obtain ⟨found, hsearch, h⟩ := bind_eq_ok.mp h
  cases found with
  | none =>
    cases h
    exact Or.inl rfl
  | some fd =>
    simp only at h
    by_cases hneg : (t.record fd).extfd < 0
    · rw [if_pos hneg] at h
      cases h
      exact Or.inl rfl
    · rw [if_neg hneg] at h
      obtain ⟨-, hlt, hdirp, -⟩ := (searchDirp_spec hsearch).mp rfl
      obtain ⟨t₁, hrelease, hrecord⟩ := release_record t bits fd
      obtain rfl : t₁ = t' := Except.ok.inj (hrelease.symm.trans h)
      exact Or.inr ⟨fd, by omega, hdirp, not_lt.mp hneg, hrecord⟩

/-- No record has the handle of another one. -/
def DirpsOwn (t : FdTable n) : Prop := ∀ fd, (t.record fd).dirp = 0 ∨ (t.record fd).dirp = dirpOf fd

theorem dirpOf_ne_zero (fd : Nat) : dirpOf fd ≠ 0 := by
  intro h
  have hint : -(fd : Int) - 1 = 0 := h
  omega

theorem dirpOf_inj {fd other : Fin n} (h : dirpOf fd = dirpOf other) : fd = other := by
  have hint : -(fd.val : Int) - 1 = -(other.val : Int) - 1 := h
  exact Fin.ext (by omega)

@[simp]
theorem dirpOf_eq_iff {other : Fin n} : dirpOf fd = dirpOf other ↔ fd = other :=
  ⟨dirpOf_inj, fun heq => by rw [heq]⟩

theorem DirpsOwn.eq_of_dirp (h : t.DirpsOwn) {other : Fin n}
    (hdirp : (t.record other).dirp = dirpOf fd) : other = fd := by
  rcases h other with hzero | hown
  · exact absurd (hdirp.symm.trans hzero) (dirpOf_ne_zero fd)
  · exact dirpOf_inj (hown.symm.trans hdirp)

/-- A directory that has a record is released exactly if this is below `fd_table_top` and in use. -/
theorem freeDirp_slot (bits : Nat) (hown : t.DirpsOwn) (hdirp : (t.record fd).dirp = dirpOf fd) :
    ∃ t', t.freeDirp bits (dirpOf fd) = .ok t' ∧ t'.record =
      if fd.val < t.top ∧ t.InUse fd then Function.update t.record fd .free else t.record := by
  obtain ⟨found, hsearch⟩ := searchDirp_ok t (dirpOf fd) t.top 0
    (Or.inr ⟨fd, Nat.zero_le _, hdirp⟩)
  have hspec : found = some fd ↔ fd.val < t.top := by
    rw [searchDirp_spec hsearch]
    constructor
    · rintro ⟨-, hlt, -⟩
      omega
    · refine fun hlt => ⟨Nat.zero_le _, by omega, hdirp, fun other _ hother heq => ?_⟩
      exact hother.ne (hown.eq_of_dirp heq)
  unfold freeDirp
  rw [hsearch]
  cases found with
  | none =>
    refine ⟨t, rfl, (if_neg fun hand => ?_).symm⟩
    exact absurd (hspec.mpr hand.1) (by simp)
  | some other =>
    obtain rfl : other = fd :=
      hown.eq_of_dirp ((searchDirp_spec hsearch).mp rfl).2.2.1
    have hlt := hspec.mp rfl
    by_cases hin : t.InUse other
    · obtain ⟨t', hrelease, hrecord⟩ := release_record t bits other
      exact ⟨t', (if_neg (not_lt.mpr hin)).trans hrelease, by rw [if_pos ⟨hlt, hin⟩, hrecord]⟩
    · exact ⟨t, if_pos (not_le.mp hin), by rw [if_neg fun hand => hin hand.2]⟩

/-! ## Descriptors as integers -/

theorem int_cases (n : Nat) (fd : Int) :
    (fd < 0 ∨ n < fd) ∨ fd = n ∨ ∃ slot : Fin n, fd = slot.val := by
  by_cases houtside : fd < 0 ∨ n < fd
  · exact Or.inl houtside
  · rcases eq_or_ne fd n with hsize | hsize
    · exact Or.inr (Or.inl hsize)
    · refine Or.inr (Or.inr ⟨⟨fd.toNat, by omega⟩, ?_⟩)
      simp only
      omega

theorem freeFd_of_outside {fd : Int} (h : fd < 0 ∨ n < fd) : t.freeFd bits fd = .ok t := if_pos h

theorem freeFd_size : t.freeFd bits n = .error .outOfRange := by
  rw [freeFd, if_neg (by omega), dif_neg (by simp)]

theorem freeFd_slot : t.freeFd bits fd.val = if t.InUse fd then t.release bits fd else .ok t := by
  have hfd := fd.isLt
  have hslot : (⟨(fd.val : Int).toNat, by simp⟩ : Fin n) = fd := by simp
  rw [freeFd, if_neg (by omega), dif_pos (by simp), hslot]
  by_cases hin : t.InUse fd
  · rw [if_pos hin, if_neg (not_lt.mpr hin)]
  · rw [if_neg hin, if_pos (not_le.mp hin)]

theorem freeFd_record {fd : Int} (h : t.freeFd bits fd = .ok t') (slot : Fin n) :
    t'.record slot = if fd = slot.val ∧ t.InUse slot then .free else t.record slot := by
  rcases int_cases n fd with houtside | rfl | ⟨freed, rfl⟩
  · rw [freeFd_of_outside houtside] at h
    cases h
    have := slot.isLt
    rw [if_neg (by omega)]
  · rw [freeFd_size] at h
    cases h
  · rw [freeFd_slot] at h
    split_ifs at h with hin
    · obtain ⟨t₁, hrelease, hrecord⟩ := release_record t bits freed
      obtain rfl : t₁ = t' := Except.ok.inj (hrelease.symm.trans h)
      rw [hrecord]
      rcases eq_or_ne slot freed with rfl | hne
      · simp [hin]
      · simp [hne, Fin.val_inj, hne.symm]
    · cases h
      rw [if_neg]
      rintro ⟨hval, hslot⟩
      obtain rfl : freed = slot := Fin.ext (by omega)
      exact hin hslot

theorem resolve_of_outside {fd : Int} (h : fd < 0 ∨ n < fd) : t.resolve fd = .ok none := if_pos h

theorem resolve_size : t.resolve n = .error .outOfRange := by
  rw [resolve, if_neg (by omega), dif_neg (by simp)]

theorem resolve_slot : t.resolve fd.val = .ok (some (t.record fd)) := by
  have hfd := fd.isLt
  have hslot : (⟨(fd.val : Int).toNat, by simp⟩ : Fin n) = fd := by simp
  rw [resolve, if_neg (by omega), dif_pos (by simp), hslot]

end CrystaxNdk.Vfs.FdTable
