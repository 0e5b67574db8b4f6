import CrystaxNdk.Lib.Keyed
import CrystaxNdk.Vfs.Fileio
import CrystaxNdk.Vfs.Proof.FdRecords

/-!
# Who holds the descriptors of drivers

A descriptor of a driver is held by a record of the table, or by the entry of an assets driver that
stands on that driver. As long as every descriptor has one holder, closing it never takes it from
somebody else. Opening and closing a file keep that, however many drivers stand on each other.
-/

namespace CrystaxNdk.Vfs

open Lib

abbrev Resource := DriverPtr × Int

def FdTable.holding {n : Nat} (t : FdTable n) (fd : Fin n) : Option Resource :=
  if t.InUse fd then (t.record fd).driver.map fun driver => (driver, (t.record fd).extfd) else none

def Descriptors.holding {n : Nat} (s : Descriptors n) (ds : List Driver) (addr : Nat) (fd : Fin n) :
    Option Resource :=
  if 0 ≤ (s.assets addr fd).extfd then
    (underlyingOf ds addr).map fun driver => (driver, (s.assets addr fd).extfd)
  else none

def holding {n : Nat} (ds : List Driver) (t : FdTable n) (s : Descriptors n) :
    Fin n ⊕ Nat × Fin n → Option Resource
  | .inl fd => t.holding fd
  | .inr e => s.holding ds e.1 e.2

namespace Descriptors

variable {n : Nat}

def IsOpen (s : Descriptors n) : Resource → Prop
  | (.system, fd) => 0 ≤ fd ∧ fd.toNat ∈ s.kernel
  | (.loaded addr, fd) => ∃ slot : Fin n, fd = slot.val ∧ s.assets addr slot ≠ .free

/-- Every descriptor that is held is open, and has one holder. -/
def OwnedBy (s : Descriptors n) (ds : List Driver) (t : FdTable n) : Prop :=
  Owned (Vfs.holding ds t s) s.IsOpen

variable {s s' : Descriptors n} {ds : List Driver} {t : FdTable n} {addr : Nat} {slot : Fin n}
  {e : EntryHandles} {r : Resource}

/-! ## Entries -/

section Entries

theorem assets_of_freeEntry (h : s.freeEntry addr = some slot) : s.assets addr slot = .free := by
  have hfree := (Fin.find?_eq_some_iff.mp h).1
  simp only [Bool.and_eq_true, Bool.not_eq_true', decide_eq_true_eq] at hfree
  cases hentry : s.assets addr slot with
  | mk obj extfd =>
    rw [hentry] at hfree
    simp only at hfree
    rw [hfree.1, hfree.2]
    rfl

@[simp]
theorem setEntry_self : (s.setEntry addr slot e).assets addr slot = e := by
  simp [setEntry]

theorem setEntry_of_ne {addr' : Nat} {slot' : Fin n} (h : (addr', slot') ≠ (addr, slot)) :
    (s.setEntry addr slot e).assets addr' slot' = s.assets addr' slot' := by
  rcases eq_or_ne addr' addr with rfl | haddr
  · have hslot : slot' ≠ slot := fun heq => h (by rw [heq])
    simp [setEntry, hslot]
  · simp [setEntry, haddr]

theorem isOpen_setEntry_self :
    (s.setEntry addr slot e).IsOpen (.loaded addr, slot.val) ↔ e ≠ .free := by
  constructor
  · rintro ⟨other, hval, hopen⟩
    obtain rfl : slot = other := Fin.ext (by omega)
    rwa [setEntry_self] at hopen
  · intro hne
    exact ⟨slot, rfl, by rwa [setEntry_self]⟩

theorem isOpen_setEntry_of_ne (h : r ≠ (.loaded addr, (slot.val : Int))) :
    (s.setEntry addr slot e).IsOpen r ↔ s.IsOpen r := by
  obtain ⟨driver, fd⟩ := r
  cases driver with
  | system => rfl
  | loaded addr' =>
    refine exists_congr fun other => and_congr_right fun hfd => ?_
    rw [setEntry_of_ne]
    rintro heq
    cases heq
    exact h (by rw [hfd])

theorem holding_setEntry_of_ne {x : Fin n ⊕ Nat × Fin n} (h : x ≠ .inr (addr, slot)) :
    Vfs.holding ds t (s.setEntry addr slot e) x = Vfs.holding ds t s x := by
  cases x with
  | inl fd => rfl
  | inr entry =>
    have hne : (entry.1, entry.2) ≠ (addr, slot) := fun heq => h (by rw [← heq])
    simp only [Vfs.holding, Descriptors.holding, setEntry_of_ne hne]

theorem holding_setEntry_self :
    Vfs.holding ds t (s.setEntry addr slot e) (.inr (addr, slot)) =
      if 0 ≤ e.extfd then (underlyingOf ds addr).map fun driver => (driver, e.extfd) else none := by
  simp [Vfs.holding, Descriptors.holding]

theorem nonneg_of_holding {x : Fin n ⊕ Nat × Fin n} (h : Vfs.holding ds t s x = some r) :
    0 ≤ r.2 := by
  cases x with
  | inl fd =>
    simp only [Vfs.holding, FdTable.holding] at h
    split_ifs at h with hin
    obtain ⟨driver, -, rfl⟩ := Option.map_eq_some_iff.mp h
    exact hin
  | inr entry =>
    simp only [Vfs.holding, Descriptors.holding] at h
    split_ifs at h with hpos
    obtain ⟨driver, -, rfl⟩ := Option.map_eq_some_iff.mp h
    exact hpos

theorem unheld_of_neg {driver : DriverPtr} {fd : Int} (h : fd < 0) :
    Unheld (Vfs.holding ds t s) (driver, fd) := by
  intro x hx
  have := nonneg_of_holding hx
  omega

/-- An entry that is freed lets go what it holds, and is closed if nobody holds it. -/
theorem OwnedBy.freeEntry (h : s.OwnedBy ds t)
    (hunheld : Unheld (Vfs.holding ds t s) (.loaded addr, (slot.val : Int))) :
    (s.setEntry addr slot .free).OwnedBy ds t := by
  refine Owned.mono h fun x r hx => ?_
  rcases eq_or_ne x (.inr (addr, slot)) with rfl | hne
  · rw [holding_setEntry_self, if_neg (by decide)] at hx
    cases hx
  · rw [holding_setEntry_of_ne hne] at hx
    refine ⟨hx, (isOpen_setEntry_of_ne ?_).mpr (h.isOpen x r hx)⟩
    rintro rfl
    exact hunheld x hx

theorem OwnedBy.unheld_of_freeEntry (h : s.OwnedBy ds t) {driver : DriverPtr}
    (hunder : underlyingOf ds addr = some driver) (hpos : 0 ≤ (s.assets addr slot).extfd) :
    Unheld (Vfs.holding ds t (s.setEntry addr slot .free))
      (driver, (s.assets addr slot).extfd) := by
  refine Owned.unheld_of_release (x := .inr (addr, slot)) h ?_ fun x r hx => ?_
  · simp [Vfs.holding, Descriptors.holding, hpos, hunder]
  · rcases eq_or_ne x (.inr (addr, slot)) with rfl | hne
    · rw [holding_setEntry_self, if_neg (by decide)] at hx
      cases hx
    · rw [holding_setEntry_of_ne hne] at hx
      exact ⟨hx, hne⟩

end Entries

/-! ## Files -/

section Files

variable {driver : DriverPtr} {fd : Int}

theorem closeFile_system (ds : List Driver) :
    s.closeFile ds .system fd = .ok (s.closeSystem fd) := by
  cases ds <;> rfl

variable {d : Driver} {below : List Driver}

theorem closeFile_skip (h : d.addr ≠ addr) :
    s.closeFile (d :: below) (.loaded addr) fd = s.closeFile below (.loaded addr) fd := by
  rw [closeFile, if_neg h]

theorem closeFile_outside (h : ¬∃ slot : Fin n, fd = slot.val) :
    s.closeFile (d :: below) (.loaded d.addr) fd = .ok (s, -1) := by
  rw [closeFile, if_pos rfl, dif_neg]
  rintro ⟨hpos, hlt⟩
  exact h ⟨⟨fd.toNat, hlt⟩, by simp only; omega⟩

theorem closeFile_slot :
    s.closeFile (d :: below) (.loaded d.addr) slot.val =
      if 0 ≤ (s.assets d.addr slot).extfd then do
        let closed ← (s.setEntry d.addr slot .free).closeFile below d.underlying
          (s.assets d.addr slot).extfd
        return (closed.1, 0)
      else .ok (s.setEntry d.addr slot .free, 0) := by
  rw [closeFile, if_pos rfl, dif_pos ⟨Int.natCast_nonneg _, by simp⟩]
  rfl

theorem holding_closeSystem :
    Vfs.holding ds t (s.closeSystem fd).1 = Vfs.holding ds t s := by
  unfold Descriptors.closeSystem
  split_ifs
  · funext x
    cases x <;> rfl
  · rfl

theorem OwnedBy.closeSystem (h : s.OwnedBy ds t)
    (hunheld : Unheld (Vfs.holding ds t s) (.system, fd)) :
    (s.closeSystem fd).1.OwnedBy ds t := by
  unfold Descriptors.closeSystem
  split_ifs with hopen
  · refine Owned.mono h fun x r hx => ⟨hx, ?_⟩
    have hopen' := h.isOpen x r hx
    obtain ⟨driver', fd'⟩ := r
    cases driver' with
    | system =>
      refine ⟨hopen'.1, Finset.mem_erase.mpr ⟨fun heq => ?_, hopen'.2⟩⟩
      obtain rfl : fd' = fd := by
        have := hopen'.1
        omega
      exact hunheld x hx
    | loaded addr => exact hopen'
  · exact h

theorem OwnedBy.closeFile (h : s.OwnedBy ds t) {ds' : List Driver}
    (hfound : ∀ d ∈ ds', underlyingOf ds d.addr = some d.underlying)
    (hunheld : Unheld (Vfs.holding ds t s) (driver, fd)) {res : Int}
    (hclose : s.closeFile ds' driver fd = .ok (s', res)) : s'.OwnedBy ds t := by
  induction ds' generalizing s driver fd res with
  | nil =>
    cases driver with
    | system =>
      rw [closeFile_system] at hclose
      have hclosed := h.closeSystem hunheld
      rwa [Except.ok.inj hclose] at hclosed
    | loaded addr => cases hclose
  | cons d below ih =>
    simp only [List.mem_cons, forall_eq_or_imp] at hfound
    cases driver with
    | system =>
      rw [closeFile_system] at hclose
      have hclosed := h.closeSystem hunheld
      rwa [Except.ok.inj hclose] at hclosed
    | loaded addr =>
      rcases eq_or_ne d.addr addr with rfl | hne
      · by_cases hslot : ∃ slot : Fin n, fd = slot.val
        · obtain ⟨slot, rfl⟩ := hslot
          have hfreed := h.freeEntry hunheld
          rw [closeFile_slot] at hclose
          split_ifs at hclose with hpos
          · -- the entry is freed first, so that nobody holds what it held
            obtain ⟨closed, hbelow, heq⟩ := bind_eq_ok.mp hclose
            cases heq
            exact ih hfreed hfound.2 (h.unheld_of_freeEntry hfound.1 hpos) hbelow
          · cases hclose
            exact hfreed
        · rw [closeFile_outside hslot] at hclose
          cases hclose
          exact h
      · rw [closeFile_skip hne] at hclose
        exact ih h hfound.2 hunheld hclose

/-- A new descriptor is open, and nobody holds it. -/
structure Floating (s : Descriptors n) (ds : List Driver) (t : FdTable n) (r : Resource) :
    Prop where
  nonneg : 0 ≤ r.2
  isOpen : s.IsOpen r
  unheld : Unheld (Vfs.holding ds t s) r

variable {answer : Option Nat}

theorem isOpen_newFd (hnew : s.newFd answer = .ok (s', fd)) (hopen : s.IsOpen r) :
    s'.IsOpen r := by
  cases answer with
  | none =>
    cases hnew
    exact hopen
  | some k =>
    rw [Descriptors.newFd] at hnew
    split_ifs at hnew
    cases hnew
    obtain ⟨driver', fd'⟩ := r
    cases driver' with
    | system => exact ⟨hopen.1, Finset.mem_insert_of_mem hopen.2⟩
    | loaded addr => exact hopen

theorem holding_newFd (hnew : s.newFd answer = .ok (s', fd)) :
    Vfs.holding ds t s' = Vfs.holding ds t s := by
  cases answer with
  | none =>
    cases hnew
    rfl
  | some k =>
    rw [Descriptors.newFd] at hnew
    split_ifs at hnew
    cases hnew
    funext x
    cases x <;> rfl

theorem Floating.newFd (h : s.Floating ds t r) (hnew : s.newFd answer = .ok (s', fd)) :
    s'.Floating ds t r :=
  ⟨h.nonneg, isOpen_newFd hnew h.isOpen, by rw [holding_newFd hnew]; exact h.unheld⟩

theorem newFd_some {k : Nat} (hnew : s.newFd (some k) = .ok (s', fd)) :
    k ∉ s.kernel ∧ k ∈ s'.kernel ∧ fd = k := by
  rw [Descriptors.newFd] at hnew
  split_ifs at hnew with hmem
  cases hnew
  exact ⟨hmem, Finset.mem_insert_self k s.kernel, rfl⟩

theorem newFd_nonneg (hnew : s.newFd answer = .ok (s', fd)) :
    fd = -1 ∨ 0 ≤ fd := by
  cases answer with
  | none =>
    cases hnew
    exact Or.inl rfl
  | some k =>
    obtain ⟨-, -, rfl⟩ := newFd_some hnew
    exact Or.inr (Int.natCast_nonneg k)

theorem OwnedBy.newFd (h : s.OwnedBy ds t) (hnew : s.newFd answer = .ok (s', fd)) :
    s'.OwnedBy ds t ∧ (fd = -1 ∨ s'.Floating ds t (.system, fd)) := by
  have howned : s'.OwnedBy ds t := by
    refine Owned.mono h fun x r hx => ?_
    rw [holding_newFd hnew] at hx
    exact ⟨hx, isOpen_newFd hnew (h.isOpen x r hx)⟩
  refine ⟨howned, ?_⟩
  cases answer with
  | none =>
    cases hnew
    exact Or.inl rfl
  | some k =>
    obtain ⟨hclosed, hopen, rfl⟩ := newFd_some hnew
    refine Or.inr ⟨Int.natCast_nonneg k, ⟨Int.natCast_nonneg k, by simpa using hopen⟩, ?_⟩
    rw [holding_newFd hnew]
    refine Owned.unheld_of_not_open h fun hopen' => hclosed ?_
    simpa using hopen'.2

/-- An entry for a new file, which takes the descriptor of the driver below if there is one. -/
theorem OwnedBy.setEntry (h : s.OwnedBy ds t) (hfree : s.freeEntry addr = some slot)
    (hne : e ≠ .free)
    (hholds : 0 ≤ e.extfd → ∃ driver, underlyingOf ds addr = some driver ∧
      s.Floating ds t (driver, e.extfd)) :
    (s.setEntry addr slot e).OwnedBy ds t ∧
      (s.setEntry addr slot e).Floating ds t (.loaded addr, (slot.val : Int)) := by
  have hentry := assets_of_freeEntry hfree
  have hclosed : ¬s.IsOpen (.loaded addr, (slot.val : Int)) := by
    rintro ⟨other, hval, hopen⟩
    obtain rfl : slot = other := Fin.ext (by omega)
    exact hopen hentry
  have hkeep : ∀ r, s.IsOpen r → (s.setEntry addr slot e).IsOpen r := by
    intro r hopen
    refine (isOpen_setEntry_of_ne ?_).mpr hopen
    rintro rfl
    exact hclosed hopen
  have hunheld : Unheld (Vfs.holding ds t s) (.loaded addr, (slot.val : Int)) :=
    Owned.unheld_of_not_open h hclosed
  have hother : ∀ x r, x ≠ .inr (addr, slot) →
      Vfs.holding ds t (s.setEntry addr slot e) x = some r → Vfs.holding ds t s x = some r := by
    intro x r hx hr
    rwa [holding_setEntry_of_ne hx] at hr
  refine ⟨?_, Int.natCast_nonneg _, isOpen_setEntry_self.mpr hne, fun x hx => ?_⟩
  · by_cases hpos : 0 ≤ e.extfd
    · obtain ⟨driver, hunder, hfloat⟩ := hholds hpos
      refine Owned.take (x := .inr (addr, slot)) h hfloat.unheld (hkeep _ hfloat.isOpen)
        (fun y r hy => hkeep r (h.isOpen y r hy)) (fun r hr => ?_) hother
      rw [holding_setEntry_self, if_pos hpos, hunder] at hr
      exact (Option.some.inj hr).symm
    · refine Owned.mono h fun x r hx => ?_
      rcases eq_or_ne x (.inr (addr, slot)) with rfl | hx'
      · rw [holding_setEntry_self, if_neg hpos] at hx
        cases hx
      · have hx := hother x r hx' hx
        exact ⟨hx, hkeep r (h.isOpen x r hx)⟩
  · rcases eq_or_ne x (.inr (addr, slot)) with rfl | hx'
    · -- the entry itself holds nothing but the new descriptor of the driver below
      rw [holding_setEntry_self] at hx
      split_ifs at hx with hpos
      obtain ⟨driver, hunder, hfloat⟩ := hholds hpos
      rw [hunder] at hx
      have heq : (driver, e.extfd) = (DriverPtr.loaded addr, (slot.val : Int)) :=
        Option.some.inj hx
      rw [heq] at hfloat
      exact hclosed hfloat.isOpen
    · exact hunheld x (hother x _ hx' hx)

variable {routes : List Route}

theorem openFile_system {opened : Descriptors n × Int} {ds : List Driver}
    (h : s.openFile ds .system routes = .ok opened) :
    ∃ answer, routes = [.system answer] ∧ s.newFd answer = .ok opened := by
  rcases routes with _ | ⟨route, _ | ⟨second, rest⟩⟩
  · cases ds <;> cases h
  · cases route with
    | system answer => exact ⟨answer, rfl, by cases ds <;> exact h⟩
    | fails => cases ds <;> cases h
    | stream => cases ds <;> cases h
    | underlying => cases ds <;> cases h
  · cases route <;> cases ds <;> cases h

theorem openFile_skip (h : d.addr ≠ addr) :
    s.openFile (d :: below) (.loaded addr) routes = s.openFile below (.loaded addr) routes := by
  rw [openFile.eq_def]
  exact if_neg h

theorem openFile_cases (h : s.openFile (d :: below) (.loaded d.addr) routes = .ok (s', fd)) :
    (s' = s ∧ fd = -1) ∨
    (∃ slot, s.freeEntry d.addr = some slot ∧ s' = s.setEntry d.addr slot ⟨true, -1⟩ ∧
      fd = slot.val) ∨
    ∃ rest s₁ extfd, s.openFile below d.underlying rest = .ok (s₁, extfd) ∧
      ((∃ res, s₁.closeFile below d.underlying extfd = .ok (s', res) ∧ fd = -1) ∨
        0 ≤ extfd ∧ ∃ slot, s₁.freeEntry d.addr = some slot ∧
          s' = s₁.setEntry d.addr slot ⟨false, extfd⟩ ∧ fd = slot.val) := by
  rw [openFile.eq_def] at h
  simp only [if_true] at h
  split at h
  · cases h
    exact Or.inl ⟨rfl, rfl⟩
  · cases hslot : s.freeEntry d.addr with
    | none =>
      rw [hslot] at h
      cases h
      exact Or.inl ⟨rfl, rfl⟩
    | some slot =>
      rw [hslot] at h
      cases h
      exact Or.inr (Or.inl ⟨slot, rfl, rfl, rfl⟩)
  · obtain ⟨⟨s₁, extfd⟩, hbelow, h⟩ := bind_eq_ok.mp h
    refine Or.inr (Or.inr ⟨_, s₁, extfd, hbelow, ?_⟩)
    simp only at h
    cases hslot : (if extfd < 0 then none else s₁.freeEntry d.addr) with
    | none =>
      rw [hslot] at h
      obtain ⟨⟨s₂, res⟩, hclose, heq⟩ := bind_eq_ok.mp h
      cases heq
      exact Or.inl ⟨res, hclose, rfl⟩
    | some slot =>
      rw [hslot] at h
      cases h
      split_ifs at hslot with hneg
      exact Or.inr ⟨not_lt.mp hneg, slot, hslot, rfl, rfl⟩
  · cases h

theorem openFile_nonneg (h : s.openFile ds driver routes = .ok (s', fd)) :
    fd = -1 ∨ 0 ≤ fd := by
  induction ds with
  | nil =>
    cases driver with
    | system =>
      obtain ⟨answer, -, hnew⟩ := openFile_system h
      exact newFd_nonneg hnew
    | loaded addr => cases h
  | cons d below ih =>
    cases driver with
    | system =>
      obtain ⟨answer, -, hnew⟩ := openFile_system h
      exact newFd_nonneg hnew
    | loaded addr =>
      rcases eq_or_ne d.addr addr with rfl | hne
      · rcases openFile_cases h with ⟨-, rfl⟩ | ⟨slot, -, -, rfl⟩ |
          ⟨-, -, -, -, ⟨-, -, rfl⟩ | ⟨-, slot, -, -, rfl⟩⟩
        · exact Or.inl rfl
        · exact Or.inr (Int.natCast_nonneg _)
        · exact Or.inl rfl
        · exact Or.inr (Int.natCast_nonneg _)
      · rw [openFile_skip hne] at h
        exact ih h

theorem OwnedBy.openFile (h : s.OwnedBy ds t) {ds' : List Driver}
    (hfound : ∀ d ∈ ds', underlyingOf ds d.addr = some d.underlying)
    (hopen : s.openFile ds' driver routes = .ok (s', fd)) :
    s'.OwnedBy ds t ∧ (fd = -1 ∨ s'.Floating ds t (driver, fd)) := by
  induction ds' generalizing driver routes s' fd with
  | nil =>
    cases driver with
    | system =>
      obtain ⟨answer, -, hnew⟩ := openFile_system hopen
      exact h.newFd hnew
    | loaded addr => cases hopen
  | cons d below ih =>
    simp only [List.mem_cons, forall_eq_or_imp] at hfound
    cases driver with
    | system =>
      obtain ⟨answer, -, hnew⟩ := openFile_system hopen
      exact h.newFd hnew
    | loaded addr =>
      rcases eq_or_ne d.addr addr with rfl | hne
      · rcases openFile_cases hopen with ⟨rfl, rfl⟩ | ⟨slot, hslot, rfl, rfl⟩ |
          ⟨rest, s₁, extfd, hbelow, hcases⟩
        · exact ⟨h, Or.inl rfl⟩
        · obtain ⟨howned, hfloat⟩ := h.setEntry (e := ⟨true, -1⟩) hslot (by decide)
            fun hpos => absurd hpos (by decide)
          exact ⟨howned, Or.inr hfloat⟩
        · obtain ⟨howned, hfloat⟩ := ih hfound.2 hbelow
          rcases hcases with ⟨res, hclose, rfl⟩ | ⟨hpos, slot, hslot, rfl, rfl⟩
          · refine ⟨howned.closeFile hfound.2 ?_ hclose, Or.inl rfl⟩
            rcases hfloat with rfl | hfloat
            · exact unheld_of_neg (by decide)
            · exact hfloat.unheld
          · have hfloat : s₁.Floating ds t (d.underlying, extfd) := by
              rcases hfloat with rfl | hfloat
              · exact absurd hpos (by decide)
              · exact hfloat
            have hne : (⟨false, extfd⟩ : EntryHandles) ≠ .free := by
              intro heq
              have hextfd : extfd = -1 := congrArg EntryHandles.extfd heq
              omega
            obtain ⟨howned', hfloat'⟩ := howned.setEntry hslot hne
              fun _ => ⟨d.underlying, hfound.1, hfloat⟩
            exact ⟨howned', Or.inr hfloat'⟩
      · rw [openFile_skip hne] at hopen
        exact ih hfound.2 hopen

end Files

end Descriptors

end CrystaxNdk.Vfs
