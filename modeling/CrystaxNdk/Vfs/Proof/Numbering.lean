import CrystaxNdk.Vfs.Proof.Calls
import CrystaxNdk.Vfs.Proof.Dispatch
import CrystaxNdk.Vfs.Proof.Owners

/-!
# The descriptors a client has

To the client, the library is a numbering: each descriptor it was given stands for a descriptor of
some driver, until it is closed. The table is such a numbering as long as nothing is duplicated and
no `connect` succeeds: `dup` and `fcntl` return the number of the driver instead of one of the
table, `dup2` takes the numbers of the table for numbers of the driver, and `connect` makes a record
for the zero that stands for success.
-/

namespace CrystaxNdk.Vfs

open Lib List Function

/-- The descriptors of a client, and what each stands for. -/
abbrev Numbering := Int → Option Resource

namespace Numbering

/-- The standard descriptors, if the table has room for them. -/
def started (n : Nat) : Numbering :=
  fun fd => if 0 ≤ fd ∧ fd < 3 ∧ fd < n then some (.system, fd) else none

def add (m : Numbering) (c : Created) : Numbering :=
  update m c.fd (some (c.driver, c.extfd))

/-- The numbering after a call, by what can be seen of it. -/
def after (m : Numbering) (event : World.Event) : Numbering :=
  match event.call with
  | .close fd => update m fd none
  | _ => event.created.foldl add m

def ofEvents (n : Nat) (events : List World.Event) : Numbering := events.foldl after (started n)

end Numbering

/-! ## Records as holders -/

variable {fd : Int}

namespace FdTable

variable {n bits : Nat} {t t' : FdTable n} {slot : Fin n} {r : FdRecord}

theorem holding_congr (h : t'.record slot = t.record slot) : t'.holding slot = t.holding slot := by
  have hin : t'.InUse slot ↔ t.InUse slot := by rw [InUse, InUse, h]
  by_cases hslot : t.InUse slot
  · rw [holding, holding, if_pos hslot, if_pos (hin.mpr hslot), h]
  · rw [holding, holding, if_neg hslot, if_neg fun hslot' => hslot (hin.mp hslot')]

theorem holding_store_self (hr : 0 ≤ r.extfd) :
    (t.store slot r).holding slot = r.driver.map fun driver => (driver, r.extfd) := by
  rw [holding, if_pos (inUse_store_self.mpr hr)]
  simp [store]

theorem holding_store_of_ne {other : Fin n} (h : other ≠ slot) :
    (t.store slot r).holding other = t.holding other := by
  apply holding_congr
  simp [store, h]

theorem holding_freeFd (h : t.freeFd bits fd = .ok t') (slot : Fin n) :
    t'.holding slot = if fd = slot.val then none else t.holding slot := by
  have hrecord := freeFd_record h slot
  by_cases hfd : fd = slot.val
  · rw [if_pos hfd]
    by_cases hin : t.InUse slot
    · rw [if_pos ⟨hfd, hin⟩] at hrecord
      simp [holding, InUse, hrecord, FdRecord.free]
    · rw [if_neg fun hand => hin hand.2] at hrecord
      rw [holding, if_neg]
      rwa [InUse, hrecord]
  · rw [if_neg hfd]
    rw [if_neg fun hand => hfd hand.1] at hrecord
    exact holding_congr hrecord

/-- The record of the descriptor is of the system. -/
def OnSystem (t : FdTable n) (fd : Int) : Prop :=
  ∃ slot : Fin n, fd = slot.val ∧ (t.record slot).driver = some .system

instance {fd : Int} : Decidable (t.OnSystem fd) := inferInstanceAs (Decidable (∃ _, _ ∧ _))

theorem holding_of_freeSlot (h : t.freeSlot = some slot) : t.holding slot = none :=
  if_neg (freeSlot_eq_some.mp h).1

end FdTable

namespace Descriptors

variable {n bits : Nat} {s : Descriptors n} {ds : List Driver} {t t' : FdTable n} {slot : Fin n}
  {r : FdRecord} {driver : DriverPtr}

theorem OwnedBy.store (h : s.OwnedBy ds t) (hdriver : r.driver = some driver)
    (hfloat : s.Floating ds t (driver, r.extfd)) : s.OwnedBy ds (t.store slot r) := by
  refine Owned.take (x := .inl slot) h hfloat.unheld hfloat.isOpen h.isOpen (fun x hx => ?_) ?_
  · have hself : (t.store slot r).holding slot = some x := hx
    rw [FdTable.holding_store_self hfloat.nonneg, hdriver] at hself
    exact (Option.some.inj hself).symm
  · intro y x hne hy
    cases y with
    | inl other =>
      have hother : other ≠ slot := fun heq => hne (by rw [heq])
      have hheld : (t.store slot r).holding other = some x := hy
      rwa [FdTable.holding_store_of_ne hother] at hheld
    | inr entry => exact hy

theorem holding_of_freeFd (hfree : t.freeFd bits fd = .ok t') (x : Fin n ⊕ Nat × Fin n)
    (resource : Resource) (hx : Vfs.holding ds t' s x = some resource) :
    Vfs.holding ds t s x = some resource ∧ ∀ slot : Fin n, fd = slot.val → x ≠ .inl slot := by
  cases x with
  | inl other =>
    have hheld : t'.holding other = some resource := hx
    rw [FdTable.holding_freeFd hfree] at hheld
    split_ifs at hheld with hother
    refine ⟨hheld, fun slot hslot heq => hother ?_⟩
    rw [hslot, Sum.inl.inj heq]
  | inr entry => exact ⟨hx, fun slot _ heq => by cases heq⟩

theorem OwnedBy.freeFd (h : s.OwnedBy ds t) (hfree : t.freeFd bits fd = .ok t') :
    s.OwnedBy ds t' := by
  refine Owned.mono h fun x resource hx => ?_
  have hx := (holding_of_freeFd hfree x resource hx).1
  exact ⟨hx, h.isOpen x resource hx⟩

/-- What the record of a descriptor refers to is held by nobody when it has been freed. -/
theorem OwnedBy.unheld_of_freeFd (h : s.OwnedBy ds t) (hfree : t.freeFd bits slot.val = .ok t')
    (hdriver : (t.record slot).driver = some driver) :
    Unheld (Vfs.holding ds t' s) (driver, (t.record slot).extfd) := by
  by_cases hin : t.InUse slot
  · refine Owned.unheld_of_release (x := .inl slot) h ?_ fun x resource hx => ?_
    · simp [Vfs.holding, FdTable.holding, hin, hdriver]
    · obtain ⟨hx, hne⟩ := holding_of_freeFd hfree x resource hx
      exact ⟨hx, hne slot rfl⟩
  · exact unheld_of_neg (not_le.mp hin)

theorem dup2File_cases {s' : Descriptors n} {fd2 extfd : Int} {granted : Bool}
    (h : s.dup2File driver fd fd2 granted = (s', extfd)) :
    (s' = s ∧ extfd = -1) ∨
      driver = .system ∧ granted = true ∧ s' = ⟨insert fd2.toNat s.kernel, s.assets⟩ ∧
        extfd = fd2 := by
  cases driver with
  | loaded addr =>
    cases h
    exact Or.inl ⟨rfl, rfl⟩
  | system =>
    rw [dup2File] at h
    split_ifs at h with hdup
    · cases h
      exact Or.inr ⟨rfl, hdup.2.2.2, rfl, rfl⟩
    · cases h
      exact Or.inl ⟨rfl, rfl⟩

theorem Floating.store {resource : Resource} (h : s.Floating ds t resource)
    (hdriver : r.driver = some driver) (hpos : 0 ≤ r.extfd) (hne : resource ≠ (driver, r.extfd)) :
    s.Floating ds (t.store slot r) resource := by
  refine ⟨h.nonneg, h.isOpen, fun x hx => ?_⟩
  cases x with
  | inl other =>
    have hheld : (t.store slot r).holding other = some resource := hx
    rcases eq_or_ne other slot with rfl | hother
    · rw [FdTable.holding_store_self hpos, hdriver] at hheld
      exact hne (Option.some.inj hheld).symm
    · rw [FdTable.holding_store_of_ne hother] at hheld
      exact h.unheld (.inl other) hheld
  | inr entry => exact h.unheld (.inr entry) hx

end Descriptors

/-! ## Every call -/

namespace World

variable {n bits : Nat} {w : World n} {m : Numbering} {out : Outcome n} {s : Descriptors n}
  {driver : DriverPtr} {extfd : Int}

/-- The table is the numbering, and each descriptor of a driver has one holder. -/
structure Sound (w : World n) (m : Numbering) : Prop where
  wellFormed : w.mounts.WellFormed
  owned : w.drivers.OwnedBy w.stack w.fds
  driven : ∀ slot, w.fds.InUse slot → (w.fds.record slot).driver.isSome = true
  shows : ∀ slot : Fin n, m slot.val = w.fds.holding slot
  inside : ∀ fd : Int, (∀ slot : Fin n, fd ≠ slot.val) → m fd = none

namespace Sound

theorem found (h : w.Sound m) : ∀ d ∈ w.stack, underlyingOf w.stack d.addr = some d.underlying := by
  intro d hd
  refine underlyingOf_of_mem ?_ hd
  rw [stack, map_reverse, nodup_reverse]
  exact h.wellFormed.nodup

theorem setDrivers (h : w.Sound m) (howned : s.OwnedBy w.stack w.fds) :
    Sound { w with drivers := s } m :=
  ⟨h.wellFormed, howned, h.driven, h.shows, h.inside⟩

variable {path : Option CString}

theorem store (h : w.Sound m) {slot : Fin n}
    (hfloat : w.drivers.Floating w.stack w.fds (driver, extfd)) :
    Sound { w with fds := w.fds.store slot ⟨0, extfd, 0, some driver, path⟩ }
      (m.add ⟨slot.val, driver, extfd⟩) where
  wellFormed := h.wellFormed
  owned := h.owned.store rfl hfloat
  driven := by
    intro other hin
    rcases eq_or_ne other slot with rfl | hne
    · simp [FdTable.store]
    · simpa [FdTable.store, hne] using h.driven other ((FdTable.inUse_store_of_ne hne).mp hin)
  shows := by
    intro other
    rcases eq_or_ne other slot with rfl | hne
    · rw [FdTable.holding_store_self hfloat.nonneg]
      simp [Numbering.add]
    · have hval : (other.val : Int) ≠ slot.val := fun heq => hne (Fin.ext (by omega))
      rw [FdTable.holding_store_of_ne hne, Numbering.add, update_of_ne hval]
      exact h.shows other
  inside := by
    intro fd hfd
    rw [Numbering.add, update_of_ne (hfd slot)]
    exact h.inside fd hfd

theorem allocOrClose (h : w.Sound m) (hfloat : w.drivers.Floating w.stack w.fds (driver, extfd))
    (hcall : w.allocOrClose path extfd driver = .ok out) :
    out.world.Sound (out.created.foldl Numbering.add m) := by
  rcases allocOrClose_cases hcall with ⟨slot, -, rfl⟩ | ⟨s, res, hclose, rfl⟩
  · exact h.store hfloat
  · exact h.setDrivers (h.owned.closeFile h.found hfloat.unheld hclose)

theorem openCall (h : w.Sound m) {cwd : Option Cwd} {routes : List Route}
    (hcall : w.openCall cwd path routes = .ok out) :
    out.world.Sound (out.created.foldl Numbering.add m) := by
  rcases openCall_cases hcall with rfl | ⟨driver, s, extfd, -, hopen, hcases⟩
  · exact h
  · obtain ⟨howned, hfloat⟩ := h.owned.openFile h.found hopen
    rcases hcases with ⟨-, rfl⟩ | ⟨hne, stored, halloc⟩
    · exact h.setDrivers howned
    · exact (h.setDrivers howned).allocOrClose (hfloat.resolve_left hne) halloc

theorem socketCall (h : w.Sound m) {answer : Option Nat} (hcall : w.socketCall answer = .ok out) :
    out.world.Sound (out.created.foldl Numbering.add m) := by
  obtain ⟨s, extfd, hnew, hcases⟩ := socketCall_cases hcall
  obtain ⟨howned, hfloat⟩ := h.owned.newFd hnew
  rcases hcases with ⟨-, rfl⟩ | ⟨hne, halloc⟩
  · exact h.setDrivers howned
  · exact (h.setDrivers howned).allocOrClose (hfloat.resolve_left hne) halloc

/-- A record is freed, and its descriptor is no longer one of the client. -/
theorem freeFd (h : w.Sound m) {t : FdTable n} (hfree : w.fds.freeFd bits fd = .ok t) :
    Sound { w with fds := t } (update m fd none) where
  wellFormed := h.wellFormed
  owned := h.owned.freeFd hfree
  driven := by
    intro slot hin
    have hrecord := FdTable.freeFd_record hfree slot
    split_ifs at hrecord with hfreed
    · rw [FdTable.InUse, hrecord] at hin
      exact absurd hin (by decide)
    · simp only [hrecord]
      refine h.driven slot ?_
      rwa [FdTable.InUse, ← hrecord]
  shows := by
    intro slot
    rw [FdTable.holding_freeFd hfree]
    rcases eq_or_ne fd slot.val with rfl | hne
    · simp
    · rw [if_neg hne, update_of_ne hne.symm]
      exact h.shows slot
  inside := by
    intro other hother
    rcases eq_or_ne other fd with rfl | hne
    · simp
    · rw [update_of_ne hne]
      exact h.inside other hother

theorem closeCall (h : w.Sound m) (hcall : w.closeCall bits fd = .ok out) :
    out.world.Sound (update m fd none) := by
  rcases closeCall_cases hcall with ⟨rfl, houtside⟩ |
    ⟨slot, driver, t, s, res, rfl, hdriver, hfree, hclose, rfl⟩
  · rw [update_eq_self_iff.mpr (h.inside fd houtside).symm]
    exact h
  · have hfreed := h.freeFd hfree
    exact hfreed.setDrivers
      (hfreed.owned.closeFile hfreed.found (h.owned.unheld_of_freeFd hfree hdriver) hclose)

theorem pipeCall (h : w.Sound m) {answer : Option (Nat × Nat)}
    (hcall : w.pipeCall bits answer = .ok out) :
    out.world.Sound (out.created.foldl Numbering.add m) := by
  rcases pipeCall_cases hcall with
    rfl | ⟨a, b, first, second, fd, fd', hne, hfirst, hsecond, hcases⟩
  · exact h
  obtain ⟨-, -, rfl⟩ := Descriptors.newFd_some hfirst
  obtain ⟨-, -, rfl⟩ := Descriptors.newFd_some hsecond
  obtain ⟨hfirstOwned, hfirstNew⟩ := h.owned.newFd hfirst
  obtain ⟨howned, hsecondNew⟩ := hfirstOwned.newFd hsecond
  have ha := (hfirstNew.resolve_left (by omega)).newFd hsecond
  have hb := hsecondNew.resolve_left (by omega)
  rcases hcases with rfl | ⟨slot, t, hslot, rfl, ⟨t', hfree, rfl⟩ | ⟨slot', -, rfl⟩⟩
  · refine h.setDrivers ((howned.closeSystem ha.unheld).closeSystem ?_)
    rw [Descriptors.holding_closeSystem]
    exact hb.unheld
  · -- the record of the first end is freed again, and then both ends are closed
    have hstored : Sound
        ⟨w.mounts, w.fds.store slot ⟨0, a, 0, some .system, none⟩, second⟩
        (m.add ⟨slot.val, .system, a⟩) := (h.setDrivers howned).store ha
    have hfreed := hstored.freeFd hfree
    have hsame : update (m.add ⟨slot.val, .system, a⟩) (slot.val : Int) none = m := by
      rw [Numbering.add, update_idem, update_eq_self_iff, h.shows slot]
      exact (FdTable.holding_of_freeSlot hslot).symm
    have ha' : Unheld (Vfs.holding w.stack t' second) (.system, (a : Int)) := by
      have hrecord : (w.fds.store slot ⟨0, a, 0, some .system, none⟩).record slot =
          ⟨0, a, 0, some .system, none⟩ := update_self ..
      have hdriver := congrArg FdRecord.driver hrecord
      have hunheld := hstored.owned.unheld_of_freeFd hfree hdriver
      rwa [hrecord] at hunheld
    have hb' : Unheld (Vfs.holding w.stack t' second) (.system, (b : Int)) := by
      have hstays : second.Floating w.stack
          (w.fds.store slot ⟨0, a, 0, some .system, none⟩) (.system, (b : Int)) :=
        hb.store rfl (Int.natCast_nonneg a) fun heq => hne (by
          have hint : (b : Int) = a := congrArg Prod.snd heq
          omega)
      exact hstays.unheld.mono fun x r hx => (Descriptors.holding_of_freeFd hfree x r hx).1
    rw [hsame] at hfreed
    refine hfreed.setDrivers ((hfreed.owned.closeSystem ha').closeSystem ?_)
    rw [Descriptors.holding_closeSystem]
    exact hb'
  · refine ((h.setDrivers howned).store ha).store
      (hb.store rfl (Int.natCast_nonneg a) fun heq => ?_)
    have hint : (b : Int) = a := congrArg Prod.snd heq
    exact hne (by omega)

theorem dupCall (h : w.Sound m) {answer : Option Nat}
    (hrefused : answer = none ∨ ¬w.fds.OnSystem fd) (hcall : w.dupCall fd answer = .ok out) :
    out.world.Sound (out.created.foldl Numbering.add m) := by
  rcases dupCall_cases hcall with rfl | ⟨r, driver, s, extfd, hresolve, hdriver, hdup, rfl⟩
  · exact h
  obtain ⟨rfl, rfl⟩ : s = w.drivers ∧ extfd = -1 := by
    cases driver with
    | system =>
      have hnone : answer = none := by
        obtain ⟨slot, hfd, rfl⟩ := FdTable.exists_slot_of_resolve hresolve
        exact hrefused.resolve_right (not_not.mpr ⟨slot, hfd, hdriver⟩)
      rw [Descriptors.dupFile, hnone] at hdup
      split_ifs at hdup <;> cases hdup <;> exact ⟨rfl, rfl⟩
    | loaded addr =>
      cases hdup
      exact ⟨rfl, rfl⟩
  exact h

theorem dup2Call (h : w.Sound m) {fd2 : Int} {granted : Bool}
    (hsame : granted = false ∨ ∀ slot : Fin n, fd2 = slot.val →
      (w.fds.record slot).driver = some .system → (w.fds.record slot).extfd = fd2)
    (hcall : w.dup2Call fd fd2 granted = .ok out) :
    out.world.Sound (out.created.foldl Numbering.add m) := by
  rcases dup2Call_cases hcall with rfl | ⟨slot, driver, s, extfd, rfl, hdriver, hdup, rfl⟩
  · exact h
  rcases Descriptors.dup2File_cases hdup with ⟨rfl, rfl⟩ | ⟨rfl, hgranted, rfl, rfl⟩
  · exact h
  · -- the record refers to the number that the system duplicates to
    have hextfd := hsame.resolve_left (by simp [hgranted]) slot rfl hdriver
    have hin : w.fds.InUse slot := by
      rw [FdTable.InUse, hextfd]
      exact Int.natCast_nonneg _
    have hheld : w.fds.holding slot = some (.system, (slot.val : Int)) := by
      rw [FdTable.holding, if_pos hin, hdriver, hextfd]
      rfl
    have hopen := h.owned.isOpen (.inl slot) _ hheld
    rw [Finset.insert_eq_of_mem hopen.2, if_neg (by omega)]
    have hadd : m.add ⟨slot.val, .system, slot.val⟩ = m := by
      rw [Numbering.add, update_eq_self_iff, h.shows slot, hheld]
    rw [foldl_cons, foldl_nil, hadd]
    exact h

theorem connectCall (h : w.Sound m) {sockfd : Int}
    (hcall : w.connectCall sockfd false = .ok out) :
    out.world.Sound (out.created.foldl Numbering.add m) := by
  rcases connectCall_cases hcall with rfl | ⟨hsucceeds, -⟩
  · exact h
  · cases hsucceeds

end Sound

/-- What has to be the case before a call for the table to be a numbering after it. It is asked for
    more than is needed: a `dup2` whose first descriptor is free, or of another driver, fails before
    it changes anything, and is left out here when the second one is not numbered as the system
    numbers it. -/
def KeepsNumbering (w : World n) : FileCall → Prop
  | .open _ _ _ => True
  | .close _ => True
  | .dup fd answer => answer = none ∨ ¬w.fds.OnSystem fd
  | .dup2 _ fd2 granted => granted = false ∨ ∀ slot : Fin n, fd2 = slot.val →
      (w.fds.record slot).driver = some .system → (w.fds.record slot).extfd = fd2
  | .fcntlDup fd answer => answer = none ∨ ¬w.fds.OnSystem fd
  | .pipe _ => True
  | .socket _ => True
  | .accept _ _ => True
  | .connect _ succeeds => succeeds = false
  | _ => False

instance {c : FileCall} : Decidable (w.KeepsNumbering c) :=
  match c with
  | .open .. | .close _ | .pipe _ | .socket _ | .accept .. => inferInstanceAs (Decidable True)
  | .dup .. | .fcntlDup .. => inferInstanceAs (Decidable (_ ∨ ¬_))
  | .dup2 .. => inferInstanceAs (Decidable (_ ∨ ∀ _ : Fin n, _ → _ → _))
  | .connect _ succeeds => inferInstanceAs (Decidable (succeeds = false))
  | .opendir .. | .fdopendir .. | .closedir .. | .mount .. | .umount .. =>
    inferInstanceAs (Decidable False)

theorem Sound.call (h : w.Sound m) {c : FileCall} (hkeeps : w.KeepsNumbering c)
    (hcall : w.call bits c = .ok out) :
    out.world.Sound (m.after ⟨c, out.returned, out.created⟩) := by
  cases c with
  | «open» cwd path routes => exact h.openCall hcall
  | close fd => exact h.closeCall hcall
  | dup fd answer => exact h.dupCall hkeeps hcall
  | dup2 fd fd2 granted => exact h.dup2Call hkeeps hcall
  | fcntlDup fd answer => exact h.dupCall hkeeps hcall
  | pipe answer => exact h.pipeCall hcall
  | socket answer => exact h.socketCall hcall
  | accept sockfd answer =>
    rcases acceptCall_cases hcall with rfl | hsocket
    · exact h
    · exact h.socketCall hsocket
  | connect sockfd succeeds =>
    obtain rfl : succeeds = false := hkeeps
    exact h.connectCall hcall
  | _ => exact hkeeps.elim

/-! ## Every run -/

section Run

variable {mounts : MountTable} {kernel : Finset Nat} {calls : List FileCall} {events : List Event}

theorem holding_started (slot : Fin n) :
    (FdTable.started : FdTable n).holding slot =
      if slot.val < 3 then some (.system, (slot.val : Int)) else none := by
  by_cases hslot : slot.val < 3
  · simp [FdTable.holding, FdTable.InUse, FdTable.started, hslot, FdRecord.standard]
  · simp [FdTable.holding, FdTable.InUse, FdTable.started, hslot, FdRecord.free]

theorem sound_started (hmounts : mounts.WellFormed) (hkernel : ∀ fd < 3, fd ∈ kernel) :
    (started mounts kernel : World n).Sound (.started n) where
  wellFormed := hmounts
  owned := by
    have hheld : ∀ x r, Vfs.holding mounts.drivers.reverse (FdTable.started : FdTable n)
        ⟨kernel, fun _ _ => .free⟩ x = some r →
        ∃ slot : Fin n, slot.val < 3 ∧ x = .inl slot ∧ r = (.system, (slot.val : Int)) := by
      intro x r hx
      cases x with
      | inl slot =>
        have hslot : (FdTable.started : FdTable n).holding slot = some r := hx
        rw [holding_started] at hslot
        split_ifs at hslot with hlt
        exact ⟨slot, hlt, rfl, (Option.some.inj hslot).symm⟩
      | inr entry => cases hx
    constructor
    · intro x r hx
      obtain ⟨slot, hlt, -, rfl⟩ := hheld x r hx
      exact ⟨Int.natCast_nonneg _, hkernel _ hlt⟩
    · intro x y r hx hy
      obtain ⟨slot, -, rfl, rfl⟩ := hheld x r hx
      obtain ⟨slot', -, rfl, heq⟩ := hheld y _ hy
      have hint : (slot.val : Int) = slot'.val := congrArg Prod.snd heq
      rw [Fin.ext (a := slot) (b := slot') (by omega)]
  driven := by
    intro slot hin
    by_cases hslot : slot.val < 3
    · simp [started, FdTable.started, hslot, FdRecord.standard]
    · simp [started, FdTable.started, FdTable.InUse, hslot, FdRecord.free] at hin
  shows := by
    intro slot
    have hlt := slot.isLt
    simp only [started, holding_started, Numbering.started]
    by_cases hslot : slot.val < 3
    · rw [if_pos (by omega), if_pos hslot]
    · rw [if_neg (by omega), if_neg hslot]
  inside := by
    intro fd hfd
    rw [Numbering.started, if_neg]
    rintro ⟨hpos, -, hlt⟩
    exact hfd ⟨fd.toNat, by omega⟩ (by simp only; omega)

theorem run_sound (hmounts : mounts.WellFormed) (hkernel : ∀ fd < 3, fd ∈ kernel)
    (hkeeps : ∀ front c, front ++ [c] <+: calls → ∀ events w,
      runActions (step bits) (started mounts kernel : World n) front = some (events, w) →
      w.KeepsNumbering c)
    (hrun : runActions (step bits) (started mounts kernel : World n) calls = some (events, w)) :
    w.Sound (.ofEvents n events) := by
  refine invariant_of_runActions (I := fun events w => Sound w (.ofEvents n events))
    (C := fun _ w c => w.KeepsNumbering c) (sound_started hmounts hkernel) ?_ hkeeps hrun
  intro events w c w' event hsound hkeeps hstep
  obtain ⟨out, hcall, rfl, rfl⟩ := outcome_of_step hstep
  rw [Numbering.ofEvents, foldl_append]
  exact hsound.call hkeeps hcall

end Run

/-- Every descriptor of the client is the index of a record in use, `resolve` finds there what it
    stands for, there are no other records in use, and no two of them share a descriptor of a
    driver. -/
structure Virtualises (t : FdTable n) (m : Numbering) : Prop where
  live : ∀ fd resource, m fd = some resource → ∃ slot : Fin n, fd = slot.val ∧ t.InUse slot
  resolve : ∀ fd driver extfd, m fd = some (driver, extfd) →
    ∃ r, t.resolve fd = .ok (some r) ∧ r.driver = some driver ∧ r.extfd = extfd
  known : ∀ slot : Fin n, t.InUse slot → (m slot.val).isSome = true
  unique : ∀ slot other, t.InUse slot → t.InUse other →
    (t.record slot).driver = (t.record other).driver →
    (t.record slot).extfd = (t.record other).extfd → slot = other

theorem Sound.virtualises (h : w.Sound m) : Virtualises w.fds m := by
  have hheld : ∀ fd resource, m fd = some resource → ∃ slot : Fin n, fd = slot.val ∧
      w.fds.InUse slot ∧ (w.fds.record slot).driver = some resource.1 ∧
      (w.fds.record slot).extfd = resource.2 := by
    intro fd resource hfd
    by_cases hslot : ∃ slot : Fin n, fd = slot.val
    · obtain ⟨slot, rfl⟩ := hslot
      rw [h.shows, FdTable.holding] at hfd
      split_ifs at hfd with hin
      obtain ⟨driver, hdriver, rfl⟩ := Option.map_eq_some_iff.mp hfd
      exact ⟨slot, rfl, hin, hdriver, rfl⟩
    · rw [h.inside fd fun slot heq => hslot ⟨slot, heq⟩] at hfd
      cases hfd
  refine ⟨fun fd resource hfd => ?_, fun fd driver extfd hfd => ?_, fun slot hin => ?_,
    fun slot other hslot hother hdriver hextfd => ?_⟩
  · obtain ⟨slot, heq, hin, -⟩ := hheld fd resource hfd
    exact ⟨slot, heq, hin⟩
  · obtain ⟨slot, rfl, -, hdriver, hextfd⟩ := hheld fd _ hfd
    exact ⟨_, FdTable.resolve_slot, hdriver, hextfd⟩
  · rw [h.shows, FdTable.holding, if_pos hin, Option.isSome_map]
    exact h.driven slot hin
  · obtain ⟨driver, hsome⟩ := Option.isSome_iff_exists.mp (h.driven slot hslot)
    have hself : w.fds.holding slot = some (driver, (w.fds.record slot).extfd) := by
      rw [FdTable.holding, if_pos hslot, hsome]
      rfl
    have hshared : w.fds.holding other = some (driver, (w.fds.record slot).extfd) := by
      rw [FdTable.holding, if_pos hother, ← hdriver, hsome, hextfd]
      rfl
    exact Sum.inl.inj (h.owned.unique (.inl slot) (.inl other) _ hself hshared)

/-- Any drivers are mounted, and the standard descriptors are open. As long as the system refuses
    `dup` and `fcntl`, `connect` fails and `dup2` is for a record that refers to the same number,
    the table is the numbering that the calls and their results make. -/
theorem virtualises_of_keepsNumbering (mounts : MountTable) (hmounts : mounts.Reachable)
    (kernel : Finset Nat) (hkernel : ∀ fd < 3, fd ∈ kernel) (calls : List FileCall)
    (hkeeps : ∀ front c, front ++ [c] <+: calls → ∀ events w,
      runActions (step bits) (started mounts kernel : World n) front = some (events, w) →
      w.KeepsNumbering c)
    (events : List Event) (w : World n)
    (hrun : runActions (step bits) (started mounts kernel) calls = some (events, w)) :
    Virtualises w.fds (.ofEvents n events) :=
  (run_sound hmounts.wellFormed hkernel hkeeps hrun).virtualises

/-- A stream of the assets, a socket and a pipe, some of them closed again, and calls that fail. -/
def descriptorCalls : List FileCall :=
  [.open none (some "/mnt/a/x".toList) [.stream], .socket (some 3), .pipe (some (4, 5)),
    .close 4, .accept 5 (some 3), .dup 3 (some 6), .dup2 0 1 true, .connect 4 false, .close 3]

theorem virtualises_descriptorCalls :
    ∃ events w, runActions (step 32) (started .assetsMounted {0, 1, 2} : World 8) descriptorCalls =
        some (events, w) ∧
      w.fds.InUse 4 ∧ Virtualises w.fds (.ofEvents 8 events) := by
  have hend : ∃ events w, runActions (step 32) (started .assetsMounted {0, 1, 2} : World 8)
      descriptorCalls = some (events, w) ∧ w.fds.InUse 4 :=
    exists_runActions_iff.mpr (by decide +kernel)
  obtain ⟨events, w, hrun, hin⟩ := hend
  refine ⟨events, w, hrun, hin, ?_⟩
  refine virtualises_of_keepsNumbering .assetsMounted MountTable.assetsMounted_reachable {0, 1, 2}
    (by decide) descriptorCalls ?_ events w hrun
  simp only [descriptorCalls, forall_concat_prefix_cons, forall_concat_prefix_nil,
    forall_of_runActions_iff]
  decide +kernel

/-- `dup` returns a number for which there is no record, and `connect` makes a second record for a
    descriptor of the system. -/
theorem duplicate_without_record :
    (∃ events w, runActions (step 32) (started .empty {0, 1, 2} : World 8) [.dup 1 (some 3)] =
        some (events, w) ∧ ¬Virtualises w.fds (.ofEvents 8 events)) ∧
      ∃ events w, runActions (step 32) (started .empty {0, 1, 2} : World 8)
        [.socket (some 3), .connect 3 true] = some (events, w) ∧
        ¬Virtualises w.fds (.ofEvents 8 events) := by
  constructor
  · have hend : ∃ events w, runActions (step 32) (started .empty {0, 1, 2} : World 8)
        [.dup 1 (some 3)] = some (events, w) ∧
        Numbering.ofEvents 8 events 3 = some (.system, 3) ∧ ¬w.fds.InUse 3 :=
      exists_runActions_iff.mpr (by decide +kernel)
    obtain ⟨events, w, hrun, hnumber, hfree⟩ := hend
    refine ⟨events, w, hrun, fun hvirtual => ?_⟩
    obtain ⟨slot, hslot, hin⟩ := hvirtual.live 3 _ hnumber
    obtain rfl : slot = 3 := Fin.ext (by omega)
    exact hfree hin
  · have hend : ∃ events w, runActions (step 32) (started .empty {0, 1, 2} : World 8)
        [.socket (some 3), .connect 3 true] = some (events, w) ∧
        w.fds.InUse 0 ∧ w.fds.InUse 4 ∧ (w.fds.record 0).driver = (w.fds.record 4).driver ∧
        (w.fds.record 0).extfd = (w.fds.record 4).extfd :=
      exists_runActions_iff.mpr (by decide +kernel)
    obtain ⟨events, w, hrun, hzero, hfour, hdriver, hextfd⟩ := hend
    refine ⟨events, w, hrun, fun hvirtual => ?_⟩
    exact absurd (hvirtual.unique 0 4 hzero hfour hdriver hextfd) (by decide)

end World

end CrystaxNdk.Vfs
