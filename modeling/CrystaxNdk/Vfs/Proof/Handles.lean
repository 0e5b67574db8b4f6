import CrystaxNdk.Vfs.Proof.FdRecords

/-!
# The handles a client has

What the client of the library may use is known from the calls and their answers alone: a
descriptor or a directory handle is open from the call that hands it out to the call that frees it.
The descriptor of a directory handle is the index of its record, as `dirfd` returns it.

`resolve` accepts any index, open or not, and the size of the table, and takes the null pointer for
the handle of every record that is not of a directory. Beyond that, records and open handles agree
as long as no negative descriptor is stored, and `free_dirp` is not called with the null pointer or
for the record at `fd_table_top`.
-/

namespace CrystaxNdk.Vfs

open Lib

/-- The descriptors and the directory handles that are open, by the index of their record. -/
structure Handles (n : Nat) where
  fds : Fin n → Bool
  dirs : Fin n → Bool

namespace Handles

variable {n : Nat}

def started : Handles n := ⟨fun slot => slot.val < 3, fun _ => false⟩

/-- The handles after a call, by what it answered. -/
def after (h : Handles n) : FdCall × FdAnswer → Handles n
  | (.allocFd _ _ _, .fd fd) => ⟨fun slot => h.fds slot || fd = slot.val, h.dirs⟩
  | (.allocDirp _ _ _ _, .dirp dirp) =>
    ⟨fun slot => h.fds slot || dirp = dirpOf slot, fun slot => h.dirs slot || dirp = dirpOf slot⟩
  | (.freeFd fd, _) =>
    ⟨fun slot => h.fds slot && fd ≠ slot.val, fun slot => h.dirs slot && fd ≠ slot.val⟩
  | (.freeDirp dirp, _) =>
    ⟨fun slot => h.fds slot && !(h.dirs slot && dirp = dirpOf slot),
      fun slot => h.dirs slot && dirp ≠ dirpOf slot⟩
  | _ => h

def ofEvents (events : List (FdCall × FdAnswer)) : Handles n := events.foldl after started

def LiveFd (h : Handles n) (fd : Int) : Prop := ∃ slot : Fin n, fd = slot.val ∧ h.fds slot = true

def LiveDirp (h : Handles n) (dirp : DirPtr) : Prop :=
  ∃ slot : Fin n, dirp = dirpOf slot ∧ h.dirs slot = true

instance {h : Handles n} {fd : Int} : Decidable (h.LiveFd fd) :=
  inferInstanceAs (Decidable (∃ _, _ ∧ _))

instance {h : Handles n} {dirp : DirPtr} : Decidable (h.LiveDirp dirp) :=
  inferInstanceAs (Decidable (∃ _, _ ∧ _))

end Handles

namespace FdTable

variable {n bits : Nat} {t t' : FdTable n} {h : Handles n}

def recorded (bits : Nat) (t : FdTable n) (c : FdCall) : Option (FdTable n × FdCall × FdAnswer) :=
  (t.step bits c).map fun res => (res.1, c, res.2)

/-- `resolve` and `close` treat the descriptor as they should. -/
structure FdRight (bits : Nat) (t : FdTable n) (h : Handles n) (fd : Int) : Prop where
  resolve : ∃ found, t.resolve fd = .ok found ∧ (found.isSome = true ↔ h.LiveFd fd)
  close : ∀ t' r, t.close bits fd = .ok (t', some r) → h.LiveFd fd

/-- `resolve` and `closedir` treat the directory handle as they should. -/
structure DirpRight (bits : Nat) (t : FdTable n) (h : Handles n) (dirp : DirPtr) : Prop where
  resolve : (t.resolveDirp dirp).isSome = true ↔ h.LiveDirp dirp
  closedir : ∀ t' r, t.closedir bits dirp = .ok (t', some r) → h.LiveDirp dirp

/-- What has to be the case before a call for records and handles to agree after it. An allocation
    that finds the table full is left out for a negative `extfd`, though it stores nothing. -/
def KeepsHandles (t : FdTable n) : FdCall → Prop
  | .initFd => False
  | .allocFd _ extfd _ => 0 ≤ extfd
  | .allocDirp _ _ extfd _ => 0 ≤ extfd
  | .freeDirp dirp => dirp ≠ 0 ∧ ∀ slot, (t.record slot).dirp = dirp → slot.val < t.top
  | _ => True

instance {c : FdCall} : Decidable (t.KeepsHandles c) :=
  match c with
  | .initFd => inferInstanceAs (Decidable False)
  | .allocFd _ extfd _ | .allocDirp _ _ extfd _ => inferInstanceAs (Decidable (0 ≤ extfd))
  | .freeDirp _ => inferInstanceAs (Decidable (_ ∧ ∀ _ : Fin n, _ → _))
  | .freeFd _ | .resolve _ | .resolveDirp _ => inferInstanceAs (Decidable True)

/-- Slots in use are those of open handles, and records have handles for open directories. -/
structure Agrees (t : FdTable n) (h : Handles n) : Prop where
  fds : ∀ slot, h.fds slot = true ↔ t.InUse slot
  dirs : ∀ slot, (t.record slot).dirp = if h.dirs slot then dirpOf slot else 0
  sub : ∀ slot, h.dirs slot = true → h.fds slot = true

theorem agrees_started : (started : FdTable n).Agrees .started := by
  refine ⟨fun slot => ?_, fun slot => ?_, fun slot hdir => by cases hdir⟩
  · by_cases hslot : slot.val < 3 <;>
      simp [Handles.started, started, InUse, hslot, FdRecord.standard, FdRecord.free]
  · by_cases hslot : slot.val < 3 <;>
      simp [Handles.started, started, hslot, FdRecord.standard, FdRecord.free]

namespace Agrees

theorem dirpsOwn (ha : t.Agrees h) : t.DirpsOwn := by
  intro slot
  rw [ha.dirs slot]
  split_ifs
  · exact Or.inr rfl
  · exact Or.inl rfl

theorem dirp_eq_iff (ha : t.Agrees h) {slot : Fin n} {dirp : DirPtr} (hne : dirp ≠ 0) :
    (t.record slot).dirp = dirp ↔ h.dirs slot = true ∧ dirp = dirpOf slot := by
  rw [ha.dirs slot]
  split_ifs with hdir
  · simp [hdir, eq_comm]
  · simp [hdir, hne.symm]

theorem store (ha : t.Agrees h) {slot : Fin n} {r : FdRecord} {h' : Handles n}
    (hslot : t.freeSlot = some slot) (hr : 0 ≤ r.extfd)
    (hfds : ∀ other, h'.fds other = true ↔ h.fds other = true ∨ other = slot)
    (hdirs : ∀ other, other ≠ slot → h'.dirs other = h.dirs other)
    (hdirp : r.dirp = if h'.dirs slot then dirpOf slot else 0) : (t.store slot r).Agrees h' where
  fds := by
    intro other
    rw [hfds]
    rcases eq_or_ne other slot with rfl | hne
    · simp [inUse_store_self, hr]
    · simp [inUse_store_of_ne hne, ha.fds, hne]
  dirs := by
    intro other
    rcases eq_or_ne other slot with rfl | hne
    · simpa [FdTable.store] using hdirp
    · simpa [FdTable.store, hne, hdirs other hne] using ha.dirs other
  sub := by
    intro other hdir
    rw [hfds]
    rcases eq_or_ne other slot with rfl | hne
    · exact Or.inr rfl
    · exact Or.inl (ha.sub other (by rwa [← hdirs other hne]))

theorem clear (ha : t.Agrees h) {slot : Fin n} {h' : Handles n}
    (hrecord : t'.record = Function.update t.record slot .free)
    (hfds : ∀ other, h'.fds other = true ↔ h.fds other = true ∧ other ≠ slot)
    (hdirs : ∀ other, h'.dirs other = true ↔ h.dirs other = true ∧ other ≠ slot) :
    t'.Agrees h' where
  fds := by
    intro other
    rw [hfds]
    rcases eq_or_ne other slot with rfl | hne
    · simp [InUse, hrecord, FdRecord.free]
    · simpa [InUse, hrecord, hne] using ha.fds other
  dirs := by
    intro other
    rcases eq_or_ne other slot with rfl | hne
    · have hnot : ¬h'.dirs other = true := by simp [hdirs]
      simp [hrecord, FdRecord.free, hnot]
    · have hsame : h'.dirs other = h.dirs other := by
        rw [Bool.eq_iff_iff, hdirs]
        simp [hne]
      simp [hrecord, hne, hsame, ha.dirs]
  sub := by
    intro other hdir
    obtain ⟨hdir', hne⟩ := (hdirs other).mp hdir
    exact (hfds other).mpr ⟨ha.sub other hdir', hne⟩

theorem congr (ha : t.Agrees h) {h' : Handles n} (hfds : ∀ slot, h'.fds slot = h.fds slot)
    (hdirs : ∀ slot, h'.dirs slot = h.dirs slot) : t.Agrees h' where
  fds := fun slot => by rw [hfds, ha.fds]
  dirs := fun slot => by rw [hdirs, ha.dirs]
  sub := fun slot => by rw [hdirs, hfds]; exact ha.sub slot

end Agrees

section Step

variable {c : FdCall} {answer : FdAnswer}

theorem agrees_allocFd (ha : t.Agrees h) {path : Option CString} {extfd : Int} {driver : DriverPtr}
    (hextfd : 0 ≤ extfd) (hcall : t.call bits (.allocFd path extfd driver) = .ok (t', answer)) :
    t'.Agrees (h.after (.allocFd path extfd driver, answer)) := by
  simp only [call, allocFd] at hcall
  cases hslot : t.freeSlot with
  | none =>
    rw [hslot] at hcall
    cases hcall
    refine ha.congr (fun slot => ?_) fun slot => rfl
    simp [Handles.after]
  | some slot =>
    rw [hslot] at hcall
    cases hcall
    have hfree : ¬h.dirs slot = true := fun hdir =>
      (freeSlot_eq_some.mp hslot).1 ((ha.fds slot).mp (ha.sub slot hdir))
    refine ha.store hslot hextfd (fun other => ?_) (fun other _ => rfl) ?_
    · simp [Handles.after, Fin.val_inj, eq_comm (a := other)]
    · simp [Handles.after, hfree]

theorem agrees_allocDirp (ha : t.Agrees h) {path : Option CString} {extdirp : DirPtr} {extfd : Int}
    {driver : DriverPtr} (hextfd : 0 ≤ extfd)
    (hcall : t.call bits (.allocDirp path extdirp extfd driver) = .ok (t', answer)) :
    t'.Agrees (h.after (.allocDirp path extdirp extfd driver, answer)) := by
  simp only [call, allocDirp] at hcall
  cases hslot : t.freeSlot with
  | none =>
    rw [hslot] at hcall
    cases hcall
    have hne : ∀ slot : Fin n, (0 : DirPtr) ≠ dirpOf slot := fun slot => (dirpOf_ne_zero slot).symm
    refine ha.congr (fun slot => ?_) fun slot => ?_
    · simp [Handles.after, hne]
    · simp [Handles.after, hne]
  | some slot =>
    rw [hslot] at hcall
    cases hcall
    refine ha.store hslot hextfd (fun other => ?_) (fun other hne => ?_) ?_
    · simp [Handles.after, eq_comm (a := other)]
    · simp [Handles.after, hne.symm]
    · simp [Handles.after]

theorem agrees_freeFd (ha : t.Agrees h) {fd : Int}
    (hcall : t.call bits (.freeFd fd) = .ok (t', answer)) :
    t'.Agrees (h.after (.freeFd fd, answer)) := by
  obtain ⟨t₁, hfree, heq⟩ := bind_eq_ok.mp hcall
  cases heq
  rcases int_cases n fd with houtside | rfl | ⟨slot, rfl⟩
  · rw [freeFd_of_outside houtside] at hfree
    cases hfree
    have hne : ∀ slot : Fin n, fd ≠ slot.val := by
      intro slot
      have := slot.isLt
      omega
    refine ha.congr (fun slot => ?_) fun slot => ?_
    · simp [Handles.after, hne]
    · simp [Handles.after, hne]
  · rw [freeFd_size] at hfree
    cases hfree
  · rw [freeFd_slot] at hfree
    split_ifs at hfree with hin
    · obtain ⟨t₂, hrelease, hrecord⟩ := release_record t bits slot
      obtain rfl : t₂ = t' := Except.ok.inj (hrelease.symm.trans hfree)
      refine ha.clear hrecord (fun other => ?_) fun other => ?_
      · simp [Handles.after, Fin.val_inj, eq_comm (a := other)]
      · simp [Handles.after, Fin.val_inj, eq_comm (a := other)]
    · cases hfree
      have hfds : ¬h.fds slot = true := fun hfd => hin ((ha.fds slot).mp hfd)
      have hdirs : ¬h.dirs slot = true := fun hdir => hfds (ha.sub slot hdir)
      refine ha.congr (fun other => ?_) fun other => ?_
      · rcases eq_or_ne other slot with rfl | hne
        · simp [Handles.after, hfds]
        · simp [Handles.after, Fin.val_inj, hne.symm]
      · rcases eq_or_ne other slot with rfl | hne
        · simp [Handles.after, hdirs]
        · simp [Handles.after, Fin.val_inj, hne.symm]

theorem agrees_freeDirp (ha : t.Agrees h) {dirp : DirPtr} (hkeeps : t.KeepsHandles (.freeDirp dirp))
    (hcall : t.call bits (.freeDirp dirp) = .ok (t', answer)) :
    t'.Agrees (h.after (.freeDirp dirp, answer)) := by
  obtain ⟨t₁, hfree, heq⟩ := bind_eq_ok.mp hcall
  cases heq
  obtain ⟨hne, hbelow⟩ := hkeeps
  by_cases hrecord : ∃ slot, (t.record slot).dirp = dirp
  · obtain ⟨slot, hslot⟩ := hrecord
    obtain ⟨hdir, rfl⟩ := (ha.dirp_eq_iff hne).mp hslot
    have hin : t.InUse slot := (ha.fds slot).mp (ha.sub slot hdir)
    obtain ⟨t₂, hfree', hrecord⟩ := freeDirp_slot bits ha.dirpsOwn hslot
    obtain rfl : t₂ = t' := Except.ok.inj (hfree'.symm.trans hfree)
    rw [if_pos ⟨hbelow slot hslot, hin⟩] at hrecord
    refine ha.clear hrecord (fun other => ?_) fun other => ?_
    · rcases eq_or_ne other slot with rfl | hother
      · simp [Handles.after, hdir]
      · simp [Handles.after, hother, hother.symm]
    · simp [Handles.after, eq_comm (a := other)]
  · -- nobody has the handle
    have hclosed : ∀ slot, h.dirs slot = true → dirp ≠ dirpOf slot := by
      intro slot hdir heq
      exact hrecord ⟨slot, (ha.dirp_eq_iff hne).mpr ⟨hdir, heq⟩⟩
    have hsame : t' = t := by
      rcases freeDirp_cases hfree with hsame | ⟨slot, -, hdirp, -⟩
      · exact hsame
      · exact absurd ⟨slot, hdirp⟩ hrecord
    subst hsame
    refine ha.congr (fun slot => ?_) fun slot => ?_
    · cases hdir : h.dirs slot with
      | false => simp [Handles.after, hdir]
      | true => simp [Handles.after, hclosed slot hdir]
    · cases hdir : h.dirs slot with
      | false => simp [Handles.after, hdir]
      | true => simp [Handles.after, hdir, hclosed slot hdir]

theorem Agrees.call (ha : t.Agrees h) (hkeeps : t.KeepsHandles c)
    (hcall : t.call bits c = .ok (t', answer)) : t'.Agrees (h.after (c, answer)) := by
  cases c with
  | initFd => exact hkeeps.elim
  | allocFd path extfd driver => exact agrees_allocFd ha hkeeps hcall
  | freeFd fd => exact agrees_freeFd ha hcall
  | allocDirp path extdirp extfd driver => exact agrees_allocDirp ha hkeeps hcall
  | freeDirp dirp => exact agrees_freeDirp ha hkeeps hcall
  | resolve fd =>
    obtain ⟨found, -, heq⟩ := bind_eq_ok.mp hcall
    cases heq
    exact ha
  | resolveDirp dirp =>
    cases hcall
    exact ha

end Step

/-! ## Every run -/

section Run

variable {front : List FdCall} {events : List (FdCall × FdAnswer)}

theorem run_agrees
    (hkeeps : ∀ before c, before ++ [c] <+: front → ∀ events t,
      runActions (recorded bits) (started : FdTable n) before = some (events, t) →
      t.KeepsHandles c)
    (hrun : runActions (recorded bits) (started : FdTable n) front = some (events, t)) :
    t.Agrees (.ofEvents events) := by
  refine invariant_of_runActions (I := fun events t => t.Agrees (.ofEvents events))
    (C := fun _ t c => t.KeepsHandles c) agrees_started ?_ hkeeps hrun
  intro events t c t' event ha hkeeps hstep
  obtain ⟨⟨t₁, answer⟩, hcall, heq⟩ := Option.map_eq_some_iff.mp hstep
  cases heq
  rw [Handles.ofEvents, List.foldl_append]
  exact ha.call hkeeps (eq_ok_of_toOption hcall)

/-- For a descriptor, all is right exactly if it is open or far outside the table. -/
theorem fdRight_iff (fd : Int) : t.FdRight bits h fd ↔ fd < 0 ∨ n < fd ∨ h.LiveFd fd := by
  have hlive : h.LiveFd fd → ∃ slot : Fin n, fd = slot.val := by
    rintro ⟨slot, hfd, -⟩
    exact ⟨slot, hfd⟩
  rcases int_cases n fd with houtside | rfl | ⟨slot, rfl⟩
  · have hnot : ¬h.LiveFd fd := by
      intro hfd
      obtain ⟨slot, rfl⟩ := hlive hfd
      have := slot.isLt
      omega
    refine iff_of_true ⟨⟨none, resolve_of_outside houtside, by simp [hnot]⟩, fun t' r hclose => ?_⟩
      (by rw [← or_assoc]; exact Or.inl houtside)
    rw [close, resolve_of_outside houtside] at hclose
    cases hclose
  · refine iff_of_false (fun hright => ?_) ?_
    · obtain ⟨found, hresolve, -⟩ := hright.resolve
      rw [resolve_size] at hresolve
      cases hresolve
    · rintro (hneg | hgt | hfd)
      · omega
      · omega
      · obtain ⟨slot, hslot⟩ := hlive hfd
        have := slot.isLt
        omega
  · have hslot := slot.isLt
    constructor
    · intro hright
      obtain ⟨found, hresolve, hfound⟩ := hright.resolve
      rw [resolve_slot] at hresolve
      cases hresolve
      exact Or.inr (Or.inr (hfound.mp rfl))
    · rintro (hneg | hgt | hfd)
      · omega
      · omega
      · exact ⟨⟨_, resolve_slot, by simp [hfd]⟩, fun _ _ _ => hfd⟩

/-- For a directory handle, all is right unless it is the null pointer and there is a record of
    something else. -/
theorem Agrees.dirpRight_iff (ha : t.Agrees h) (dirp : DirPtr) :
    t.DirpRight bits h dirp ↔ dirp ≠ 0 ∨ ∀ slot, h.dirs slot = true := by
  have hsome : (t.resolveDirp dirp).isSome = true ↔ ∃ slot, (t.record slot).dirp = dirp := by
    rw [resolveDirp, Fin.isSome_find?_iff]
    simp
  have hright : t.DirpRight bits h dirp ↔
      ((∃ slot, (t.record slot).dirp = dirp) ↔ h.LiveDirp dirp) := by
    rw [← hsome]
    refine ⟨fun hright => hright.resolve, fun hiff => ⟨hiff, fun t' r hclose => hiff.mp ?_⟩⟩
    unfold closedir at hclose
    cases hresolve : t.resolveDirp dirp with
    | none =>
      rw [hresolve] at hclose
      cases hclose
    | some slot => rfl
  rw [hright]
  rcases eq_or_ne dirp 0 with rfl | hne
  · have hdead : ¬h.LiveDirp 0 := by
      rintro ⟨slot, hzero, -⟩
      exact dirpOf_ne_zero slot hzero.symm
    have hzero : ∀ slot, (t.record slot).dirp = 0 ↔ ¬h.dirs slot = true := by
      intro slot
      rw [ha.dirs slot]
      split_ifs with hdir
      · simp [hdir, dirpOf_ne_zero]
      · simp [hdir]
    simp [hdead, hzero]
  · refine iff_of_true ?_ (Or.inl hne)
    simp only [ha.dirp_eq_iff hne, Handles.LiveDirp, and_comm]

/-- In a run whose calls all keep records and handles together, `resolve` answers true for a
    descriptor exactly if it is open, and `close` calls a driver for it only then, if and only if it
    is open or far outside the table. For a directory handle this is so if and only if it is not
    the null pointer, or all records are of directories. -/
theorem resolve_right_iff (calls : List FdCall)
    (hkeeps : ∀ front c, front ++ [c] <+: calls → ∀ events t,
      runActions (recorded bits) (started : FdTable n) front = some (events, t) →
      t.KeepsHandles c) :
    ∀ front, front <+: calls → ∀ events t,
      runActions (recorded bits) (started : FdTable n) front = some (events, t) →
      (∀ fd, t.FdRight bits (.ofEvents events) fd ↔
        fd < 0 ∨ n < fd ∨ (Handles.ofEvents (n := n) events).LiveFd fd) ∧
      ∀ dirp, t.DirpRight bits (.ofEvents events) dirp ↔
        dirp ≠ 0 ∨ ∀ slot : Fin n, (Handles.ofEvents events).dirs slot = true := by
  intro front hfront events t hrun
  have ha := run_agrees (fun before c hbegins => hkeeps before c (hbegins.trans hfront)) hrun
  exact ⟨fun fd => fdRight_iff fd, fun dirp => ha.dirpRight_iff dirp⟩

/-- A directory and a file are opened, and the directory is closed. -/
def closesDirectory : List FdCall :=
  [.allocDirp none 100 8 .system, .allocFd none 7 .system, .freeDirp (dirpOf 3)]

theorem resolve_right_closesDirectory :
    ∃ events t, runActions (recorded 32) (started : FdTable 8) closesDirectory = some (events, t) ∧
      t.FdRight 32 (.ofEvents events) 4 ∧ ¬t.FdRight 32 (.ofEvents events) 3 ∧
      t.DirpRight 32 (.ofEvents events) (dirpOf 3) ∧ ¬t.DirpRight 32 (.ofEvents events) 0 := by
  have hkeeps : ∀ front c, front ++ [c] <+: closesDirectory → ∀ events t,
      runActions (recorded 32) (started : FdTable 8) front = some (events, t) →
      t.KeepsHandles c := by
    simp only [closesDirectory, forall_concat_prefix_cons, forall_concat_prefix_nil,
      forall_of_runActions_iff]
    decide +kernel
  have hrun : ∃ events t,
      runActions (recorded 32) (started : FdTable 8) closesDirectory = some (events, t) ∧
        (Handles.ofEvents (n := 8) events).LiveFd 4 ∧
        ¬(Handles.ofEvents (n := 8) events).LiveFd 3 ∧
        (Handles.ofEvents (n := 8) events).dirs 0 = false := by
    rw [exists_runActions_iff]
    decide +kernel
  obtain ⟨events, t, hrun, hlive, hdead, hfile⟩ := hrun
  obtain ⟨hfd, hdirp⟩ := resolve_right_iff closesDirectory hkeeps _ (List.prefix_refl _) _ _ hrun
  refine ⟨events, t, hrun, (hfd 4).mpr (Or.inr (Or.inr hlive)), fun hright => ?_,
    (hdirp _).mpr (Or.inl (by decide)), fun hright => ?_⟩
  · rcases (hfd 3).mp hright with hneg | hgt | hlive'
    · exact absurd hneg (by decide)
    · exact absurd hgt (by decide)
    · exact hdead hlive'
  · rcases (hdirp 0).mp hright with hne | hall
    · exact hne rfl
    · rw [hall 0] at hfile
      cases hfile

/-- A descriptor is closed and used again: `resolve` still answers true, with no driver. The null
    pointer is taken for the handle of a directory. -/
theorem resolve_closed :
    ∃ events t, runActions (recorded 32) (started : FdTable 8)
        [.allocFd none 7 .system, .freeFd 3] = some (events, t) ∧
      ¬(Handles.ofEvents (n := 8) events).LiveFd 3 ∧ t.resolve 3 = .ok (some .free) ∧
      ¬(Handles.ofEvents (n := 8) events).LiveDirp 0 ∧ t.resolveDirp 0 = some 0 := by
  rw [exists_runActions_iff]
  decide +kernel

end Run

end FdTable

end CrystaxNdk.Vfs
