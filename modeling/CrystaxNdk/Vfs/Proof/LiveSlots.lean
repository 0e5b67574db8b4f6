import CrystaxNdk.Vfs.Proof.Calls
import CrystaxNdk.Vfs.Proof.Dispatch
import CrystaxNdk.Vfs.Proof.Handles
import CrystaxNdk.Vfs.Proof.Owners

/-!
# Slots of open handles

`alloc_fd` and `alloc_dirp` take the first slot whose descriptor is negative. A slot belongs to
somebody from the call that returns its descriptor or directory handle to the call that closes this,
and it must not count as free in between. It does if the directory is one of the assets, for which
`dirfd` is -1, if `closedir` is called with the null pointer, which is the handle in the records of
files, or if the descriptor of an open directory is closed.
-/

namespace CrystaxNdk.Vfs

open Lib

namespace Handles

variable {n : Nat}

def afterCall (h : Handles n) (event : World.Event) : Handles n :=
  match event.call, event.returned with
  | .open _ _ _, .int fd => ⟨fun slot => h.fds slot || fd = slot.val, h.dirs⟩
  | .close fd, _ => ⟨fun slot => h.fds slot && fd ≠ slot.val, h.dirs⟩
  | .opendir _ _ _, .dirp dirp => ⟨h.fds, fun slot => h.dirs slot || dirp = dirpOf slot⟩
  | .fdopendir _ _ _, .dirp dirp => ⟨h.fds, fun slot => h.dirs slot || dirp = dirpOf slot⟩
  | .closedir dirp _, _ => ⟨h.fds, fun slot => h.dirs slot && dirp ≠ dirpOf slot⟩
  | _, _ => h

def ofCalls (events : List World.Event) : Handles n := events.foldl afterCall started

/-- The slot belongs to a handle that is open. -/
def Live (h : Handles n) (slot : Fin n) : Prop := h.fds slot = true ∨ h.dirs slot = true

instance {h : Handles n} {slot : Fin n} : Decidable (h.Live slot) :=
  inferInstanceAs (Decidable (_ ∨ _))

end Handles

/-- The record of a slot fits the handles that are open for it. -/
structure SlotOk (slot : Nat) (r : FdRecord) (fd dir : Bool) : Prop where
  inUse : fd = true ∨ dir = true → 0 ≤ r.extfd
  fd : fd = true → r.dirp = 0
  dir : dir = true → r.dirp = dirpOf slot
  own : r.dirp = 0 ∨ r.dirp = dirpOf slot

namespace SlotOk

variable {slot : Nat} {r : FdRecord} {fd dir fd' dir' : Bool}

theorem mono (h : SlotOk slot r fd dir) (hfd : fd' = true → fd = true)
    (hdir : dir' = true → dir = true) : SlotOk slot r fd' dir' where
  inUse := fun hlive => h.inUse (hlive.imp hfd hdir)
  fd := fun hlive => h.fd (hfd hlive)
  dir := fun hlive => h.dir (hdir hlive)
  own := h.own

theorem free : SlotOk slot .free false false :=
  ⟨by simp, by simp, by simp, Or.inl rfl⟩

theorem file {extfd : Int} {driver : Option DriverPtr} {path : Option CString} (h : 0 ≤ extfd) :
    SlotOk slot ⟨0, extfd, 0, driver, path⟩ true false :=
  ⟨fun _ => h, fun _ => rfl, by simp, Or.inl rfl⟩

theorem directory {extfd : Int} {extdirp : DirPtr} {driver : Option DriverPtr}
    {path : Option CString} (h : 0 ≤ extfd) :
    SlotOk slot ⟨dirpOf slot, extfd, extdirp, driver, path⟩ false true :=
  ⟨fun _ => h, by simp, fun _ => rfl, Or.inr rfl⟩

end SlotOk

namespace World

variable {n bits : Nat} {w : World n} {h : Handles n} {out : Outcome n}

/-- Each record fits the handles that are open for its slot. -/
def Fits (t : FdTable n) (h : Handles n) : Prop :=
  ∀ slot : Fin n, SlotOk slot (t.record slot) (h.fds slot) (h.dirs slot)

theorem Fits.not_live (hf : Fits w.fds h) {slot : Fin n} (hslot : w.fds.freeSlot = some slot) :
    ¬h.Live slot :=
  fun hlive => (FdTable.freeSlot_eq_some.mp hslot).1 ((hf slot).inUse hlive)

namespace Fits

variable {t t' : FdTable n} {slot : Fin n} {driver : Option DriverPtr} {path : Option CString}
  {extfd : Int}

theorem mono (hf : Fits t h) {h' : Handles n}
    (hfds : ∀ slot, h'.fds slot = true → h.fds slot = true)
    (hdirs : ∀ slot, h'.dirs slot = true → h.dirs slot = true) : Fits t h' :=
  fun slot => (hf slot).mono (hfds slot) (hdirs slot)

theorem storeFile (hf : Fits t h) (hslot : ¬h.Live slot) (hpos : 0 ≤ extfd) :
    Fits (t.store slot ⟨0, extfd, 0, driver, path⟩)
      ⟨fun other => h.fds other || (slot.val : Int) = other.val, h.dirs⟩ := by
  intro other
  rcases eq_or_ne other slot with rfl | hne
  · simp only [FdTable.store, Function.update_self]
    exact (SlotOk.file hpos).mono (fun _ => rfl) fun hdir => absurd (Or.inr hdir) hslot
  · have hval : (slot.val : Int) ≠ other.val := fun heq => hne (Fin.ext (by omega))
    simpa [FdTable.store, hne, hval] using hf other

theorem storeDirectory (hf : Fits t h) (hslot : ¬h.Live slot) {extdirp : DirPtr}
    (hpos : 0 ≤ extfd) :
    Fits (t.store slot ⟨dirpOf slot, extfd, extdirp, driver, path⟩)
      ⟨h.fds, fun other => h.dirs other || dirpOf slot = dirpOf other⟩ := by
  intro other
  rcases eq_or_ne other slot with rfl | hne
  · simp only [FdTable.store, Function.update_self]
    exact (SlotOk.directory hpos).mono (fun hfd => absurd (Or.inl hfd) hslot) fun _ => rfl
  · simpa [FdTable.store, hne, hne.symm] using hf other

theorem clear (hf : Fits t h) (hrecord : ∀ other, t'.record other = t.record other ∨
      t'.record other = .free ∧ ¬h.Live other) : Fits t' h := by
  intro other
  rcases hrecord other with hsame | ⟨hfree, hnot⟩
  · rw [hsame]
    exact hf other
  · rw [hfree]
    exact SlotOk.free.mono (fun hfd => absurd (Or.inl hfd) hnot)
      fun hdir => absurd (Or.inr hdir) hnot

theorem openCall (hf : Fits w.fds h) {cwd : Option Cwd} {path : Option CString}
    {routes : List Route} (hcall : w.openCall cwd path routes = .ok out) :
    Fits out.world.fds (h.afterCall ⟨.open cwd path routes, out.returned, out.created⟩) := by
  have hfails : Fits w.fds ⟨fun slot => h.fds slot || (-1 : Int) = slot.val, h.dirs⟩ := by
    refine hf.mono (fun slot hlive => ?_) fun slot hlive => hlive
    have hne : (-1 : Int) ≠ slot.val := by omega
    simpa [hne] using hlive
  rcases openCall_cases hcall with rfl |
    ⟨driver, s, extfd, -, hopen, ⟨-, rfl⟩ | ⟨hne, stored, halloc⟩⟩
  · exact hfails
  · exact hfails
  · have hpos := (Descriptors.openFile_nonneg hopen).resolve_left hne
    rcases allocOrClose_cases halloc with ⟨slot, hslot, rfl⟩ | ⟨s', res, -, rfl⟩
    · exact hf.storeFile (hf.not_live hslot) hpos
    · exact hfails

theorem closeCall (hf : Fits w.fds h) {fd : Int} (hdir : ∀ slot : Fin n, fd = slot.val →
      h.dirs slot = false) (hcall : w.closeCall bits fd = .ok out) :
    Fits out.world.fds (h.afterCall ⟨.close fd, out.returned, out.created⟩) := by
  have hclosed : Fits w.fds ⟨fun slot => h.fds slot && fd ≠ slot.val, h.dirs⟩ := by
    refine hf.mono (fun slot hlive => ?_) fun slot hlive => hlive
    simp only [Bool.and_eq_true] at hlive
    exact hlive.1
  rcases closeCall_cases hcall with ⟨rfl, -⟩ | ⟨slot, driver, t, s, res, -, -, hfree, -, rfl⟩
  · exact hclosed
  · refine hclosed.clear fun other => ?_
    have hrecord := FdTable.freeFd_record hfree other
    split_ifs at hrecord with hother
    · refine Or.inr ⟨hrecord, ?_⟩
      rintro (hlive | hlive)
      · simp [hother.1] at hlive
      · rw [hdir other hother.1] at hlive
        cases hlive
    · exact Or.inl hrecord

theorem noDir (hf : Fits t h) :
    Fits t ⟨h.fds, fun slot => h.dirs slot || (0 : DirPtr) = dirpOf slot⟩ := by
  refine hf.mono (fun slot hlive => hlive) fun slot hlive => ?_
  simpa [(FdTable.dirpOf_ne_zero slot).symm] using hlive

theorem allocDir (hf : Fits w.fds h) (stored : Option CString) (extdirp : DirPtr)
    (driver : DriverPtr) (hpos : 0 ≤ extfd) :
    ∃ dirp, (w.allocDir stored extdirp extfd driver).returned = .dirp dirp ∧
      Fits (w.allocDir stored extdirp extfd driver).world.fds
        ⟨h.fds, fun slot => h.dirs slot || dirp = dirpOf slot⟩ := by
  rcases allocDir_cases w stored extdirp extfd driver with heq | ⟨slot, hslot, heq⟩
  · rw [heq]
    exact ⟨0, rfl, hf.noDir⟩
  · rw [heq]
    exact ⟨dirpOf slot, rfl, hf.storeDirectory (hf.not_live hslot) hpos⟩

theorem opendirCall (hf : Fits w.fds h) {cwd : Option Cwd} {path : Option CString}
    {answer : DirAnswer}
    (hdirfd : ∀ driver, findDriver (cwd.map Cwd.path) w.mounts.drivers path = .ok (some driver) →
      0 ≤ dirfdAnswer answer driver)
    (hcall : w.opendirCall cwd path answer = .ok out) :
    Fits out.world.fds (h.afterCall ⟨.opendir cwd path answer, out.returned, out.created⟩) := by
  rcases opendirCall_cases hcall with rfl | ⟨driver, stored, rfl, hfind⟩
  · exact hf.noDir
  · obtain ⟨dirp, hreturned, hfits⟩ :=
      hf.allocDir stored answer.extdirp driver (hdirfd driver hfind)
    simp only [Handles.afterCall, hreturned]
    exact hfits

theorem fdopendirCall (hf : Fits w.fds h) {cwd : Option Cwd} {fd : Int} {answer : DirAnswer}
    (hdirfd : ∀ slot : Fin n, fd = slot.val → ∀ driver, (w.fds.record slot).driver = some driver →
      0 ≤ dirfdAnswer answer driver)
    (hcall : w.fdopendirCall cwd fd answer = .ok out) :
    Fits out.world.fds (h.afterCall ⟨.fdopendir cwd fd answer, out.returned, out.created⟩) := by
  rcases fdopendirCall_cases hcall with rfl | ⟨slot, driver, stored, hfd, hdriver, rfl⟩
  · exact hf.noDir
  · obtain ⟨dirp, hreturned, hfits⟩ :=
      hf.allocDir stored (fdopendirAnswer answer driver) driver (hdirfd slot hfd driver hdriver)
    simp only [Handles.afterCall, hreturned]
    exact hfits

theorem closedirCall (hf : Fits w.fds h) {dirp : DirPtr} {result : Int} (hne : dirp ≠ 0)
    (hcall : w.closedirCall bits dirp result = .ok out) :
    Fits out.world.fds (h.afterCall ⟨.closedir dirp result, out.returned, out.created⟩) := by
  have hclosed : Fits w.fds ⟨h.fds, fun slot => h.dirs slot && dirp ≠ dirpOf slot⟩ := by
    refine hf.mono (fun slot hlive => hlive) fun slot hlive => ?_
    simp only [Bool.and_eq_true] at hlive
    exact hlive.1
  rcases closedirCall_cases hcall with ⟨rfl, -⟩ | ⟨t, hfree, rfl⟩
  · exact hclosed
  · rcases FdTable.freeDirp_cases hfree with rfl | ⟨slot, -, hdirp, -, hrecord⟩
    · exact hclosed
    · refine hclosed.clear fun other => ?_
      rcases eq_or_ne other slot with rfl | hother
      · -- the record has the handle that is closed, and so it is not of a file
        have hown : dirp = dirpOf other := by
          rcases (hf other).own with hzero | hown
          · exact absurd (hdirp.symm.trans hzero) hne
          · exact hdirp.symm.trans hown
        refine Or.inr ⟨by simp [returns, hrecord], ?_⟩
        rintro (hlive | hlive)
        · exact hne (hdirp.symm.trans ((hf other).fd hlive))
        · simp [hown] at hlive
      · exact Or.inl (by simp [returns, hrecord, hother])

end Fits

/-! ## Every run -/

/-- What has to be the case before a call for the slots of open handles to be in use after it. It is
    asked for more than is needed: an `opendir` that fails, or that finds the table full, stores
    nothing, and is left out here when `dirfd` would answer a negative number. -/
def KeepsSlots (w : World n) (h : Handles n) : FileCall → Prop
  | .open _ _ _ => True
  | .close fd => ∀ slot : Fin n, fd = slot.val → h.dirs slot = false
  | .opendir cwd path answer =>
    ∀ driver, findDriver (cwd.map Cwd.path) w.mounts.drivers path = .ok (some driver) →
      0 ≤ dirfdAnswer answer driver
  | .fdopendir _ fd answer =>
    ∀ slot : Fin n, fd = slot.val → ∀ driver, (w.fds.record slot).driver = some driver →
      0 ≤ dirfdAnswer answer driver
  | .closedir dirp _ => dirp ≠ 0
  | _ => False

instance {x : Except Fault (Option DriverPtr)} {P : DriverPtr → Prop} [DecidablePred P] :
    Decidable (∀ driver, x = .ok (some driver) → P driver) :=
  match x with
  | .error _ => isTrue fun _ h => by cases h
  | .ok none => isTrue fun _ h => by cases h
  | .ok (some driver) =>
    decidable_of_iff (P driver) ⟨fun hp _ h => by cases h; exact hp, fun h => h driver rfl⟩

instance {c : FileCall} : Decidable (w.KeepsSlots h c) := by
  cases c with
  | fdopendir _ _ answer =>
    exact inferInstanceAs (Decidable (∀ slot : Fin n, _ →
      ∀ driver ∈ (w.fds.record slot).driver, 0 ≤ dirfdAnswer answer driver))
  | _ =>
    dsimp only [KeepsSlots]
    infer_instance

theorem Fits.call (hf : Fits w.fds h) {c : FileCall} (hkeeps : w.KeepsSlots h c)
    (hcall : w.call bits c = .ok out) :
    Fits out.world.fds (h.afterCall ⟨c, out.returned, out.created⟩) := by
  cases c with
  | «open» cwd path routes => exact hf.openCall hcall
  | close fd => exact hf.closeCall hkeeps hcall
  | opendir cwd path answer => exact hf.opendirCall hkeeps hcall
  | fdopendir cwd fd answer => exact hf.fdopendirCall hkeeps hcall
  | closedir dirp result => exact hf.closedirCall hkeeps hcall
  | _ => exact hkeeps.elim

theorem fits_started (mounts : MountTable) (kernel : Finset Nat) :
    Fits (started mounts kernel : World n).fds .started := by
  intro slot
  by_cases hslot : slot.val < 3
  · have hfile : SlotOk slot (.standard slot) true false := SlotOk.file (Int.natCast_nonneg _)
    simpa [started, FdTable.started, Handles.started, hslot] using hfile
  · simpa [started, FdTable.started, Handles.started, hslot] using (SlotOk.free : SlotOk slot _ _ _)

/-- Any drivers are mounted. As long as directories have a descriptor in their driver, `closedir` is
    not called with the null pointer and no descriptor of an open directory is closed, `alloc_fd`
    and `alloc_dirp` never take a slot that belongs to an open handle. -/
theorem freeSlot_not_live (mounts : MountTable) (kernel : Finset Nat) (calls : List FileCall)
    (hkeeps : ∀ front c, front ++ [c] <+: calls → ∀ events w,
      runActions (step bits) (started mounts kernel : World n) front = some (events, w) →
      w.KeepsSlots (.ofCalls events) c)
    (events : List Event) (w : World n)
    (hrun : runActions (step bits) (started mounts kernel) calls = some (events, w)) (slot : Fin n)
    (hslot : w.fds.freeSlot = some slot) : ¬(Handles.ofCalls events).Live slot := by
  have hfits : Fits w.fds (.ofCalls events) := by
    refine invariant_of_runActions (I := fun events w => Fits w.fds (.ofCalls events))
      (C := fun events w c => w.KeepsSlots (.ofCalls events) c) (fits_started mounts kernel) ?_
      hkeeps hrun
    intro events w c w' event hf hkeeps hstep
    obtain ⟨out, hcall, rfl, rfl⟩ := outcome_of_step hstep
    rw [Handles.ofCalls, List.foldl_append]
    exact hf.call hkeeps hcall
  exact hfits.not_live hslot

/-- A stream of the assets and two directories of the system, one of them for an open file. -/
def handleCalls : List FileCall :=
  [.open none (some "/mnt/a/x".toList) [.stream], .opendir none (some "/".toList) ⟨4096, 5⟩,
    .open none (some "/d".toList) [.system (some 6)],
    .fdopendir (some ⟨"/".toList, rfl⟩) 5 ⟨8192, 6⟩, .close 3, .closedir (dirpOf 4) 0]

theorem freeSlot_not_live_handleCalls :
    ∃ events w, runActions (step 32) (started .assetsMounted {0, 1, 2} : World 8) handleCalls =
        some (events, w) ∧
      w.fds.freeSlot = some 3 ∧ (Handles.ofCalls events : Handles 8).Live 6 ∧
      ¬(Handles.ofCalls events : Handles 8).Live 3 := by
  have hend : ∃ events w, runActions (step 32) (started .assetsMounted {0, 1, 2} : World 8)
      handleCalls = some (events, w) ∧
      w.fds.freeSlot = some 3 ∧ (Handles.ofCalls events : Handles 8).Live 6 :=
    exists_runActions_iff.mpr (by decide +kernel)
  obtain ⟨events, w, hrun, hslot, hlive⟩ := hend
  refine ⟨events, w, hrun, hslot, hlive, ?_⟩
  refine freeSlot_not_live .assetsMounted {0, 1, 2} handleCalls ?_ events w hrun 3 hslot
  simp only [handleCalls, forall_concat_prefix_cons, forall_concat_prefix_nil,
    forall_of_runActions_iff]
  decide +kernel

/-- A directory of the assets is open, and its slot is the next that is taken. -/
theorem freeSlot_live :
    ∃ events w, runActions (step 32) (started .assetsMounted {0, 1, 2} : World 8)
        [.opendir none (some "/mnt/a".toList) ⟨4096, 5⟩] = some (events, w) ∧
      w.fds.freeSlot = some 3 ∧ (Handles.ofCalls events : Handles 8).Live 3 :=
  exists_runActions_iff.mpr (by decide +kernel)

end World

end CrystaxNdk.Vfs
