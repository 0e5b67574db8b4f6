import CrystaxNdk.Vfs.Fileio
import CrystaxNdk.Vfs.Proof.FdRecords

/-!
# What each call of the client does

One lemma for each call takes its outcome apart: which driver was asked, what happened to the table,
and what was handed out.
-/

namespace CrystaxNdk.Vfs

open Lib

section Checks

variable {α : Type} {a : α}

@[simp]
theorem checkIo_eq_ok {x : Except IoFault α} : checkIo x = .ok a ↔ x = .ok a := by
  cases x <;> simp [checkIo, Except.mapError]

@[simp]
theorem checkPath_eq_ok {x : Except Fault α} : checkPath x = .ok a ↔ x = .ok a := by
  cases x <;> simp [checkPath, Except.mapError]

end Checks

variable {fd : Int}

theorem FdTable.exists_slot_of_resolve {n : Nat} {t : FdTable n} {r : FdRecord}
    (h : t.resolve fd = .ok (some r)) : ∃ slot : Fin n, fd = slot.val ∧ r = t.record slot := by
  rcases int_cases n fd with houtside | rfl | ⟨slot, rfl⟩
  · rw [resolve_of_outside houtside] at h
    cases h
  · rw [resolve_size] at h
    cases h
  · rw [resolve_slot] at h
    cases h
    exact ⟨slot, rfl, rfl⟩

theorem FdTable.outside_of_resolve {n : Nat} {t : FdTable n} (h : t.resolve fd = .ok none)
    (slot : Fin n) : fd ≠ slot.val := by
  rintro rfl
  rw [resolve_slot] at h
  cases h

namespace World

variable {n bits : Nat} {w : World n} {out : Outcome n}

theorem eq_of_callable {found : Option DriverPtr} {driver : DriverPtr}
    (h : w.callable found = .ok driver) : found = some driver := by
  cases found with
  | none => cases h
  | some driver' =>
    cases driver' with
    | system =>
      cases h
      rfl
    | loaded addr =>
      rw [callable] at h
      split_ifs at h
      cases h
      rfl

theorem outcome_of_step {c : FileCall} {w' : World n} {event : Event}
    (h : w.step bits c = some (w', event)) :
    ∃ out, w.call bits c = .ok out ∧ w' = out.world ∧ event = ⟨c, out.returned, out.created⟩ := by
  obtain ⟨out, hcall, heq⟩ := Option.map_eq_some_iff.mp h
  cases heq
  exact ⟨out, eq_ok_of_toOption hcall, rfl, rfl⟩

/-! ## Files -/

variable {path : Option CString}

theorem allocOrClose_cases {extfd : Int} {driver : DriverPtr}
    (h : w.allocOrClose path extfd driver = .ok out) :
    (∃ slot, w.fds.freeSlot = some slot ∧
      out = ⟨{ w with fds := w.fds.store slot ⟨0, extfd, 0, some driver, path⟩ }, .int slot.val,
        [⟨slot.val, driver, extfd⟩]⟩) ∨
    ∃ s res, w.drivers.closeFile w.stack driver extfd = .ok (s, res) ∧
      out = returns { w with drivers := s } (-1) := by
  unfold allocOrClose at h
  cases hslot : w.fds.freeSlot with
  | none =>
    simp only [FdTable.allocFd_of_none hslot] at h
    obtain ⟨⟨s, res⟩, hclose, heq⟩ := bind_eq_ok.mp h
    cases heq
    exact Or.inr ⟨s, res, hclose, rfl⟩
  | some slot =>
    simp only [FdTable.allocFd_of_some hslot, not_lt.mpr (Int.natCast_nonneg slot.val),
      if_false] at h
    cases h
    exact Or.inl ⟨slot, rfl, rfl⟩

variable {cwd : Option Cwd}

theorem openCall_cases {routes : List Route} (h : w.openCall cwd path routes = .ok out) :
    out = w.returns (-1) ∨
    ∃ driver s extfd, findDriver (cwd.map Cwd.path) w.mounts.drivers path = .ok (some driver) ∧
      w.drivers.openFile w.stack driver routes = .ok (s, extfd) ∧
      ((extfd = -1 ∧ out = returns { w with drivers := s } (-1)) ∨
        extfd ≠ -1 ∧ ∃ stored,
          allocOrClose { w with drivers := s } stored extfd driver = .ok out) := by
  obtain ⟨found, hfind, h⟩ := bind_eq_ok.mp h
  cases found with
  | none =>
    cases h
    exact Or.inl rfl
  | some driver =>
    obtain ⟨⟨s, extfd⟩, hopen, h⟩ := bind_eq_ok.mp h
    refine Or.inr ⟨driver, s, extfd, checkPath_eq_ok.mp hfind, hopen, ?_⟩
    simp only at h
    split_ifs at h with hfails
    · cases h
      exact Or.inl ⟨hfails, rfl⟩
    · obtain ⟨stored, -, halloc⟩ := bind_eq_ok.mp h
      exact Or.inr ⟨hfails, stored, halloc⟩

theorem closeCall_cases (h : w.closeCall bits fd = .ok out) :
    (out = w.returns (-1) ∧ ∀ slot : Fin n, fd ≠ slot.val) ∨
    ∃ (slot : Fin n) (driver : DriverPtr) (t : FdTable n) (s : Descriptors n) (res : Int),
      fd = slot.val ∧ (w.fds.record slot).driver = some driver ∧ w.fds.freeFd bits fd = .ok t ∧
      w.drivers.closeFile w.stack driver (w.fds.record slot).extfd = .ok (s, res) ∧
      out = returns { w with fds := t, drivers := s } res := by
  obtain ⟨closed, hclosed, h⟩ := bind_eq_ok.mp h
  obtain ⟨found, hresolve, hclosed⟩ := bind_eq_ok.mp (checkIo_eq_ok.mp hclosed)
  cases found with
  | none =>
    cases hclosed
    cases h
    exact Or.inl ⟨rfl, FdTable.outside_of_resolve hresolve⟩
  | some r =>
    obtain ⟨t, hfree, heq⟩ := bind_eq_ok.mp hclosed
    cases heq
    obtain ⟨driver, hdriver, h⟩ := bind_eq_ok.mp h
    obtain ⟨⟨s, res⟩, hclose, heq⟩ := bind_eq_ok.mp h
    cases heq
    obtain ⟨slot, hfd, rfl⟩ := FdTable.exists_slot_of_resolve hresolve
    exact Or.inr ⟨slot, driver, t, s, res, hfd, eq_of_callable hdriver, hfree, hclose, rfl⟩

variable {answer : Option Nat}

theorem dupCall_cases (h : w.dupCall fd answer = .ok out) :
    out = w.returns (-1) ∨
    ∃ r driver s extfd, w.fds.resolve fd = .ok (some r) ∧ r.driver = some driver ∧
      w.drivers.dupFile driver r.extfd answer = .ok (s, extfd) ∧
      out = ⟨{ w with drivers := s }, .int extfd,
        if extfd < 0 then [] else [⟨extfd, driver, extfd⟩]⟩ := by
  obtain ⟨found, hresolve, h⟩ := bind_eq_ok.mp h
  cases found with
  | none =>
    cases h
    exact Or.inl rfl
  | some r =>
    obtain ⟨driver, hdriver, h⟩ := bind_eq_ok.mp h
    obtain ⟨⟨s, extfd⟩, hdup, heq⟩ := bind_eq_ok.mp h
    cases heq
    exact Or.inr ⟨r, driver, s, extfd, checkIo_eq_ok.mp hresolve, eq_of_callable hdriver, hdup, rfl⟩

theorem dup2Call_cases {fd2 : Int} {granted : Bool} (h : w.dup2Call fd fd2 granted = .ok out) :
    out = w.returns (-1) ∨
    ∃ (slot : Fin n) (driver : DriverPtr) (s : Descriptors n) (extfd : Int), fd2 = slot.val ∧
      (w.fds.record slot).driver = some driver ∧
      w.drivers.dup2File driver fd fd2 granted = (s, extfd) ∧
      out = ⟨{ w with drivers := s }, .int extfd,
        if extfd < 0 then [] else [⟨extfd, driver, extfd⟩]⟩ := by
  obtain ⟨found, -, h⟩ := bind_eq_ok.mp h
  cases found with
  | none =>
    cases h
    exact Or.inl rfl
  | some r =>
    obtain ⟨found, hresolve, h⟩ := bind_eq_ok.mp h
    cases found with
    | none =>
      cases h
      exact Or.inl rfl
    | some r2 =>
      simp only at h
      split_ifs at h with hsame
      · cases h
        exact Or.inl rfl
      · obtain ⟨driver, hdriver, heq⟩ := bind_eq_ok.mp h
        cases heq
        obtain ⟨slot, hfd2, rfl⟩ := FdTable.exists_slot_of_resolve (checkIo_eq_ok.mp hresolve)
        refine Or.inr ⟨slot, driver, _, _, hfd2, ?_, rfl, rfl⟩
        rw [← not_ne_iff.mp hsame]
        exact eq_of_callable hdriver

theorem socketCall_cases (h : w.socketCall answer = .ok out) :
    ∃ s extfd, w.drivers.newFd answer = .ok (s, extfd) ∧
      ((extfd = -1 ∧ out = returns { w with drivers := s } (-1)) ∨
        extfd ≠ -1 ∧ allocOrClose { w with drivers := s } none extfd .system = .ok out) := by
  obtain ⟨⟨s, extfd⟩, hnew, h⟩ := bind_eq_ok.mp h
  refine ⟨s, extfd, hnew, ?_⟩
  simp only at h
  split_ifs at h with hfails
  · cases h
    exact Or.inl ⟨hfails, rfl⟩
  · exact Or.inr ⟨hfails, h⟩

theorem acceptCall_cases {sockfd : Int} (h : w.acceptCall sockfd answer = .ok out) :
    out = w.returns (-1) ∨ w.socketCall answer = .ok out := by
  obtain ⟨found, -, h⟩ := bind_eq_ok.mp h
  cases found with
  | none =>
    cases h
    exact Or.inl rfl
  | some r =>
    simp only at h
    split_ifs at h
    · cases h
      exact Or.inl rfl
    · exact Or.inr h

theorem connectCall_cases {sockfd : Int} {succeeds : Bool}
    (h : w.connectCall sockfd succeeds = .ok out) :
    out = w.returns (-1) ∨ succeeds = true ∧ w.allocOrClose none 0 .system = .ok out := by
  obtain ⟨found, -, h⟩ := bind_eq_ok.mp h
  cases found with
  | none =>
    cases h
    exact Or.inl rfl
  | some r =>
    simp only at h
    split_ifs at h with hfails hsucceeds
    · cases h
      exact Or.inl rfl
    · exact Or.inr ⟨hsucceeds, h⟩
    · cases h
      exact Or.inl rfl

theorem pipeCall_cases {answer : Option (Nat × Nat)} (h : w.pipeCall bits answer = .ok out) :
    out = w.returns (-1) ∨
    ∃ a b first second fd fd', a ≠ b ∧ w.drivers.newFd (some a) = .ok (first, fd) ∧
      first.newFd (some b) = .ok (second, fd') ∧
      (out = returns { w with drivers := ((second.closeSystem a).1.closeSystem b).1 } (-1) ∨
        ∃ slot t, w.fds.freeSlot = some slot ∧
          t = w.fds.store slot ⟨0, a, 0, some .system, none⟩ ∧
          ((∃ t', t.freeFd bits slot.val = .ok t' ∧
            out = returns
              ⟨w.mounts, t', ((second.closeSystem a).1.closeSystem b).1⟩ (-1)) ∨
            ∃ slot', t.freeSlot = some slot' ∧
              out = ⟨⟨w.mounts, t.store slot' ⟨0, b, 0, some .system, none⟩, second⟩, .int 0,
                [⟨slot.val, .system, a⟩, ⟨slot'.val, .system, b⟩]⟩)) := by
  cases answer with
  | none =>
    cases h
    exact Or.inl rfl
  | some ends =>
    obtain ⟨a, b⟩ := ends
    simp only [pipeCall] at h
    by_cases hsame : a = b
    · rw [if_pos hsame] at h
      cases h
    rw [if_neg hsame] at h
    obtain ⟨⟨first, fd⟩, hfirst, h⟩ := bind_eq_ok.mp h
    obtain ⟨⟨second, fd'⟩, hsecond, h⟩ := bind_eq_ok.mp h
    refine Or.inr ⟨a, b, first, second, fd, fd', hsame, hfirst, hsecond, ?_⟩
    cases hslot : w.fds.freeSlot with
    | none =>
      simp only [FdTable.allocFd_of_none hslot, if_true] at h
      cases h
      exact Or.inl rfl
    | some slot =>
      have hindex : ∀ index : Fin n, (index.val : Int) ≠ -1 := fun index => by omega
      refine Or.inr ⟨slot, _, rfl, rfl, ?_⟩
      simp only [FdTable.allocFd_of_some hslot, hindex, if_false] at h
      cases hslot' : (w.fds.store slot ⟨0, a, 0, some .system, none⟩).freeSlot with
      | none =>
        simp only [FdTable.allocFd_of_none hslot', if_true] at h
        obtain ⟨t', hfree, heq⟩ := bind_eq_ok.mp h
        cases heq
        exact Or.inl ⟨t', checkIo_eq_ok.mp hfree, rfl⟩
      | some slot' =>
        simp only [FdTable.allocFd_of_some hslot', hindex, if_false] at h
        cases h
        exact Or.inr ⟨slot', rfl, rfl⟩

/-! ## Directories -/

theorem allocDir_cases (w : World n) (path : Option CString) (extdirp : DirPtr) (extfd : Int)
    (driver : DriverPtr) :
    (w.allocDir path extdirp extfd driver = ⟨w, .dirp 0, []⟩) ∨
    ∃ slot, w.fds.freeSlot = some slot ∧
      w.allocDir path extdirp extfd driver =
        ⟨{ w with fds := w.fds.store slot ⟨dirpOf slot, extfd, extdirp, some driver, path⟩ },
          .dirp (dirpOf slot), []⟩ := by
  unfold allocDir
  cases hslot : w.fds.freeSlot with
  | none =>
    rw [FdTable.allocDirp_of_none hslot]
    exact Or.inl rfl
  | some slot =>
    rw [FdTable.allocDirp_of_some hslot]
    exact Or.inr ⟨slot, rfl, rfl⟩

theorem opendirCall_cases {answer : DirAnswer} (h : w.opendirCall cwd path answer = .ok out) :
    out = ⟨w, .dirp 0, []⟩ ∨
    ∃ driver stored,
      out = w.allocDir stored answer.extdirp (dirfdAnswer answer driver) driver ∧
      findDriver (cwd.map Cwd.path) w.mounts.drivers path = .ok (some driver) := by
  obtain ⟨found, hfind, h⟩ := bind_eq_ok.mp h
  cases found with
  | none =>
    cases h
    exact Or.inl rfl
  | some driver =>
    simp only at h
    split_ifs at h
    · cases h
      exact Or.inl rfl
    · obtain ⟨stored, -, heq⟩ := bind_eq_ok.mp h
      cases heq
      exact Or.inr ⟨driver, stored, rfl, checkPath_eq_ok.mp hfind⟩

theorem fdopendirCall_cases {answer : DirAnswer} (h : w.fdopendirCall cwd fd answer = .ok out) :
    out = ⟨w, .dirp 0, []⟩ ∨
    ∃ (slot : Fin n) (driver : DriverPtr) (stored : Option CString),
      fd = slot.val ∧ (w.fds.record slot).driver = some driver ∧
      out =
        w.allocDir stored (fdopendirAnswer answer driver) (dirfdAnswer answer driver) driver := by
  obtain ⟨found, hresolve, h⟩ := bind_eq_ok.mp h
  cases found with
  | none =>
    cases h
    exact Or.inl rfl
  | some r =>
    obtain ⟨path, -, h⟩ := bind_eq_ok.mp h
    obtain ⟨path', -, h⟩ := bind_eq_ok.mp h
    obtain ⟨driver, hdriver, h⟩ := bind_eq_ok.mp h
    obtain ⟨stored, -, heq⟩ := bind_eq_ok.mp h
    cases heq
    obtain ⟨slot, hfd, rfl⟩ := FdTable.exists_slot_of_resolve (checkIo_eq_ok.mp hresolve)
    exact Or.inr ⟨slot, driver, stored, hfd, eq_of_callable hdriver, rfl⟩

theorem closedirCall_cases {dirp : DirPtr} {result : Int}
    (h : w.closedirCall bits dirp result = .ok out) :
    (out = w.returns (-1) ∧ ∀ slot, (w.fds.record slot).dirp ≠ dirp) ∨
    ∃ t, w.fds.freeDirp bits dirp = .ok t ∧ out = returns { w with fds := t } result := by
  obtain ⟨closed, hclosed, h⟩ := bind_eq_ok.mp h
  rw [checkIo_eq_ok, FdTable.closedir] at hclosed
  cases hresolve : w.fds.resolveDirp dirp with
  | none =>
    rw [hresolve] at hclosed
    cases hclosed
    cases h
    refine Or.inl ⟨rfl, fun slot => ?_⟩
    simpa using Fin.find?_eq_none_iff.mp hresolve slot
  | some slot =>
    rw [hresolve] at hclosed
    obtain ⟨t, hfree, heq⟩ := bind_eq_ok.mp hclosed
    cases heq
    obtain ⟨driver, -, heq⟩ := bind_eq_ok.mp h
    cases heq
    exact Or.inr ⟨t, hfree, rfl⟩

end World

end CrystaxNdk.Vfs
