import CrystaxNdk.Vfs.Proof.Handles

/-!
# Directories that are opened and closed

`free_dirp` looks for the record of a directory below `fd_table_top`, not at it. A directory that
was opened last is usually just there, and its slot is never freed. The same happens to a directory
whose driver has no descriptor for it.
-/

namespace CrystaxNdk.Vfs.FdTable

open Lib

variable {n bits : Nat} {t t' : FdTable n} {slot : Fin n}

/-! ## Closing -/

section Close

theorem dirpsOwn_of_update {t' : FdTable n} (hown : t.DirpsOwn) {r : FdRecord}
    (hrecord : t'.record = Function.update t.record slot r)
    (hr : r.dirp = 0 ∨ r.dirp = dirpOf slot) : t'.DirpsOwn := by
  intro other
  rcases eq_or_ne other slot with rfl | hne
  · simpa [hrecord] using hr
  · simpa [hrecord, hne] using hown other

theorem DirpsOwn.call (hown : t.DirpsOwn) {c : FdCall} {answer : FdAnswer}
    (hcall : t.call bits c = .ok (t', answer)) : t'.DirpsOwn := by
  cases c with
  | initFd =>
    obtain ⟨t₁, hinit, heq⟩ := bind_eq_ok.mp hcall
    cases heq
    unfold initFd at hinit
    split_ifs at hinit
    cases hinit
    intro other
    by_cases hother : other.val < 3 <;> simp [hother, FdRecord.standard, FdRecord.free]
  | allocFd path extfd driver =>
    rw [call_allocFd] at hcall
    cases hcall
    rw [allocFd_fst]
    cases t.freeSlot with
    | none => exact hown
    | some slot => exact dirpsOwn_of_update hown rfl (Or.inl rfl)
  | freeFd fd =>
    obtain ⟨t₁, hfree, heq⟩ := bind_eq_ok.mp hcall
    cases heq
    intro other
    rw [freeFd_record hfree other]
    split_ifs
    · exact Or.inl rfl
    · exact hown other
  | allocDirp path extdirp extfd driver =>
    rw [call_allocDirp] at hcall
    cases hcall
    rw [allocDirp_fst]
    cases t.freeSlot with
    | none => exact hown
    | some slot => exact dirpsOwn_of_update hown rfl (Or.inr rfl)
  | freeDirp dirp =>
    obtain ⟨t₁, hfree, heq⟩ := bind_eq_ok.mp hcall
    cases heq
    rcases freeDirp_cases hfree with rfl | ⟨slot, -, -, -, hrecord⟩
    · exact hown
    · exact dirpsOwn_of_update hown hrecord (Or.inl rfl)
  | resolve fd =>
    obtain ⟨found, -, heq⟩ := bind_eq_ok.mp hcall
    cases heq
    exact hown
  | resolveDirp dirp =>
    cases hcall
    exact hown

theorem run_dirpsOwn {events : List (FdCall × FdAnswer)}
    (h : Run (recorded bits) (started : FdTable n) events t) : t.DirpsOwn := by
  induction h with
  | nil => exact agrees_started.dirpsOwn
  | snoc _ hstep ih =>
    obtain ⟨⟨t₂, answer⟩, hcall, heq⟩ := Option.map_eq_some_iff.mp hstep
    cases heq
    exact ih.call (eq_ok_of_toOption hcall)

theorem DirpsOwn.resolveDirp_eq (hown : t.DirpsOwn) {found : Fin n}
    (h : t.resolveDirp (dirpOf slot) = some found) :
    found = slot ∧ (t.record slot).dirp = dirpOf slot := by
  have hdirp : (t.record found).dirp = dirpOf slot := by
    simpa using (Fin.find?_eq_some_iff.mp h).1
  obtain rfl := hown.eq_of_dirp hdirp
  exact ⟨rfl, hdirp⟩

theorem DirpsOwn.resolveDirp_slot (hown : t.DirpsOwn)
    (hdirp : (t.record slot).dirp = dirpOf slot) : t.resolveDirp (dirpOf slot) = some slot := by
  refine Fin.find?_eq_some_iff.mpr ⟨by simpa using hdirp, fun other hlt => ?_⟩
  simpa using fun heq => hlt.ne (hown.eq_of_dirp heq)

/-- A directory that is closed is released exactly if its record is below `fd_table_top` and in
    use. -/
theorem DirpsOwn.closedir (hown : t.DirpsOwn) (bits : Nat)
    (hdirp : (t.record slot).dirp = dirpOf slot) :
    ∃ t', t.closedir bits (dirpOf slot) = .ok (t', some (t.record slot)) ∧ t'.record =
      if slot.val < t.top ∧ t.InUse slot then Function.update t.record slot .free
      else t.record := by
  obtain ⟨t', hfree, hrecord⟩ := freeDirp_slot bits hown hdirp
  refine ⟨t', ?_, hrecord⟩
  unfold FdTable.closedir
  rw [hown.resolveDirp_slot hdirp]
  simp [hfree, bind, Except.bind, pure, Except.pure]

end Close

/-! ## Opening and closing -/

def usedSlots (t : FdTable n) : Nat := (Finset.univ.filter t.InUse).card

/-- What `opendir` stores, with what the driver answers. -/
structure OpenedDir where
  path : Option CString
  extdirp : DirPtr
  extfd : Int
  driver : DriverPtr

/-- A directory is opened, and if there was a slot for it, closed. -/
def openAndCloseDir (bits : Nat) (t : FdTable n) (d : OpenedDir) : Except IoFault (FdTable n) :=
  let opened := t.allocDirp d.path d.extdirp d.extfd d.driver
  if opened.2 = 0 then .ok opened.1 else do return (← opened.1.closedir bits opened.2).1

/-- A directory that is opened will be below `fd_table_top`, or its slot will not be in use. -/
def DirStaysBelow (t : FdTable n) (d : OpenedDir) : Prop :=
  d.extfd < 0 ∨ ∀ slot, t.freeSlot = some slot → slot.val < t.top

instance {d : OpenedDir} : Decidable (t.DirStaysBelow d) :=
  inferInstanceAs (Decidable (_ ∨ ∀ _ : Fin n, _ → _))

section Pairs

theorem usedSlots_congr (h : ∀ slot, t'.InUse slot ↔ t.InUse slot) :
    t'.usedSlots = t.usedSlots := by
  unfold usedSlots
  congr 1
  ext slot
  simp [h slot]

theorem usedSlots_insert (hfree : ¬t.InUse slot)
    (h : ∀ other, t'.InUse other ↔ other = slot ∨ t.InUse other) :
    t'.usedSlots = t.usedSlots + 1 := by
  have hinsert : Finset.univ.filter t'.InUse = insert slot (Finset.univ.filter t.InUse) := by
    ext other
    simp [h other]
  rw [usedSlots, hinsert, Finset.card_insert_of_notMem (by simp [hfree])]
  rfl

/-- If there is a free slot, the directory gets the first one, and this stays in use unless it is
    below `fd_table_top`, or the driver has no descriptor for the directory. -/
theorem DirpsOwn.openAndCloseDir_slot (hown : t.DirpsOwn) (hslot : t.freeSlot = some slot)
    (bits : Nat) (d : OpenedDir) :
    ∃ t', t.openAndCloseDir bits d = .ok t' ∧ t'.DirpsOwn ∧ ∀ other, t'.InUse other ↔
      t.InUse other ∨ other = slot ∧ 0 ≤ d.extfd ∧ ¬slot.val < t.top := by
  have hfree := (freeSlot_eq_some.mp hslot).1
  set t₁ := t.store slot ⟨dirpOf slot, d.extfd, d.extdirp, some d.driver, d.path⟩ with ht₁
  have hown₁ : t₁.DirpsOwn := dirpsOwn_of_update hown rfl (Or.inr rfl)
  have hdirp : (t₁.record slot).dirp = dirpOf slot := by simp [ht₁, store]
  have hin : t₁.InUse slot ↔ 0 ≤ d.extfd := inUse_store_self
  have hother : ∀ other, other ≠ slot → (t₁.InUse other ↔ t.InUse other) :=
    fun other hne => inUse_store_of_ne hne
  have hlt : slot.val < t₁.top ↔ slot.val < t.top := by simp [ht₁]
  obtain ⟨t', hclose, hrecord⟩ := hown₁.closedir bits hdirp
  refine ⟨t', ?_, ?_, fun other => ?_⟩
  · have hopened : t.allocDirp d.path d.extdirp d.extfd d.driver = (t₁, dirpOf slot) := by
      rw [allocDirp, hslot]
    simp only [FdTable.openAndCloseDir, hopened, if_neg (dirpOf_ne_zero slot), hclose]
    rfl
  · split_ifs at hrecord
    · exact dirpsOwn_of_update hown₁ hrecord (Or.inl rfl)
    · intro other
      rw [hrecord]
      exact hown₁ other
  · by_cases hboth : slot.val < t₁.top ∧ t₁.InUse slot
    · rw [if_pos hboth] at hrecord
      have hstays : ¬(other = slot ∧ 0 ≤ d.extfd ∧ ¬slot.val < t.top) :=
        fun hstays => hstays.2.2 (hlt.mp hboth.1)
      rw [or_iff_left hstays]
      rcases eq_or_ne other slot with rfl | hne
      · exact iff_of_false (by simp [InUse, hrecord, FdRecord.free]) hfree
      · rw [← hother other hne]
        simp [InUse, hrecord, hne]
    · rw [if_neg hboth] at hrecord
      rw [hlt, hin, not_and'] at hboth
      have hsame : t'.InUse other ↔ t₁.InUse other := by simp [InUse, hrecord]
      rw [hsame]
      rcases eq_or_ne other slot with rfl | hne
      · rw [hin, or_iff_right hfree]
        exact ⟨fun hextfd => ⟨rfl, hextfd, hboth hextfd⟩, fun hstays => hstays.2.1⟩
      · simp [hother other hne, hne]

/-- Opening and closing a directory always comes to an end, and leaves a slot more in use unless
    the directory stays below `fd_table_top`. -/
theorem DirpsOwn.openAndCloseDir (hown : t.DirpsOwn) (bits : Nat) (d : OpenedDir) :
    ∃ t', t.openAndCloseDir bits d = .ok t' ∧ t'.DirpsOwn ∧
      (t'.usedSlots = t.usedSlots ↔ t.DirStaysBelow d) ∧ t.usedSlots ≤ t'.usedSlots := by
  cases hslot : t.freeSlot with
  | none =>
    refine ⟨t, ?_, hown, iff_of_true rfl (Or.inr (by simp [hslot])), le_refl _⟩
    simp [FdTable.openAndCloseDir, allocDirp, hslot]
  | some slot =>
    obtain ⟨t', heq, hown', huse⟩ := hown.openAndCloseDir_slot hslot bits d
    refine ⟨t', heq, hown', ?_⟩
    have hbelow : t.DirStaysBelow d ↔ ¬(0 ≤ d.extfd ∧ ¬slot.val < t.top) := by
      simp only [DirStaysBelow, hslot, Option.some.injEq, forall_eq']
      omega
    by_cases hstays : 0 ≤ d.extfd ∧ ¬slot.val < t.top
    · have hmore : t'.usedSlots = t.usedSlots + 1 :=
        usedSlots_insert (freeSlot_eq_some.mp hslot).1 fun other => by
          simp [huse other, hstays, or_comm]
      exact ⟨iff_of_false (by omega) (by simp [hbelow, hstays]), by omega⟩
    · have hsame : t'.usedSlots = t.usedSlots := usedSlots_congr fun other => by
        simp only [huse other, hstays, and_false, or_false]
      exact ⟨iff_of_true hsame (hbelow.mpr hstays), hsame.ge⟩

/-- One directory after the other is opened and closed. -/
def dirStep (bits : Nat) (t : FdTable n) (d : OpenedDir) : Option (FdTable n × Unit) :=
  (t.openAndCloseDir bits d).toOption.map fun t' => (t', ())

theorem DirpsOwn.dirStep (hown : t.DirpsOwn) {d : OpenedDir} {event : Unit}
    (hstep : dirStep bits t d = some (t', event)) :
    t'.DirpsOwn ∧ (t'.usedSlots = t.usedSlots ↔ t.DirStaysBelow d) := by
  obtain ⟨t₁, heq, hsome⟩ := Option.map_eq_some_iff.mp hstep
  cases hsome
  obtain ⟨t₂, heq', hown', hiff, -⟩ := hown.openAndCloseDir bits d
  rw [eq_ok_of_toOption heq] at heq'
  cases heq'
  exact ⟨hown', hiff⟩

theorem run_dirStep_dirpsOwn (hown : t.DirpsOwn) {events : List Unit}
    (h : Run (dirStep bits) t events t') : t'.DirpsOwn := by
  induction h with
  | nil => exact hown
  | snoc _ hstep ih => exact (ih.dirStep hstep).1

/-- Opening and closing directories leaves the number of slots in use as it was exactly if all of
    them stay below `fd_table_top`. -/
theorem DirpsOwn.usedSlots_iff (hown : t.DirpsOwn) (bits : Nat) (dirs : List OpenedDir) :
    (∀ front, front <+: dirs → ∀ events t',
      runActions (FdTable.dirStep bits) t front = some (events, t') →
      t'.usedSlots = t.usedSlots) ↔
    ∀ front d, front ++ [d] <+: dirs → ∀ events t',
      runActions (FdTable.dirStep bits) t front = some (events, t') → t'.DirStaysBelow d := by
  constructor
  · intro hused front d hbegins events t' hrun
    obtain ⟨t₁, heq, -, hiff, -⟩ :=
      (run_dirStep_dirpsOwn hown (run_of_runActions hrun)).openAndCloseDir bits d
    have hstep : FdTable.dirStep bits t' d = some (t₁, ()) := by
      rw [FdTable.dirStep, heq]
      rfl
    have hrun' := runActions_concat.mpr ⟨_, _, _, hrun, hstep, rfl⟩
    rw [← hiff, hused (front ++ [d]) hbegins _ _ hrun',
      hused front ((List.prefix_append _ _).trans hbegins) _ _ hrun]
  · intro hbelow front hfront events t' hrun
    have hinv : t'.DirpsOwn ∧ t'.usedSlots = t.usedSlots := by
      refine invariant_of_runActions
        (I := fun _ t' => t'.DirpsOwn ∧ t'.usedSlots = t.usedSlots)
        (C := fun _ t' d => t'.DirStaysBelow d) ⟨hown, rfl⟩ ?_
        (fun before d hbegins => hbelow before d (hbegins.trans hfront)) hrun
      rintro _ t₁ d t₂ _ ⟨hown₁, hused₁⟩ hbelow₁ hstep
      obtain ⟨hown₂, hiff⟩ := hown₁.dirStep hstep
      exact ⟨hown₂, (hiff.mpr hbelow₁).trans hused₁⟩
    exact hinv.2

end Pairs

/-- In every state of the table, closing a directory that is open frees its slot exactly if the slot
    is below `fd_table_top` and the driver had a descriptor for the directory; and opening and
    closing any number of directories leaves the number of slots in use as it was exactly if the
    slot each of them gets is below `fd_table_top` or does not count as used. -/
theorem closedir_frees_iff (calls : List FdCall) (events : List (FdCall × FdAnswer)) (t : FdTable n)
    (hrun : runActions (recorded bits) started calls = some (events, t)) :
    (∀ dirp, (Handles.ofEvents (n := n) events).LiveDirp dirp → ∀ t' r,
      t.closedir bits dirp = .ok (t', some r) →
      ∃ slot : Fin n, dirp = dirpOf slot ∧ r = t.record slot ∧
        (t'.record slot = .free ↔ slot.val < t.top ∧ 0 ≤ r.extfd)) ∧
    ∀ dirs : List OpenedDir,
      (∀ front, front <+: dirs → ∀ done t',
        runActions (dirStep bits) t front = some (done, t') → t'.usedSlots = t.usedSlots) ↔
      ∀ front d, front ++ [d] <+: dirs → ∀ done t',
        runActions (dirStep bits) t front = some (done, t') → t'.DirStaysBelow d := by
  have hown := run_dirpsOwn (run_of_runActions hrun)
  refine ⟨?_, hown.usedSlots_iff bits⟩
  rintro dirp ⟨slot, rfl, -⟩ t' r hclose
  have hdirp : (t.record slot).dirp = dirpOf slot := by
    unfold FdTable.closedir at hclose
    cases hresolve : t.resolveDirp (dirpOf slot) with
    | none =>
      rw [hresolve] at hclose
      cases hclose
    | some found => exact (hown.resolveDirp_eq hresolve).2
  obtain ⟨t₁, hclose', hrecord⟩ := hown.closedir bits hdirp
  rw [hclose] at hclose'
  cases hclose'
  refine ⟨slot, rfl, rfl, ?_⟩
  by_cases hboth : slot.val < t.top ∧ t.InUse slot
  · rw [if_pos hboth] at hrecord
    exact iff_of_true (by simp [hrecord]) hboth
  · rw [if_neg hboth] at hrecord
    refine iff_of_false (fun hfree => ?_) hboth
    rw [hrecord] at hfree
    rw [hfree] at hdirp
    exact dirpOf_ne_zero slot hdirp.symm

/-- A directory and two files are opened, and the first file is closed. -/
def leavesHole : List FdCall :=
  [.allocDirp none 100 8 .system, .allocFd none 7 .system, .allocFd none 9 .system, .freeFd 4]

def systemDir : OpenedDir := ⟨none, 200, 10, .system⟩

theorem closedir_frees_hole :
    ∃ events t, runActions (recorded 32) (started : FdTable 8) leavesHole = some (events, t) ∧
      (∃ t' r, t.closedir 32 (dirpOf 3) = .ok (t', some r) ∧ t'.record 3 = .free) ∧
      ∀ front, front <+: [systemDir, systemDir] → ∀ done t',
        runActions (dirStep 32) t front = some (done, t') → t'.usedSlots = t.usedSlots := by
  have hrun : ∃ events t,
      runActions (recorded 32) (started : FdTable 8) leavesHole = some (events, t) ∧
        (Handles.ofEvents (n := 8) events).LiveDirp (dirpOf 3) ∧ t.top = 5 ∧
        (t.record 3).dirp = dirpOf 3 ∧ (t.record 3).extfd = 8 ∧ t.DirStaysBelow systemDir ∧
        (runActions (dirStep 32) t [systemDir]).all
          (fun res => decide (res.2.DirStaysBelow systemDir)) = true := by
    rw [exists_runActions_iff]
    decide +kernel
  obtain ⟨events, t, hrun, hlive, htop, hdirp, hextfd, hfirst, hsecond⟩ := hrun
  obtain ⟨hclose, hpairs⟩ := closedir_frees_iff leavesHole events t hrun
  refine ⟨events, t, hrun, ?_, (hpairs _).mpr ?_⟩
  · have hown := run_dirpsOwn (run_of_runActions hrun)
    obtain ⟨t', hclosed, -⟩ := hown.closedir 32 hdirp
    obtain ⟨slot, hslot, -, hfree⟩ := hclose (dirpOf 3) hlive t' _ hclosed
    obtain rfl : (3 : Fin 8) = slot := dirpOf_inj hslot
    exact ⟨t', _, hclosed, hfree.mpr ⟨by rw [htop]; decide, by rw [hextfd]; decide⟩⟩
  · simp only [forall_concat_prefix_cons, forall_concat_prefix_nil, and_true]
    refine ⟨?_, forall_of_runActions_iff.mpr hsecond⟩
    intro done t' hnone
    cases hnone
    exact hfirst

/-- A directory is opened and closed, and its slot is still in use. -/
theorem closedir_keeps_slot :
    ∃ events t, runActions (recorded 32) (started : FdTable 8)
        [.allocDirp none 100 8 .system] = some (events, t) ∧
      (Handles.ofEvents (n := 8) events).LiveDirp (dirpOf 3) ∧
      (t.closedir 32 (dirpOf 3)).toOption.map (fun res => (res.1.record 3, res.1.usedSlots)) =
        some (t.record 3, 4) ∧
      (started : FdTable 8).usedSlots = 3 := by
  rw [exists_runActions_iff]
  decide +kernel

end CrystaxNdk.Vfs.FdTable
