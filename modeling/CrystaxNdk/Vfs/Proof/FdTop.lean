import CrystaxNdk.Vfs.Proof.FdRecords

/-!
# `fd_table_top` and the free slots

`alloc_fd` finds the first free slot. `fd_table_top` follows the greatest index in use as long as
the table is set up first and only once, no negative descriptor is stored in a slot above it, some
slot stays in use, and nobody asks for the descriptor `FD_TABLE_SIZE`. If the last slot in use is
freed, the loop in `free_fd` takes one from zero.
-/

namespace CrystaxNdk.Vfs.FdTable

open Lib List

variable {n bits : Nat} {t t' : FdTable n} {fd : Fin n}

/-- `fd_table_top` is the greatest index in use, or zero if there is none. -/
structure TopRight (t : FdTable n) : Prop where
  le : ∀ fd, t.InUse fd → fd.val ≤ t.top
  attained : (∃ fd, t.InUse fd ∧ fd.val = t.top) ∨ t.top = 0 ∧ ∀ fd, ¬t.InUse fd

/-! ## Allocating -/

section Allocate

variable {r : FdRecord}

/-- Storing in a free slot is right unless a negative descriptor raises `fd_table_top`. -/
theorem TopRight.store_iff (h : t.TopRight) (hfree : ¬t.InUse fd) :
    (t.store fd r).TopRight ↔ 0 ≤ r.extfd ∨ fd.val ≤ t.top := by
  constructor
  · intro hstored
    by_contra hnot
    obtain ⟨hneg, hlt⟩ := not_or.mp hnot
    rcases hstored.attained with ⟨other, hin, htop⟩ | ⟨htop, -⟩
    · obtain rfl : other = fd := by
        rw [store_top] at htop
        omega
      exact hneg (inUse_store_self.mp hin)
    · rw [store_top] at htop
      omega
  · intro hor
    constructor
    · intro other hin
      rcases eq_or_ne other fd with rfl | hne
      · exact le_max_right _ _
      · exact (h.le other ((inUse_store_of_ne hne).mp hin)).trans (le_max_left _ _)
    · by_cases hpos : 0 ≤ r.extfd ∧ t.top ≤ fd
      · exact Or.inl ⟨fd, inUse_store_self.mpr hpos.1, by simpa using hpos.2⟩
      · have hle : fd.val ≤ t.top := by omega
        have htop : (t.store fd r).top = t.top := by simpa using hle
        rw [htop]
        rcases h.attained with ⟨other, hin, hother⟩ | ⟨hzero, hnone⟩
        · have hne : other ≠ fd := by
            rintro rfl
            exact hfree hin
          exact Or.inl ⟨other, (inUse_store_of_ne hne).mpr hin, hother⟩
        · refine Or.inr ⟨hzero, fun other hin => ?_⟩
          rcases eq_or_ne other fd with rfl | hne
          · exact hpos ⟨inUse_store_self.mp hin, by omega⟩
          · exact hnone other ((inUse_store_of_ne hne).mp hin)

end Allocate

/-! ## Freeing -/

section Free

theorem decrement_succ (x : Nat) (h : x < 2 ^ bits) : decrement bits (x + 1) = x := by
  have hsum : x + 1 + 2 ^ bits - 1 = x + 2 ^ bits := by omega
  rw [decrement, hsum, Nat.add_mod_right, Nat.mod_eq_of_lt h]

theorem decrement_zero : decrement bits 0 = 2 ^ bits - 1 := by
  have hpos : 0 < 2 ^ bits := Nat.two_pow_pos bits
  rw [decrement, Nat.zero_add, Nat.mod_eq_of_lt (by omega)]

/-- The loop stops at the greatest index in use below `i`, or goes below zero. -/
theorem lowerTop_spec (hbits : n < 2 ^ bits) {i : Nat} (hi : i ≤ n) :
    ∃ top, t.lowerTop bits i (decrement bits i) = .ok top ∧
      ((∃ fd, t.InUse fd ∧ fd.val < i ∧ top = fd ∧
          ∀ other, t.InUse other → other.val < i → other ≤ fd) ∨
        (∀ fd, t.InUse fd → i ≤ fd.val) ∧ top = 2 ^ bits - 1) := by
  induction i with
  | zero => exact ⟨_, rfl, Or.inr ⟨by simp, decrement_zero⟩⟩
  | succ i ih =>
    have hlt : i < n := hi
    rw [lowerTop, dif_pos hlt, decrement_succ i (hlt.trans hbits)]
    split_ifs with hin
    · refine ⟨i, rfl, Or.inl ⟨⟨i, hlt⟩, hin, Nat.lt_succ_self i, rfl, ?_⟩⟩
      exact fun other _ hother => Nat.le_of_lt_succ hother
    · have hne : ∀ fd : Fin n, t.InUse fd → fd.val ≠ i := by
        rintro fd hfd rfl
        exact hin hfd
      obtain ⟨top, hlower, hcases⟩ := ih hlt.le
      refine ⟨top, hlower, ?_⟩
      rcases hcases with ⟨fd, hfd, hfdlt, rfl, hgreatest⟩ | ⟨hnone, rfl⟩
      · refine Or.inl ⟨fd, hfd, hfdlt.trans (Nat.lt_succ_self i), rfl, fun other hother hlt' => ?_⟩
        exact hgreatest other hother (lt_of_le_of_ne (Nat.le_of_lt_succ hlt') (hne other hother))
      · refine Or.inr ⟨fun fd hfd => ?_, rfl⟩
        exact lt_of_le_of_ne (hnone fd hfd) (hne fd hfd).symm

/-- Freeing a slot is right exactly if it is not the last one in use. -/
theorem TopRight.release (h : t.TopRight) (hbits : n < 2 ^ bits) (hin : t.InUse fd) :
    ∃ t', t.release bits fd = .ok t' ∧ (t'.TopRight ↔ ∃ other, other ≠ fd ∧ t.InUse other) := by
  rw [release_eq]
  split_ifs with htop
  · have hdec : decrement bits (fd.val + 1) = t.top := by
      rw [decrement_succ fd.val (fd.isLt.trans hbits), htop]
    obtain ⟨top, hlower, hcases⟩ := lowerTop_spec (t := t.clear fd) hbits fd.isLt
    rw [hdec, ← htop] at hlower
    refine ⟨⟨(t.clear fd).record, top⟩, by rw [hlower]; rfl, ?_⟩
    -- whatever the new `fd_table_top` is, the slots in use are those of `t.clear fd`
    have hsame : ∀ other, InUse ⟨(t.clear fd).record, top⟩ other ↔ other ≠ fd ∧ t.InUse other :=
      fun other => inUse_clear
    have hbelow : ∀ other, t.InUse other → other.val < fd.val + 1 := by
      intro other hother
      have := h.le other hother
      omega
    rcases hcases with ⟨greatest, hgreatest, -, rfl, hmax⟩ | ⟨hnone, rfl⟩
    · obtain ⟨hne, hused⟩ := inUse_clear.mp hgreatest
      refine iff_of_true
        ⟨fun other hother => ?_, Or.inl ⟨greatest, (hsame _).mpr ⟨hne, hused⟩, rfl⟩⟩
        ⟨greatest, hne, hused⟩
      obtain ⟨hother', hused'⟩ := (hsame other).mp hother
      exact hmax other (inUse_clear.mpr ⟨hother', hused'⟩) (hbelow other hused')
    · have hempty : ∀ other, other ≠ fd → ¬t.InUse other := by
        intro other hne hother
        have hge := hnone other (inUse_clear.mpr ⟨hne, hother⟩)
        have hlt := hbelow other hother
        omega
      constructor
      · intro hright
        rcases hright.attained with ⟨other, hother, -⟩ | ⟨hzero, -⟩
        · exact ⟨other, (hsame other).mp hother⟩
        · have hpos := fd.isLt
          simp only at hzero
          omega
      · rintro ⟨other, hne, hother⟩
        exact absurd hother (hempty other hne)
  · refine ⟨t.clear fd, rfl, ?_⟩
    rcases h.attained with ⟨greatest, hgreatest, hval⟩ | ⟨-, hnone⟩
    · have hne : greatest ≠ fd := by
        rintro rfl
        exact htop hval.symm
      refine iff_of_true ⟨fun other hother => h.le other (inUse_clear.mp hother).2, ?_⟩
        ⟨greatest, hne, hgreatest⟩
      exact Or.inl ⟨greatest, inUse_clear.mpr ⟨hne, hgreatest⟩, hval⟩
    · exact absurd hin (hnone fd)

end Free

/-! ## One call -/

/-- The answer is the first free slot, or minus one if there is none. -/
def LeastFree (t : FdTable n) (answer : FdAnswer) : Prop :=
  (∃ fd, ¬t.InUse fd ∧ (∀ other, ¬t.InUse other → fd ≤ other) ∧ answer = .fd fd) ∨
    (∀ fd, t.InUse fd) ∧ answer = .fd (-1)

/-- A call stays in the table and leaves `fd_table_top` right, and `alloc_fd` answers what it
    should. -/
structure CallRight (bits : Nat) (t : FdTable n) (c : FdCall) : Prop where
  inRange : t.call bits c ≠ .error .outOfRange
  topRight : ∀ t' answer, t.call bits c = .ok (t', answer) → t'.TopRight
  leastFree : ∀ path extfd driver t' answer, c = .allocFd path extfd driver →
    t.call bits c = .ok (t', answer) → t.LeastFree answer

/-- A descriptor can be stored without raising `fd_table_top` to a slot that is not in use. -/
def CanStore (t : FdTable n) (extfd : Int) : Prop :=
  0 ≤ extfd ∨ ∀ fd, t.freeSlot = some fd → fd.val ≤ t.top

/-- What has to be the case before a call. -/
def Careful (t : FdTable n) : FdCall → Prop
  | .initFd => t.top ≤ 2
  | .allocFd _ extfd _ => t.CanStore extfd
  | .freeFd fd =>
    fd ≠ n ∧ ∀ slot : Fin n, fd = slot.val → t.InUse slot → ∃ other, other ≠ slot ∧ t.InUse other
  | .allocDirp _ _ extfd _ => t.CanStore extfd
  | .freeDirp _ => True
  | .resolve fd => fd ≠ n
  | .resolveDirp _ => True

instance {extfd : Int} : Decidable (t.CanStore extfd) :=
  inferInstanceAs (Decidable (_ ∨ ∀ _, _ → _))

instance {c : FdCall} : Decidable (t.Careful c) := by
  cases c <;> dsimp only [Careful] <;> infer_instance

section Calls

variable {c : FdCall} {answer : FdAnswer}

theorem leastFree_allocFd (path : Option CString) (extfd : Int) (driver : DriverPtr) :
    t.LeastFree (.fd (t.allocFd path extfd driver).2) := by
  unfold allocFd
  cases hslot : t.freeSlot with
  | none => exact Or.inr ⟨freeSlot_eq_none.mp hslot, rfl⟩
  | some fd =>
    obtain ⟨hfree, hleast⟩ := freeSlot_eq_some.mp hslot
    exact Or.inl ⟨fd, hfree, hleast, rfl⟩

/-- All that can go wrong with a call that returns is `fd_table_top`. -/
theorem callRight_iff_of_ok (h : t.call bits c = .ok (t', answer)) :
    t.CallRight bits c ↔ t'.TopRight := by
  refine ⟨fun hright => hright.topRight t' answer h, fun htop => ⟨by simp [h], ?_, ?_⟩⟩
  · intro t₁ answer₁ h₁
    rw [h] at h₁
    cases h₁
    exact htop
  · rintro path extfd driver t₁ answer₁ rfl h₁
    cases h₁
    exact leastFree_allocFd path extfd driver

theorem not_callRight_of_error (h : t.call bits c = .error .outOfRange) :
    ¬t.CallRight bits c :=
  fun hright => hright.inRange h

/-- After `init_fd` the standard descriptors are in use. -/
theorem initFd_topRight (hn : 3 ≤ n) : ∃ t', t.initFd = .ok t' ∧ (t'.TopRight ↔ t.top ≤ 2) := by
  refine ⟨_, if_neg (not_lt.mpr hn), ?_⟩
  have hin : ∀ fd : Fin n, InUse ⟨fun fd => if fd.val < 3 then .standard fd else .free, max t.top 2⟩
      fd ↔ fd.val < 3 := by
    intro fd
    by_cases hfd : fd.val < 3 <;> simp [InUse, hfd, FdRecord.standard, FdRecord.free]
  constructor
  · intro htop
    rcases htop.attained with ⟨fd, hfd, hval⟩ | ⟨hzero, -⟩
    · have hlt := (hin fd).mp hfd
      have hmax := le_max_left t.top 2
      simp only at hval
      omega
    · simp at hzero
  · intro hle
    have hmax : max t.top 2 = 2 := max_eq_right hle
    refine ⟨fun fd hfd => ?_, Or.inl ⟨⟨2, hn⟩, (hin _).mpr (Nat.lt_succ_self 2), hmax.symm⟩⟩
    have hlt := (hin fd).mp hfd
    simp only [hmax]
    omega

theorem TopRight.storeFirst_iff (h : t.TopRight) {extfd : Int} (r : Fin n → FdRecord)
    (hr : ∀ fd, (r fd).extfd = extfd) :
    (t.freeSlot.elim t fun fd => t.store fd (r fd)).TopRight ↔ t.CanStore extfd := by
  unfold CanStore
  cases hslot : t.freeSlot with
  | none => simp [h]
  | some fd =>
    rw [Option.elim_some, h.store_iff (freeSlot_eq_some.mp hslot).1, hr]
    simp

theorem TopRight.top_le (h : t.TopRight) : t.top ≤ n := by
  rcases h.attained with ⟨fd, -, hval⟩ | ⟨hzero, -⟩
  · rw [← hval]
    exact fd.isLt.le
  · simp [hzero]

/-- `free_dirp` stops before `fd_table_top`, so it never frees the last slot in use. -/
theorem TopRight.freeDirp (h : t.TopRight) (hbits : n < 2 ^ bits) (dirp : DirPtr) :
    ∃ t', t.freeDirp bits dirp = .ok t' ∧ t'.TopRight := by
  obtain ⟨found, hsearch⟩ := searchDirp_ok t dirp t.top 0 (Or.inl (by simpa using h.top_le))
  unfold FdTable.freeDirp
  rw [hsearch]
  cases found with
  | none => exact ⟨t, rfl, h⟩
  | some fd =>
    by_cases hneg : (t.record fd).extfd < 0
    · exact ⟨t, if_pos hneg, h⟩
    · have hin : t.InUse fd := not_lt.mp hneg
      obtain ⟨t', hrelease, htop⟩ := h.release hbits hin
      refine ⟨t', (if_neg hneg).trans hrelease, htop.mpr ?_⟩
      obtain ⟨-, hlt, -⟩ := (searchDirp_spec hsearch).mp rfl
      rcases h.attained with ⟨greatest, hgreatest, hval⟩ | ⟨-, hnone⟩
      · refine ⟨greatest, ?_, hgreatest⟩
        rintro rfl
        omega
      · exact absurd hin (hnone fd)

theorem callRight_iff_of_void {x : Except IoFault (FdTable n)} (hx : x = .ok t')
    (hcall : t.call bits c = do return (← x, .done)) : t.CallRight bits c ↔ t'.TopRight := by
  subst hx
  exact callRight_iff_of_ok hcall

theorem TopRight.callRight_freeFd_iff (h : t.TopRight) (hbits : n < 2 ^ bits) (fd : Int) :
    t.CallRight bits (.freeFd fd) ↔ t.Careful (.freeFd fd) := by
  rcases int_cases n fd with houtside | rfl | ⟨slot, rfl⟩
  · refine (callRight_iff_of_void (freeFd_of_outside houtside) rfl).trans (iff_of_true h ⟨?_, ?_⟩)
    · omega
    · intro slot hslot
      have := slot.isLt
      omega
  · refine iff_of_false (not_callRight_of_error ?_) fun hcareful => hcareful.1 rfl
    rw [call, freeFd_size]
    rfl
  · have hslot := slot.isLt
    have hcareful : t.Careful (.freeFd slot.val) ↔
        (t.InUse slot → ∃ other, other ≠ slot ∧ t.InUse other) := by
      constructor
      · intro hcareful
        exact hcareful.2 slot rfl
      · refine fun hother => ⟨by omega, fun slot' heq hin => ?_⟩
        obtain rfl : slot = slot' := Fin.ext (by omega)
        exact hother hin
    rw [hcareful]
    by_cases hin : t.InUse slot
    · obtain ⟨t', hrelease, htop⟩ := h.release hbits hin
      rw [← if_pos (c := t.InUse slot) (t := t.release bits slot) (e := .ok t) hin,
        ← freeFd_slot] at hrelease
      rw [callRight_iff_of_void hrelease rfl, htop]
      simp [hin]
    · have hfree : t.freeFd bits slot.val = .ok t := by rw [freeFd_slot, if_neg hin]
      exact (callRight_iff_of_void hfree rfl).trans (iff_of_true h fun hin' => absurd hin' hin)

/-- A call from a table that is right is right exactly if it is careful. -/
theorem TopRight.callRight_iff (h : t.TopRight) (hn : 3 ≤ n) (hbits : n < 2 ^ bits) :
    t.CallRight bits c ↔ t.Careful c := by
  cases c with
  | initFd =>
    obtain ⟨t', hinit, htop⟩ := initFd_topRight (t := t) hn
    exact (callRight_iff_of_void hinit rfl).trans htop
  | allocFd path extfd driver =>
    rw [callRight_iff_of_ok (call_allocFd t bits path extfd driver), allocFd_fst]
    exact h.storeFirst_iff _ fun _ => rfl
  | freeFd fd => exact h.callRight_freeFd_iff hbits fd
  | allocDirp path extdirp extfd driver =>
    rw [callRight_iff_of_ok (call_allocDirp t bits path extdirp extfd driver), allocDirp_fst]
    exact h.storeFirst_iff _ fun _ => rfl
  | freeDirp dirp =>
    obtain ⟨t', hfree, htop⟩ := h.freeDirp hbits dirp
    exact (callRight_iff_of_void hfree rfl).trans (iff_of_true htop trivial)
  | resolve fd =>
    rcases int_cases n fd with houtside | rfl | ⟨slot, rfl⟩
    · have hcall : t.call bits (.resolve fd) = .ok (t, .found false) := by
        rw [call, resolve_of_outside houtside]
        rfl
      refine (callRight_iff_of_ok hcall).trans (iff_of_true h ?_)
      show fd ≠ n
      omega
    · refine iff_of_false (not_callRight_of_error ?_) fun hcareful => hcareful rfl
      rw [call, resolve_size]
      rfl
    · have hcall : t.call bits (.resolve slot.val) = .ok (t, .found true) := by
        rw [call, resolve_slot]
        rfl
      refine (callRight_iff_of_ok hcall).trans (iff_of_true h ?_)
      have hslot := slot.isLt
      show (slot.val : Int) ≠ n
      omega
  | resolveDirp dirp => exact (callRight_iff_of_ok rfl).trans (iff_of_true h trivial)

end Calls

/-! ## Every run -/

section Zero

theorem not_topRight_zero (hn : 3 ≤ n) : ¬(zero : FdTable n).TopRight := by
  intro htop
  have hin : (zero : FdTable n).InUse ⟨2, hn⟩ := by simp [InUse, zero, FdRecord.zero]
  exact absurd (htop.le _ hin) (by simp [zero])

/-- Before `init_fd` all slots are in use, and freeing one takes `fd_table_top` below zero or leaves
    it there. -/
theorem not_topRight_release_zero (hn : 3 ≤ n) (hbits : n < 2 ^ bits)
    (hrelease : (zero : FdTable n).release bits fd = .ok t') : ¬t'.TopRight := by
  have hin : ∀ other, ((zero : FdTable n).clear fd).InUse other ↔ other ≠ fd := by
    intro other
    rw [inUse_clear]
    simp [InUse, zero, FdRecord.zero]
  have htwo : ∃ other, ((zero : FdTable n).clear fd).InUse other ∧ 0 < other.val := by
    by_cases hfd : fd.val = 1
    · refine ⟨⟨2, hn⟩, (hin _).mpr fun heq => ?_, Nat.zero_lt_two⟩
      simp [← heq] at hfd
    · refine ⟨⟨1, by omega⟩, (hin _).mpr fun heq => ?_, Nat.zero_lt_one⟩
      simp [← heq] at hfd
  obtain ⟨other, hother, hpos⟩ := htwo
  intro htop
  rw [release_eq] at hrelease
  split_ifs at hrelease with hzero
  · obtain ⟨top, hlower, heq⟩ := bind_eq_ok.mp hrelease
    cases heq
    obtain ⟨top', hlower', hcases⟩ :=
      lowerTop_spec (t := (zero : FdTable n).clear fd) hbits (i := 1) (by omega)
    rw [decrement_succ 0 (by omega)] at hlower'
    obtain rfl : top = top' := Except.ok.inj (hlower.symm.trans hlower')
    rcases hcases with ⟨greatest, hgreatest, hlt, -⟩ | ⟨-, rfl⟩
    · exact (hin greatest).mp hgreatest (Fin.ext (by rw [← hzero]; exact Nat.lt_one_iff.mp hlt))
    · rcases htop.attained with ⟨slot, -, hval⟩ | ⟨-, hnone⟩
      · have := slot.isLt
        simp only at hval
        omega
      · exact hnone other hother
  · cases hrelease
    have hle : other.val ≤ 0 := htop.le other hother
    omega

theorem eq_initFd_of_callRight_zero {c : FdCall} (hn : 3 ≤ n) (hbits : n < 2 ^ bits)
    (h : (zero : FdTable n).CallRight bits c) : c = .initFd := by
  have hnone : (zero : FdTable n).freeSlot = none := by
    rw [freeSlot_eq_none]
    simp [InUse, zero, FdRecord.zero]
  -- all but `free_fd` leave the table as it is, or fail
  have hsame : ∀ answer, (zero : FdTable n).call bits c ≠ .ok (zero, answer) := by
    intro answer hcall
    exact not_topRight_zero hn (h.topRight _ _ hcall)
  cases c with
  | initFd => rfl
  | allocFd path extfd driver =>
    refine absurd ?_ (hsame (.fd (-1)))
    simp [call, allocFd, hnone]
  | freeFd fd =>
    rcases int_cases n fd with houtside | rfl | ⟨slot, rfl⟩
    · refine absurd ?_ (hsame .done)
      rw [call, freeFd_of_outside houtside]
      rfl
    · refine absurd ?_ h.inRange
      rw [call, freeFd_size]
      rfl
    · have hin : (zero : FdTable n).InUse slot := by simp [InUse, zero, FdRecord.zero]
      have hcall : (zero : FdTable n).call bits (.freeFd slot.val) =
          do return (← zero.release bits slot, .done) := by
        rw [call, freeFd_slot, if_pos hin]
      obtain ⟨t', hrelease, -⟩ := release_record (zero : FdTable n) bits slot
      rw [hrelease] at hcall
      exact absurd (h.topRight _ _ hcall) (not_topRight_release_zero hn hbits hrelease)
  | allocDirp path extdirp extfd driver =>
    refine absurd ?_ (hsame (.dirp 0))
    simp [call, allocDirp, hnone]
  | freeDirp dirp => exact absurd rfl (hsame .done)
  | resolve fd =>
    rcases int_cases n fd with houtside | rfl | ⟨slot, rfl⟩
    · refine absurd ?_ (hsame (.found false))
      rw [call, resolve_of_outside houtside]
      rfl
    · refine absurd ?_ h.inRange
      rw [call, resolve_size]
      rfl
    · refine absurd ?_ (hsame (.found true))
      rw [call, resolve_slot]
      rfl
  | resolveDirp dirp => exact absurd rfl (hsame _)

end Zero

/-- A call of a run that is right so far leaves `fd_table_top` right. -/
theorem topRight_of_run {front : List FdCall} {answers : List FdAnswer} {t : FdTable n}
    (hright : ∀ before c, before ++ [c] <+: front → ∀ answers t,
      runActions (step bits) (zero : FdTable n) before = some (answers, t) → t.CallRight bits c)
    (hrun : runActions (step bits) (zero : FdTable n) front = some (answers, t))
    (hne : front ≠ []) : t.TopRight := by
  obtain ⟨before, c, rfl⟩ := eq_nil_or_concat front |>.resolve_left hne
  rw [concat_eq_append] at hrun hright
  obtain ⟨answers', t₁, answer, hbefore, hstep, -⟩ := runActions_concat.mp hrun
  exact (hright before c (prefix_refl _) _ _ hbefore).topRight _ _ (eq_ok_of_toOption hstep)

/-- From the table as it is before `init_fd`, every call stays in the table, leaves `fd_table_top`
    at the greatest index in use and, if it is `alloc_fd`, answers the first free slot, exactly if
    `init_fd` comes first and all calls are careful. -/
theorem callRight_iff_careful (hn : 3 ≤ n) (hbits : n < 2 ^ bits) (calls : List FdCall) :
    (∀ front c, front ++ [c] <+: calls → ∀ answers t,
      runActions (step bits) (zero : FdTable n) front = some (answers, t) → t.CallRight bits c) ↔
    ∀ front c, front ++ [c] <+: calls → (front = [] → c = .initFd) ∧ ∀ answers t,
      runActions (step bits) (zero : FdTable n) front = some (answers, t) → t.Careful c := by
  constructor
  · intro hright front c hbegins
    have hfirst : front = [] → c = .initFd := by
      rintro rfl
      exact eq_initFd_of_callRight_zero hn hbits (hright [] c hbegins [] zero rfl)
    refine ⟨hfirst, fun answers t hrun => ?_⟩
    rcases eq_or_ne front [] with rfl | hne
    · cases hrun
      rw [hfirst rfl]
      exact Nat.zero_le 2
    · have hbefore : front <+: calls := (prefix_append front [c]).trans hbegins
      have htop := topRight_of_run (fun before c' h => hright before c' (h.trans hbefore)) hrun hne
      exact (htop.callRight_iff hn hbits).mp (hright front c hbegins answers t hrun)
  · intro hcareful front
    -- what is right so far is right with one call more
    induction front using List.reverseRecOn with
    | nil =>
      intro c hbegins answers t hrun
      cases hrun
      rw [(hcareful [] c hbegins).1 rfl]
      obtain ⟨t', hinit, htop⟩ := initFd_topRight (t := (zero : FdTable n)) hn
      exact (callRight_iff_of_void hinit rfl).mpr (htop.mpr (Nat.zero_le 2))
    | append_singleton front last ih =>
      intro c hbegins answers t hrun
      have hbefore : front ++ [last] <+: calls := (prefix_append _ [c]).trans hbegins
      obtain ⟨answers', t₁, answer, hfront, hstep, -⟩ := runActions_concat.mp hrun
      have htop := (ih last hbefore answers' t₁ hfront).topRight _ _ (eq_ok_of_toOption hstep)
      exact (htop.callRight_iff hn hbits).mpr ((hcareful _ c hbegins).2 answers t hrun)

/-- A file and a directory are opened, and the directory is closed. -/
def openAndClosedir : List FdCall :=
  [.initFd, .allocFd none 7 .system, .allocDirp none 100 8 .system, .freeDirp (dirpOf 4)]

theorem callRight_openAndClose :
    ∃ answers t, runActions (step 32) (zero : FdTable 8) openAndClosedir = some (answers, t) ∧
      t.InUse 3 ∧ t.CallRight 32 (.freeFd 3) := by
  have hend : ∃ answers t,
      runActions (step 32) (zero : FdTable 8) openAndClosedir = some (answers, t) ∧ t.InUse 3 :=
    exists_runActions_iff.mpr (by decide +kernel)
  obtain ⟨answers, t, hrun, hin⟩ := hend
  refine ⟨answers, t, hrun, hin, ?_⟩
  refine (callRight_iff_careful (by decide) (by decide) (openAndClosedir ++ [.freeFd 3])).mpr ?_
    openAndClosedir (.freeFd 3) (prefix_refl _) answers t hrun
  simp only [openAndClosedir, cons_append, nil_append, forall_concat_prefix_cons,
    forall_concat_prefix_nil, forall_of_runActions_iff]
  decide +kernel

/-- The standard descriptors are closed, and nothing else is open: `fd_table_top` is then the
    greatest integer there is. The size of the table is accepted as a descriptor. -/
theorem top_below_zero :
    ∃ answers t, runActions (step 32) (zero : FdTable 8)
        [.initFd, .freeFd 0, .freeFd 1, .freeFd 2] = some (answers, t) ∧
      (∀ fd, ¬t.InUse fd) ∧ t.top = 2 ^ 32 - 1 ∧ t.resolve 8 = .error .outOfRange := by
  rw [exists_runActions_iff]
  decide +kernel

end CrystaxNdk.Vfs.FdTable
