import CrystaxNdk.CrazyLinker.ElfLoader

/-!
# Where the segments go

`phdr_table_get_load_size` computes the reservation from the program header table in one loop,
`LoadSegments` computes the maps from it in another. The first half relates the two: a segment
that does not overflow lies, with all its pages, in the range that was reserved, at a constant
distance from its `p_vaddr`. The second half follows the operations of one segment: they touch
its own pages only, and they leave its image there.
-/

namespace CrystaxNdk.CrazyLinker

open Lib List

variable {a : Arch}

/-! ## The load size -/

structure Extent.Covers (e : Extent a) (phdr : Phdr a) : Prop where
  min_le : e.minVaddr.toNat ≤ phdr.pVaddr.toNat
  le_max : (phdr.pVaddr + phdr.pMemsz).toNat ≤ e.maxVaddr.toNat
  found : e.foundPtLoad = true

theorem Extent.Covers.add {e : Extent a} {phdr : Phdr a} (h : e.Covers phdr) (next : Phdr a) :
    (e.add next).Covers phdr := by
  obtain ⟨hmin, hmax, hfound⟩ := h
  unfold Extent.add
  split
  · exact ⟨hmin, hmax, hfound⟩
  · refine ⟨?_, ?_, rfl⟩
    · dsimp only
      split
      next hlt =>
        rw [BitVec.lt_def] at hlt
        omega
      next => exact hmin
    · dsimp only
      split
      next hlt =>
        rw [gt_iff_lt, BitVec.lt_def] at hlt
        omega
      next => exact hmax

theorem Extent.covers_add (e : Extent a) {phdr : Phdr a} (h : phdr.pType = PT_LOAD) :
    (e.add phdr).Covers phdr := by
  unfold Extent.add
  rw [if_neg (not_not.mpr h)]
  refine ⟨?_, ?_, rfl⟩
  · dsimp only
    split
    next => exact Nat.le_refl _
    next hlt =>
      rw [BitVec.lt_def] at hlt
      omega
  · dsimp only
    split
    next => exact Nat.le_refl _
    next hlt =>
      rw [gt_iff_lt, BitVec.lt_def] at hlt
      omega

theorem Extent.covers_foldl {table : List (Phdr a)} {phdr : Phdr a} (hload : phdr.pType = PT_LOAD)
    (e : Extent a) (h : e.Covers phdr ∨ phdr ∈ table) : (table.foldl Extent.add e).Covers phdr := by
  induction table generalizing e with
  | nil => exact h.resolve_right not_mem_nil
  | cons next table ih =>
    rw [foldl_cons]
    apply ih
    rcases h with hcov | hmem
    · exact .inl (hcov.add next)
    · rcases mem_cons.mp hmem with rfl | hmem
      · exact .inl (e.covers_add hload)
      · exact .inr hmem

/-- The pages of a segment, before it is moved: from the one `p_vaddr` is on, also if the
    segment is empty. -/
def Phdr.pagesStart (phdr : Phdr a) : Nat := pageFloor phdr.pVaddr.toNat

def Phdr.pagesEnd (phdr : Phdr a) : Nat := pageCeil (phdr.pVaddr.toNat + phdr.pMemsz.toNat)

theorem minVaddr_aligned (table : List (Phdr a)) :
    (phdrTableGetLoadSize table).minVaddr.toNat % 4096 = 0 := by
  unfold phdrTableGetLoadSize
  dsimp only
  rw [toNat_pageStart a.twelve_le_bits, pageFloor]
  omega

/-- The load size spans every segment that does not overflow, whatever the others do. -/
theorem loadSize_spans {table : List (Phdr a)} {phdr : Phdr a} (hmem : phdr ∈ table)
    (hload : phdr.pType = PT_LOAD)
    (hlt : phdr.pVaddr.toNat + phdr.pMemsz.toNat < 2 ^ (8 * a.wordBytes))
    (hsize : (phdrTableGetLoadSize table).size ≠ 0) :
    (phdrTableGetLoadSize table).minVaddr.toNat ≤ phdr.pagesStart ∧
      phdr.pagesEnd ≤ (phdrTableGetLoadSize table).minVaddr.toNat +
        (phdrTableGetLoadSize table).size.toNat := by
  have hcov := Extent.covers_foldl hload
    { minVaddr := ~~~ 0, maxVaddr := 0, foundPtLoad := false } (.inr hmem)
  revert hsize
  unfold phdrTableGetLoadSize
  dsimp only
  generalize table.foldl Extent.add _ = e at hcov
  obtain ⟨hmin, hmax, hfound⟩ := hcov
  rw [toNat_add_of_lt hlt] at hmax
  rw [hfound, if_pos rfl]
  intro hsize
  rw [toNat_pageEnd_sub_pageStart a.twelve_le_bits (by omega) hsize,
    toNat_pageStart a.twelve_le_bits]
  have hceil := pageCeil_mono hmax
  have hfloor := pageFloor_mono hmin
  unfold Phdr.pagesStart Phdr.pagesEnd
  omega

/-! ## The reservation -/

/-- What `ReserveAddressSpace` leaves behind. -/
structure Reservation.For (r : Reservation a) (table : List (Phdr a)) : Prop where
  size_eq : r.loadSize = (phdrTableGetLoadSize table).size
  size_ne : r.loadSize ≠ 0
  bias_eq : r.loadBias = r.loadStart - (phdrTableGetLoadSize table).minVaddr
  start_ne : r.loadStart ≠ 0
  start_aligned : r.loadStart.toNat % 4096 = 0
  end_lt : r.loadStart.toNat + r.loadSize.toNat < 2 ^ (8 * a.wordBytes)

theorem reserveAddressSpace_for {kernel : Kernel a} {table : List (Phdr a)}
    {wantedAddress : Addr a} {r : Reservation a}
    (h : reserveAddressSpace kernel table wantedAddress = .ok r) : r.For table := by
  unfold reserveAddressSpace at h
  dsimp only at h
  split at h
  · cases h
  next hne =>
    split at h
    · cases h
    next start hstart =>
      cases h
      obtain ⟨haligned, hnull, -, hend⟩ := kernel.reserve_spec _ _ _ _ hstart
      have hceil := le_pageCeil (phdrTableGetLoadSize table).size.toNat
      exact ⟨rfl, hne, rfl, hnull, haligned, by dsimp only; omega⟩

namespace Reservation.For

variable {r : Reservation a} {table : List (Phdr a)} {phdr : Phdr a}

section

variable (h : r.For table) (hmem : phdr ∈ table) (hload : phdr.pType = PT_LOAD)
  (hlt : phdr.pVaddr.toNat + phdr.pMemsz.toNat < 2 ^ (8 * a.wordBytes))

include h hmem hload hlt

theorem segStart :
    (phdr.pVaddr + r.loadBias).toNat + (phdrTableGetLoadSize table).minVaddr.toNat =
      r.loadStart.toNat + phdr.pVaddr.toNat := by
  obtain ⟨hmin, hmax⟩ := loadSize_spans hmem hload hlt (h.size_eq ▸ h.size_ne)
  have hfloor := pageFloor_le phdr.pVaddr.toNat
  have hceil := le_pageCeil (phdr.pVaddr.toNat + phdr.pMemsz.toNat)
  have hend := h.end_lt
  rw [h.size_eq] at hend
  unfold Phdr.pagesStart at hmin
  unfold Phdr.pagesEnd at hmax
  rw [h.bias_eq, toNat_rebase (by omega) (by omega)]
  omega

theorem pagesStart :
    pageFloor (phdr.pVaddr + r.loadBias).toNat + (phdrTableGetLoadSize table).minVaddr.toNat =
      r.loadStart.toNat + phdr.pagesStart := by
  have hstart := h.segStart hmem hload hlt
  have hmin := minVaddr_aligned table
  calc _ = pageFloor ((phdrTableGetLoadSize table).minVaddr.toNat +
        (phdr.pVaddr + r.loadBias).toNat) := by rw [pageFloor_add hmin, Nat.add_comm]
    _ = pageFloor (r.loadStart.toNat + phdr.pVaddr.toNat) := by rw [Nat.add_comm, hstart]
    _ = _ := pageFloor_add h.start_aligned

theorem pagesEnd :
    pageCeil ((phdr.pVaddr + r.loadBias).toNat + phdr.pMemsz.toNat) +
        (phdrTableGetLoadSize table).minVaddr.toNat = r.loadStart.toNat + phdr.pagesEnd := by
  have hstart := h.segStart hmem hload hlt
  have hmin := minVaddr_aligned table
  calc _ = pageCeil ((phdrTableGetLoadSize table).minVaddr.toNat +
        ((phdr.pVaddr + r.loadBias).toNat + phdr.pMemsz.toNat)) := by
          rw [pageCeil_add hmin, Nat.add_comm]
    _ = pageCeil (r.loadStart.toNat + (phdr.pVaddr.toNat + phdr.pMemsz.toNat)) := by
          congr 1
          omega
    _ = _ := pageCeil_add h.start_aligned

theorem pages_within :
    r.loadStart.toNat ≤ pageFloor (phdr.pVaddr + r.loadBias).toNat ∧
      pageCeil ((phdr.pVaddr + r.loadBias).toNat + phdr.pMemsz.toNat) ≤
        r.loadStart.toNat + r.loadSize.toNat := by
  obtain ⟨hmin, hmax⟩ := loadSize_spans hmem hload hlt (h.size_eq ▸ h.size_ne)
  have hstart := h.pagesStart hmem hload hlt
  have hend := h.pagesEnd hmem hload hlt
  rw [h.size_eq]
  omega

end

end Reservation.For

/-! ## The operations of one segment -/

/-- The operation touches nothing outside the addresses from `lo` to `hi`. -/
def MapOp.Within (lo hi : Nat) (op : MapOp a) : Prop :=
  lo ≤ op.addr.toNat ∧ op.addr.toNat + op.extent ≤ hi

instance (lo hi : Nat) (op : MapOp a) : Decidable (op.Within lo hi) :=
  inferInstanceAs (Decidable (_ ∧ _))

theorem MapOp.Within.mono {lo hi lo' hi' : Nat} {op : MapOp a} (h : op.Within lo hi)
    (hlo : lo' ≤ lo) (hhi : hi ≤ hi') : op.Within lo' hi' :=
  ⟨hlo.trans h.1, h.2.trans hhi⟩

theorem MapOp.Within.not_inRange {lo hi : Nat} {op : MapOp a} (h : op.Within lo hi)
    (hhi : hi ≤ 2 ^ (8 * a.wordBytes)) {x : Addr a} (hx : x.toNat < lo ∨ hi ≤ x.toNat) :
    ¬ InRange op.addr op.extent x := by
  obtain ⟨hstart, hend⟩ := h
  rw [inRange_iff (by omega)]
  omega

/-- What `LoadSegments` relies on for one segment, once it is moved. -/
structure Seated (loadBias : Addr a) (phdr : Phdr a) : Prop where
  filesz_le : phdr.pFilesz.toNat ≤ phdr.pMemsz.toNat
  congruent : phdr.pOffset.toNat % 4096 = (phdr.pVaddr + loadBias).toNat % 4096
  end_lt : pageCeil ((phdr.pVaddr + loadBias).toNat + phdr.pMemsz.toNat) < 2 ^ (8 * a.wordBytes)

namespace Seated

variable {loadBias : Addr a} {phdr : Phdr a} (h : Seated loadBias phdr)

include h

theorem fileLength : (phdr.pOffset + phdr.pFilesz - pageStart phdr.pOffset).toNat =
    (phdr.pVaddr + loadBias).toNat % 4096 + phdr.pFilesz.toNat := by
  obtain ⟨hfilesz, hcong, hlt⟩ := h
  have hceil := le_pageCeil ((phdr.pVaddr + loadBias).toNat + phdr.pMemsz.toNat)
  have hmod := Nat.mod_le (phdr.pVaddr + loadBias).toNat 4096
  have hoff := toNat_pageOffset a.twelve_le_bits phdr.pOffset
  have heq : phdr.pOffset + phdr.pFilesz - pageStart phdr.pOffset =
      pageOffset phdr.pOffset + phdr.pFilesz := by
    rw [BitVec.sub_eq_iff_eq_add, BitVec.add_assoc, BitVec.add_comm phdr.pFilesz,
      ← BitVec.add_assoc, BitVec.add_comm (pageOffset _), pageStart_add_pageOffset]
  rw [heq, toNat_add_of_lt (by omega), hoff, hcong]

theorem segEnd : (phdr.pVaddr + loadBias + phdr.pMemsz).toNat =
    (phdr.pVaddr + loadBias).toNat + phdr.pMemsz.toNat := by
  have hceil := le_pageCeil ((phdr.pVaddr + loadBias).toNat + phdr.pMemsz.toNat)
  exact toNat_add_of_lt (hceil.trans_lt h.end_lt)

theorem segFileEnd : (phdr.pVaddr + loadBias + phdr.pFilesz).toNat =
    (phdr.pVaddr + loadBias).toNat + phdr.pFilesz.toNat := by
  have hceil := le_pageCeil ((phdr.pVaddr + loadBias).toNat + phdr.pMemsz.toNat)
  have hfilesz := h.filesz_le
  have hlt := h.end_lt
  exact toNat_add_of_lt (by omega)

theorem segPageEnd : (pageEnd (phdr.pVaddr + loadBias + phdr.pMemsz)).toNat =
    pageCeil ((phdr.pVaddr + loadBias).toNat + phdr.pMemsz.toNat) := by
  rw [toNat_pageEnd_of_lt a.twelve_le_bits, h.segEnd]
  rw [h.segEnd]
  exact h.end_lt

theorem filePages_le : pageCeil ((phdr.pVaddr + loadBias).toNat + phdr.pFilesz.toNat) ≤
    pageCeil ((phdr.pVaddr + loadBias).toNat + phdr.pMemsz.toNat) :=
  pageCeil_mono (Nat.add_le_add_left h.filesz_le _)

theorem segFilePageEnd : (pageEnd (phdr.pVaddr + loadBias + phdr.pFilesz)).toNat =
    pageCeil ((phdr.pVaddr + loadBias).toNat + phdr.pFilesz.toNat) := by
  rw [toNat_pageEnd_of_lt a.twelve_le_bits, h.segFileEnd]
  rw [h.segFileEnd]
  exact h.filePages_le.trans_lt h.end_lt

theorem tailLength (hoff : pageOffset (phdr.pVaddr + loadBias + phdr.pFilesz) > 0) :
    (4096 - pageOffset (phdr.pVaddr + loadBias + phdr.pFilesz)).toNat =
      pageCeil ((phdr.pVaddr + loadBias).toNat + phdr.pFilesz.toNat) -
        ((phdr.pVaddr + loadBias).toNat + phdr.pFilesz.toNat) := by
  have hpages := h.filePages_le.trans_lt h.end_lt
  have hmod := toNat_pageOffset a.twelve_le_bits (phdr.pVaddr + loadBias + phdr.pFilesz)
  rw [h.segFileEnd] at hmod
  rw [gt_iff_lt, BitVec.lt_def, hmod] at hoff
  have hpage : (4096 : Addr a).toNat = 4096 := by cases a <;> rfl
  rw [toNat_sub_of_le (by omega), hpage, hmod]
  unfold pageCeil
  have hzero : (0 : Addr a).toNat = 0 := BitVec.toNat_zero
  omega

/-- The anonymous map goes on from there to the last page of the segment. -/
theorem gapLength :
    pageCeil (pageEnd (phdr.pVaddr + loadBias + phdr.pMemsz) -
        pageEnd (phdr.pVaddr + loadBias + phdr.pFilesz)).toNat =
      pageCeil ((phdr.pVaddr + loadBias).toNat + phdr.pMemsz.toNat) -
        pageCeil ((phdr.pVaddr + loadBias).toNat + phdr.pFilesz.toNat) := by
  have hle := h.filePages_le
  rw [toNat_sub_of_le (by rw [h.segPageEnd, h.segFilePageEnd]; exact hle), h.segPageEnd,
    h.segFilePageEnd]
  unfold pageCeil
  omega

end Seated

theorem mem_ite_singleton {α : Type*} {c : Prop} [Decidable c] {x y : α}
    (h : x ∈ if c then [y] else []) : c ∧ x = y := by
  split at h
  next hc => exact ⟨hc, mem_singleton.mp h⟩
  next => exact absurd h not_mem_nil

theorem segmentOps_within {fileOffset loadBias : Addr a} {phdr : Phdr a}
    (h : Seated loadBias phdr) {op : MapOp a} (hop : op ∈ segmentOps fileOffset loadBias phdr) :
    op.Within (pageFloor (phdr.pVaddr + loadBias).toNat)
      (pageCeil ((phdr.pVaddr + loadBias).toNat + phdr.pMemsz.toNat)) := by
  have hfile := h.filePages_le
  have hfloor := pageFloor_le (phdr.pVaddr + loadBias).toNat
  have hceil := le_pageCeil ((phdr.pVaddr + loadBias).toNat + phdr.pFilesz.toNat)
  unfold segmentOps at hop
  simp only [mem_append] at hop
  rcases hop with (hop | hop) | hop
  · obtain ⟨-, rfl⟩ := mem_ite_singleton hop
    simp only [MapOp.Within, MapOp.addr, MapOp.extent, toNat_pageStart a.twelve_le_bits,
      h.fileLength]
    unfold pageFloor pageCeil at *
    omega
  · obtain ⟨hcond, rfl⟩ := mem_ite_singleton hop
    simp only [MapOp.Within, MapOp.addr, MapOp.extent, h.segFileEnd, h.tailLength hcond.2]
    omega
  · obtain ⟨hcond, rfl⟩ := mem_ite_singleton hop
    simp only [MapOp.Within, MapOp.addr, MapOp.extent, h.segFilePageEnd, h.gapLength]
    omega

/-! ## Running the operations -/

section Runs

variable {kernel : Kernel a} {file : File a} {fileOffset loadBias : Addr a}

theorem mem_performed_of_performOps {segment : Nat} {ops : List (MapOp a)} {mapping : Mapping a}
    {op : MapOp a} (h : op ∈ (performOps kernel file segment ops mapping).1.performed) :
    op ∈ mapping.performed ∨ op ∈ ops := by
  induction ops generalizing mapping with
  | nil => exact .inl h
  | cons next ops ih =>
    rw [performOps] at h
    split at h
    · exact .inl h
    · rcases ih h with hmem | hmem
      · rcases mem_append.mp hmem with hmem | hmem
        · exact .inl hmem
        · exact .inr (mem_singleton.mp hmem ▸ mem_cons_self)
      · exact .inr (mem_cons_of_mem next hmem)

theorem mem_performed_of_loadSegments {segment : Nat} {table : List (Phdr a)}
    {mapping : Mapping a} {op : MapOp a}
    (h : op ∈ (loadSegments kernel file fileOffset loadBias segment table mapping).1.performed) :
    op ∈ mapping.performed ∨
      ∃ phdr ∈ table, phdr.pType = PT_LOAD ∧ op ∈ segmentOps fileOffset loadBias phdr := by
  induction table generalizing segment mapping with
  | nil => exact .inl h
  | cons phdr table ih =>
    have hlift : (∃ phdr ∈ table, phdr.pType = PT_LOAD ∧
        op ∈ segmentOps fileOffset loadBias phdr) → ∃ other ∈ phdr :: table,
          other.pType = PT_LOAD ∧ op ∈ segmentOps fileOffset loadBias other := by
      rintro ⟨other, hmem, hother⟩
      exact ⟨other, mem_cons_of_mem phdr hmem, hother⟩
    rw [loadSegments] at h
    split at h
    next => exact (ih h).imp_right hlift
    next hload =>
      have hload : phdr.pType = PT_LOAD := not_not.mp hload
      have hops : op ∈ (performOps kernel file segment (segmentOps fileOffset loadBias phdr)
          mapping).1.performed → op ∈ mapping.performed ∨ ∃ other ∈ phdr :: table,
            other.pType = PT_LOAD ∧ op ∈ segmentOps fileOffset loadBias other := by
        intro hmem
        refine (mem_performed_of_performOps hmem).imp_right fun hmem => ?_
        exact ⟨phdr, mem_cons_self, hload, hmem⟩
      split at h
      next mapping' e heq =>
        rw [heq] at hops
        exact hops h
      next mapping' heq =>
        rw [heq] at hops
        rcases ih h with hmem | hmem
        · exact hops hmem
        · exact .inr (hlift hmem)

end Runs

/-! ## Small files -/

/-- A kernel that has one file and grants what it may. -/
def Kernel.granting (file : File a) (start : Addr a) : Kernel a where
  openReadOnly _ := .ok file
  seekTo _ := none
  read := none
  mapHeader _ _ := none
  reserve addr size fixed :=
    let start := if fixed then addr else start
    if start.toNat % 4096 = 0 ∧ start ≠ 0 ∧
        start.toNat + pageCeil size.toNat < 2 ^ (8 * a.wordBytes) then some start else none
  refuses _ op :=
    if op.addr.toNat % 4096 = 0 ∧ 0 < op.extent ∧
        op.addr.toNat + op.extent ≤ 2 ^ (8 * a.wordBytes) then none
    else some "Invalid argument".toList
  reserve_spec := by
    intro addr size fixed start' h
    obtain ⟨hok, heq⟩ := Option.ite_none_right_eq_some.mp h
    cases heq
    refine ⟨hok.1, hok.2.1, ?_, hok.2.2⟩
    intro hfixed
    rw [hfixed, if_pos rfl]
  refuses_spec := by
    intro i op h _
    split at h
    next hok => exact hok
    next => cases h

def leBytes (n v : Nat) : List Byte := (List.range n).map (leByte v)

def segment (offset vaddr filesz memsz : Addr a) (flags : BitVec 32) : Phdr a where
  pType := PT_LOAD
  pFlags := flags
  pOffset := offset
  pVaddr := vaddr
  pPaddr := vaddr
  pFilesz := filesz
  pMemsz := memsz
  pAlign := 0x1000

/-- A 32-bit shared library that is only its headers. -/
def elf32 (table : List (Phdr a)) : List Byte :=
  [0x7f, 0x45, 0x4c, 0x46, 1, 1, 1, 0, 0, 0, 0, 0, 0, 0, 0, 0] ++
  leBytes 2 3 ++ leBytes 2 a.machine.toNat ++ leBytes 4 1 ++
  -- `e_entry`, `e_phoff`, `e_shoff` and `e_flags`
  leBytes 4 0 ++ leBytes 4 52 ++ leBytes 4 0 ++ leBytes 4 0 ++
  leBytes 2 52 ++ leBytes 2 32 ++ leBytes 2 table.length ++
  leBytes 2 0 ++ leBytes 2 0 ++ leBytes 2 0 ++
  table.flatMap fun phdr =>
    leBytes 4 phdr.pType.toNat ++ leBytes 4 phdr.pOffset.toNat ++ leBytes 4 phdr.pVaddr.toNat ++
    leBytes 4 phdr.pPaddr.toNat ++ leBytes 4 phdr.pFilesz.toNat ++ leBytes 4 phdr.pMemsz.toNat ++
    leBytes 4 phdr.pFlags.toNat ++ leBytes 4 phdr.pAlign.toNat

def elf32File (table : List (Phdr .arm)) (h : (elf32 table).length < 2 ^ 31 := by decide) :
    File .arm := { bytes := elf32 table, size_lt := h }

/-- One segment, larger in memory than in the file. -/
def oneSegment : List (Phdr .arm) := [segment 0 0 84 0x1800 6]

/-! ## Containment -/

/-- The rules for a loadable segment that the comment in `linker_phdr.cpp` gives, and that its
    end is an address. -/
structure Phdr.Rules (phdr : Phdr a) : Prop where
  filesz_le : phdr.pFilesz.toNat ≤ phdr.pMemsz.toNat
  congruent : phdr.pOffset.toNat % 4096 = phdr.pVaddr.toNat % 4096
  end_lt : phdr.pVaddr.toNat + phdr.pMemsz.toNat < 2 ^ (8 * a.wordBytes)

instance (phdr : Phdr a) : Decidable phdr.Rules :=
  decidable_of_iff
    (phdr.pFilesz.toNat ≤ phdr.pMemsz.toNat ∧
      phdr.pOffset.toNat % 4096 = phdr.pVaddr.toNat % 4096 ∧
      phdr.pVaddr.toNat + phdr.pMemsz.toNat < 2 ^ (8 * a.wordBytes))
    ⟨fun h => ⟨h.1, h.2.1, h.2.2⟩, fun h => ⟨h.filesz_le, h.congruent, h.end_lt⟩⟩

theorem Reservation.For.seated {r : Reservation a} {table : List (Phdr a)} {phdr : Phdr a}
    (h : r.For table) (hmem : phdr ∈ table) (hload : phdr.pType = PT_LOAD) (hrules : phdr.Rules) :
    Seated r.loadBias phdr := by
  have hstart := h.segStart hmem hload hrules.end_lt
  have hpages := (h.pages_within hmem hload hrules.end_lt).2
  have hmin := minVaddr_aligned table
  have haligned := h.start_aligned
  refine ⟨hrules.filesz_le, ?_, hpages.trans_lt h.end_lt⟩
  rw [hrules.congruent]
  omega

/-- **Containment.** If the loadable segments follow the rules, every range that is mapped or
    cleared lies in the reserved one, also if a later map fails. -/
theorem loadSegments_within {kernel : Kernel a} {table : List (Phdr a)}
    {wantedAddress : Addr a} {r : Reservation a}
    (hreserve : reserveAddressSpace kernel table wantedAddress = .ok r)
    (hrules : ∀ phdr ∈ table, phdr.pType = PT_LOAD → phdr.Rules)
    (file : File a) (fileOffset : Addr a) (space : Space a) :
    ∀ op ∈ (loadSegments kernel file fileOffset r.loadBias 0 table
        { space, performed := [] }).1.performed,
      op.Within r.loadStart.toNat (r.loadStart.toNat + r.loadSize.toNat) := by
  intro op hop
  have hfor := reserveAddressSpace_for hreserve
  rcases mem_performed_of_loadSegments hop with hnil | ⟨phdr, hmem, hload, hop⟩
  · exact absurd hnil not_mem_nil
  · have hphdr := hrules phdr hmem hload
    obtain ⟨hlo, hhi⟩ := hfor.pages_within hmem hload hphdr.end_lt
    exact (segmentOps_within (hfor.seated hmem hload hphdr) hop).mono hlo hhi

theorem loadSegments_within_oneSegment :
    (∀ phdr ∈ oneSegment, phdr.pType = PT_LOAD → phdr.Rules) ∧
    ∀ op ∈ (loadSegments (.granting (elf32File oneSegment) 0x40000) (elf32File oneSegment) 0
        0x40000 0 oneSegment
        { space := { mem := fun _ => 0, prot := fun _ => none }, performed := [] }).1.performed,
      op.Within (0x40000 : Addr .arm).toNat
        ((0x40000 : Addr .arm).toNat + (0x2000 : Addr .arm).toNat) := by
  have hrules : ∀ phdr ∈ oneSegment, phdr.pType = PT_LOAD → phdr.Rules := by decide
  have hreserve : reserveAddressSpace (.granting (elf32File oneSegment) 0x40000) oneSegment 0 =
      .ok { loadStart := 0x40000, loadSize := 0x2000, loadBias := 0x40000 } := by decide +kernel
  exact ⟨hrules, loadSegments_within hreserve hrules (elf32File oneSegment) 0 _⟩

/-- A segment with two pages in the file and one in memory. -/
def fileszTooLarge : List (Phdr .arm) := [segment 0 0 0x2000 0x1000 5]

/-- A segment of one page that starts in the middle of a page of the file. -/
def offsetNotCongruent : List (Phdr .arm) := [segment 0x800 0 0x1000 0x1000 5]

/-- The second segment ends beyond the address space, so its end counts as `0x1000`. -/
def endOverflows : List (Phdr .arm) :=
  [segment 0 0x1000 0x1000 0x1000 5, segment 0 0xfffff000 0 0x2000 6]

/-- The loader accepts a file with this table and touches a range outside its reservation. -/
def Escapes (table : List (Phdr a)) : Prop :=
  ∃ kernel file r, prepare kernel [] 0 0 = .ok (file, table, r) ∧
    ∃ op ∈ (loadSegments kernel file 0 r.loadBias 0 table
        { space := { mem := fun _ => 0, prot := fun _ => none }, performed := [] }).1.performed,
      ¬ op.Within r.loadStart.toNat (r.loadStart.toNat + r.loadSize.toNat)

/-- None of the three rules can be left out. -/
theorem loadSegments_escapes :
    Escapes fileszTooLarge ∧ Escapes offsetNotCongruent ∧ Escapes endOverflows := by
  refine ⟨⟨.granting (elf32File fileszTooLarge) 0x40000, elf32File fileszTooLarge,
      { loadStart := 0x40000, loadSize := 0x1000, loadBias := 0x40000 }, ?_, ?_⟩,
    ⟨.granting (elf32File offsetNotCongruent) 0x40000, elf32File offsetNotCongruent,
      { loadStart := 0x40000, loadSize := 0x1000, loadBias := 0x40000 }, ?_, ?_⟩,
    ⟨.granting (elf32File endOverflows) 0x40000, elf32File endOverflows,
      { loadStart := 0x40000, loadSize := 0x1000, loadBias := 0x3f000 }, ?_, ?_⟩⟩
  all_goals decide +kernel

end CrystaxNdk.CrazyLinker
