import CrystaxNdk.CrazyLinker.ElfView
import CrystaxNdk.CrazyLinker.Proof.LoadImage

/-!
# The loaded program header table

The loader reads the table at `e_phoff`; the view reads the one `FindPhdr` located in memory.
`FindPhdr` trusts the address in `PT_PHDR`, and `CheckPhdr` only asks whether some segment has
that many bytes there. Where the headers are laid out as they should be, the address is that of
the byte at `e_phoff`, and by the image of the segments the two tables are the same; then so is
all the view derives from it.
-/

namespace CrystaxNdk.CrazyLinker

open Lib

variable {a : Arch}

/-! ## The table in the file -/

/-- The table at `e_phoff` is in the file part of a loadable segment; `PT_PHDR` gives its
    address there. Without one, that segment is the first and has the ELF header too. -/
def HeaderLoaded (header : Ehdr a) (table : List (Phdr a)) : Prop :=
  ∃ seg ∈ table, seg.pType = PT_LOAD ∧
    seg.pOffset.toNat ≤ header.ePhoff.toNat ∧
    header.ePhoff.toNat + table.length * a.phdrSize ≤ seg.pOffset.toNat + seg.pFilesz.toNat ∧
    (∀ phdr, table.find? (·.pType = PT_PHDR) = some phdr →
      phdr.pVaddr.toNat + seg.pOffset.toNat = seg.pVaddr.toNat + header.ePhoff.toNat) ∧
    (table.find? (·.pType = PT_PHDR) = none →
      table.find? (·.pType = PT_LOAD) = some seg ∧ a.ehdrSize ≤ seg.pFilesz.toNat)

variable {table : List (Phdr a)} {seg : Phdr a}

section Tables

variable {kernel : Kernel a} {space : Space a} {libPath : CString}
  {fileOffset wantedAddress : Addr a} {file : File a} {loaded : Loaded a} {header : Ehdr a}

theorem readElfHeader_ok (h : readElfHeader kernel file fileOffset = .ok header) :
    header = readEhdr a fun i => file.byte (fileOffset.toNat + i) := by
  unfold readElfHeader at h
  split at h
  · cases h
  split at h
  · cases h
  dsimp only at h
  iterate 6
    split at h
    · cases h
  exact (Except.ok.inj h).symm

theorem readProgramHeader_count (h : readProgramHeader kernel file fileOffset header = .ok table) :
    1 ≤ table.length ∧ table.length = header.ePhnum.toNat := by
  unfold readProgramHeader at h
  dsimp only at h
  split at h
  · cases h
  next hcount =>
    split at h
    · cases h
    next =>
      rw [← Except.ok.inj h, readPhdrTable, List.length_map, List.length_range]
      omega

theorem readProgramHeader_ok (h : readProgramHeader kernel file fileOffset header = .ok table)
    (hfile : fileOffset.toNat + header.ePhoff.toNat < file.bytes.length) :
    table = readPhdrTable a
      (fun i => file.byte (fileOffset.toNat + header.ePhoff.toNat + i)) header.ePhnum.toNat := by
  have hoff := toNat_pageOffset a.twelve_le_bits header.ePhoff
  have hstart := toNat_filePageStart hfile
  unfold readProgramHeader at h
  dsimp only at h
  split at h
  · cases h
  split at h
  · cases h
  rw [← Except.ok.inj h, hoff, hstart]
  congr 1
  funext i
  congr 1
  unfold pageFloor
  omega

/-! ## The table in memory -/

theorem checkPhdr_ok {loadBias x y : Addr a} (h : checkPhdr table loadBias x = .ok y) : y = x := by
  unfold checkPhdr at h
  dsimp only at h
  split at h
  · exact (Except.ok.inj h).symm
  · cases h

section Segment

variable (h : Loads kernel space libPath fileOffset wantedAddress loaded file header)
  (hmappable : Mappable file fileOffset loaded.phdrTable) (hmem : seg ∈ loaded.phdrTable)
  (hload : seg.pType = PT_LOAD)
include h hmappable hmem hload

/-- The ELF header at the start of a segment reads as it does in the file. -/
theorem Loads.ePhoff_eq (hzero : seg.pOffset = 0) (hsize : a.ehdrSize ≤ seg.pFilesz.toNat) :
    (readEhdr a fun i => (loadAt kernel space libPath fileOffset wantedAddress).1.space.mem
      (loaded.loadBias + seg.pVaddr + BitVec.ofNat _ i)).ePhoff = header.ePhoff := by
  rw [readElfHeader_ok h.readHeader]
  apply readEhdr_ePhoff_congr
  intro i hi
  rw [BitVec.add_comm loaded.loadBias,
    h.image_file hmappable hmem hload (hi.trans_le hsize), hzero, BitVec.ofNat_eq_ofNat,
    BitVec.toNat_zero, Nat.add_zero]

theorem Loads.loadedPhdr_eq (hoffset : seg.pOffset.toNat ≤ header.ePhoff.toNat)
    (hend : header.ePhoff.toNat < seg.pOffset.toNat + seg.pFilesz.toNat)
    (hphdr : ∀ phdr, loaded.phdrTable.find? (·.pType = PT_PHDR) = some phdr →
      phdr.pVaddr.toNat + seg.pOffset.toNat = seg.pVaddr.toNat + header.ePhoff.toNat)
    (hfirst : loaded.phdrTable.find? (·.pType = PT_PHDR) = none →
      loaded.phdrTable.find? (·.pType = PT_LOAD) = some seg ∧
        a.ehdrSize ≤ seg.pFilesz.toNat) :
    loaded.loadedPhdr = seg.pVaddr + loaded.loadBias +
      BitVec.ofNat _ (header.ePhoff.toNat - seg.pOffset.toNat) := by
  have hfound := h.found
  unfold findPhdr at hfound
  cases hfind : loaded.phdrTable.find? (·.pType = PT_PHDR) with
  | some phdr =>
    rw [hfind] at hfound
    have hrules := hmappable.rules seg hmem hload
    have hfilesz := hrules.filesz_le
    have hlt := hrules.end_lt
    have hphdr := hphdr phdr hfind
    have hofNat : (BitVec.ofNat (8 * a.wordBytes)
        (header.ePhoff.toNat - seg.pOffset.toNat)).toNat =
          header.ePhoff.toNat - seg.pOffset.toNat := toNat_ofNat_of_lt (by omega)
    have hvaddr : phdr.pVaddr = seg.pVaddr +
        BitVec.ofNat _ (header.ePhoff.toNat - seg.pOffset.toNat) := by
      apply BitVec.eq_of_toNat_eq
      rw [toNat_add_of_lt (by omega), hofNat]
      omega
    rw [checkPhdr_ok hfound, hvaddr, BitVec.add_comm loaded.loadBias, BitVec.add_assoc,
      BitVec.add_assoc, BitVec.add_comm loaded.loadBias]
  | none =>
    obtain ⟨hseg, hsize⟩ := hfirst hfind
    rw [hfind, hseg] at hfound
    dsimp only at hfound
    split at hfound
    next hzero =>
      rw [checkPhdr_ok hfound, h.ePhoff_eq hmappable hmem hload hzero hsize, hzero,
        BitVec.ofNat_eq_ofNat, BitVec.toNat_zero, Nat.sub_zero, BitVec.ofNat_toNat,
        BitVec.setWidth_eq, BitVec.add_comm loaded.loadBias]
    next => cases hfound

/-- The bytes there are those at `e_phoff`, as far as the segment goes. -/
theorem Loads.readTable_eq (hoffset : seg.pOffset.toNat ≤ header.ePhoff.toNat)
    (hend : header.ePhoff.toNat + loaded.phdrTable.length * a.phdrSize ≤
      seg.pOffset.toNat + seg.pFilesz.toNat)
    (hphdr : loaded.loadedPhdr = seg.pVaddr + loaded.loadBias +
      BitVec.ofNat _ (header.ePhoff.toNat - seg.pOffset.toNat)) :
    ElfView.readTable (loadAt kernel space libPath fileOffset wantedAddress).1.space.mem
        loaded.loadedPhdr loaded.phdrTable.length =
      readPhdrTable a (fun i => file.byte (fileOffset.toNat + header.ePhoff.toNat + i))
        loaded.phdrTable.length := by
  apply readPhdrTable_congr
  intro i hi
  rw [hphdr, BitVec.add_assoc, ← BitVec.ofNat_add, h.image_file hmappable hmem hload (by omega)]
  congr 1
  omega

end Segment

end Tables

/-! ## The view and the destructor -/

theorem ElfView.initUnmapped_fields {mem : Addr a → Byte} {loadAddress phdr : Addr a}
    {phdrCount : Nat} (view : ElfView a) (hsize :
      (phdrTableGetLoadSize (readTable mem phdr phdrCount)).size ≠ 0) (haddr : loadAddress ≠ 0) :
    (view.initUnmapped mem loadAddress phdr phdrCount).1.loadAddress = loadAddress ∧
    (view.initUnmapped mem loadAddress phdr phdrCount).1.loadSize =
      (phdrTableGetLoadSize (readTable mem phdr phdrCount)).size ∧
    (view.initUnmapped mem loadAddress phdr phdrCount).1.loadBias =
      loadAddress - (phdrTableGetLoadSize (readTable mem phdr phdrCount)).minVaddr := by
  unfold initUnmapped
  simp only [if_neg hsize, if_pos haddr]
  split
  · exact ⟨rfl, rfl, rfl⟩
  · split <;> exact ⟨rfl, rfl, rfl⟩

theorem SharedLibrary.loadView_view {kernel : Kernel a} {space : Space a} {fullPath : CString}
    {loadAddress fileOffset : Addr a} {loaded : Loaded a}
    (h : (loadAt kernel space fullPath fileOffset loadAddress).2 = .ok loaded) :
    (loadView kernel space fullPath loadAddress fileOffset).2.1 =
      (ElfView.cleared.initUnmapped
        (loadAt kernel space fullPath fileOffset loadAddress).1.space.mem loaded.loadStart
        loaded.loadedPhdr loaded.phdrTable.length).1 := by
  unfold loadView
  split
  next heq =>
    rw [heq] at h
    cases h
  next mapping loaded' heq =>
    rw [heq] at h
    cases h
    rw [heq]
    dsimp only
    split <;> simp_all

theorem Reservation.For.size_aligned {r : Reservation a} (h : r.For table) :
    pageCeil r.loadSize.toNat = r.loadSize.toNat := by
  have haligned : r.loadSize.toNat % 4096 = 0 := by
    rw [h.size_eq]
    exact pageEnd_sub_pageStart_aligned a.twelve_le_bits
  unfold pageCeil
  omega

theorem SharedLibrary.prot_destroy {view : ElfView a} (space : Space a)
    (haddr : view.loadAddress ≠ 0) (hsize : pageCeil view.loadSize.toNat = view.loadSize.toNat)
    (x : Addr a) :
    (destroy view space).prot x =
      if InRange view.loadAddress view.loadSize.toNat x then none else space.prot x := by
  unfold destroy Space.munmap
  rw [if_pos haddr, hsize]
  rfl

/-! ## Agreement -/

/-- The addresses of the loaded table are in the file part of one loadable segment. -/
def Loaded.HeaderInSegment (loaded : Loaded a) : Prop :=
  ∃ seg ∈ loaded.phdrTable, seg.pType = PT_LOAD ∧
    (loaded.loadBias + seg.pVaddr).toNat ≤ loaded.loadedPhdr.toNat ∧
    loaded.loadedPhdr.toNat + loaded.phdrTable.length * a.phdrSize ≤
      (loaded.loadBias + seg.pVaddr).toNat + seg.pFilesz.toNat ∧
    (loaded.loadBias + seg.pVaddr).toNat + seg.pFilesz.toNat < 2 ^ (8 * a.wordBytes)

section Agreement

variable {kernel : Kernel a} {space : Space a} {libPath : CString}
  {fileOffset wantedAddress : Addr a} {file : File a} {loaded : Loaded a} {header : Ehdr a}

theorem Loads.headerInSegment
    (h : Loads kernel space libPath fileOffset wantedAddress loaded file header)
    (hmappable : Mappable file fileOffset loaded.phdrTable) (hmem : seg ∈ loaded.phdrTable)
    (hload : seg.pType = PT_LOAD) (hoffset : seg.pOffset.toNat ≤ header.ePhoff.toNat)
    (hnonempty : 1 ≤ loaded.phdrTable.length * a.phdrSize)
    (hend : header.ePhoff.toNat + loaded.phdrTable.length * a.phdrSize ≤
      seg.pOffset.toNat + seg.pFilesz.toNat)
    (hphdr : loaded.loadedPhdr = seg.pVaddr + loaded.loadBias +
      BitVec.ofNat _ (header.ePhoff.toNat - seg.pOffset.toNat)) : loaded.HeaderInSegment := by
  have hrules := hmappable.rules seg hmem hload
  have hseat := (reserveAddressSpace_for h.reserved).seated hmem hload hrules
  have hfilesz := hrules.filesz_le
  have hlt := hseat.end_lt
  have hceil := le_pageCeil ((seg.pVaddr + loaded.loadBias).toNat + seg.pMemsz.toNat)
  refine ⟨seg, hmem, hload, ?_⟩
  rw [BitVec.add_comm loaded.loadBias, hphdr, hseat.toNat_byte (by omega)]
  omega

/-- The table in memory is the one that was read from the file. -/
theorem Loads.table_agrees
    (h : Loads kernel space libPath fileOffset wantedAddress loaded file header)
    (hmappable : Mappable file fileOffset loaded.phdrTable)
    (hlayout : HeaderLoaded header loaded.phdrTable) :
    loaded.HeaderInSegment ∧
    ElfView.readTable (loadAt kernel space libPath fileOffset wantedAddress).1.space.mem
      loaded.loadedPhdr loaded.phdrTable.length = loaded.phdrTable ∧
    loaded.phdrTable = readPhdrTable a
      (fun i => file.byte (fileOffset.toNat + header.ePhoff.toNat + i)) header.ePhnum.toNat := by
  obtain ⟨seg, hmem, hload, hoffset, hend, hphdr, hfirst⟩ := hlayout
  have hcount := readProgramHeader_count h.readTable
  have hnonempty : 1 ≤ loaded.phdrTable.length * a.phdrSize :=
    Nat.mul_pos (by omega) a.phdrSize_pos
  have hinFile := hmappable.inFile seg hmem hload
    (header.ePhoff.toNat - seg.pOffset.toNat) (by omega)
  have htable := readProgramHeader_ok h.readTable (by omega)
  have hloaded := h.loadedPhdr_eq hmappable hmem hload hoffset (by omega) hphdr hfirst
  refine ⟨h.headerInSegment hmappable hmem hload hoffset hnonempty hend hloaded, ?_, htable⟩
  rw [h.readTable_eq hmappable hmem hload hoffset hend hloaded, hcount.2]
  exact htable.symm

/-- **Agreement.** If the headers are laid out as they should be, the table in memory is the one
    in the file, the view has the load size and the bias of the loader, and the destructor
    unmaps what was reserved. -/
theorem loadedHeader_agrees
    (h : (loadAt kernel space libPath fileOffset wantedAddress).2 = .ok loaded)
    (hopen : kernel.openReadOnly libPath = .ok file)
    (hheader : readElfHeader kernel file fileOffset = .ok header)
    (hmappable : Mappable file fileOffset loaded.phdrTable)
    (hlayout : HeaderLoaded header loaded.phdrTable) :
    loaded.HeaderInSegment ∧
    ElfView.readTable (loadAt kernel space libPath fileOffset wantedAddress).1.space.mem
      loaded.loadedPhdr loaded.phdrTable.length = loaded.phdrTable ∧
    loaded.phdrTable = readPhdrTable a
      (fun i => file.byte (fileOffset.toNat + header.ePhoff.toNat + i)) header.ePhnum.toNat ∧
    (SharedLibrary.loadView kernel space libPath wantedAddress fileOffset).2.1.loadSize =
      loaded.loadSize ∧
    (SharedLibrary.loadView kernel space libPath wantedAddress fileOffset).2.1.loadBias =
      loaded.loadBias ∧
    ∀ (later : Space a) (x : Addr a),
      (SharedLibrary.destroy
        (SharedLibrary.loadView kernel space libPath wantedAddress fileOffset).2.1 later).prot x =
      if InRange loaded.loadStart loaded.loadSize.toNat x then none else later.prot x := by
  obtain ⟨file', header', hloads⟩ := loadAt_ok h
  obtain rfl : file' = file := Except.ok.inj (hloads.opened.symm.trans hopen)
  obtain rfl : header' = header := Except.ok.inj (hloads.readHeader.symm.trans hheader)
  have hfor := reserveAddressSpace_for hloads.reserved
  obtain ⟨hsegment, hread, htable⟩ := hloads.table_agrees hmappable hlayout
  -- from here on the view works on the same table
  have hsize := hfor.size_eq ▸ hfor.size_ne
  rw [← hread] at hsize
  obtain ⟨haddr, hloadSize, hbias⟩ :=
    ElfView.cleared.initUnmapped_fields hsize hfor.start_ne
  rw [SharedLibrary.loadView_view h]
  rw [hread] at hloadSize hbias
  refine ⟨hsegment, hread, htable, hloadSize.trans hfor.size_eq.symm,
    hbias.trans hfor.bias_eq.symm, ?_⟩
  intro later x
  rw [SharedLibrary.prot_destroy, haddr, hloadSize, ← hfor.size_eq]
  · rw [haddr]
    exact hfor.start_ne
  · rw [hloadSize, ← hfor.size_eq]
    exact hfor.size_aligned

end Agreement

/-- A `PT_PHDR` entry and the segment that has all of the file. -/
def twoEntries (phdrVaddr : Addr .arm) : List (Phdr .arm) :=
  [{ segment 52 phdrVaddr 64 64 4 with pType := PT_PHDR }, segment 0 0 116 116 5]

/-- What the loader says about such a file, at `0x40000`. -/
def twoEntriesLoaded (phdrVaddr : Addr .arm) : Loaded .arm where
  loadStart := 0x40000
  loadSize := 0x1000
  loadBias := 0x40000
  phdrTable := twoEntries phdrVaddr
  loadedPhdr := 0x40000 + phdrVaddr

/-- The header of a 32-bit file with a table of two entries. -/
def twoEntriesHeader : Ehdr a where
  magic := [0x7f, 0x45, 0x4c, 0x46]
  eiClass := 1
  eiData := 1
  eType := 3
  eMachine := a.machine
  eVersion := 1
  ePhoff := 52
  ePhnum := 2

theorem mappable_twoEntries : Mappable (elf32File (twoEntries 52)) 0 (twoEntries 52) where
  rules := by decide
  disjoint := by decide
  inFile := by decide +kernel

theorem headerLoaded_twoEntries : HeaderLoaded twoEntriesHeader (twoEntries 52) := by
  refine ⟨segment 0 0 116 116 5, by decide, rfl, by decide, by decide, ?_, ?_⟩
  · intro phdr hfind
    have hfirst : (twoEntries 52).find? (·.pType = PT_PHDR) =
      some { segment 52 52 64 64 4 with pType := PT_PHDR } := by decide
    cases Option.some.inj (hfirst.symm.trans hfind)
    decide
  · intro hnone
    exact absurd hnone (by decide)

theorem loadedHeader_agrees_twoEntries :
    (twoEntriesLoaded 52).HeaderInSegment ∧
    (SharedLibrary.loadView (.granting (elf32File (twoEntries 52)) 0x40000)
      { mem := fun _ => 0, prot := fun _ => none } [] 0 0).2.1.loadSize = 0x1000 := by
  have hload : (loadAt (.granting (elf32File (twoEntries 52)) 0x40000)
      { mem := fun _ => 0, prot := fun _ => none } [] 0 0).2 =
        .ok (twoEntriesLoaded 52) := by decide +kernel
  have hheader : readElfHeader (.granting (elf32File (twoEntries 52)) 0x40000)
      (elf32File (twoEntries 52)) 0 = .ok twoEntriesHeader := by decide +kernel
  have hagrees := loadedHeader_agrees hload rfl hheader mappable_twoEntries
    headerLoaded_twoEntries
  exact ⟨hagrees.1, hagrees.2.2.2.1⟩

/-- A file that is accepted although its `PT_PHDR` gives the address of the ELF header: the view
    finds no loadable segment there, and nothing to unmap. -/
theorem loadedHeader_disagrees :
    ∃ (kernel : Kernel .arm) (space : Space .arm) (loaded : Loaded .arm),
      (loadAt kernel space [] 0 0).2 = .ok loaded ∧
      (SharedLibrary.loadView kernel space [] 0 0).2.1.loadSize ≠ loaded.loadSize := by
  refine ⟨.granting (elf32File (twoEntries 0)) 0x40000,
    { mem := fun _ => 0, prot := fun _ => none }, twoEntriesLoaded 0, ?_, ?_⟩
  all_goals decide +kernel

end CrystaxNdk.CrazyLinker
