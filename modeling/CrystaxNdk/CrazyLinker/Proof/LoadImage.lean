import CrystaxNdk.CrazyLinker.Proof.Segments

/-!
# The image `LoadAt` leaves

The image of a segment is made by up to three operations: the map of its pages from the file,
the `memset` of the rest of the last of them, and the anonymous map of the pages after it. Each
byte of the segment is settled by the last of these that reaches it. The operations of the
other segments do not, if the segments do not share pages; so the image of each segment
survives the whole loop.
-/

namespace CrystaxNdk.CrazyLinker

open Lib List

variable {a : Arch}

/-! ## Performing a list of operations -/

def Space.performAll (space : Space a) (file : File a) (ops : List (MapOp a)) : Space a :=
  ops.foldl (fun space op => space.perform file op) space

section PerformAll

variable {space : Space a} {file : File a} {ops : List (MapOp a)} {op : MapOp a} {x : Addr a}

theorem Space.performAll_cons :
    space.performAll file (op :: ops) = (space.perform file op).performAll file ops := rfl

theorem Space.performAll_append {ops' : List (MapOp a)} :
    space.performAll file (ops ++ ops') = (space.performAll file ops).performAll file ops' :=
  foldl_append

theorem Space.mem_perform : (space.perform file op).mem =
    fill space.mem op.addr op.extent (op.content file) := rfl

theorem Space.mem_performAll_frame (h : ∀ op ∈ ops, ¬ InRange op.addr op.extent x) :
    (space.performAll file ops).mem x = space.mem x := by
  induction ops generalizing space with
  | nil => rfl
  | cons next ops ih =>
    rw [performAll_cons, ih fun op hop => h op (mem_cons_of_mem next hop), mem_perform,
      fill_of_not_inRange (h next mem_cons_self)]

variable {c : Prop} [Decidable c]

theorem Space.mem_performAll_ite (hc : c) (hx : InRange op.addr op.extent x) :
    (space.performAll file (if c then [op] else [])).mem x =
      op.content file (x - op.addr).toNat := by
  rw [if_pos hc, performAll_cons]
  exact fill_of_inRange hx

theorem Space.mem_performAll_ite_frame (h : c → ¬ InRange op.addr op.extent x) :
    (space.performAll file (if c then [op] else [])).mem x = space.mem x := by
  apply mem_performAll_frame
  intro op' hop
  obtain ⟨hc, rfl⟩ := mem_ite_singleton hop
  exact h hc

end PerformAll

/-! ## One segment -/

section Segment

variable {file : File a} {fileOffset loadBias : Addr a} {phdr : Phdr a} {i : Nat}

theorem Seated.toNat_byte (h : Seated loadBias phdr) (hi : i < phdr.pMemsz.toNat) :
    (phdr.pVaddr + loadBias + BitVec.ofNat _ i).toNat = (phdr.pVaddr + loadBias).toNat + i := by
  have hlt := h.end_lt
  have hceil := le_pageCeil ((phdr.pVaddr + loadBias).toNat + phdr.pMemsz.toNat)
  have hofNat : (BitVec.ofNat (8 * a.wordBytes) i).toNat = i := toNat_ofNat_of_lt (by omega)
  rw [toNat_add_of_lt (by omega), hofNat]

/-- The offset of a file map does not overflow if the bytes behind it exist. -/
theorem toNat_filePageStart {offset : Addr a}
    (hfile : fileOffset.toNat + offset.toNat < file.bytes.length) :
    (pageStart offset + fileOffset).toNat = pageFloor offset.toNat + fileOffset.toNat := by
  have hstart := toNat_pageStart a.twelve_le_bits offset
  have hfloor := pageFloor_le offset.toNat
  have hsize := file.size_lt
  have hpow : 2 ^ (8 * a.wordBytes - 1) ≤ 2 ^ (8 * a.wordBytes) :=
    Nat.pow_le_pow_right (by decide) (Nat.sub_le _ _)
  rw [toNat_add_of_lt (by omega), hstart]

variable (h : Seated loadBias phdr) (space : Space a)

include h

/-! The ranges of the three operations, as intervals. -/

theorem Seated.inRange_fileMap {x : Addr a} :
    InRange (pageStart (phdr.pVaddr + loadBias))
        (pageCeil (phdr.pOffset + phdr.pFilesz - pageStart phdr.pOffset).toNat) x ↔
      pageFloor (phdr.pVaddr + loadBias).toNat ≤ x.toNat ∧
        x.toNat < pageCeil ((phdr.pVaddr + loadBias).toNat + phdr.pFilesz.toNat) := by
  have hlt := h.filePages_le.trans_lt h.end_lt
  have hend : pageFloor (phdr.pVaddr + loadBias).toNat +
      pageCeil ((phdr.pVaddr + loadBias).toNat % 4096 + phdr.pFilesz.toNat) =
        pageCeil ((phdr.pVaddr + loadBias).toNat + phdr.pFilesz.toNat) := by
    unfold pageFloor pageCeil
    omega
  rw [h.fileLength, inRange_iff, toNat_pageStart a.twelve_le_bits, hend]
  rw [toNat_pageStart a.twelve_le_bits, hend]
  exact hlt.le

theorem Seated.inRange_tail {x : Addr a}
    (hoff : pageOffset (phdr.pVaddr + loadBias + phdr.pFilesz) > 0) :
    InRange (phdr.pVaddr + loadBias + phdr.pFilesz)
        (4096 - pageOffset (phdr.pVaddr + loadBias + phdr.pFilesz)).toNat x ↔
      (phdr.pVaddr + loadBias).toNat + phdr.pFilesz.toNat ≤ x.toNat ∧
        x.toNat < pageCeil ((phdr.pVaddr + loadBias).toNat + phdr.pFilesz.toNat) := by
  have hlt := h.filePages_le.trans_lt h.end_lt
  have hceil := le_pageCeil ((phdr.pVaddr + loadBias).toNat + phdr.pFilesz.toNat)
  rw [h.tailLength hoff, inRange_iff, h.segFileEnd, Nat.add_sub_cancel' hceil]
  rw [h.segFileEnd, Nat.add_sub_cancel' hceil]
  exact hlt.le

theorem Seated.inRange_gap {x : Addr a} :
    InRange (pageEnd (phdr.pVaddr + loadBias + phdr.pFilesz))
        (pageCeil (pageEnd (phdr.pVaddr + loadBias + phdr.pMemsz) -
          pageEnd (phdr.pVaddr + loadBias + phdr.pFilesz)).toNat) x ↔
      pageCeil ((phdr.pVaddr + loadBias).toNat + phdr.pFilesz.toNat) ≤ x.toNat ∧
        x.toNat < pageCeil ((phdr.pVaddr + loadBias).toNat + phdr.pMemsz.toNat) := by
  rw [h.gapLength, inRange_iff, h.segFilePageEnd, Nat.add_sub_cancel' h.filePages_le]
  rw [h.segFilePageEnd, Nat.add_sub_cancel' h.filePages_le]
  exact h.end_lt.le

theorem Seated.image_file (hi : i < phdr.pFilesz.toNat)
    (hfile : fileOffset.toNat + phdr.pOffset.toNat + i < file.bytes.length) :
    (space.performAll file (segmentOps fileOffset loadBias phdr)).mem
        (phdr.pVaddr + loadBias + BitVec.ofNat _ i) =
      file.byte (fileOffset.toNat + phdr.pOffset.toNat + i) := by
  have hbyte := h.toNat_byte (hi.trans_le h.filesz_le)
  generalize phdr.pVaddr + loadBias + BitVec.ofNat _ i = x at hbyte
  have hcong := h.congruent
  have hceil := le_pageCeil ((phdr.pVaddr + loadBias).toNat + phdr.pFilesz.toNat)
  have hfloor := pageFloor_le (phdr.pVaddr + loadBias).toNat
  unfold segmentOps
  dsimp only
  rw [Space.performAll_append, Space.performAll_append, Space.mem_performAll_ite_frame,
    Space.mem_performAll_ite_frame, Space.mem_performAll_ite]
  · -- the distance to the start of the page is the same in the file and in memory
    have hpage := toNat_pageStart a.twelve_le_bits (phdr.pVaddr + loadBias)
    have hsub : (x - pageStart (phdr.pVaddr + loadBias)).toNat =
        (phdr.pVaddr + loadBias).toNat % 4096 + i := by
      rw [toNat_sub_of_le (by omega), hpage, hbyte, pageFloor]
      omega
    have hbound : fileOffset.toNat + phdr.pOffset.toNat < file.bytes.length := by omega
    simp only [MapOp.content, MapOp.addr, hsub, toNat_filePageStart hbound, pageFloor]
    congr 1
    omega
  · intro hzero
    have hlen := h.fileLength
    rw [hzero, BitVec.ofNat_eq_ofNat, BitVec.toNat_zero] at hlen
    omega
  · simp only [MapOp.addr, MapOp.extent]
    rw [h.inRange_fileMap]
    omega
  -- neither the `memset` nor the anonymous map reaches the byte
  · intro hcond
    simp only [MapOp.addr, MapOp.extent]
    rw [h.inRange_tail hcond.2]
    omega
  · intro _
    simp only [MapOp.addr, MapOp.extent]
    rw [h.inRange_gap]
    omega

theorem Seated.image_zero (hi : i < phdr.pMemsz.toNat) (hfilesz : phdr.pFilesz.toNat ≤ i)
    (hwrite : phdr.pFlags &&& PF_W ≠ 0) :
    (space.performAll file (segmentOps fileOffset loadBias phdr)).mem
        (phdr.pVaddr + loadBias + BitVec.ofNat _ i) = 0 := by
  have hbyte := h.toNat_byte hi
  generalize phdr.pVaddr + loadBias + BitVec.ofNat _ i = x at hbyte
  have hmem := le_pageCeil ((phdr.pVaddr + loadBias).toNat + phdr.pMemsz.toNat)
  unfold segmentOps
  dsimp only
  rw [Space.performAll_append, Space.performAll_append]
  rcases Nat.lt_or_ge x.toNat (pageCeil ((phdr.pVaddr + loadBias).toNat + phdr.pFilesz.toNat))
    with hpage | hpage
  · -- on the last page of the file part, which does not end there
    have hoff : pageOffset (phdr.pVaddr + loadBias + phdr.pFilesz) > 0 := by
      rw [gt_iff_lt, BitVec.lt_def, toNat_pageOffset a.twelve_le_bits, h.segFileEnd,
        BitVec.ofNat_eq_ofNat, BitVec.toNat_zero]
      unfold pageCeil at hpage
      omega
    rw [Space.mem_performAll_ite_frame, Space.mem_performAll_ite ⟨hwrite, hoff⟩]
    · rfl
    · simp only [MapOp.addr, MapOp.extent]
      rw [h.inRange_tail hoff]
      omega
    · intro _
      simp only [MapOp.addr, MapOp.extent]
      rw [h.inRange_gap]
      omega
  · rw [Space.mem_performAll_ite]
    · rfl
    · rw [gt_iff_lt, BitVec.lt_def, h.segFilePageEnd, h.segPageEnd]
      omega
    · simp only [MapOp.addr, MapOp.extent]
      rw [h.inRange_gap]
      omega

end Segment

/-! ## The whole loop -/

def tableOps (fileOffset loadBias : Addr a) (table : List (Phdr a)) : List (MapOp a) :=
  table.flatMap fun phdr =>
    if phdr.pType = PT_LOAD then segmentOps fileOffset loadBias phdr else []

variable {table : List (Phdr a)}

section Loop

variable {kernel : Kernel a} {file : File a} {fileOffset loadBias : Addr a}

theorem performOps_ok {segment : Nat} {ops : List (MapOp a)} {mapping : Mapping a}
    (h : (performOps kernel file segment ops mapping).2 = .ok ()) :
    (performOps kernel file segment ops mapping).1.space = mapping.space.performAll file ops := by
  induction ops generalizing mapping with
  | nil => rfl
  | cons op ops ih =>
    rw [performOps] at h ⊢
    split at h
    next => cases h
    next => exact ih h

theorem loadSegments_ok {segment : Nat} {mapping : Mapping a}
    (h : (loadSegments kernel file fileOffset loadBias segment table mapping).2 = .ok ()) :
    (loadSegments kernel file fileOffset loadBias segment table mapping).1.space =
      mapping.space.performAll file (tableOps fileOffset loadBias table) := by
  induction table generalizing segment mapping with
  | nil => rfl
  | cons phdr table ih =>
    rw [loadSegments] at h ⊢
    rw [tableOps, flatMap_cons]
    by_cases hload : phdr.pType = PT_LOAD
    · rw [if_neg (not_not.mpr hload)] at h ⊢
      rw [if_pos hload, Space.performAll_append]
      split at h
      next => cases h
      next mapping' heq =>
        have hops := performOps_ok (congrArg Prod.snd heq)
        rw [heq] at hops
        rw [← hops]
        exact ih h
    · rw [if_pos hload] at h ⊢
      rw [if_neg hload]
      exact ih h

end Loop

def Phdr.PagesDisjoint (p q : Phdr a) : Prop :=
  p.pagesEnd ≤ q.pagesStart ∨ q.pagesEnd ≤ p.pagesStart

instance (p q : Phdr a) : Decidable (p.PagesDisjoint q) := inferInstanceAs (Decidable (_ ∨ _))

variable {r : Reservation a}

theorem segmentOps_frame {phdr other : Phdr a} {fileOffset : Addr a} {i : Nat} (hfor : r.For table)
    (hmem : phdr ∈ table) (hload : phdr.pType = PT_LOAD) (hrules : phdr.Rules)
    (hmem' : other ∈ table) (hload' : other.pType = PT_LOAD) (hrules' : other.Rules)
    (hdisj : phdr.PagesDisjoint other) (hi : i < phdr.pMemsz.toNat) {op : MapOp a}
    (hop : op ∈ segmentOps fileOffset r.loadBias other) :
    ¬ InRange op.addr op.extent (phdr.pVaddr + r.loadBias + BitVec.ofNat _ i) := by
  have hseat := hfor.seated hmem hload hrules
  have hseat' := hfor.seated hmem' hload' hrules'
  apply (segmentOps_within hseat' hop).not_inRange hseat'.end_lt.le
  -- both segments are moved by the same distance
  have hstart := hfor.pagesStart hmem hload hrules.end_lt
  have hend := hfor.pagesEnd hmem hload hrules.end_lt
  have hstart' := hfor.pagesStart hmem' hload' hrules'.end_lt
  have hend' := hfor.pagesEnd hmem' hload' hrules'.end_lt
  have hfloor := pageFloor_le (phdr.pVaddr + r.loadBias).toNat
  have hceil := le_pageCeil ((phdr.pVaddr + r.loadBias).toNat + phdr.pMemsz.toNat)
  rw [hseat.toNat_byte hi]
  unfold Phdr.PagesDisjoint at hdisj
  omega

/-- What the operations of a whole table make of a byte is up to its own segment. -/
theorem mem_tableOps {phdr : Phdr a} {file : File a} {fileOffset : Addr a} {i : Nat} {b : Byte}
    (hfor : r.For table) (hrules : ∀ phdr ∈ table, phdr.pType = PT_LOAD → phdr.Rules)
    (hdisj : table.Pairwise fun p q =>
      p.pType = PT_LOAD → q.pType = PT_LOAD → p.PagesDisjoint q) (hmem : phdr ∈ table)
    (hload : phdr.pType = PT_LOAD) (hi : i < phdr.pMemsz.toNat) (himage : ∀ space : Space a,
      (space.performAll file (segmentOps fileOffset r.loadBias phdr)).mem
        (phdr.pVaddr + r.loadBias + BitVec.ofNat _ i) = b) (space : Space a) :
    (space.performAll file (tableOps fileOffset r.loadBias table)).mem
      (phdr.pVaddr + r.loadBias + BitVec.ofNat _ i) = b := by
  obtain ⟨before, after, rfl⟩ := append_of_mem hmem
  rw [pairwise_append, pairwise_cons] at hdisj
  rw [tableOps, flatMap_append, flatMap_cons, if_pos hload, Space.performAll_append,
    Space.performAll_append, Space.mem_performAll_frame, himage]
  intro op hop
  obtain ⟨other, hother, hop⟩ := mem_flatMap.mp hop
  split at hop
  next hload' =>
    have hmem' : other ∈ before ++ phdr :: after := by simp [hother]
    exact segmentOps_frame hfor hmem hload (hrules phdr hmem hload) hmem' hload'
      (hrules other hmem' hload') (hdisj.2.1.1 other hother hload hload') hi hop
  next => exact absurd hop not_mem_nil

/-! ## A load that succeeds -/

section LoadAt

variable {kernel : Kernel a} {space : Space a} {libPath : CString}
  {fileOffset wantedAddress : Addr a} {file : File a} {loaded : Loaded a}

/-- What each step of a successful `LoadAt` did. -/
structure Loads (kernel : Kernel a) (space : Space a) (libPath : CString)
    (fileOffset wantedAddress : Addr a) (loaded : Loaded a) (file : File a) (header : Ehdr a) :
    Prop where
  opened : kernel.openReadOnly libPath = .ok file
  readHeader : readElfHeader kernel file fileOffset = .ok header
  readTable : readProgramHeader kernel file fileOffset header = .ok loaded.phdrTable
  reserved : reserveAddressSpace kernel loaded.phdrTable wantedAddress = .ok loaded.toReservation
  image : (loadAt kernel space libPath fileOffset wantedAddress).1.space =
    (space.reserve loaded.loadStart loaded.loadSize).performAll file
      (tableOps fileOffset loaded.loadBias loaded.phdrTable)
  found : findPhdr (loadAt kernel space libPath fileOffset wantedAddress).1.space.mem
    loaded.phdrTable loaded.loadBias = .ok loaded.loadedPhdr

theorem prepare_ok (h : prepare kernel libPath fileOffset wantedAddress = .ok (file, table, r)) :
    ∃ header, kernel.openReadOnly libPath = .ok file ∧
      readElfHeader kernel file fileOffset = .ok header ∧
      readProgramHeader kernel file fileOffset header = .ok table ∧
      reserveAddressSpace kernel table wantedAddress = .ok r := by
  unfold prepare at h
  split at h
  · cases h
  split at h
  · cases h
  split at h
  · cases h
  next file' hopen =>
    split at h
    · cases h
    split at h
    · cases h
    next header hheader =>
      split at h
      · cases h
      next table' htable =>
        split at h
        · cases h
        next r' hreserve =>
          cases h
          exact ⟨header, hopen, hheader, htable, hreserve⟩

theorem loadAt_ok (h : (loadAt kernel space libPath fileOffset wantedAddress).2 = .ok loaded) :
    ∃ file header, Loads kernel space libPath fileOffset wantedAddress loaded file header := by
  have himage : ∃ file, prepare kernel libPath fileOffset wantedAddress =
        .ok (file, loaded.phdrTable, loaded.toReservation) ∧
      (loadAt kernel space libPath fileOffset wantedAddress).1.space =
        (space.reserve loaded.loadStart loaded.loadSize).performAll file
          (tableOps fileOffset loaded.loadBias loaded.phdrTable) ∧
      findPhdr (loadAt kernel space libPath fileOffset wantedAddress).1.space.mem
        loaded.phdrTable loaded.loadBias = .ok loaded.loadedPhdr := by
    unfold loadAt at h ⊢
    split at h
    · cases h
    next file table r hprepare =>
      dsimp only at h ⊢
      split at h
      · cases h
      next mapping hsegments =>
        have hspace := loadSegments_ok (congrArg Prod.snd hsegments)
        rw [hsegments] at hspace
        split at h
        · cases h
        next loadedPhdr hfind =>
          cases h
          exact ⟨file, hprepare, hspace, hfind⟩
  obtain ⟨file, hprepare, hspace, hfind⟩ := himage
  obtain ⟨header, hopen, hheader, htable, hreserve⟩ := prepare_ok hprepare
  exact ⟨file, header, hopen, hheader, htable, hreserve, hspace, hfind⟩

end LoadAt

/-! ## The image -/

/-- The rules for the loadable segments of a table, in a file that holds their bytes. They are
    enough for the part of each segment that comes from the file. -/
structure Mappable (file : File a) (fileOffset : Addr a) (table : List (Phdr a)) : Prop where
  rules : ∀ phdr ∈ table, phdr.pType = PT_LOAD → phdr.Rules
  disjoint : table.Pairwise fun p q =>
    p.pType = PT_LOAD → q.pType = PT_LOAD → p.PagesDisjoint q
  inFile : ∀ phdr ∈ table, phdr.pType = PT_LOAD → ∀ i < phdr.pFilesz.toNat,
    fileOffset.toNat + phdr.pOffset.toNat + i < file.bytes.length

/-- The loader fills the last page of the file part with zeroes only if the segment is writable. -/
structure Loadable (file : File a) (fileOffset : Addr a) (table : List (Phdr a)) : Prop extends
    Mappable file fileOffset table where
  writable : ∀ phdr ∈ table, phdr.pType = PT_LOAD → phdr.pFilesz.toNat < phdr.pMemsz.toNat →
    phdr.pFlags &&& PF_W ≠ 0

theorem File.getElem?_eq (file : File a) {n : Nat} (h : n < file.bytes.length) :
    file.bytes[n]? = some (file.byte n) := by
  rw [File.byte, getD_eq_getElem?_getD, getElem?_eq_getElem h, Option.getD_some]

section Image

variable {kernel : Kernel a} {space : Space a} {libPath : CString}
  {fileOffset wantedAddress : Addr a} {file : File a} {loaded : Loaded a} {header : Ehdr a}

theorem Loads.image_file
    (h : Loads kernel space libPath fileOffset wantedAddress loaded file header)
    (hmappable : Mappable file fileOffset loaded.phdrTable) {phdr : Phdr a}
    (hmem : phdr ∈ loaded.phdrTable) (hload : phdr.pType = PT_LOAD) {i : Nat}
    (hi : i < phdr.pFilesz.toNat) :
    (loadAt kernel space libPath fileOffset wantedAddress).1.space.mem
        (phdr.pVaddr + loaded.loadBias + BitVec.ofNat _ i) =
      file.byte (fileOffset.toNat + phdr.pOffset.toNat + i) := by
  have hfor := reserveAddressSpace_for h.reserved
  have hrules := hmappable.rules phdr hmem hload
  rw [h.image]
  refine mem_tableOps hfor hmappable.rules hmappable.disjoint hmem hload
    (hi.trans_le hrules.filesz_le) (fun space => ?_) _
  exact (hfor.seated hmem hload hrules).image_file space hi (hmappable.inFile phdr hmem hload i hi)

/-- **The image.** After a successful load of a table that follows the rules, every segment
    holds its bytes of the file, and zeroes after them. -/
theorem loadAt_image
    (h : (loadAt kernel space libPath fileOffset wantedAddress).2 = .ok loaded)
    (hopen : kernel.openReadOnly libPath = .ok file)
    (hloadable : Loadable file fileOffset loaded.phdrTable) :
    ∀ phdr ∈ loaded.phdrTable, phdr.pType = PT_LOAD → ∀ i < phdr.pMemsz.toNat,
      (i < phdr.pFilesz.toNat →
        file.bytes[fileOffset.toNat + phdr.pOffset.toNat + i]? =
          some ((loadAt kernel space libPath fileOffset wantedAddress).1.space.mem
            (loaded.loadBias + phdr.pVaddr + BitVec.ofNat _ i))) ∧
      (phdr.pFilesz.toNat ≤ i →
        (loadAt kernel space libPath fileOffset wantedAddress).1.space.mem
          (loaded.loadBias + phdr.pVaddr + BitVec.ofNat _ i) = 0) := by
  intro phdr hmem hload i hi
  obtain ⟨file', header, hloads⟩ := loadAt_ok h
  obtain rfl : file' = file := Except.ok.inj (hloads.opened.symm.trans hopen)
  rw [BitVec.add_comm loaded.loadBias]
  refine ⟨fun hfile => ?_, fun hzero => ?_⟩
  · rw [hloads.image_file hloadable.toMappable hmem hload hfile,
      file'.getElem?_eq (hloadable.inFile phdr hmem hload i hfile)]
  · have hfor := reserveAddressSpace_for hloads.reserved
    have hrules := hloadable.rules phdr hmem hload
    have hwrite := hloadable.writable phdr hmem hload (by omega)
    rw [hloads.image]
    exact mem_tableOps hfor hloadable.rules hloadable.disjoint hmem hload hi
      (fun space => (hfor.seated hmem hload hrules).image_zero space hi hzero hwrite) _

end Image

theorem loadable_oneSegment : Loadable (elf32File oneSegment) 0 oneSegment where
  rules := by decide
  disjoint := by simp [oneSegment]
  writable := by decide
  inFile := by decide +kernel

/-- The last of the `0x1800` bytes is a zero, the fourth a letter of the magic. -/
theorem loadAt_image_oneSegment :
    (loadAt (.granting (elf32File oneSegment) 0x40000)
      { mem := fun _ => 1, prot := fun _ => none } [] 0 0).1.space.mem 0x417ff = 0 ∧
    some ((loadAt (.granting (elf32File oneSegment) 0x40000)
      { mem := fun _ => 1, prot := fun _ => none } [] 0 0).1.space.mem 0x40003) =
        (elf32File oneSegment).bytes[3]? := by
  have hload : (loadAt (.granting (elf32File oneSegment) 0x40000)
      { mem := fun _ => 1, prot := fun _ => none } [] 0 0).2 =
      .ok { loadStart := 0x40000, loadSize := 0x2000, loadBias := 0x40000,
            phdrTable := oneSegment, loadedPhdr := 0x40034 } := by decide +kernel
  have himage := loadAt_image hload rfl loadable_oneSegment (segment 0 0 84 0x1800 6)
    mem_cons_self rfl
  exact ⟨(himage 0x17ff (by decide)).2 (by decide), ((himage 3 (by decide)).1 (by decide)).symm⟩

end CrystaxNdk.CrazyLinker
