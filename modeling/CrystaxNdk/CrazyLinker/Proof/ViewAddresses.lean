import CrystaxNdk.CrazyLinker.ElfView
import CrystaxNdk.CrazyLinker.Proof.Segments

/-!
# The addresses of a view

`InitUnmapped` takes the bias from the load size and passes the load address, not the bias, to
`phdr_table_get_dynamic_section`. The two are the same when the lowest segment starts in the first
page. The load size is the span of the segments unless one of them ends on the last page of the
address space or behind it, where the loop over the table wraps around.
-/

namespace CrystaxNdk.CrazyLinker

open Lib List

variable {a : Arch}

/-! ## What a table spans -/

def lowestVaddr (table : List (Phdr a)) : Nat :=
  ((table.filter (·.pType = PT_LOAD)).map (·.pVaddr.toNat)).min?.getD 0

def highestEnd (table : List (Phdr a)) : Nat :=
  ((table.filter (·.pType = PT_LOAD)).map fun p => p.pVaddr.toNat + p.pMemsz.toNat).max?.getD 0

/-- The number of bytes from the first page of the loadable segments to the end of the last. -/
def segmentSpan (table : List (Phdr a)) : Nat :=
  pageCeil (highestEnd table) - pageFloor (lowestVaddr table)

section Span

variable {table : List (Phdr a)} {seg : Phdr a}

theorem lowestVaddr_eq {n : Nat}
    (hmem : ∃ seg ∈ table, seg.pType = PT_LOAD ∧ seg.pVaddr.toNat = n)
    (hle : ∀ seg ∈ table, seg.pType = PT_LOAD → n ≤ seg.pVaddr.toNat) :
    lowestVaddr table = n := by
  have hmin : ((table.filter (·.pType = PT_LOAD)).map (·.pVaddr.toNat)).min? = some n := by
    refine min?_eq_some_iff.mpr ⟨by simpa [and_assoc] using hmem, ?_⟩
    rw [forall_mem_map]
    simpa using hle
  rw [lowestVaddr, hmin, Option.getD_some]

theorem lowestVaddr_le (hmem : seg ∈ table) (hload : seg.pType = PT_LOAD) :
    lowestVaddr table ≤ seg.pVaddr.toNat := by
  refine min?_getD_le_of_mem ?_
  exact mem_map.mpr ⟨seg, by simp [hmem, hload], rfl⟩

theorem exists_lowestVaddr (hload : ∃ seg ∈ table, seg.pType = PT_LOAD) :
    ∃ seg ∈ table, seg.pType = PT_LOAD ∧ seg.pVaddr.toNat = lowestVaddr table := by
  obtain ⟨seg, hmem, hseg⟩ := hload
  have hstart : seg.pVaddr.toNat ∈
      (table.filter (·.pType = PT_LOAD)).map (·.pVaddr.toNat) :=
    mem_map.mpr ⟨seg, by simp [hmem, hseg], rfl⟩
  obtain ⟨n, hn⟩ := Option.isSome_iff_exists.mp (isSome_min?_of_mem hstart)
  have hlowest : lowestVaddr table = n := by rw [lowestVaddr, hn, Option.getD_some]
  rw [hlowest]
  simpa [and_assoc] using (min?_eq_some_iff.mp hn).1

theorem highestEnd_eq {n : Nat}
    (hmem : ∃ seg ∈ table, seg.pType = PT_LOAD ∧ seg.pVaddr.toNat + seg.pMemsz.toNat = n)
    (hle : ∀ seg ∈ table, seg.pType = PT_LOAD → seg.pVaddr.toNat + seg.pMemsz.toNat ≤ n) :
    highestEnd table = n := by
  have hmax : ((table.filter (·.pType = PT_LOAD)).map
      fun p => p.pVaddr.toNat + p.pMemsz.toNat).max? = some n := by
    refine max?_eq_some_iff.mpr ⟨by simpa [and_assoc] using hmem, ?_⟩
    rw [forall_mem_map]
    simpa using hle
  rw [highestEnd, hmax, Option.getD_some]

theorem le_highestEnd (hmem : seg ∈ table) (hload : seg.pType = PT_LOAD) :
    seg.pVaddr.toNat + seg.pMemsz.toNat ≤ highestEnd table := by
  refine le_max?_getD_of_mem ?_
  exact mem_map.mpr ⟨seg, by simp [hmem, hload], rfl⟩

end Span

/-! ## The loop -/

/-- A bound of the loop that is not the one it starts with is that of a segment. -/
structure Extent.Attained (e : Extent a) (table : List (Phdr a)) : Prop where
  min : e.minVaddr = ~~~ 0 ∨ ∃ seg ∈ table, seg.pType = PT_LOAD ∧ seg.pVaddr = e.minVaddr
  max : e.maxVaddr = 0 ∨
    ∃ seg ∈ table, seg.pType = PT_LOAD ∧ seg.pVaddr + seg.pMemsz = e.maxVaddr
  found : e.foundPtLoad = true → ∃ seg ∈ table, seg.pType = PT_LOAD

theorem Extent.Attained.add {e : Extent a} {table : List (Phdr a)} (h : e.Attained table)
    {phdr : Phdr a} (hmem : phdr ∈ table) : (e.add phdr).Attained table := by
  unfold Extent.add
  by_cases hload : phdr.pType = PT_LOAD
  · rw [if_neg (not_not.mpr hload)]
    refine ⟨?_, ?_, fun _ => ⟨phdr, hmem, hload⟩⟩
    · dsimp only
      split
      next => exact .inr ⟨phdr, hmem, hload, rfl⟩
      next => exact h.min
    · dsimp only
      split
      next => exact .inr ⟨phdr, hmem, hload, rfl⟩
      next => exact h.max
  · rw [if_pos hload]
    exact h

theorem Extent.Attained.foldl {e : Extent a} {table rest : List (Phdr a)} (h : e.Attained table)
    (hsub : ∀ phdr ∈ rest, phdr ∈ table) : (rest.foldl Extent.add e).Attained table := by
  induction rest generalizing e with
  | nil => exact h
  | cons phdr rest ih =>
    exact ih (h.add (hsub phdr mem_cons_self)) fun p hp => hsub p (mem_cons_of_mem _ hp)

theorem attained_loadSize (table : List (Phdr a)) :
    (table.foldl Extent.add
      { minVaddr := ~~~ 0, maxVaddr := 0, foundPtLoad := false }).Attained table :=
  Extent.Attained.foldl ⟨.inl rfl, .inl rfl, fun hfound => absurd hfound Bool.false_ne_true⟩
    fun _ hmem => hmem

/-! ## The load size -/

section LoadSize

variable {table : List (Phdr a)}

theorem exists_loadable (hsize : (phdrTableGetLoadSize table).size ≠ 0) :
    ∃ seg ∈ table, seg.pType = PT_LOAD := by
  have hattained := attained_loadSize table
  revert hsize
  unfold phdrTableGetLoadSize
  dsimp only
  generalize table.foldl Extent.add _ = e at hattained
  intro hsize
  by_contra hnone
  have hfound : e.foundPtLoad = false := by
    rw [Bool.eq_false_iff]
    exact fun hfound => hnone (hattained.found hfound)
  have hmax : e.maxVaddr = 0 := by
    refine hattained.max.resolve_right ?_
    rintro ⟨seg, hmem, hload, -⟩
    exact hnone ⟨seg, hmem, hload⟩
  apply hsize
  rw [hfound, hmax, if_neg Bool.false_ne_true]
  cases a <;> decide

theorem toNat_minVaddr (hload : ∃ seg ∈ table, seg.pType = PT_LOAD) :
    (phdrTableGetLoadSize table).minVaddr.toNat = pageFloor (lowestVaddr table) := by
  obtain ⟨seg, hmem, hload⟩ := hload
  have hattained := attained_loadSize table
  have hcovers : ∀ p ∈ table, p.pType = PT_LOAD → (table.foldl Extent.add
      { minVaddr := ~~~ 0, maxVaddr := 0, foundPtLoad := false }).Covers p :=
    fun p hp hl => Extent.covers_foldl hl _ (.inr hp)
  unfold phdrTableGetLoadSize
  dsimp only
  generalize table.foldl Extent.add _ = e at hattained hcovers
  rw [toNat_pageStart a.twelve_le_bits, (hcovers seg hmem hload).found, if_pos rfl]
  congr 1
  refine (lowestVaddr_eq ?_ fun p hp hl => (hcovers p hp hl).min_le).symm
  rcases hattained.min with htop | ⟨p, hp, hl, heq⟩
  · refine ⟨seg, hmem, hload, ?_⟩
    have hle := (hcovers seg hmem hload).min_le
    have hlt := seg.pVaddr.isLt
    rw [htop] at hle ⊢
    simp at hle ⊢
    omega
  · exact ⟨p, hp, hl, congrArg BitVec.toNat heq⟩

/-- The upper bound is the end of the highest segment if none of them overflows. -/
theorem toNat_maxVaddr (hload : ∃ seg ∈ table, seg.pType = PT_LOAD)
    (hends : ∀ seg ∈ table, seg.pType = PT_LOAD →
      seg.pVaddr.toNat + seg.pMemsz.toNat ≤ 2 ^ (8 * a.wordBytes) - 4096) :
    (phdrTableGetLoadSize table).maxVaddr.toNat = pageCeil (highestEnd table) := by
  obtain ⟨seg, hmem, hload⟩ := hload
  have hattained := attained_loadSize table
  have h4096 := four_thousand_le a.twelve_le_bits
  obtain ⟨k, hk⟩ := four_thousand_dvd a.twelve_le_bits
  have hend : ∀ p ∈ table, p.pType = PT_LOAD →
      (p.pVaddr + p.pMemsz).toNat = p.pVaddr.toNat + p.pMemsz.toNat :=
    fun p hp hl => toNat_add_of_lt (by have hle := hends p hp hl; omega)
  have hle : ∀ p ∈ table, p.pType = PT_LOAD → p.pVaddr.toNat + p.pMemsz.toNat ≤
      (table.foldl Extent.add
        { minVaddr := ~~~ 0, maxVaddr := 0, foundPtLoad := false }).maxVaddr.toNat :=
    fun p hp hl => hend p hp hl ▸ (Extent.covers_foldl hl _ (.inr hp)).le_max
  unfold phdrTableGetLoadSize
  dsimp only
  generalize table.foldl Extent.add _ = e at hattained hle
  have hhigh : highestEnd table = e.maxVaddr.toNat := by
    refine highestEnd_eq ?_ hle
    rcases hattained.max with hzero | ⟨p, hp, hl, heq⟩
    · refine ⟨seg, hmem, hload, ?_⟩
      have hseg := hle seg hmem hload
      rw [hzero, BitVec.ofNat_eq_ofNat, BitVec.toNat_zero] at hseg ⊢
      omega
    · exact ⟨p, hp, hl, (hend p hp hl).symm.trans (congrArg BitVec.toNat heq)⟩
  have hmax : e.maxVaddr.toNat ≤ 2 ^ (8 * a.wordBytes) - 4096 := by
    rcases hattained.max with hzero | ⟨p, hp, hl, heq⟩
    · rw [hzero, BitVec.ofNat_eq_ofNat, BitVec.toNat_zero]
      exact Nat.zero_le _
    · rw [← heq, hend p hp hl]
      exact hends p hp hl
  rw [toNat_pageEnd_of_lt a.twelve_le_bits, hhigh]
  unfold pageCeil
  omega

/-- For a table that starts in the first page, the load size is the span exactly if that is a
    number of `size_t`. -/
theorem toNat_size_eq_iff (hload : ∃ seg ∈ table, seg.pType = PT_LOAD)
    (hpage : pageFloor (lowestVaddr table) = 0) :
    (phdrTableGetLoadSize table).size.toNat = segmentSpan table ↔
      ∀ seg ∈ table, seg.pType = PT_LOAD →
        seg.pVaddr.toNat + seg.pMemsz.toNat ≤ 2 ^ (8 * a.wordBytes) - 4096 := by
  have hmin := toNat_minVaddr hload
  rw [segmentSpan, hpage, Nat.sub_zero]
  refine ⟨fun heq seg hmem hseg => ?_, fun hends => ?_⟩
  · have hlt := (phdrTableGetLoadSize table).size.isLt
    have hhigh := le_highestEnd hmem hseg
    obtain ⟨k, hk⟩ := four_thousand_dvd a.twelve_le_bits
    rw [heq] at hlt
    unfold pageCeil at hlt
    omega
  · rw [← toNat_maxVaddr hload hends]
    have hsize : (phdrTableGetLoadSize table).size =
      (phdrTableGetLoadSize table).maxVaddr - (phdrTableGetLoadSize table).minVaddr := rfl
    rw [hsize, toNat_sub_of_le (by omega)]
    omega

theorem pageFloor_lowestVaddr_eq_zero_iff (hload : ∃ seg ∈ table, seg.pType = PT_LOAD) :
    pageFloor (lowestVaddr table) = 0 ↔
      ∃ seg ∈ table, seg.pType = PT_LOAD ∧ seg.pVaddr.toNat < 4096 := by
  unfold pageFloor
  refine ⟨fun hzero => ?_, ?_⟩
  · obtain ⟨seg, hmem, hseg, heq⟩ := exists_lowestVaddr hload
    exact ⟨seg, hmem, hseg, by omega⟩
  · rintro ⟨seg, hmem, hseg, hlt⟩
    have hle := lowestVaddr_le hmem hseg
    omega

/-- The bias moves nothing exactly if the lowest segment starts in the first page. -/
theorem minVaddr_eq_zero_iff (hload : ∃ seg ∈ table, seg.pType = PT_LOAD) :
    (phdrTableGetLoadSize table).minVaddr = 0 ↔
      ∃ seg ∈ table, seg.pType = PT_LOAD ∧ seg.pVaddr.toNat < 4096 := by
  rw [← pageFloor_lowestVaddr_eq_zero_iff hload, ← toNat_minVaddr hload]
  exact ⟨fun heq => by rw [heq]; rfl, fun heq => BitVec.eq_of_toNat_eq heq⟩

end LoadSize

/-! ## `InitUnmapped` -/

namespace ElfView

variable {mem : Addr a → Byte} {loadAddress phdr : Addr a} {phdrCount : Nat} {view : ElfView a}

/-- The addresses of a view of the library with a table, at a load address. -/
structure Describes (view : ElfView a) (loadAddress : Addr a) (table : List (Phdr a)) : Prop where
  loadBias : view.loadBias = loadAddress - BitVec.ofNat _ (pageFloor (lowestVaddr table))
  dynamic : (table.find? (·.pType = PT_DYNAMIC)).map (view.loadBias + ·.pVaddr) =
    some view.dynamic
  loadSize : view.loadSize.toNat = segmentSpan table

theorem initUnmapped_ok (h : (view.initUnmapped mem loadAddress phdr phdrCount).2 = .ok ()) :
    (phdrTableGetLoadSize (readTable mem phdr phdrCount)).size ≠ 0 ∧
    (view.initUnmapped mem loadAddress phdr phdrCount).1.loadSize =
      (phdrTableGetLoadSize (readTable mem phdr phdrCount)).size ∧
    (view.initUnmapped mem loadAddress phdr phdrCount).1.loadBias =
      loadAddress - (phdrTableGetLoadSize (readTable mem phdr phdrCount)).minVaddr ∧
    ∃ entry, (readTable mem phdr phdrCount).find? (·.pType = PT_DYNAMIC) = some entry ∧
      (view.initUnmapped mem loadAddress phdr phdrCount).1.dynamic =
        loadAddress + entry.pVaddr := by
  unfold initUnmapped at h ⊢
  generalize readTable mem phdr phdrCount = table at h ⊢
  by_cases hsize : (phdrTableGetLoadSize table).size = 0
  · simp only [if_pos hsize] at h
    cases h
  simp only [if_neg hsize] at h ⊢
  by_cases hdynamic : (phdrTableGetDynamicSection table loadAddress).dynamic = 0
  · simp only [if_pos hdynamic] at h
    cases h
  simp only [if_neg hdynamic] at h ⊢
  split at h
  next => cases h
  next hphdr0 =>
    rw [if_neg hphdr0]
    refine ⟨hsize, rfl, rfl, ?_⟩
    cases hfind : table.find? (·.pType = PT_DYNAMIC) with
    | none =>
      rw [phdrTableGetDynamicSection, hfind] at hdynamic
      exact absurd rfl hdynamic
    | some entry =>
      refine ⟨entry, rfl, ?_⟩
      rw [phdrTableGetDynamicSection, hfind]

/-- The load address is the bias exactly if the lowest segment starts in the first page. -/
theorem initUnmapped_describes_iff
    (h : (view.initUnmapped mem loadAddress phdr phdrCount).2 = .ok ()) :
    (view.initUnmapped mem loadAddress phdr phdrCount).1.Describes loadAddress
        (readTable mem phdr phdrCount) ↔
      (∃ seg ∈ readTable mem phdr phdrCount, seg.pType = PT_LOAD ∧ seg.pVaddr.toNat < 4096) ∧
      ∀ seg ∈ readTable mem phdr phdrCount, seg.pType = PT_LOAD →
        seg.pVaddr.toNat + seg.pMemsz.toNat ≤ 2 ^ (8 * a.wordBytes) - 4096 := by
  obtain ⟨hsize, hloadSize, hbias, entry, hfind, hdynamic⟩ := initUnmapped_ok h
  generalize (view.initUnmapped mem loadAddress phdr phdrCount).1 = view' at *
  generalize readTable mem phdr phdrCount = table at *
  have hload := exists_loadable hsize
  have hmin : BitVec.ofNat _ (pageFloor (lowestVaddr table)) =
      (phdrTableGetLoadSize table).minVaddr := by
    rw [← toNat_minVaddr hload, BitVec.ofNat_toNat, BitVec.setWidth_eq]
  rw [← minVaddr_eq_zero_iff hload]
  refine ⟨fun hright => ?_, ?_⟩
  · have hzero : (phdrTableGetLoadSize table).minVaddr = 0 := by
      have hdyn := hright.dynamic
      rw [hfind, Option.map_some, Option.some.injEq, hbias, hdynamic, BitVec.add_left_inj] at hdyn
      simpa [BitVec.sub_eq_iff_eq_add] using hdyn
    refine ⟨hzero, ?_⟩
    rw [← toNat_size_eq_iff hload, ← hloadSize]
    · exact hright.loadSize
    · rw [← toNat_minVaddr hload, hzero]
      rfl
  · rintro ⟨hzero, hends⟩
    have hpage : pageFloor (lowestVaddr table) = 0 := by
      rw [← toNat_minVaddr hload, hzero]
      rfl
    refine ⟨?_, ?_, ?_⟩
    · rw [hbias, hmin]
    · rw [hfind, Option.map_some, hbias, hdynamic, hzero]
      simp
    · rw [hloadSize]
      exact (toNat_size_eq_iff hload hpage).mpr hends

/-- A segment from `vaddr` on that has all of the file, and a dynamic section in it. -/
def linkedAt (vaddr : Addr a) : List (Phdr a) :=
  [segment 0 vaddr 116 116 5, { segment 64 (vaddr + 64) 16 16 6 with pType := PT_DYNAMIC }]

def imageAt (start : Addr a) (bytes : List Byte) : Addr a → Byte :=
  fun x => bytes.getD (x - start).toNat 0

def viewLinkedAt (vaddr : Addr .i386) : ElfView .i386 × Except ViewError Unit :=
  ElfView.cleared.initUnmapped (imageAt 0x40000 (elf32 (linkedAt vaddr))) 0x40000 0x40034 2

theorem initUnmapped_describes_linkedAt :
    (viewLinkedAt 0).2 = .ok () ∧ (viewLinkedAt 0).1.Describes 0x40000 (linkedAt 0) := by
  have hok : (viewLinkedAt 0).2 = .ok () := by decide +kernel
  have htable : readTable (imageAt (0x40000 : Addr .i386) (elf32 (linkedAt (0 : Addr .i386))))
      0x40034 2 = linkedAt 0 := by decide +kernel
  have hiff := initUnmapped_describes_iff hok
  rw [htable] at hiff
  exact ⟨hok, hiff.mpr (by decide +kernel)⟩

/-- Linked at `0x1000` and loaded at `0x40000`, the dynamic section is at `0x40040`, and is looked
    for a page behind it. -/
theorem initUnmapped_not_describes :
    (viewLinkedAt 0x1000).2 = .ok () ∧ (viewLinkedAt 0x1000).1.loadBias = 0x3f000 ∧
      (viewLinkedAt 0x1000).1.dynamic = 0x41040 ∧
      ¬ (viewLinkedAt 0x1000).1.Describes 0x40000 (linkedAt 0x1000) := by
  refine ⟨by decide +kernel, by decide +kernel, by decide +kernel, fun hright => ?_⟩
  exact absurd hright.dynamic (by decide +kernel)

end ElfView

end CrystaxNdk.CrazyLinker
