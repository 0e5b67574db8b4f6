import CrystaxNdk.CrazyLinker.ElfRelro

/-!
# The pages that `InitFrom` takes

The loop of `InitFrom` replaces the pages of the section that are the same in the region, block by
block. `Swapped` says how far it is. A page that is replaced has the bytes it had before, and so the
comparisons that follow are those with the section as it was.
-/

namespace CrystaxNdk.CrazyLinker

open Lib

variable {a : Arch}

namespace SharedRelro

/-- The offset of an address from the start of the section. -/
def offset (relroStart x : Addr a) : Nat := (x - relroStart).toNat

/-- The address is in one of the pages below `p` that are the same. -/
def Similar (mem : Addr a → Byte) (content : Nat → Byte) (relroStart : Addr a) (p : Nat)
    (x : Addr a) : Prop :=
  offset relroStart x < p ∧
    pageEquals mem content relroStart (pageFloor (offset relroStart x)) = true

instance (mem : Addr a → Byte) (content : Nat → Byte) (relroStart : Addr a) (p : Nat)
    (x : Addr a) : Decidable (Similar mem content relroStart p x) :=
  inferInstanceAs (Decidable (_ ∧ _))

variable {mem : Addr a → Byte} {content : Nat → Byte} {relroStart x : Addr a} {p p' : Nat}

theorem offset_block (hle : p ≤ offset relroStart x) :
    (x - (relroStart + BitVec.ofNat _ p)).toNat = offset relroStart x - p := by
  have hlt : p < 2 ^ (8 * a.wordBytes) := hle.trans_lt (x - relroStart).isLt
  rw [sub_add_eq_sub_sub, toNat_sub_of_le, toNat_ofNat_of_lt hlt]
  · rfl
  · rw [toNat_ofNat_of_lt hlt]
    exact hle

theorem inRange_block (hlt : p < p') (hp' : p' ≤ 2 ^ (8 * a.wordBytes)) :
    InRange (relroStart + BitVec.ofNat _ p) (p' - p) x ↔
      p ≤ offset relroStart x ∧ offset relroStart x < p' := by
  unfold InRange
  rcases Nat.lt_or_ge (offset relroStart x) p with hbefore | hle
  · have hoff : (x - relroStart).toNat < p := hbefore
    have hwrap : (x - (relroStart + BitVec.ofNat _ p)).toNat =
        2 ^ (8 * a.wordBytes) - p + (x - relroStart).toNat := by
      rw [sub_add_eq_sub_sub, BitVec.toNat_sub, toNat_ofNat_of_lt (hlt.trans_le hp'),
        Nat.mod_eq_of_lt (by omega)]
    omega
  · rw [offset_block hle]
    omega

theorem add_offset (relroStart x : Addr a) :
    relroStart + BitVec.ofNat _ (offset relroStart x) = x := by
  rw [offset, BitVec.ofNat_toNat, BitVec.setWidth_eq, add_sub_cancel]

theorem pageEquals_iff : pageEquals mem content relroStart p = true ↔
    ∀ i < 4096, mem (relroStart + BitVec.ofNat _ (p + i)) = content (p + i) := by
  simp [pageEquals]

theorem mem_eq_content
    (h : pageEquals mem content relroStart (pageFloor (offset relroStart x)) = true) :
    mem x = content (offset relroStart x) := by
  have hbyte := pageEquals_iff.mp h (offset relroStart x % 4096) (Nat.mod_lt _ (by decide))
  have hsum : pageFloor (offset relroStart x) + offset relroStart x % 4096 =
      offset relroStart x := by
    unfold pageFloor
    omega
  rwa [hsum, add_offset] at hbyte

/-! ## The loop -/

/-- Pages below `p` have been swapped, of those that are the same. -/
structure Swapped (mem : Addr a → Byte) (content : Nat → Byte) (relroStart : Addr a)
    (st : RelroState a) (p : Nat) (st' : RelroState a) : Prop where
  mem_eq : st'.space.mem = mem
  shared_eq : ∀ x, st'.shared x =
    if Similar mem content relroStart p x then some (offset relroStart x) else st.shared x
  prot_eq : ∀ x, st'.space.prot x =
    if Similar mem content relroStart p x then some { Prot.none with read := true }
    else st.space.prot x
  similarSize_eq : st'.similarSize = 0 ↔
    ∀ q, 4096 ∣ q → q < p → pageEquals mem content relroStart q = false

variable {k : AshmemKernel a} {st st' : RelroState a}

/-- What is said of the pages of a block holds of the page of each address in it. -/
theorem pageEquals_of_uniform {value : Bool}
    (h : Uniform 4096 (pageEquals mem content relroStart) value p p') (hp : 4096 ∣ p)
    (hle : p ≤ offset relroStart x) (hlt : offset relroStart x < p') :
    pageEquals mem content relroStart (pageFloor (offset relroStart x)) = value := by
  refine h _ (Nat.dvd_mul_left _ _) ?_ ((pageFloor_le _).trans_lt hlt)
  obtain ⟨i, rfl⟩ := hp
  unfold pageFloor
  omega

theorem similar_skip (h : Uniform 4096 (pageEquals mem content relroStart) false p p')
    (hp : 4096 ∣ p) (hle : p ≤ p') :
    Similar mem content relroStart p' x ↔ Similar mem content relroStart p x := by
  refine ⟨fun hx => ⟨?_, hx.2⟩, fun hx => ⟨hx.1.trans_le hle, hx.2⟩⟩
  by_contra hge
  have hfalse := pageEquals_of_uniform h hp (Nat.not_lt.mp hge) hx.1
  rw [hx.2] at hfalse
  cases hfalse

theorem similar_take (h : Uniform 4096 (pageEquals mem content relroStart) true p p')
    (hp : 4096 ∣ p) (hle : p ≤ p') :
    Similar mem content relroStart p' x ↔
      (p ≤ offset relroStart x ∧ offset relroStart x < p') ∨
        Similar mem content relroStart p x := by
  constructor
  · intro hx
    rcases Nat.lt_or_ge (offset relroStart x) p with hlt | hge
    · exact Or.inr ⟨hlt, hx.2⟩
    · exact Or.inl ⟨hge, hx.1⟩
  · rintro (hx | hx)
    · exact ⟨hx.2, pageEquals_of_uniform h hp hx.1 hx.2⟩
    · exact ⟨hx.1.trans_le hle, hx.2⟩

theorem Swapped.skip (h : Swapped mem content relroStart st p st') (hp : 4096 ∣ p) (hle : p ≤ p')
    (hsame : Uniform 4096 (pageEquals mem content relroStart) false p p') :
    Swapped mem content relroStart st p' st' := by
  refine ⟨h.mem_eq, fun x => ?_, fun x => ?_, ?_⟩
  · simp only [h.shared_eq x, similar_skip hsame hp hle]
  · simp only [h.prot_eq x, similar_skip hsame hp hle]
  · rw [h.similarSize_eq]
    refine ⟨fun hnone q hq hlt => ?_, fun hnone q hq hlt => hnone q hq (hlt.trans_le hle)⟩
    rcases Nat.lt_or_ge q p with hqp | hqp
    · exact hnone q hq hqp
    · exact hsame q hq hqp hlt

theorem fill_block {β : Type*} {f : Addr a → β} {g : Nat → β} (hlt : p < p')
    (hp' : p' ≤ 2 ^ (8 * a.wordBytes)) (x : Addr a) :
    fill f (relroStart + BitVec.ofNat _ p) (p' - p) g x =
      if p ≤ offset relroStart x ∧ offset relroStart x < p' then g (offset relroStart x - p)
      else f x := by
  by_cases hx : p ≤ offset relroStart x ∧ offset relroStart x < p'
  · rw [fill_of_inRange ((inRange_block hlt hp').mpr hx), offset_block hx.1, if_pos hx]
  · rw [fill_of_not_inRange fun hin => hx ((inRange_block hlt hp').mp hin), if_neg hx]

theorem swapBlock_eq (hmunmap : ∀ addr n, k.munmap addr n = none)
    (hmmap : ∀ addr n offset, k.mmap addr n offset = none) :
    swapBlock k content relroStart st' p p' =
      ({ (st'.unmap (relroStart + BitVec.ofNat _ p) (p' - p)).mapShared content
          (relroStart + BitVec.ofNat _ p) (p' - p) p with
        similarSize := st'.similarSize + (p' - p) }, true) := by
  simp only [SharedRelro.swapBlock, swapPagesFromFd, hmunmap, hmmap]
  rfl

theorem Swapped.swapBlock (h : Swapped mem content relroStart st p st') (hp : 4096 ∣ p)
    (hlt : p < p') (hp' : p' ≤ 2 ^ (8 * a.wordBytes)) (hmunmap : ∀ addr n, k.munmap addr n = none)
    (hmmap : ∀ addr n offset, k.mmap addr n offset = none)
    (hsame : Uniform 4096 (pageEquals mem content relroStart) true p p') :
    (swapBlock k content relroStart st' p p').2 = true ∧
      Swapped mem content relroStart st p' (swapBlock k content relroStart st' p p').1 := by
  rw [swapBlock_eq hmunmap hmmap]
  refine ⟨rfl, ?_, fun x => ?_, fun x => ?_, ?_⟩
  · funext x
    simp only [RelroState.mapShared, RelroState.unmap, fill_block hlt hp', h.mem_eq]
    split
    next hx =>
      rw [Nat.add_sub_cancel' hx.1, mem_eq_content (pageEquals_of_uniform hsame hp hx.1 hx.2)]
    next => rfl
  · simp only [RelroState.mapShared, RelroState.unmap, fill_block hlt hp',
      similar_take hsame hp hlt.le]
    by_cases hx : p ≤ offset relroStart x ∧ offset relroStart x < p'
    · simp only [Nat.add_sub_cancel' hx.1, hx, and_self, true_or, if_true]
    · simp only [hx, false_or, if_false, h.shared_eq x]
  · simp only [RelroState.mapShared, RelroState.unmap, fill_block hlt hp',
      similar_take hsame hp hlt.le]
    by_cases hx : p ≤ offset relroStart x ∧ offset relroStart x < p'
    · simp only [hx, and_self, true_or, if_true]
    · simp only [hx, false_or, if_false, h.prot_eq x]
  · constructor
    · intro hzero
      dsimp only at hzero
      omega
    · intro hnone
      have htrue := hsame p hp le_rfl hlt
      rw [hnone p hp hlt] at htrue
      cases htrue

/-! ## The result -/

theorem nextPage_eq {relroSize : Addr a} (halign : 4096 ∣ relroSize.toNat) (hp : 4096 ∣ p)
    (hlt : p < relroSize.toNat) : nextPage a p = p + 4096 := by
  have hle := add_le_of_dvd_of_lt hp halign hlt
  exact Nat.mod_eq_of_lt (hle.trans_lt relroSize.isLt)

theorem scanBlocks_swapped {relroSize : Addr a} (hpos : 0 < relroSize.toNat)
    (halign : 4096 ∣ relroSize.toNat) (hmunmap : ∀ addr n, k.munmap addr n = none)
    (hmmap : ∀ addr n offset, k.mmap addr n offset = none) {fuel : Nat}
    (hfuel : relroSize.toNat < fuel * 4096) (content : Nat → Byte) (relroStart : Addr a)
    (st : RelroState a) :
    ∃ st', scanBlocks (nextPage a) relroSize.toNat
        (fun st => pageEquals st.space.mem content relroStart) (swapBlock k content relroStart)
        fuel { st with similarSize := 0 } 0 = some (st', true) ∧
      Swapped st.space.mem content relroStart st relroSize.toNat st' := by
  have htest : ∀ p st', Swapped st.space.mem content relroStart st p st' → ∀ q, 4096 ∣ q →
      q < relroSize.toNat → pageEquals st'.space.mem content relroStart q =
        pageEquals st.space.mem content relroStart q := by
    intro p st' h q _ _
    rw [h.mem_eq]
  refine scanBlocks_induct halign (fun p hp hlt => nextPage_eq halign hp hlt) htest ?_ ?_
    (dvd_zero _) hpos (by omega) ?_
  · intro p p' st' hp _ hle _ hsame h
    exact h.skip hp hle hsame
  · intro p p' st' hp _ hlt hle hsame h
    exact h.swapBlock hp hlt (hle.trans relroSize.isLt.le) hmunmap hmmap hsame
  · exact ⟨rfl, fun x => by simp [Similar], fun x => by simp [Similar], by simp⟩

end SharedRelro

/-- What the kernel answers for a descriptor of a read-only region, when nothing else fails. -/
structure AshmemKernel.ReadOnly (k : AshmemKernel a) : Prop where
  mapWritable : k.mapWritable = some .eperm
  mapReadable : k.mapReadable = none
  makeWritable : k.makeWritable = some .eacces
  mapRegion : k.mapRegion = none
  munmap : ∀ addr n, k.munmap addr n = none
  mmap : ∀ addr n offset, k.mmap addr n offset = none

namespace SharedRelro

variable {k : AshmemKernel a}

/-- **Sharing RELRO pages.** `InitFrom` returns; the pages that are the same are mapped from the
    region at their offsets and read-only, the others are as before, no byte changes, and the result
    is true if there is such a page. -/
theorem initFrom_spec (hk : k.ReadOnly) (content : Nat → Byte) (relroStart : Addr a)
    {relroSize : Addr a} (hpos : 0 < relroSize.toNat) (halign : 4096 ∣ relroSize.toNat) {fuel : Nat}
    (hfuel : relroSize.toNat < fuel * 4096) (relro : SharedRelro a) (st : RelroState a) :
    ∃ relro' st' ok, initFrom k content relroStart relroSize fuel relro st =
        some (relro', st', ok) ∧
      st'.space.mem = st.space.mem ∧
      (∀ x, st'.shared x =
        if Similar st.space.mem content relroStart relroSize.toNat x then
          some (offset relroStart x) else st.shared x) ∧
      (∀ x, st'.space.prot x =
        if Similar st.space.mem content relroStart relroSize.toNat x then
          some { Prot.none with read := true } else st.space.prot x) ∧
      (ok = true ↔ ∃ p, 4096 ∣ p ∧ p < relroSize.toNat ∧
        ∀ i < 4096, st.space.mem (relroStart + BitVec.ofNat _ (p + i)) = content (p + i)) := by
  obtain ⟨st', hscan, hswapped⟩ :=
    scanBlocks_swapped hpos halign hk.munmap hk.mmap hfuel content relroStart st
  have hcheck : k.checkFileDescriptorIsReadOnly = .ok () := by
    simp [AshmemKernel.checkFileDescriptorIsReadOnly, hk.mapWritable, hk.mapReadable,
      hk.makeWritable]
  have hsome : st'.similarSize ≠ 0 ↔ ∃ p, 4096 ∣ p ∧ p < relroSize.toNat ∧
      ∀ i < 4096, st.space.mem (relroStart + BitVec.ofNat _ (p + i)) = content (p + i) := by
    simp only [ne_eq, hswapped.similarSize_eq, not_forall, Bool.not_eq_false, pageEquals_iff,
      exists_prop]
  unfold initFrom
  simp only [hcheck, hk.mapRegion, hscan, Option.map_some, true_and]
  by_cases hzero : st'.similarSize = 0
  · rw [if_neg (not_not.mpr hzero)]
    refine ⟨relro, st', false, rfl, hswapped.mem_eq, hswapped.shared_eq, hswapped.prot_eq, ?_⟩
    rw [← hsome]
    simp [hzero]
  · rw [if_pos hzero]
    exact ⟨_, st', true, rfl, hswapped.mem_eq, hswapped.shared_eq, hswapped.prot_eq,
      iff_of_true rfl (hsome.mp hzero)⟩

def readOnlyKernel : AshmemKernel .arm where
  mapWritable := some .eperm
  mapReadable := none
  makeWritable := some .eacces
  mapRegion := none
  munmap _ _ := none
  mmap _ _ _ := none
  strerror _ := []

theorem readOnly_readOnlyKernel : readOnlyKernel.ReadOnly :=
  ⟨rfl, rfl, rfl, rfl, fun _ _ => rfl, fun _ _ _ => rfl⟩

/-- The first of two pages is the same in the region. -/
def firstPage (offset : Nat) : Byte := if offset < 4096 then 0 else 1

def zeroed : RelroState .arm where
  space := { mem := fun _ => 0, prot := fun _ => none }
  shared _ := none
  similarSize := 0
  error := none

theorem initFrom_firstPage :
    ∃ relro st, initFrom readOnlyKernel firstPage 0x40000 0x2000 3 ⟨0, 0⟩ zeroed =
        some (relro, st, true) ∧
      st.shared 0x40010 = some 0x10 ∧ st.shared 0x41010 = none := by
  have hpages : pageEquals zeroed.space.mem firstPage 0x40000 0 = true ∧
      pageEquals zeroed.space.mem firstPage 0x40000 4096 = false := by decide +kernel
  have hsize : (0x2000 : Addr .arm).toNat = 0x2000 := rfl
  obtain ⟨relro, st, ok, hrun, -, hshared, -, hok⟩ :=
    initFrom_spec readOnly_readOnlyKernel firstPage (0x40000 : Addr .arm)
      (by rw [hsize]; decide) (by rw [hsize]; decide)
      (by rw [hsize]; decide : (0x2000 : Addr .arm).toNat < 3 * 4096) ⟨0, 0⟩ zeroed
  obtain rfl : ok = true :=
    hok.mpr ⟨0, dvd_zero _, by rw [hsize]; decide, pageEquals_iff.mp hpages.1⟩
  refine ⟨relro, st, hrun, ?_, ?_⟩
  · rw [hshared, if_pos ⟨by decide, hpages.1⟩]
    rfl
  · rw [hshared, if_neg fun h => ?_]
    · rfl
    · have heq : pageEquals zeroed.space.mem firstPage 0x40000 4096 = true := h.2
      rw [hpages.2] at heq
      cases heq

end SharedRelro

end CrystaxNdk.CrazyLinker
