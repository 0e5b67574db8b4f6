import CrystaxNdk.CrazyLinker.Proof.Relocations

/-!
# Relocating a copy for another address

To share its RELRO section with another process, a library is relocated once and the section is
then adjusted for the address it has over there. `CopyAndRelocate` only looks at the entries of
the main table that have no symbol, and at the local entries of the global offset table of MIPS.
The result is what a relocation at that address gives, if the words of these sites are the only
ones in the section that move with the library.
-/

namespace CrystaxNdk.CrazyLinker

open Lib List

variable {a : Arch}

/-! ## The library at another address -/

namespace ElfRelocations

/-- The same library, loaded `delta` further on. -/
def rebase (rels : ElfRelocations a) (delta : Addr a) : ElfRelocations a :=
  { rels with
    loadBias := rels.loadBias + delta
    pltGot := if rels.pltGot = 0 then 0 else rels.pltGot + delta }

section Rebase

variable {rels : ElfRelocations a} {delta : Addr a}

theorem pltGot_rebase_eq_zero_iff (hgot : rels.pltGot ≠ 0 → rels.pltGot + delta ≠ 0) :
    (rels.rebase delta).pltGot = 0 ↔ rels.pltGot = 0 := by
  unfold rebase
  by_cases hzero : rels.pltGot = 0
  · simp [hzero]
  · rw [if_neg hzero]
    exact ⟨fun h => absurd h (hgot hzero), fun h => absurd h hzero⟩

theorem sites_rebase (hgot : rels.pltGot ≠ 0 → rels.pltGot + delta ≠ 0) :
    (rels.rebase delta).sites = rels.sites := by
  unfold sites gotSites
  simp only [ne_eq, pltGot_rebase_eq_zero_iff hgot]
  rfl

theorem pltGot_ne_of_mem_gotSites {s : Site a} (hs : s ∈ rels.gotSites) : rels.pltGot ≠ 0 := by
  intro hzero
  have hnil : rels.gotSites = [] := if_neg fun hand => hand.2 hzero
  rw [hnil] at hs
  exact absurd hs not_mem_nil

theorem gotEntry_rebase (hgot : rels.pltGot ≠ 0) (n : Nat) :
    (rels.rebase delta).gotEntry n = rels.gotEntry n + delta := by
  unfold gotEntry rebase
  rw [if_neg hgot]
  exact add_right_comm _ _ _

theorem target_rebase {s : Site a} (hs : s ∈ rels.sites) :
    s.target (rels.rebase delta) = s.target rels + delta := by
  cases s with
  | plt r => exact (add_assoc _ _ _).symm
  | main r => exact (add_assoc _ _ _).symm
  | gotReserved n =>
    exact gotEntry_rebase (pltGot_ne_of_mem_gotSites (by simpa [sites] using hs)) n
  | gotLocal n => exact gotEntry_rebase (pltGot_ne_of_mem_gotSites (by simpa [sites] using hs)) n
  | gotGlobal idx =>
    exact gotEntry_rebase (pltGot_ne_of_mem_gotSites (by simpa [sites] using hs)) _

end Rebase

/-! ## The adjusted sites -/

def moves : Site a → Bool
  | .main r => r.relSymbol = 0 ∧ adjusts r.code
  | .gotLocal _ => true
  | .plt _ | .gotReserved _ | .gotGlobal _ => false

theorem inSection_iff {srcAddr size x : Addr a}
    (hwrap : srcAddr.toNat + size.toNat < 2 ^ (8 * a.wordBytes)) :
    inSection srcAddr size x = true ↔ InRange srcAddr size.toNat x := by
  unfold inSection
  rw [inRange_iff hwrap.le, decide_eq_true_iff, BitVec.lt_def, ge_iff_le, BitVec.le_def,
    toNat_add_of_lt hwrap]
  omega

theorem filterMap_ite {α β : Type*} (p : α → Bool) (f : α → β) (l : List α) :
    l.filterMap (fun x => if p x then some (f x) else none) = (l.filter p).map f := by
  induction l with
  | nil => rfl
  | cons x l ih => by_cases hp : p x <;> simp [hp, ih]

section Adjusted

variable {rels : ElfRelocations a} {srcAddr dstAddr mapAddr size : Addr a}

/-- The sites in the section that are adjusted. -/
def movesIn (rels : ElfRelocations a) (srcAddr size : Addr a) (s : Site a) : Bool :=
  moves s ∧ InRange srcAddr size.toNat (s.target rels)

/-- The updates `CopyAndRelocate` makes for a list of sites. -/
def moveUpdates (rels : ElfRelocations a) (srcAddr dstAddr mapAddr : Addr a)
    (ss : List (Site a)) : List (WordUpdate a) :=
  updatesAt (fun s => s.target rels + (dstAddr - srcAddr)) (fun _ old => old + (mapAddr - srcAddr))
    ss

variable (hwrap : srcAddr.toNat + size.toNat < 2 ^ (8 * a.wordBytes))

include hwrap

theorem adjustments_eq :
    rels.adjustments srcAddr dstAddr mapAddr size =
      rels.moveUpdates srcAddr dstAddr mapAddr
        (((active rels.relocations).map Site.main).filter (rels.movesIn srcAddr size)) := by
  unfold adjustments moveUpdates updatesAt
  rw [filter_map, map_map, active, filter_filter, ← filterMap_ite]
  congr 1
  funext r
  have hmoves : rels.movesIn srcAddr size (.main r) = true ↔ r.relSymbol = 0 ∧
      adjusts r.code = true ∧ inSection srcAddr size (r.target rels.loadBias) = true := by
    rw [inSection_iff hwrap]
    simp [movesIn, moves, Site.target, and_assoc]
  simp only [Function.comp_apply, Bool.and_eq_true, hmoves, decide_eq_true_eq]
  split_ifs <;> simp_all [Site.target]

theorem gotAdjustments_eq :
    rels.gotAdjustments srcAddr dstAddr mapAddr size =
      rels.moveUpdates srcAddr dstAddr mapAddr
        (rels.gotSites.filter (rels.movesIn srcAddr size)) := by
  unfold gotAdjustments gotSites
  by_cases hgot : a = .mips ∧ rels.pltGot ≠ 0
  · rw [if_pos hgot, if_pos hgot, filter_append, filter_append, filter_map,
      filter_map]
    have hreserved : [Site.gotReserved 0, Site.gotReserved 1].filter
        (rels.movesIn srcAddr size) = [] := by simp [movesIn, moves]
    have hlocal : rels.movesIn srcAddr size ∘ Site.gotLocal =
        fun n => inSection srcAddr size (rels.gotEntry n) := by
      funext n
      rw [Bool.eq_iff_iff, inSection_iff hwrap]
      simp [movesIn, moves, Site.target]
    have hglobal : rels.mipsGotSymbols.filter (rels.movesIn srcAddr size ∘ Site.gotGlobal) = [] :=
      filter_eq_nil_iff.mpr fun idx _ => by simp [movesIn, moves]
    rw [filterMap_ite, hreserved, hlocal, hglobal, nil_append, map_nil,
      append_nil, moveUpdates, updatesAt, map_map]
    rfl
  · rw [if_neg hgot, if_neg hgot]
    rfl

omit hwrap in
theorem filter_plt :
    ((active rels.pltRelocations).map Site.plt).filter (rels.movesIn srcAddr size) = [] := by
  rw [filter_eq_nil_iff]
  intro s hs
  obtain ⟨r, -, rfl⟩ := mem_map.mp hs
  simp [movesIn, moves]

theorem allAdjustments_eq :
    rels.adjustments srcAddr dstAddr mapAddr size ++
        rels.gotAdjustments srcAddr dstAddr mapAddr size =
      rels.moveUpdates srcAddr dstAddr mapAddr
        (rels.sites.filter (rels.movesIn srcAddr size)) := by
  rw [adjustments_eq hwrap, gotAdjustments_eq hwrap, sites, filter_append,
    filter_append, filter_plt, nil_append]
  unfold moveUpdates updatesAt
  rw [map_append]

end Adjusted

/-! ## The values at both addresses -/

/-- The symbol of the entry is found at the same address by both resolvers, and the word does not
    depend on where it is. -/
structure Fixed (symbols : ElfSymbols) (resolver resolver' : SymbolResolver a) (r : Reloc a) :
    Prop where
  symbol : r.relSymbol ≠ 0
  found : resolver (symbols.lookupNameById r.relSymbol) ≠ 0
  same : resolver' (symbols.lookupNameById r.relSymbol) =
    resolver (symbols.lookupNameById r.relSymbol)
  notPc : r.code ≠ some .i386Pc32

/-- The sites of the section: relative entries without a symbol are in the main table, and the
    other words are fixed. -/
def Movable (symbols : ElfSymbols) (resolver resolver' : SymbolResolver a) : Site a → Prop
  | .plt r => Fixed symbols resolver resolver' r
  | .main r => (r.relSymbol = 0 ∧ adjusts r.code = true) ∨ Fixed symbols resolver resolver' r
  | .gotReserved _ | .gotLocal _ => True
  | .gotGlobal idx =>
    resolver' (symbols.lookupNameById idx) = resolver (symbols.lookupNameById idx)

section Values

variable {rels : ElfRelocations a} {delta : Addr a} {symbols : ElfSymbols}
  {resolver resolver' : SymbolResolver a} {r : Reloc a}

theorem applyReloc_of_rel (h : rels.relocationsType = .rel) :
    rels.applyReloc = applyRelReloc rels.loadBias := by
  unfold applyReloc
  rw [h]

theorem applyReloc_of_rela (h : rels.relocationsType = .rela) :
    rels.applyReloc = applyRelaReloc rels.loadBias := by
  unfold applyReloc
  rw [h]

theorem entryValue_rebase_fixed (h : Fixed symbols resolver resolver' r) (old : Addr a) :
    (rels.rebase delta).entryValue symbols resolver' r old =
      rels.entryValue symbols resolver r old := by
  obtain ⟨hsymbol, hfound, hsame, hpc⟩ := h
  have hvalue : symbolValue symbols resolver' r = symbolValue symbols resolver r := by
    unfold symbolValue
    rw [if_pos hsymbol, if_pos hsymbol, hsame]
  unfold entryValue
  rw [updateOf_resolved fun _ => hsame ▸ hfound, updateOf_resolved fun _ => hfound, hvalue]
  cases htype : rels.relocationsType with
  | rel =>
    rw [applyReloc_of_rel htype, applyReloc_of_rel (show (rels.rebase delta).relocationsType = _
      from htype)]
    unfold applyRelReloc
    rcases hcode : r.code with _ | code
    · rfl
    · cases code <;> first | exact absurd hcode hpc | rfl | simp [hsymbol]
  | rela =>
    rw [applyReloc_of_rela htype, applyReloc_of_rela (show (rels.rebase delta).relocationsType = _
      from htype)]
    unfold applyRelaReloc
    rcases hcode : r.code with _ | code
    · rfl
    · cases code <;> first | rfl | simp [hsymbol]

theorem entryValue_rebase_relative (hok : rels.Accepted r) (hsymbol : r.relSymbol = 0)
    (hadjusts : adjusts r.code = true) (old : Addr a) :
    (rels.rebase delta).entryValue symbols resolver' r old =
      rels.entryValue symbols resolver r old + delta := by
  obtain ⟨code, hcode, hhandles, -⟩ := hok
  rw [hcode] at hadjusts
  unfold entryValue
  rw [updateOf_resolved fun h => absurd hsymbol h, updateOf_resolved fun h => absurd hsymbol h]
  cases htype : rels.relocationsType with
  | rel =>
    rw [htype] at hhandles
    rw [applyReloc_of_rel htype, applyReloc_of_rel (show (rels.rebase delta).relocationsType = _
      from htype)]
    unfold applyRelReloc
    rw [hcode]
    cases code <;> cases hadjusts <;> cases hhandles <;>
      simp [hsymbol, rebase, add_assoc]
  | rela =>
    rw [htype] at hhandles
    rw [applyReloc_of_rela htype, applyReloc_of_rela (show (rels.rebase delta).relocationsType = _
      from htype)]
    unfold applyRelaReloc
    rw [hcode]
    cases code <;> cases hadjusts <;> cases hhandles
    simp [hsymbol, rebase, add_right_comm]

theorem value_rebase
    (haccepted : ∀ r ∈ rels.entries, r.relType ≠ 0 → rels.Accepted r) {s : Site a}
    (hs : s ∈ rels.sites) (hmovable : Movable symbols resolver resolver' s) (old : Addr a) :
    s.value (rels.rebase delta) symbols resolver' old =
      if moves s then s.value rels symbols resolver old + delta
      else s.value rels symbols resolver old := by
  cases s with
  | plt r => exact entryValue_rebase_fixed hmovable old
  | main r =>
    rcases hmovable with ⟨hsymbol, hadjusts⟩ | hfixed
    · have hr : r ∈ rels.relocations ∧ r.relType ≠ 0 := by
        simpa [sites, gotSites, mem_active, ite_eq_iff] using hs
      rw [if_pos (by simp [moves, hsymbol, hadjusts])]
      exact entryValue_rebase_relative
        (haccepted r (mem_append_right _ hr.1) hr.2) hsymbol hadjusts old
    · rw [if_neg (by simp [moves, hfixed.symbol])]
      exact entryValue_rebase_fixed hfixed old
  | gotReserved n => cases n <;> rfl
  | gotLocal n => exact (add_assoc _ _ _).symm
  | gotGlobal idx => exact hmovable

theorem update_rebase (hgot : rels.pltGot ≠ 0 → rels.pltGot + delta ≠ 0) :
    (rels.rebase delta).sites.map (Site.update (rels.rebase delta) symbols resolver') =
      updatesAt (fun s => s.target rels + delta)
        (Site.value (rels.rebase delta) symbols resolver') rels.sites := by
  rw [sites_rebase hgot]
  refine map_congr_left fun s hs => ?_
  simp only [← target_rebase hs]
  rfl

end Values

/-! ## The copy -/

/-- The section does not wrap around, its words are inside or outside as a whole, and those
    inside are movable. -/
structure SectionRules (rels : ElfRelocations a) (symbols : ElfSymbols)
    (resolver resolver' : SymbolResolver a) (srcAddr size : Addr a) : Prop where
  noWrap : srcAddr.toNat + size.toNat < 2 ^ (8 * a.wordBytes)
  disjoint : rels.SitesDisjoint
  whole : ∀ s ∈ rels.sites, ∀ x, InRange (s.target rels) a.wordBytes x →
    (InRange srcAddr size.toNat x ↔ InRange srcAddr size.toNat (s.target rels))
  movable : ∀ s ∈ rels.sites, InRange srcAddr size.toNat (s.target rels) →
    Movable symbols resolver resolver' s

section Copy

variable {rels : ElfRelocations a} {symbols : ElfSymbols}
  {resolver resolver' : SymbolResolver a} {mprotect mprotect' : Mprotect a}
  {st st' : RelocState a} {srcAddr dstAddr mapAddr size : Addr a}

/-- **A copy for another address.** The library is relocated in `st`, and in `st'` the same library
    is relocated at the address where the section is at `mapAddr`. The adjusted copy of the
    section from the first is the section in the second. -/
theorem copyAndRelocate_eq
    (hok : (rels.applyAll mprotect symbols resolver st).2 = true)
    (hok' : ((rels.rebase (mapAddr - srcAddr)).applyAll mprotect' symbols resolver' st').2 = true)
    (hgot : rels.pltGot ≠ 0 → rels.pltGot + (mapAddr - srcAddr) ≠ 0)
    (hrules : rels.SectionRules symbols resolver resolver' srcAddr size)
    (himage : SameBytes size.toNat st'.space.mem mapAddr st.space.mem srcAddr) :
    SameBytes size.toNat
      (rels.copyAndRelocate srcAddr dstAddr mapAddr size
        (rels.applyAll mprotect symbols resolver st).1.space.mem) dstAddr
      ((rels.rebase (mapAddr - srcAddr)).applyAll mprotect' symbols resolver' st').1.space.mem
      mapAddr := by
  -- both addresses as distances from the section
  obtain ⟨d, rfl⟩ : ∃ d, dstAddr = srcAddr + d := ⟨_, (add_sub_cancel srcAddr dstAddr).symm⟩
  obtain ⟨delta, rfl⟩ : ∃ delta, mapAddr = srcAddr + delta :=
    ⟨_, (add_sub_cancel srcAddr mapAddr).symm⟩
  simp only [add_sub_cancel_left] at hok' hgot ⊢
  intro i hi
  have haccepted : ∀ r ∈ rels.entries, r.relType ≠ 0 → rels.Accepted r := fun r hr htype =>
    exists_updateOf_iff.mp ((applyAll_true_iff.mp hok).2.1 r hr htype)
  have hvalue : ∀ s ∈ rels.sites, InRange srcAddr size.toNat (s.target rels) → ∀ old,
      s.value (rels.rebase delta) symbols resolver' old =
        if moves s then (fun word => word + delta) (s.value rels symbols resolver old)
        else s.value rels symbols resolver old := fun s hs hin =>
    value_rebase haccepted hs (hrules.movable s hs hin)
  have himage' : ∀ x, InRange srcAddr size.toNat x →
      st'.space.mem (x + delta) = st.space.mem x := by
    intro x hx
    have hx' := himage _ hx
    rwa [BitVec.ofNat_toNat, BitVec.setWidth_eq, add_right_comm, add_sub_cancel] at hx'
  rw [mem_applyAll hok, mem_applyAll hok', update_rebase hgot, copyAndRelocate,
    allAdjustments_eq hrules.noWrap, add_right_comm srcAddr d, add_right_comm srcAddr delta]
  unfold moveUpdates
  rw [add_sub_cancel_left, add_sub_cancel_left]
  exact runUpdates_moved a.wordBytes_le_two_pow hrules.disjoint hrules.whole himage' hvalue
    (inRange_add hi size.isLt.le)

end Copy

/-! ### Libraries with one site -/

section OneSite

variable {rels : ElfRelocations a} {s : Site a} {srcAddr size : Addr a}

theorem sitesDisjoint_of_sites_eq (hsites : rels.sites = [s]) : rels.SitesDisjoint := by
  unfold SitesDisjoint
  rw [hsites]
  exact pairwise_singleton _ _

theorem whole_of_sites_eq (hsites : rels.sites = [s]) (htarget : s.target rels = srcAddr)
    (hsize : a.wordBytes ≤ size.toNat) :
    ∀ t ∈ rels.sites, ∀ x, InRange (t.target rels) a.wordBytes x →
      (InRange srcAddr size.toNat x ↔ InRange srcAddr size.toNat (t.target rels)) := by
  intro t ht x hx
  rw [hsites, mem_singleton] at ht
  subst ht
  rw [htarget] at hx ⊢
  have hx' : InRange srcAddr size.toNat x := hx.trans_le hsize
  have hstart : InRange srcAddr size.toNat srcAddr := by
    simpa [InRange] using a.wordBytes_pos.trans_le hsize
  exact iff_of_true hx' hstart

end OneSite

/-- All bytes of the image are 5. -/
def flatState : RelocState a where
  space := { mem := fun _ => 5, prot := fun _ => none }
  error := none

/-- The section at `srcAddr` has one word, of a relative entry or of one whose symbol is found far
    from the library, and its adjusted copy is not what a relocation at `mapAddr` gives. -/
def CopyDiverges (rels : ElfRelocations a) (r : Reloc a) (srcAddr dstAddr mapAddr size : Addr a) :
    Prop :=
  ∃ (mprotect : Mprotect a) (symbols : ElfSymbols) (resolver : SymbolResolver a)
    (st : RelocState a),
    rels.entries = [r] ∧
    (rels.applyAll mprotect symbols resolver st).2 = true ∧
    ((rels.rebase (mapAddr - srcAddr)).applyAll mprotect symbols resolver st).2 = true ∧
    rels.SitesDisjoint ∧
    (∀ s ∈ rels.sites, ∀ x, InRange (s.target rels) a.wordBytes x →
      (InRange srcAddr size.toNat x ↔ InRange srcAddr size.toNat (s.target rels))) ∧
    ((r.relSymbol = 0 ∧ adjusts r.code = true) ∨
      (r.relSymbol ≠ 0 ∧ resolver (symbols.lookupNameById r.relSymbol) = 0x7000)) ∧
    SameBytes size.toNat st.space.mem mapAddr st.space.mem srcAddr ∧
    ¬ SameBytes size.toNat
      (rels.copyAndRelocate srcAddr dstAddr mapAddr size
        (rels.applyAll mprotect symbols resolver st).1.space.mem) dstAddr
      ((rels.rebase (mapAddr - srcAddr)).applyAll mprotect symbols resolver st).1.space.mem
      mapAddr

/-- A library with one relocation, in the table of the procedure linkage. -/
def singlePlt (type : RelocationsType) (loadBias : Addr a) (r : Reloc a) : ElfRelocations a :=
  { single type loadBias r with pltRelocations := [r], relocations := [] }

/-- `R_386_PC32` of a symbol, and `R_ARM_RELATIVE` in the table of the procedure linkage. -/
theorem copyAndRelocate_diverges :
    CopyDiverges (single .rel 0x40000 ({ rOffset := 0x1000, rInfo := 0x102 } : Reloc .i386))
      { rOffset := 0x1000, rInfo := 0x102 } 0x41000 0x90000 0x71000 0x1000 ∧
    CopyDiverges (singlePlt .rel 0x40000 ({ rOffset := 0x1000, rInfo := 0x17 } : Reloc .arm))
      { rOffset := 0x1000, rInfo := 0x17 } 0x41000 0x90000 0x71000 0x1000 := by
  refine ⟨⟨fun _ _ _ _ => none, sampleSymbols, fun _ => 0x7000, flatState, rfl,
      by decide +kernel, by decide +kernel,
      sitesDisjoint_of_sites_eq (s := .main { rOffset := 0x1000, rInfo := 0x102 }) rfl,
      whole_of_sites_eq (s := .main { rOffset := 0x1000, rInfo := 0x102 }) rfl (by decide)
        (by decide), by decide, fun _ _ => rfl, fun h => ?_⟩,
    ⟨fun _ _ _ _ => none, sampleSymbols, fun _ => 0x7000, flatState, rfl,
      by decide +kernel, by decide +kernel,
      sitesDisjoint_of_sites_eq (s := .plt { rOffset := 0x1000, rInfo := 0x17 }) rfl,
      whole_of_sites_eq (s := .plt { rOffset := 0x1000, rInfo := 0x17 }) rfl (by decide)
        (by decide), by decide, fun _ _ => rfl, fun h => ?_⟩⟩
  -- the third byte of the word
  all_goals
    have hbyte := h 2 (by decide)
    revert hbyte
    decide +kernel

theorem copyAndRelocate_eq_relative :
    SameBytes (0x1000 : Addr .arm).toNat
      ((single .rel 0x40000 ({ rOffset := 0x1000, rInfo := 0x17 } : Reloc .arm)).copyAndRelocate
        0x41000 0x90000 0x71000 0x1000
        ((single .rel 0x40000 ({ rOffset := 0x1000, rInfo := 0x17 } : Reloc .arm)).applyAll
          (fun _ _ _ _ => none) sampleSymbols (fun _ => 0x7000) flatState).1.space.mem) 0x90000
      (((single .rel 0x40000 ({ rOffset := 0x1000, rInfo := 0x17 } : Reloc .arm)).rebase
        (0x71000 - 0x41000)).applyAll
        (fun _ _ _ _ => none) sampleSymbols (fun _ => 0x7000) flatState).1.space.mem 0x71000 := by
  refine copyAndRelocate_eq (by decide +kernel) (by decide +kernel) (fun h => absurd rfl h)
    ⟨by decide, sitesDisjoint_single, whole_of_sites_eq
      (s := .main { rOffset := 0x1000, rInfo := 0x17 }) rfl (by decide) (by decide), ?_⟩
    fun _ _ => rfl
  intro s hs _
  rw [mem_singleton.mp hs]
  exact .inl ⟨by decide, by decide⟩

end ElfRelocations

end CrystaxNdk.CrazyLinker
