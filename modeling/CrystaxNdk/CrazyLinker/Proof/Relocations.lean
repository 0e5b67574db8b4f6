import CrystaxNdk.CrazyLinker.Proof.RelocRuns

/-!
# What the relocated words are

The processor supplements give for each relocation type the new word in terms of `S`, the
address of the symbol, `A`, the addend, `P`, the address of the word, and `B`, the load bias.
The code has a formula of its own for each type. `Conforms` says for which words the two agree;
the words are independent of each other, so a whole run agrees exactly if every entry does.
-/

namespace CrystaxNdk.CrazyLinker

open Lib List

variable {a : Arch}

/-! ## The processor supplements -/

/-- The value for a relocation type. On MIPS the formula depends on whether the entry has a
    symbol. Copy relocations have no value: they are not for shared libraries. In a `DT_REL` table
    `A` is the word at the place for every type, also for `R_ARM_JUMP_SLOT`, where the static linker
    leaves a word for lazy binding; with `A` as 0 there, that type would be right for every word. -/
def psabiValue (hasSymbol : Bool) (S A P B : Addr a) : RelocCode → Option (Addr a)
  | .armAbs32 => some (S + A)
  | .armRel32 => some (S + A - P)
  | .armCopy => none
  | .armGlobDat => some (S + A)
  | .armJumpSlot => some (S + A)
  | .armRelative => some (B + A)
  | .aarch64Abs64 => some (S + A)
  | .aarch64Copy => none
  | .aarch64GlobDat => some (S + A)
  | .aarch64JumpSlot => some (S + A)
  | .aarch64Relative => some (B + A)
  | .i386Abs32 => some (S + A)
  | .i386Pc32 => some (S + A - P)
  | .i386GlobDat => some S
  | .i386JmpSlot => some S
  | .i386Relative => some (B + A)
  | .mipsRel32 => some (if hasSymbol then S + A else B + A)

namespace ElfRelocations

/-- `S`; the symbol with index 0 has the value 0. -/
def symbolValue (symbols : ElfSymbols) (resolver : SymbolResolver a) (r : Reloc a) : Addr a :=
  if r.relSymbol ≠ 0 then resolver (symbols.lookupNameById r.relSymbol) else 0

/-- `A`: the old word or the addend of the entry. -/
def addendValue (rels : ElfRelocations a) (r : Reloc a) (old : Addr a) : Addr a :=
  match rels.relocationsType with
  | .rel => old
  | .rela => r.rAddend

/-- The word an entry should leave. -/
def psabi (rels : ElfRelocations a) (symbols : ElfSymbols) (resolver : SymbolResolver a)
    (r : Reloc a) (old : Addr a) : Option (Addr a) :=
  r.code.bind (psabiValue (r.relSymbol ≠ 0) (symbolValue symbols resolver r)
    (rels.addendValue r old) (r.target rels.loadBias) rels.loadBias)

/-- The words for which the code does what it should. -/
def Conforms (rels : ElfRelocations a) (r : Reloc a) (old : Addr a) : Prop :=
  match r.code with
  -- the old word is not added
  | some .armGlobDat | some .armJumpSlot => old = 0
  -- `r_offset` is taken for the address of the word
  | some .armRel32 => rels.loadBias = 0
  -- the old word is added to the addend, of which 32 bits are left
  | some .aarch64Abs64 => old + r.addend = r.rAddend
  | some .aarch64GlobDat | some .aarch64JumpSlot | some .aarch64Relative => r.addend = r.rAddend
  | _ => True

section Values

variable {rels : ElfRelocations a} {symbols : ElfSymbols} {resolver : SymbolResolver a}
  {r : Reloc a}

theorem updateOf_resolved
    (h : r.relSymbol ≠ 0 → resolver (symbols.lookupNameById r.relSymbol) ≠ 0) :
    rels.updateOf symbols resolver r =
      rels.applyReloc r (symbolValue symbols resolver r) (r.relSymbol ≠ 0) := by
  unfold updateOf resolve symbolValue
  by_cases hsymbol : r.relSymbol = 0
  · simp [hsymbol]
  · simp only [ne_eq, hsymbol, not_false_eq_true, if_true, decide_true]
    rw [resolveSymbol, if_pos (h hsymbol)]

/-- The formulas of the code against those of the supplements: the old word is the addend. -/
theorem applyRelReloc_psabi_iff {S old : Addr a} {b : Bool} {u : WordUpdate a}
    (hu : applyRelReloc rels.loadBias r S b = .ok u) :
    r.code.bind (psabiValue b S old (r.target rels.loadBias) rels.loadBias) =
      some (u.apply old) ↔ rels.Conforms r old := by
  unfold applyRelReloc at hu
  unfold Conforms
  rcases hcode : r.code with _ | code
  · rw [hcode] at hu
    cases hu
  · rw [hcode] at hu
    rw [Option.bind_some]
    cases code <;> dsimp only at hu <;>
      first | cases hu | skip
    all_goals simp only [psabiValue, Option.some.injEq, Reloc.target]
    case some.armAbs32.refl => simp [BitVec.add_comm]
    case some.armRel32.refl =>
      have hswap : S + old - (r.rOffset + rels.loadBias) =
          old + (S - r.rOffset) - rels.loadBias := by ring
      rw [hswap]
      exact sub_eq_self
    case some.armGlobDat.refl => exact add_eq_left
    case some.armJumpSlot.refl => exact add_eq_left
    case some.armRelative =>
      split at hu
      · cases hu
      · cases hu
        simp [BitVec.add_comm]
    case some.i386Abs32.refl => simp [BitVec.add_comm]
    case some.i386Pc32.refl =>
      rw [iff_true]
      ring
    case some.i386Relative =>
      split at hu
      · cases hu
      · cases hu
        simp [BitVec.add_comm]
    case some.mipsRel32.refl => simp [BitVec.add_comm]

theorem applyRelaReloc_psabi_iff {S old : Addr a} {b : Bool} {u : WordUpdate a}
    (hu : applyRelaReloc rels.loadBias r S b = .ok u) :
    r.code.bind (psabiValue b S r.rAddend (r.target rels.loadBias) rels.loadBias) =
      some (u.apply old) ↔ rels.Conforms r old := by
  unfold applyRelaReloc at hu
  unfold Conforms
  rcases hcode : r.code with _ | code
  · rw [hcode] at hu
    cases hu
  · rw [hcode] at hu
    rw [Option.bind_some]
    cases code <;> dsimp only at hu <;>
      first | cases hu | skip
    all_goals simp only [psabiValue, Option.some.injEq]
    case some.aarch64Abs64.refl => rw [add_left_comm, add_right_inj, eq_comm]
    case some.aarch64GlobDat.refl => rw [add_right_inj, eq_comm]
    case some.aarch64JumpSlot.refl => rw [add_right_inj, eq_comm]
    case some.aarch64Relative =>
      split at hu
      · cases hu
      · cases hu
        rw [add_right_inj, eq_comm]

theorem psabi_eq_entryValue_iff (hok : ∃ u, rels.updateOf symbols resolver r = .ok u)
    (hresolved : r.relSymbol ≠ 0 → resolver (symbols.lookupNameById r.relSymbol) ≠ 0)
    (old : Addr a) :
    rels.psabi symbols resolver r old = some (rels.entryValue symbols resolver r old) ↔
      rels.Conforms r old := by
  obtain ⟨u, hu⟩ := hok
  rw [entryValue, hu, psabi]
  rw [updateOf_resolved hresolved] at hu
  unfold applyReloc at hu
  unfold addendValue
  cases htype : rels.relocationsType with
  | rel =>
    rw [htype] at hu
    exact applyRelReloc_psabi_iff hu
  | rela =>
    rw [htype] at hu
    exact applyRelaReloc_psabi_iff hu

end Values

/-! ## The relocated image -/

def SitesDisjoint (rels : ElfRelocations a) : Prop :=
  rels.sites.Pairwise fun s t => WordsDisjoint a.wordBytes (s.target rels) (t.target rels)

/-- The image after a relocation as the supplements prescribe it. The first two entries of the
    global offset table of MIPS belong to the linker. -/
structure RelocatedAsPsabi (rels : ElfRelocations a) (symbols : ElfSymbols)
    (resolver : SymbolResolver a) (before after : Addr a → Byte) : Prop where
  entry : ∀ r ∈ rels.entries, r.relType ≠ 0 →
    rels.psabi symbols resolver r (readWord before (r.target rels.loadBias) a.wordBytes) =
      some (readWord after (r.target rels.loadBias) a.wordBytes)
  gotLocal : ∀ n, Site.gotLocal n ∈ rels.gotSites →
    readWord after (rels.gotEntry n) a.wordBytes =
      readWord before (rels.gotEntry n) a.wordBytes + rels.loadBias
  gotGlobal : ∀ idx, Site.gotGlobal idx ∈ rels.gotSites →
    readWord after ((Site.gotGlobal idx).target rels) a.wordBytes =
      resolver (symbols.lookupNameById idx)
  frame : ∀ x, (∀ s ∈ rels.sites, ¬ InRange (s.target rels) a.wordBytes x) → after x = before x

section Image

variable {rels : ElfRelocations a} {symbols : ElfSymbols} {resolver : SymbolResolver a}
  {mprotect : Mprotect a} {st : RelocState a}

theorem SitesDisjoint.updates (h : rels.SitesDisjoint) :
    (rels.sites.map (Site.update rels symbols resolver)).Pairwise fun u v =>
      WordsDisjoint a.wordBytes u.target v.target := pairwise_map.mpr h

theorem readWord_applyAll (hok : (rels.applyAll mprotect symbols resolver st).2 = true)
    (hdisj : rels.SitesDisjoint) {s : Site a} (hs : s ∈ rels.sites) :
    readWord (rels.applyAll mprotect symbols resolver st).1.space.mem (s.target rels)
        a.wordBytes =
      s.value rels symbols resolver (readWord st.space.mem (s.target rels) a.wordBytes) := by
  rw [mem_applyAll hok]
  exact readWord_runUpdates (u := s.update rels symbols resolver) a.wordBytes_le_two_pow
    hdisj.updates (mem_map_of_mem hs)

/-- Entries of both tables have a site with the same target and value. -/
theorem exists_site (symbols : ElfSymbols) (resolver : SymbolResolver a) {r : Reloc a}
    (hmem : r ∈ rels.entries) (htype : r.relType ≠ 0) :
    ∃ s ∈ rels.sites, s.target rels = r.target rels.loadBias ∧
      s.value rels symbols resolver = rels.entryValue symbols resolver r := by
  rcases mem_append.mp hmem with hmem | hmem
  · have hs : Site.plt r ∈ (active rels.pltRelocations).map Site.plt :=
      mem_map_of_mem (mem_active.mpr ⟨hmem, htype⟩)
    exact ⟨.plt r, mem_append_left _ (mem_append_left _ hs), rfl, rfl⟩
  · have hs : Site.main r ∈ (active rels.relocations).map Site.main :=
      mem_map_of_mem (mem_active.mpr ⟨hmem, htype⟩)
    exact ⟨.main r, mem_append_left _ (mem_append_right _ hs), rfl, rfl⟩

theorem readWord_applyAll_entry (hok : (rels.applyAll mprotect symbols resolver st).2 = true)
    (hdisj : rels.SitesDisjoint) {r : Reloc a} (hmem : r ∈ rels.entries)
    (htype : r.relType ≠ 0) :
    readWord (rels.applyAll mprotect symbols resolver st).1.space.mem (r.target rels.loadBias)
        a.wordBytes =
      rels.entryValue symbols resolver r
        (readWord st.space.mem (r.target rels.loadBias) a.wordBytes) := by
  obtain ⟨s, hs, htarget, hvalue⟩ := exists_site symbols resolver hmem htype
  rw [← htarget, ← hvalue]
  exact readWord_applyAll hok hdisj hs

/-- **Relocation values.** If every symbol is found and no two sites overlap, a successful run
    leaves the image the supplements prescribe exactly if every entry conforms. -/
theorem applyAll_psabi_iff (hok : (rels.applyAll mprotect symbols resolver st).2 = true)
    (hdisj : rels.SitesDisjoint)
    (hresolved : ∀ r ∈ rels.entries, r.relSymbol ≠ 0 →
      resolver (symbols.lookupNameById r.relSymbol) ≠ 0) :
    rels.RelocatedAsPsabi symbols resolver st.space.mem
        (rels.applyAll mprotect symbols resolver st).1.space.mem ↔
      ∀ r ∈ rels.entries, r.relType ≠ 0 →
        rels.Conforms r (readWord st.space.mem (r.target rels.loadBias) a.wordBytes) := by
  have haccepted := (applyAll_true_iff.mp hok).2.1
  constructor
  · intro himage r hmem htype
    have hentry := himage.entry r hmem htype
    rw [readWord_applyAll_entry hok hdisj hmem htype] at hentry
    exact (psabi_eq_entryValue_iff (haccepted r hmem htype) (hresolved r hmem) _).mp hentry
  · intro hconforms
    refine ⟨?_, ?_, ?_, ?_⟩
    · intro r hmem htype
      rw [readWord_applyAll_entry hok hdisj hmem htype]
      exact (psabi_eq_entryValue_iff (haccepted r hmem htype) (hresolved r hmem) _).mpr
        (hconforms r hmem htype)
    · intro n hn
      exact readWord_applyAll (s := .gotLocal n) hok hdisj (mem_append_right _ hn)
    · intro idx hidx
      exact readWord_applyAll (s := .gotGlobal idx) hok hdisj (mem_append_right _ hidx)
    · intro x hx
      rw [mem_applyAll hok]
      apply runUpdates_frame
      intro u hu
      obtain ⟨s, hs, rfl⟩ := mem_map.mp hu
      exact hx s hs

end Image

end ElfRelocations

namespace ElfRelocations

/-! ### Single entries -/

def single (type : RelocationsType) (loadBias : Addr a) (r : Reloc a) : ElfRelocations a where
  phdr := []
  loadBias := loadBias
  relocationsType := type
  pltRelocations := []
  relocations := [r]
  pltGot := 0
  mipsSymtabCount := 0
  mipsLocalGotCount := 0
  mipsGotsym := 0
  hasTextRelocations := false

theorem sitesDisjoint_single {type : RelocationsType} {loadBias : Addr a} {r : Reloc a} :
    (single type loadBias r).SitesDisjoint := by
  have hgot : (single type loadBias r).gotSites = [] := if_neg fun hand => hand.2 rfl
  unfold SitesDisjoint sites
  rw [hgot, append_nil]
  by_cases htype : r.relType = 0
  · simp [single, active, htype]
  · rw [show (single type loadBias r).relocations = [r] from rfl, active_cons_keep htype]
    simp [single, active]

/-- All symbols are weak and at `0x7000`; the words of the image are 5. -/
def sampleSymbols : ElfSymbols where
  lookupNameById _ := "f".toList
  isWeakById _ := true

def sampleState : RelocState a where
  space := { mem := fun x => if x.toNat % a.wordBytes = 0 then 5 else 0, prot := fun _ => none }
  error := none

/-- The entry is applied although its symbol is found, and the image is not as it should be. -/
def Misrelocates (type : RelocationsType) (loadBias : Addr a) (r : Reloc a) : Prop :=
  ∃ (mprotect : Mprotect a) (symbols : ElfSymbols) (resolver : SymbolResolver a)
    (st : RelocState a),
    ((single type loadBias r).applyAll mprotect symbols resolver st).2 = true ∧
    (single type loadBias r).SitesDisjoint ∧
    (r.relSymbol ≠ 0 → resolver (symbols.lookupNameById r.relSymbol) ≠ 0) ∧
    ¬ (single type loadBias r).RelocatedAsPsabi symbols resolver st.space.mem
      ((single type loadBias r).applyAll mprotect symbols resolver st).1.space.mem

/-- `R_AARCH64_ABS64` of a word that is not 0, `R_ARM_REL32` in a library that is not at 0, and
    a `R_AARCH64_RELATIVE` whose addend has more than 32 bits. -/
theorem applyAll_misrelocates :
    Misrelocates (a := .aarch64) .rela 0x40000 { rOffset := 0x1000, rInfo := 0x100000101 } ∧
    Misrelocates (a := .arm) .rel 0x40000 { rOffset := 0x1000, rInfo := 0x103 } ∧
    Misrelocates (a := .aarch64) .rela 0x40000
      { rOffset := 0x1000, rInfo := 0x403, rAddend := 0x100000000 } := by
  refine ⟨⟨fun _ _ _ _ => none, sampleSymbols, fun _ => 0x7000, sampleState, by decide +kernel,
      sitesDisjoint_single, by decide, fun h => ?_⟩,
    ⟨fun _ _ _ _ => none, sampleSymbols, fun _ => 0x7000, sampleState, by decide +kernel,
      sitesDisjoint_single, by decide, fun h => ?_⟩,
    ⟨fun _ _ _ _ => none, sampleSymbols, fun _ => 0x7000, sampleState, by decide +kernel,
      sitesDisjoint_single, by decide, fun h => ?_⟩⟩
  all_goals
    have hentry := h.entry _ mem_cons_self (by decide +kernel)
    revert hentry
    decide +kernel

theorem applyAll_psabi_iff_abs32 :
    (single .rel 0x40000 ({ rOffset := 0x1000, rInfo := 0x102 } : Reloc .arm)).RelocatedAsPsabi
      sampleSymbols (fun _ => 0x7000) sampleState.space.mem
      ((single .rel 0x40000 ({ rOffset := 0x1000, rInfo := 0x102 } : Reloc .arm)).applyAll
        (fun _ _ _ _ => none) sampleSymbols (fun _ => 0x7000) sampleState).1.space.mem := by
  refine (applyAll_psabi_iff (by decide +kernel) sitesDisjoint_single ?_).mpr ?_
  · decide +kernel
  · intro r hr _
    rw [mem_singleton.mp hr]
    trivial

end ElfRelocations

/-! ## Symbols that are not found -/

namespace ElfRelocations

/-- The types the two functions have a case for, other than copy relocations. -/
def handles : RelocationsType → RelocCode → Bool
  | .rel, .armAbs32 | .rel, .armRel32 | .rel, .armGlobDat | .rel, .armJumpSlot
  | .rel, .armRelative | .rel, .i386Abs32 | .rel, .i386Pc32 | .rel, .i386GlobDat
  | .rel, .i386JmpSlot | .rel, .i386Relative | .rel, .mipsRel32 => true
  | .rela, .aarch64Abs64 | .rela, .aarch64GlobDat | .rela, .aarch64JumpSlot
  | .rela, .aarch64Relative => true
  | _, _ => false

def forbidsSymbol : RelocCode → Bool
  | .armRelative | .aarch64Relative | .i386Relative => true
  | _ => false

def Accepted (rels : ElfRelocations a) (r : Reloc a) : Prop :=
  ∃ code, r.code = some code ∧ handles rels.relocationsType code = true ∧
    (forbidsSymbol code = true → r.relSymbol = 0)

section Symbols

variable {rels : ElfRelocations a} {symbols : ElfSymbols} {resolver : SymbolResolver a}
  {mprotect : Mprotect a} {st : RelocState a} {r : Reloc a}

/-- Whether an entry is applied has nothing to do with its symbol being found. -/
theorem exists_updateOf_iff :
    (∃ u, rels.updateOf symbols resolver r = .ok u) ↔ rels.Accepted r := by
  unfold updateOf applyReloc Accepted
  dsimp only
  generalize (rels.resolve symbols resolver r).symAddr = S
  generalize (rels.resolve symbols resolver r).resolved = b
  cases htype : rels.relocationsType with
  | rel =>
    dsimp only
    unfold applyRelReloc
    rcases hcode : r.code with _ | code
    · simp
    · by_cases hsymbol : r.relSymbol = 0 <;> cases code <;> simp [hsymbol, handles, forbidsSymbol]
  | rela =>
    dsimp only
    unfold applyRelaReloc
    rcases hcode : r.code with _ | code
    · simp
    · by_cases hsymbol : r.relSymbol = 0 <;> cases code <;> simp [hsymbol, handles, forbidsSymbol]

/-- The symbol of an entry is found, or it may be missing. -/
def Resolvable (symbols : ElfSymbols) (resolver : SymbolResolver a) (r : Reloc a) : Prop :=
  resolver (symbols.lookupNameById r.relSymbol) ≠ 0 ∨ symbols.isWeakById r.relSymbol = true

/-- **Missing symbols.** That `ApplyAll` returns true says that all symbols of the tables are
    found or weak only if they are, or if it has to fail for another reason. -/
theorem applyAll_reports_iff :
    ((rels.applyAll mprotect symbols resolver st).2 = true →
      ∀ r ∈ rels.entries, r.relSymbol ≠ 0 → Resolvable symbols resolver r) ↔
    (∀ r ∈ rels.entries, r.relSymbol ≠ 0 → Resolvable symbols resolver r) ∨
      ¬ rels.Protectable mprotect st.space ∨
      (∃ r ∈ rels.entries, r.relType ≠ 0 ∧ ¬ rels.Accepted r) ∨
      ¬ rels.GotResolved symbols resolver := by
  have haccepted : (∃ r ∈ rels.entries, r.relType ≠ 0 ∧ ¬ rels.Accepted r) ↔
      ¬ ∀ r ∈ rels.entries, r.relType ≠ 0 → rels.Accepted r := by
    simp only [not_forall, exists_prop]
  rw [applyAll_true_iff, haccepted]
  simp only [exists_updateOf_iff]
  tauto

end Symbols

/-- A strong symbol that nobody defines. -/
theorem applyAll_ignores_missing :
    ∃ (rels : ElfRelocations .arm) (mprotect : Mprotect .arm) (symbols : ElfSymbols)
      (resolver : SymbolResolver .arm) (st : RelocState .arm),
      (rels.applyAll mprotect symbols resolver st).2 = true ∧
      ∃ r ∈ rels.entries, r.relSymbol ≠ 0 ∧ ¬ Resolvable symbols resolver r := by
  refine ⟨single .rel 0x40000 { rOffset := 0x1000, rInfo := 0x102 }, fun _ _ _ _ => none,
    { sampleSymbols with isWeakById := fun _ => false }, fun _ => 0, sampleState,
    by decide +kernel, _, mem_cons_self, by decide, ?_⟩
  rintro (hfound | hweak)
  · exact hfound rfl
  · cases hweak

end ElfRelocations

end CrystaxNdk.CrazyLinker
