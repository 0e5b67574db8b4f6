import CrystaxNdk.CrazyLinker.ElfRelocations

/-!
# Runs of `ApplyAll`

A word that `ApplyAll` writes is a *site*: the target of an entry of one of the two tables, or,
on MIPS, an entry of the global offset table. A run that succeeds is a list of updates, one per
site and in the order of the sites; whether it succeeds is decided by the types of the entries,
by the symbols of the global offset table and by `mprotect`, and by nothing else.
-/

namespace CrystaxNdk.CrazyLinker

open Lib List

variable {a : Arch}

/-! ## Sites -/

inductive Site (a : Arch) where
  | plt (r : Reloc a)
  | main (r : Reloc a)
  | gotReserved (n : Nat)
  | gotLocal (n : Nat)
  | gotGlobal (idx : Nat)
deriving DecidableEq

variable {rs : List (Reloc a)} {r : Reloc a}

namespace ElfRelocations

def active (rs : List (Reloc a)) : List (Reloc a) := rs.filter (·.relType ≠ 0)

theorem mem_active :
    r ∈ active rs ↔ r ∈ rs ∧ r.relType ≠ 0 := by
  simp [active]

theorem active_cons_skip (h : r.relType = 0) :
    active (r :: rs) = active rs := filter_cons_of_neg (by simp [h])

theorem active_cons_keep (h : r.relType ≠ 0) :
    active (r :: rs) = r :: active rs := filter_cons_of_pos (by simpa using h)

def gotSites (rels : ElfRelocations a) : List (Site a) :=
  if a = .mips ∧ rels.pltGot ≠ 0 then
    [.gotReserved 0, .gotReserved 1] ++
      (List.range' 2 (rels.mipsLocalGotCount - 2)).map .gotLocal ++
      rels.mipsGotSymbols.map .gotGlobal
  else []

def sites (rels : ElfRelocations a) : List (Site a) :=
  (active rels.pltRelocations).map .plt ++ (active rels.relocations).map .main ++ rels.gotSites

def entries (rels : ElfRelocations a) : List (Reloc a) := rels.pltRelocations ++ rels.relocations

def updateOf (rels : ElfRelocations a) (symbols : ElfSymbols) (resolver : SymbolResolver a)
    (r : Reloc a) : Except RelocError (WordUpdate a) :=
  let resolution := rels.resolve symbols resolver r
  rels.applyReloc r resolution.symAddr resolution.resolved

/-- The new word for the old one, for an entry that is accepted. -/
def entryValue (rels : ElfRelocations a) (symbols : ElfSymbols) (resolver : SymbolResolver a)
    (r : Reloc a) (old : Addr a) : Addr a :=
  match rels.updateOf symbols resolver r with
  | .error _ => old
  | .ok u => u.apply old

end ElfRelocations

namespace Site

variable (rels : ElfRelocations a) (symbols : ElfSymbols) (resolver : SymbolResolver a)

def target : Site a → Addr a
  | .plt r => r.target rels.loadBias
  | .main r => r.target rels.loadBias
  | .gotReserved n => rels.gotEntry n
  | .gotLocal n => rels.gotEntry n
  | .gotGlobal idx => rels.gotEntry (rels.mipsLocalGotCount + (idx - rels.mipsGotsym))

def value : Site a → Addr a → Addr a
  | .plt r => rels.entryValue symbols resolver r
  | .main r => rels.entryValue symbols resolver r
  | .gotReserved 0 => fun _ => 0xdeadbeef
  | .gotReserved _ => fun old => if old &&& 0x80000000 ≠ 0 then 0xdeadbeef else old
  | .gotLocal _ => fun old => old + rels.loadBias
  | .gotGlobal idx => fun _ => resolver (symbols.lookupNameById idx)

def update (s : Site a) : WordUpdate a where
  target := s.target rels
  apply := s.value rels symbols resolver

end Site

/-! ## The loops -/

def Space.run (space : Space a) (us : List (WordUpdate a)) : Space a where
  mem := runUpdates us space.mem
  prot := space.prot

variable {space : Space a} {u : WordUpdate a}

theorem Space.run_cons {us : List (WordUpdate a)} :
    space.run (u :: us) = (space.run [u]).run us := rfl

theorem Space.run_append {us vs : List (WordUpdate a)} :
    space.run (us ++ vs) = (space.run us).run vs := by
  unfold Space.run
  rw [runUpdates_append]

theorem RelocState.space_foldl_update (us : List (WordUpdate a)) (st : RelocState a) :
    (us.foldl RelocState.update st).space = st.space.run us := by
  induction us generalizing st with
  | nil => rfl
  | cons u us ih =>
    rw [foldl_cons, ih, Space.run_cons]
    rfl

namespace ElfRelocations

variable {rels : ElfRelocations a} {symbols : ElfSymbols} {resolver : SymbolResolver a}

theorem target_updateOf (h : rels.updateOf symbols resolver r = .ok u) :
    u.target = r.target rels.loadBias := by
  unfold updateOf applyReloc at h
  dsimp only at h
  cases htype : rels.relocationsType with
  | rel =>
    rw [htype] at h
    dsimp only at h
    unfold applyRelReloc at h
    split at h <;> first | (cases h; rfl) | cases h | (split at h <;> cases h; rfl)
  | rela =>
    rw [htype] at h
    dsimp only at h
    unfold applyRelaReloc at h
    split at h <;> first | (cases h; rfl) | cases h | (split at h <;> cases h; rfl)

theorem eq_of_updateOf (h : rels.updateOf symbols resolver r = .ok u) :
    u = { target := r.target rels.loadBias, apply := rels.entryValue symbols resolver r } := by
  have hvalue : rels.entryValue symbols resolver r = u.apply := by
    funext old
    rw [entryValue, h]
  rw [hvalue, ← target_updateOf h]

theorem applyRelocs_true_iff (rs : List (Reloc a)) (st : RelocState a) :
    (rels.applyRelocs symbols resolver rs st).2 = true ↔
      ∀ r ∈ active rs, ∃ u, rels.updateOf symbols resolver r = .ok u := by
  induction rs generalizing st with
  | nil => simp [applyRelocs, active]
  | cons r rs ih =>
    rw [applyRelocs]
    by_cases htype : r.relType = 0
    · rw [if_pos htype, ih, active_cons_skip htype]
    · rw [if_neg htype, active_cons_keep htype, forall_mem_cons]
      dsimp only
      split
      next e herror =>
        have hnone : ¬ ∃ u, rels.updateOf symbols resolver r = .ok u := by
          rintro ⟨u, hu⟩
          rw [updateOf] at hu
          exact absurd (herror.symm.trans hu) (by simp)
        simp [hnone]
      next u hu =>
        have hsome : ∃ u, rels.updateOf symbols resolver r = .ok u := ⟨u, hu⟩
        simp only [ih, hsome, true_and]

variable {st : RelocState a}

/-- A table that is accepted, as a list of updates. -/
theorem applyRelocs_space (h : (rels.applyRelocs symbols resolver rs st).2 = true) :
    (rels.applyRelocs symbols resolver rs st).1.space =
      st.space.run ((active rs).map fun r =>
        { target := r.target rels.loadBias, apply := rels.entryValue symbols resolver r }) := by
  induction rs generalizing st with
  | nil => rfl
  | cons r rs ih =>
    rw [applyRelocs] at h ⊢
    by_cases htype : r.relType = 0
    · rw [if_pos htype] at h ⊢
      rw [ih h, active_cons_skip htype]
    · rw [if_neg htype] at h ⊢
      dsimp only at h ⊢
      split at h
      next => cases h
      next u hu =>
        rw [ih h, active_cons_keep htype, map_cons, Space.run_cons, ← eq_of_updateOf hu]
        rfl

theorem mipsGlobalGot_true_iff {idxs : List Nat} :
    (rels.mipsGlobalGot symbols resolver idxs st).2 = true ↔
      ∀ idx ∈ idxs, resolver (symbols.lookupNameById idx) ≠ 0 ∨ symbols.isWeakById idx = true := by
  induction idxs generalizing st with
  | nil => simp [mipsGlobalGot]
  | cons idx idxs ih =>
    rw [mipsGlobalGot, forall_mem_cons]
    by_cases haddr : resolver (symbols.lookupNameById idx) = 0
    · by_cases hweak : symbols.isWeakById idx = true
      · rw [if_neg (not_not.mpr haddr), if_pos hweak, ih]
        simp [hweak]
      · rw [if_neg (not_not.mpr haddr), if_neg hweak]
        simp [haddr, hweak]
    · rw [if_pos haddr, ih]
      exact (and_iff_right (.inl haddr)).symm

/-- A weak symbol that is not found counts as 0, which is what the resolver answered. -/
theorem mipsGlobalGot_space {idxs : List Nat}
    (h : (rels.mipsGlobalGot symbols resolver idxs st).2 = true) :
    (rels.mipsGlobalGot symbols resolver idxs st).1.space =
      st.space.run (idxs.map fun idx => (Site.gotGlobal idx).update rels symbols resolver) := by
  induction idxs generalizing st with
  | nil => rfl
  | cons idx idxs ih =>
    rw [mipsGlobalGot] at h ⊢
    by_cases haddr : resolver (symbols.lookupNameById idx) = 0
    · rw [if_neg (not_not.mpr haddr)] at h ⊢
      split at h
      next hweak =>
        rw [if_pos hweak, ih h, map_cons, Space.run_cons, Site.update, Site.value, haddr]
        rfl
      next => cases h
    · rw [if_pos haddr] at h ⊢
      rw [ih h, map_cons, Space.run_cons]
      rfl

/-! ## Protections -/

variable {mprotect : Mprotect a} {extraWrite : Bool}

theorem mem_setLoadProt {loadBias : Addr a} {n : Nat} {table : List (Phdr a)} :
    (setLoadProt mprotect loadBias extraWrite n table space).1.mem = space.mem := by
  induction table generalizing n space with
  | nil => rfl
  | cons phdr table ih =>
    rw [setLoadProt]
    split
    · exact ih
    · dsimp only
      split
      · rfl
      · exact ih

/-- Whether the calls succeed does not depend on the protections there are. -/
theorem setLoadProt_error {loadBias : Addr a} {n : Nat} {table : List (Phdr a)}
    (space space' : Space a) :
    (setLoadProt mprotect loadBias extraWrite n table space).2 =
      (setLoadProt mprotect loadBias extraWrite n table space').2 := by
  induction table generalizing n space space' with
  | nil => rfl
  | cons phdr table ih =>
    rw [setLoadProt, setLoadProt]
    split
    · exact ih _ _
    · dsimp only
      split
      · rfl
      · exact ih _ _

theorem mem_changeProtections {space' : Space a} {e : Option CString}
    (h : rels.changeProtections mprotect extraWrite space = (space', e)) :
    space'.mem = space.mem := by
  unfold changeProtections at h
  split at h
  · rw [← congrArg (fun p => p.1.mem) h]
    exact mem_setLoadProt
  · cases h
    rfl

theorem changeProtections_error (space space' : Space a) :
    (rels.changeProtections mprotect extraWrite space).2 =
      (rels.changeProtections mprotect extraWrite space').2 := by
  unfold changeProtections
  split
  · exact setLoadProt_error space space'
  · rfl

/-! ## The whole run -/

/-- What `ApplyAll` needs from the global offset table. -/
def GotResolved (rels : ElfRelocations a) (symbols : ElfSymbols) (resolver : SymbolResolver a) :
    Prop :=
  a = .mips → rels.pltGot ≠ 0 → ∀ idx ∈ rels.mipsGotSymbols,
    resolver (symbols.lookupNameById idx) ≠ 0 ∨ symbols.isWeakById idx = true

theorem relocateMipsGot_true_iff (hmips : a = .mips) :
    (rels.relocateMipsGot symbols resolver st).2 = true ↔
      rels.GotResolved symbols resolver := by
  unfold relocateMipsGot GotResolved
  by_cases hgot : rels.pltGot = 0
  · simp [hgot]
  · rw [if_neg hgot, mipsGlobalGot_true_iff]
    exact ⟨fun h _ _ => h, fun h => h hmips hgot⟩

theorem relocateMipsGot_space (hmips : a = .mips)
    (h : (rels.relocateMipsGot symbols resolver st).2 = true) :
    (rels.relocateMipsGot symbols resolver st).1.space =
      st.space.run (rels.gotSites.map (Site.update rels symbols resolver)) := by
  unfold relocateMipsGot gotSites at *
  by_cases hgot : rels.pltGot = 0
  · rw [if_pos hgot, if_neg fun hand => hand.2 hgot]
    rfl
  · rw [if_neg hgot] at h ⊢
    have hlocal : rels.mipsLocalGot = ([Site.gotReserved 0, Site.gotReserved 1] ++
        (List.range' 2 (rels.mipsLocalGotCount - 2)).map Site.gotLocal).map
          (Site.update rels symbols resolver) := by
      simp only [map_append, map_cons, map_nil, map_map]
      rfl
    rw [mipsGlobalGot_space h, RelocState.space_foldl_update, if_pos ⟨hmips, hgot⟩,
      map_append, Space.run_append, ← hlocal, map_map]
    rfl

theorem applyTables_true_iff (st : RelocState a) :
    (rels.applyTables symbols resolver st).2 = true ↔
      (∀ r ∈ rels.entries, r.relType ≠ 0 → ∃ u, rels.updateOf symbols resolver r = .ok u) ∧
        rels.GotResolved symbols resolver := by
  have hentries : (∀ r ∈ rels.entries, r.relType ≠ 0 →
      ∃ u, rels.updateOf symbols resolver r = .ok u) ↔
        (∀ r ∈ active rels.pltRelocations, ∃ u, rels.updateOf symbols resolver r = .ok u) ∧
          ∀ r ∈ active rels.relocations, ∃ u, rels.updateOf symbols resolver r = .ok u := by
    simp only [entries, mem_active, forall_mem_append, and_imp]
  rw [hentries, ← applyRelocs_true_iff rels.pltRelocations st, and_assoc, applyTables]
  split
  next st₁ hplt => simp [hplt]
  next st₁ hplt =>
    rw [hplt, ← applyRelocs_true_iff rels.relocations st₁]
    split
    next st₂ hmain => simp [hmain]
    next st₂ hmain =>
      rw [hmain]
      split
      next hmips => simp [relocateMipsGot_true_iff hmips]
      next hmips => simp [GotResolved, hmips]

theorem applyTables_space (h : (rels.applyTables symbols resolver st).2 = true) :
    (rels.applyTables symbols resolver st).1.space =
      st.space.run (rels.sites.map (Site.update rels symbols resolver)) := by
  rw [sites, map_append, map_append, Space.run_append, Space.run_append,
    map_map, map_map]
  unfold applyTables at h ⊢
  split at h
  next => cases h
  next st₁ hplt =>
    have hplt' := applyRelocs_space (congrArg Prod.snd hplt)
    rw [hplt] at hplt'
    split at h
    next => cases h
    next st₂ hmain =>
      have hmain' := applyRelocs_space (congrArg Prod.snd hmain)
      rw [hmain, hplt'] at hmain'
      dsimp only at hmain'
      split at h
      next hmips =>
        rw [if_pos hmips, relocateMipsGot_space hmips h, hmain']
        rfl
      next hmips =>
        rw [if_neg hmips, hmain', gotSites, if_neg fun hand => hmips hand.1]
        rfl

/-- `mprotect` lets `ApplyAll` make the segments writable and undo it. -/
def Protectable (rels : ElfRelocations a) (mprotect : Mprotect a) (space : Space a) : Prop :=
  (rels.changeProtections mprotect true space).2 = none ∧
    (rels.changeProtections mprotect false space).2 = none

/-- **When `ApplyAll` returns true.** -/
theorem applyAll_true_iff :
    (rels.applyAll mprotect symbols resolver st).2 = true ↔
      rels.Protectable mprotect st.space ∧
      (∀ r ∈ rels.entries, r.relType ≠ 0 → ∃ u, rels.updateOf symbols resolver r = .ok u) ∧
      rels.GotResolved symbols resolver := by
  unfold applyAll Protectable
  split
  next space strerror hfirst => simp [hfirst]
  next space hfirst =>
    rw [← applyTables_true_iff { st with space }, hfirst]
    split
    next st₁ htables => simp [htables]
    next st₁ htables =>
      rw [htables, changeProtections_error st.space st₁.space]
      split
      next hlast => simp [hlast]
      next hlast => simp [hlast]

/-- A run that succeeds updates the sites, one after the other. -/
theorem mem_applyAll (h : (rels.applyAll mprotect symbols resolver st).2 = true) :
    (rels.applyAll mprotect symbols resolver st).1.space.mem =
      runUpdates (rels.sites.map (Site.update rels symbols resolver)) st.space.mem := by
  unfold applyAll at h ⊢
  split at h
  next => cases h
  next space hfirst =>
    split at h
    next => cases h
    next st₁ htables =>
      have hspace := applyTables_space (congrArg Prod.snd htables)
      rw [htables] at hspace
      split at h
      next => cases h
      next space' hlast =>
        dsimp only at hspace ⊢
        rw [mem_changeProtections hlast, hspace, Space.run, mem_changeProtections hfirst]

end ElfRelocations

end CrystaxNdk.CrazyLinker
