import CrystaxNdk.CrazyLinker.Proof.RelocRuns

/-!
# Protections around text relocations

For text relocations `ApplyAll` makes the read-only segments writable, and afterwards it gives them
the protections of their own flags. The second part is left out when a relocation fails. Where
segments share a page, the last call of `mprotect` for it decides, and that is not the segment that
was mapped there last if this one is writable.
-/

namespace CrystaxNdk.CrazyLinker

open Lib List

variable {a : Arch}

namespace ElfRelocations

/-! ## Calls of `mprotect` -/

def segPageStart (loadBias : Addr a) (seg : Phdr a) : Addr a := pageStart seg.pVaddr + loadBias

def segLength (loadBias : Addr a) (seg : Phdr a) : Addr a :=
  pageEnd (seg.pVaddr + seg.pMemsz) + loadBias - segPageStart loadBias seg

/-- The flags of a segment, with `PROT_WRITE` or without. -/
def segProt (extraWrite : Bool) (seg : Phdr a) : Prot :=
  { pflagsToProt seg.pFlags with write := (pflagsToProt seg.pFlags).write || extraWrite }

def onSegment (loadBias x : Addr a) (seg : Phdr a) : Bool :=
  decide (InRange (segPageStart loadBias seg) (pageCeil (segLength loadBias seg).toNat) x)

def lastOn (loadBias : Addr a) (segs : List (Phdr a)) (x : Addr a) : Option (Phdr a) :=
  segs.reverse.find? (onSegment loadBias x)

/-- The segments that are not writable, numbered from `n`. -/
def readOnly (n : Nat) (table : List (Phdr a)) : List (Phdr a × Nat) :=
  (table.zipIdx n).filter fun s => s.1.pType = PT_LOAD ∧ s.1.pFlags &&& PF_W = 0

def grants (mprotect : Mprotect a) (loadBias : Addr a) (extraWrite : Bool) (s : Phdr a × Nat) :
    Bool :=
  (mprotect s.2 (segPageStart loadBias s.1) (segLength loadBias s.1)
    (segProt extraWrite s.1)).isNone

/-- The segments before the first one for which it fails. -/
def granted (mprotect : Mprotect a) (loadBias : Addr a) (extraWrite : Bool) (n : Nat)
    (table : List (Phdr a)) : List (Phdr a) :=
  ((readOnly n table).takeWhile (grants mprotect loadBias extraWrite)).map Prod.fst

variable {mprotect : Mprotect a} {loadBias : Addr a} {extraWrite : Bool}

variable {n : Nat} {phdr : Phdr a} {table : List (Phdr a)}

theorem readOnly_cons_skip (h : phdr.pType ≠ PT_LOAD ∨ phdr.pFlags &&& PF_W ≠ 0) :
    readOnly n (phdr :: table) = readOnly (n + 1) table := by
  unfold readOnly
  rw [zipIdx_cons, filter_cons_of_neg]
  simpa only [decide_eq_true_eq, not_and_or] using h

theorem readOnly_cons_keep (h : ¬ (phdr.pType ≠ PT_LOAD ∨ phdr.pFlags &&& PF_W ≠ 0)) :
    readOnly n (phdr :: table) = (phdr, n) :: readOnly (n + 1) table := by
  unfold readOnly
  rw [zipIdx_cons, filter_cons_of_pos]
  simpa [not_or] using h

theorem lastOn_cons (seg : Phdr a) (segs : List (Phdr a)) (x : Addr a) :
    lastOn loadBias (seg :: segs) x =
      (lastOn loadBias segs x).or (if onSegment loadBias x seg then some seg else none) := by
  unfold lastOn
  rw [reverse_cons, find?_append, find?_singleton]

theorem setLoadProt_fails {strerror : CString}
    (h : ¬ (phdr.pType ≠ PT_LOAD ∨ phdr.pFlags &&& PF_W ≠ 0))
    (hcall : mprotect n (segPageStart loadBias phdr) (segLength loadBias phdr)
      (segProt extraWrite phdr) = some strerror) (space : Space a) :
    setLoadProt mprotect loadBias extraWrite n (phdr :: table) space =
      (space, some strerror) := by
  unfold segProt segLength segPageStart at hcall
  rw [setLoadProt, if_neg h]
  simp only [hcall]

theorem setLoadProt_continues (h : ¬ (phdr.pType ≠ PT_LOAD ∨ phdr.pFlags &&& PF_W ≠ 0))
    (hcall : mprotect n (segPageStart loadBias phdr) (segLength loadBias phdr)
      (segProt extraWrite phdr) = none) (space : Space a) :
    setLoadProt mprotect loadBias extraWrite n (phdr :: table) space =
      setLoadProt mprotect loadBias extraWrite (n + 1) table
        { space with
          prot := fill space.prot (segPageStart loadBias phdr)
            (pageCeil (segLength loadBias phdr).toNat)
            fun _ => some (segProt extraWrite phdr) } := by
  unfold segProt segLength segPageStart at *
  rw [setLoadProt, if_neg h]
  simp only [hcall]

/-- What `_phdr_table_set_load_prot` does to the protections. -/
theorem prot_setLoadProt (table : List (Phdr a)) (n : Nat) (space : Space a) (x : Addr a) :
    (setLoadProt mprotect loadBias extraWrite n table space).1.prot x =
      (lastOn loadBias (granted mprotect loadBias extraWrite n table) x).elim (space.prot x)
        fun seg => some (segProt extraWrite seg) := by
  induction table generalizing n space with
  | nil => rfl
  | cons phdr table ih =>
    unfold granted at ih ⊢
    by_cases hskip : phdr.pType ≠ PT_LOAD ∨ phdr.pFlags &&& PF_W ≠ 0
    · rw [setLoadProt, if_pos hskip, readOnly_cons_skip hskip]
      exact ih (n + 1) space
    · rw [readOnly_cons_keep hskip]
      cases hcall : mprotect n (segPageStart loadBias phdr) (segLength loadBias phdr)
        (segProt extraWrite phdr) with
      | some strerror =>
        rw [setLoadProt_fails hskip hcall, takeWhile_cons_of_neg (by simp [grants, hcall])]
        rfl
      | none =>
        rw [setLoadProt_continues hskip hcall, ih,
          takeWhile_cons_of_pos (by simp [grants, hcall]), map_cons, lastOn_cons]
        cases lastOn loadBias _ x with
        | some seg => rfl
        | none =>
          unfold onSegment fill
          by_cases hx : InRange (segPageStart loadBias phdr)
              (pageCeil (segLength loadBias phdr).toNat) x
          · rw [decide_eq_true hx, if_pos rfl]
            exact if_pos hx
          · rw [decide_eq_false hx, if_neg (by simp)]
            exact if_neg hx

theorem setLoadProt_eq_none_iff (table : List (Phdr a)) (n : Nat) (space : Space a) :
    (setLoadProt mprotect loadBias extraWrite n table space).2 = none ↔
      ∀ s ∈ readOnly n table, grants mprotect loadBias extraWrite s = true := by
  induction table generalizing n space with
  | nil => simp [setLoadProt, readOnly]
  | cons phdr table ih =>
    by_cases hskip : phdr.pType ≠ PT_LOAD ∨ phdr.pFlags &&& PF_W ≠ 0
    · rw [setLoadProt, if_pos hskip, readOnly_cons_skip hskip]
      exact ih (n + 1) space
    · rw [readOnly_cons_keep hskip, forall_mem_cons]
      cases hcall : mprotect n (segPageStart loadBias phdr) (segLength loadBias phdr)
        (segProt extraWrite phdr) with
      | some strerror =>
        rw [setLoadProt_fails hskip hcall]
        simp [grants, hcall]
      | none =>
        rw [setLoadProt_continues hskip hcall, ih]
        simp [grants, hcall]

/-! ## The tables leave the protections alone -/

variable {rels : ElfRelocations a} {symbols : ElfSymbols} {resolver : SymbolResolver a}

theorem prot_applyRelocs (rs : List (Reloc a)) (st : RelocState a) :
    (rels.applyRelocs symbols resolver rs st).1.space.prot = st.space.prot := by
  induction rs generalizing st with
  | nil => rfl
  | cons r rs ih =>
    rw [applyRelocs]
    split
    · exact ih st
    · dsimp only
      split
      · rfl
      · exact ih _

theorem prot_mipsGlobalGot (idxs : List Nat) (st : RelocState a) :
    (rels.mipsGlobalGot symbols resolver idxs st).1.space.prot = st.space.prot := by
  induction idxs generalizing st with
  | nil => rfl
  | cons idx idxs ih =>
    rw [mipsGlobalGot]
    split
    · exact ih _
    · split
      · exact ih _
      · rfl

theorem prot_foldl_update (us : List (WordUpdate a)) (st : RelocState a) :
    (us.foldl RelocState.update st).space.prot = st.space.prot := by
  induction us generalizing st with
  | nil => rfl
  | cons u us ih => exact ih (st.update u)

theorem prot_relocateMipsGot (st : RelocState a) :
    (rels.relocateMipsGot symbols resolver st).1.space.prot = st.space.prot := by
  unfold relocateMipsGot
  split
  · rfl
  · rw [prot_mipsGlobalGot, prot_foldl_update]

theorem prot_applyTables (st : RelocState a) :
    (rels.applyTables symbols resolver st).1.space.prot = st.space.prot := by
  have hplt : (rels.applyRelocs symbols resolver rels.pltRelocations st).1.space.prot =
      st.space.prot := prot_applyRelocs _ st
  unfold applyTables
  split
  next st₁ heq => rwa [heq] at hplt
  next st₁ heq =>
    rw [heq] at hplt
    have hmain : (rels.applyRelocs symbols resolver rels.relocations st₁).1.space.prot =
        st.space.prot := (prot_applyRelocs _ st₁).trans hplt
    split
    next st₂ heq' => rwa [heq'] at hmain
    next st₂ heq' =>
      rw [heq'] at hmain
      split
      · rw [prot_relocateMipsGot]
        exact hmain
      · exact hmain

/-! ## `ApplyAll` -/

def Accepts (rels : ElfRelocations a) (symbols : ElfSymbols) (resolver : SymbolResolver a) : Prop :=
  (∀ r ∈ rels.entries, r.relType ≠ 0 → ∃ u, rels.updateOf symbols resolver r = .ok u) ∧
    rels.GotResolved symbols resolver

/-- The segments that are made writable. -/
def madeWritable (rels : ElfRelocations a) (mprotect : Mprotect a) : List (Phdr a) :=
  granted mprotect rels.loadBias true 0 rels.phdr

/-- The segments that get their own flags back, if it comes to that. -/
def reprotected (rels : ElfRelocations a) (mprotect : Mprotect a) : List (Phdr a) :=
  granted mprotect rels.loadBias false 0 rels.phdr

/-- It comes to that: everything can be made writable and relocated. -/
def Reprotects (rels : ElfRelocations a) (mprotect : Mprotect a) (symbols : ElfSymbols)
    (resolver : SymbolResolver a) : Prop :=
  (∀ s ∈ readOnly 0 rels.phdr, grants mprotect rels.loadBias true s = true) ∧
    rels.Accepts symbols resolver

theorem prot_applyAll_of_not_text (htext : rels.hasTextRelocations = false) (st : RelocState a) :
    (rels.applyAll mprotect symbols resolver st).1.space.prot = st.space.prot := by
  have hnone : ∀ extraWrite space,
      rels.changeProtections mprotect extraWrite space = (space, none) := fun extraWrite space =>
    if_neg (by simp [htext])
  have htables : (rels.applyTables symbols resolver st).1.space.prot = st.space.prot :=
    prot_applyTables st
  unfold applyAll
  rw [hnone]
  dsimp only
  split
  next st₁ heq => rwa [heq] at htables
  next st₁ heq =>
    rw [hnone]
    rwa [heq] at htables

theorem changeProtections_of_text (htext : rels.hasTextRelocations = true) (extraWrite : Bool)
    (space : Space a) : rels.changeProtections mprotect extraWrite space =
      setLoadProt mprotect rels.loadBias extraWrite 0 rels.phdr space := if_pos htext

theorem prot_applyAll (mprotect : Mprotect a) (symbols : ElfSymbols) (resolver : SymbolResolver a)
    (htext : rels.hasTextRelocations = true) (st : RelocState a) :
    (rels.Reprotects mprotect symbols resolver ∧ ∃ space,
      space.prot = (rels.changeProtections mprotect true st.space).1.prot ∧
      (rels.applyAll mprotect symbols resolver st).1.space.prot =
        (rels.changeProtections mprotect false space).1.prot) ∨
    ¬ rels.Reprotects mprotect symbols resolver ∧
      (rels.applyAll mprotect symbols resolver st).1.space.prot =
        (rels.changeProtections mprotect true st.space).1.prot := by
  have hgrants : (rels.changeProtections mprotect true st.space).2 = none ↔
      ∀ s ∈ readOnly 0 rels.phdr, grants mprotect rels.loadBias true s = true := by
    rw [changeProtections_of_text htext]
    exact setLoadProt_eq_none_iff rels.phdr 0 st.space
  unfold applyAll Reprotects
  rw [← hgrants]
  split
  next space strerror hfirst =>
    rw [hfirst]
    exact Or.inr ⟨by simp, rfl⟩
  next space hfirst =>
    rw [hfirst, Accepts, ← applyTables_true_iff { st with space }]
    have htables : (rels.applyTables symbols resolver { st with space }).1.space.prot =
        space.prot := prot_applyTables _
    split
    next st₁ heq =>
      rw [heq] at htables ⊢
      exact Or.inr ⟨by simp, htables⟩
    next st₁ heq =>
      rw [heq] at htables ⊢
      refine Or.inl ⟨⟨rfl, rfl⟩, st₁.space, htables, ?_⟩
      split
      next hlast => rw [hlast]; rfl
      next hlast => rw [hlast]

theorem elim_eq_iff {α β : Type*} {o : Option α} {d : β} {f : α → β} :
    o.elim d f = d ↔ ∀ v ∈ o, d = f v := by
  cases o with
  | none => simp
  | some v => simp [eq_comm]

/-- The condition on the protections before the call. A page with segments that get their own flags
    back has these before; one with segments that only become writable is writable before. -/
def Restores (rels : ElfRelocations a) (mprotect : Mprotect a) (symbols : ElfSymbols)
    (resolver : SymbolResolver a) (prot : Addr a → Option Prot) : Prop :=
  (rels.Reprotects mprotect symbols resolver ∧ ∀ x,
    (∀ seg ∈ lastOn rels.loadBias (rels.reprotected mprotect) x,
      prot x = some (segProt false seg)) ∧
    (lastOn rels.loadBias (rels.reprotected mprotect) x = none →
      ∀ seg ∈ lastOn rels.loadBias (rels.madeWritable mprotect) x,
        prot x = some (segProt true seg))) ∨
  (¬ rels.Reprotects mprotect symbols resolver ∧ ∀ x,
    ∀ seg ∈ lastOn rels.loadBias (rels.madeWritable mprotect) x, prot x = some (segProt true seg))

/-- **Protections after text relocations.** `ApplyAll` leaves them as they were exactly if there
    are no text relocations or the condition holds. -/
theorem prot_applyAll_eq_iff (st : RelocState a) :
    (rels.applyAll mprotect symbols resolver st).1.space.prot = st.space.prot ↔
      rels.hasTextRelocations = false ∨
        rels.Restores mprotect symbols resolver st.space.prot := by
  cases htext : rels.hasTextRelocations with
  | false => simp [prot_applyAll_of_not_text htext]
  | true =>
    have hfirst : ∀ x, (rels.changeProtections mprotect true st.space).1.prot x =
        (lastOn rels.loadBias (rels.madeWritable mprotect) x).elim (st.space.prot x)
          fun seg => some (segProt true seg) := by
      rw [changeProtections_of_text htext]
      exact prot_setLoadProt rels.phdr 0 st.space
    rw [funext_iff, Restores]
    rcases prot_applyAll mprotect symbols resolver htext st with
      ⟨hreach, space, hspace, hprot⟩ | ⟨hreach, hprot⟩
    · have hlast : ∀ x, (rels.changeProtections mprotect false space).1.prot x =
          (lastOn rels.loadBias (rels.reprotected mprotect) x).elim (space.prot x)
            fun seg => some (segProt false seg) := by
        rw [changeProtections_of_text htext]
        exact prot_setLoadProt rels.phdr 0 space
      simp only [hprot, hlast, hspace, hfirst, hreach, not_true, false_and, or_false, true_and,
        Bool.true_eq_false, false_or]
      refine forall_congr' fun x => ?_
      cases lastOn rels.loadBias (rels.reprotected mprotect) x with
      | some seg => simp [eq_comm]
      | none => simpa using elim_eq_iff
    · simp only [hprot, hfirst, hreach, not_false_eq_true, false_and, false_or, true_and,
        Bool.true_eq_false]
      exact forall_congr' fun x => elim_eq_iff

/-! ## A library as it was mapped -/

/-- The segments, and those of them that are not writable. -/
def loadable (rels : ElfRelocations a) : List (Phdr a) := rels.phdr.filter (·.pType = PT_LOAD)

def notWritable (rels : ElfRelocations a) : List (Phdr a) :=
  rels.loadable.filter (·.pFlags &&& PF_W = 0)

/-- Each page has the flags of the segment that was mapped there last. -/
def Mapped (rels : ElfRelocations a) (prot : Addr a → Option Prot) : Prop :=
  ∀ x, ∀ seg ∈ lastOn rels.loadBias rels.loadable x, prot x = some (segProt false seg)

theorem granted_of_grants (hgrants : ∀ n addr length prot, mprotect n addr length prot = none)
    (extraWrite : Bool) :
    granted mprotect rels.loadBias extraWrite 0 rels.phdr = rels.notWritable := by
  have hall : ∀ s ∈ readOnly 0 rels.phdr, grants mprotect rels.loadBias extraWrite s = true := by
    intro s _
    rw [grants, hgrants]
    rfl
  have hfst : ((fun seg : Phdr a => decide (seg.pType = PT_LOAD ∧ seg.pFlags &&& PF_W = 0)) ∘
      Prod.fst : Phdr a × Nat → Bool) =
        fun s => decide (s.1.pType = PT_LOAD ∧ s.1.pFlags &&& PF_W = 0) := rfl
  rw [granted, takeWhile_eq_self_iff.mpr hall, readOnly, ← hfst, ← filter_map,
    zipIdx_map_fst, notWritable, loadable, filter_filter]
  congr 1
  funext seg
  rw [Bool.decide_and, Bool.and_comm]

variable {x : Addr a} {seg : Phdr a}

theorem mem_of_mem_lastOn {segs : List (Phdr a)} (h : seg ∈ lastOn loadBias segs x) :
    seg ∈ segs ∧ onSegment loadBias x seg = true :=
  ⟨mem_reverse.mp (mem_of_find?_eq_some h), find?_some h⟩

theorem lastOn_filter {segs : List (Phdr a)} {p : Phdr a → Bool} (h : seg ∈ lastOn loadBias segs x)
    (hp : p seg = true) :
    lastOn loadBias (segs.filter p) x = some seg := by
  obtain ⟨hon, later, earlier, heq, hlater⟩ := find?_eq_some_iff_append.mp h
  rw [lastOn, ← filter_reverse, find?_filter, heq]
  refine find?_eq_some_iff_append.mpr ⟨by simp [hp, hon], later, earlier, rfl, ?_⟩
  intro other hother
  simp [Bool.eq_false_iff.mpr (by simpa using hlater other hother)]

theorem write_segProt (seg : Phdr a) :
    (segProt false seg).write = decide (seg.pFlags &&& PF_W ≠ 0) := Bool.or_false _

theorem mem_notWritable :
    seg ∈ rels.notWritable ↔ seg ∈ rels.loadable ∧ seg.pFlags &&& PF_W = 0 := by
  rw [notWritable, mem_filter, decide_eq_true_eq]

/-- A page of a segment that is not writable is one of a segment. -/
theorem exists_lastOn_loadable {other : Phdr a}
    (h : other ∈ lastOn rels.loadBias rels.notWritable x) :
    ∃ seg, seg ∈ lastOn rels.loadBias rels.loadable x := by
  obtain ⟨hmem, hon⟩ := mem_of_mem_lastOn h
  cases hlast : lastOn rels.loadBias rels.loadable x with
  | some seg => exact ⟨seg, rfl⟩
  | none =>
    rw [lastOn, find?_eq_none] at hlast
    exact absurd hon (hlast other (mem_reverse.mpr (mem_notWritable.mp hmem).1))

/-- If `mprotect` does not fail, a library that was mapped is left as it was exactly if, in case it
    can be relocated, no page with a segment that is not writable got a writable one after it, and
    otherwise, every such page did, with flags that differ in nothing else. -/
theorem restores_mapped_iff (hgrants : ∀ n addr length prot, mprotect n addr length prot = none)
    {prot : Addr a → Option Prot} (hprot : rels.Mapped prot) :
    rels.Restores mprotect symbols resolver prot ↔
      (rels.Accepts symbols resolver ∧ ∀ x, ∀ seg ∈ lastOn rels.loadBias rels.loadable x,
        seg.pFlags &&& PF_W ≠ 0 → lastOn rels.loadBias rels.notWritable x = none) ∨
      (¬ rels.Accepts symbols resolver ∧ ∀ x, ∀ seg ∈ lastOn rels.loadBias rels.loadable x,
        ∀ other ∈ lastOn rels.loadBias rels.notWritable x,
          segProt false seg = segProt true other) := by
  have hreach : rels.Reprotects mprotect symbols resolver ↔ rels.Accepts symbols resolver := by
    refine and_iff_right fun s _ => ?_
    rw [grants, hgrants]
    rfl
  rw [Restores, hreach, madeWritable, reprotected, granted_of_grants hgrants,
    granted_of_grants hgrants]
  refine or_congr (and_congr_right fun _ => forall_congr' fun x => ?_)
    (and_congr_right fun _ => forall_congr' fun x => ?_)
  · constructor
    · rintro ⟨hown, -⟩ seg hseg hwrite
      by_contra hsome
      obtain ⟨other, hother⟩ := Option.ne_none_iff_exists'.mp hsome
      have heq := Option.some.inj ((hprot x seg hseg).symm.trans (hown other hother))
      have hreadOnly := (mem_notWritable.mp (mem_of_mem_lastOn hother).1).2
      have hfield := congrArg Prot.write heq
      rw [write_segProt, write_segProt, decide_eq_true hwrite,
        decide_eq_false (by simp [hreadOnly])] at hfield
      cases hfield
    · intro hnone
      refine ⟨fun other hother => ?_, fun hno seg hseg => by rw [hno] at hseg; cases hseg⟩
      obtain ⟨seg, hseg⟩ := exists_lastOn_loadable hother
      by_cases hwrite : seg.pFlags &&& PF_W = 0
      · have hlast : lastOn rels.loadBias rels.notWritable x = some seg :=
          lastOn_filter hseg (decide_eq_true hwrite)
        obtain rfl : seg = other := Option.some.inj (hlast.symm.trans hother)
        exact hprot x seg hseg
      · rw [hnone seg hseg hwrite] at hother
        cases hother
  · constructor
    · intro hown seg hseg other hother
      exact Option.some.inj ((hprot x seg hseg).symm.trans (hown other hother))
    · intro heq other hother
      obtain ⟨seg, hseg⟩ := exists_lastOn_loadable hother
      rw [hprot x seg hseg, heq seg hseg other hother]

def smallSegment (vaddr memsz : Addr .arm) (flags : BitVec 32) : Phdr .arm where
  pType := PT_LOAD
  pFlags := flags
  pOffset := vaddr
  pVaddr := vaddr
  pPaddr := vaddr
  pFilesz := memsz
  pMemsz := memsz
  pAlign := 0x1000

def textLibrary (phdr : List (Phdr .arm)) (relocations : List (Reloc .arm)) :
    ElfRelocations .arm where
  phdr := phdr
  loadBias := 0x40000
  relocationsType := .rel
  pltRelocations := []
  relocations := relocations
  pltGot := 0
  mipsSymtabCount := 0
  mipsLocalGotCount := 0
  mipsGotsym := 0
  hasTextRelocations := true

/-- It is relocated where everything has these flags, no call of `mprotect` fails and there are no
    symbols. -/
def relocated (phdr : List (Phdr .arm)) (relocations : List (Reloc .arm)) (flags : BitVec 32) :
    RelocState .arm × Bool :=
  (textLibrary phdr relocations).applyAll (fun _ _ _ _ => none) ⟨fun _ => [], fun _ => false⟩
    (fun _ => 0) ⟨⟨fun _ => 0, fun _ => some (pflagsToProt flags)⟩, none⟩

/-- After a relocation of an unknown type the code stays writable; and after a run that succeeds,
    data that share a page with code are not writable any more. -/
theorem prot_applyAll_changed :
    (relocated [smallSegment 0 0x1000 5] [{ rOffset := 0, rInfo := 1 }] 5).2 = false ∧
    (relocated [smallSegment 0 0x1000 5] [{ rOffset := 0, rInfo := 1 }] 5).1.space.prot 0x40000 =
      some (pflagsToProt 7) ∧
    (relocated [smallSegment 0 0x800 5, smallSegment 0x800 0x800 6] [] 6).2 = true ∧
    (relocated [smallSegment 0 0x800 5, smallSegment 0x800 0x800 6] [] 6).1.space.prot 0x40800 =
      some (pflagsToProt 5) := by
  decide +kernel

end ElfRelocations

end CrystaxNdk.CrazyLinker
