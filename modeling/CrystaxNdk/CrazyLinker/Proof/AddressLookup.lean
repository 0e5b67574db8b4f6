import CrystaxNdk.CrazyLinker.LibraryLookup
import CrystaxNdk.CrazyLinker.Proof.LoadedHeader
import CrystaxNdk.CrazyLinker.Proof.ViewAddresses

/-!
# From addresses to libraries and back

`FindLibraryForAddress` and `FindArmExIdx` stop at the first library for which `ContainsAddress`
holds. That is not quite the one the address is in: the test also holds at the end of a library,
where the next one may begin, and never holds for one that ends with the address space, because the
sum wraps around. The first section compares the first element that passes a test with the only one
that should.

In the other direction `IteratePhdr` tells an unwinder where each library is. `LoadSegments` puts a
segment at `p_vaddr + load_bias_`; `LoadLibrary` stores the load address in `l_addr`, and that is
what is passed on. So an unwinder that adds `p_vaddr` to it is off by the page of the lowest
segment. What it gets as the table begins at the `PT_PHDR` entry, if there is one, so that this also
has to be the first.
-/

namespace CrystaxNdk.CrazyLinker

open Lib

/-! ## Two tests -/

section FirstMatch

variable {α : Type*} {l : List α} {test right : α → Bool}

/-- Every element that is right passes, and one that passes without being right has one that is
    right before it. -/
def Screens (test right : α → Bool) (l : List α) : Prop :=
  (∀ x ∈ l, right x → test x) ∧
    ∀ before x after, l = before ++ x :: after → test x → ¬ right x → ∃ y ∈ before, right y

theorem right_unique (hunique : l.Pairwise fun x y => ¬ (right x ∧ right y)) {x y : α}
    (hx : x ∈ l) (hy : y ∈ l) (hright : right x) (hright' : right y) : x = y := by
  by_contra hne
  have hsymm : Std.Symm fun x y : α => ¬ (right x ∧ right y) :=
    ⟨fun x y hxy hyx => hxy ⟨hyx.2, hyx.1⟩⟩
  exact hunique.forall hx hy hne ⟨hright, hright'⟩

/-- If at most one element is right, the search by the test finds it exactly if the test screens
    the list. -/
theorem find?_eq_right_iff (hunique : l.Pairwise fun x y => ¬ (right x ∧ right y)) :
    (∀ x, l.find? test = some x ↔ x ∈ l ∧ right x) ↔ Screens test right l := by
  refine ⟨fun hfind => ⟨?_, ?_⟩, ?_⟩
  · intro x hx hright
    exact List.find?_some ((hfind x).mpr ⟨hx, hright⟩)
  · rintro before x after rfl htest hwrong
    rw [List.find?_append] at hfind
    cases hbefore : before.find? test with
    | none =>
      rw [hbefore, Option.none_or, List.find?_cons_of_pos htest] at hfind
      exact absurd ((hfind x).mp rfl).2 hwrong
    | some y =>
      rw [hbefore, Option.some_or] at hfind
      exact ⟨y, List.mem_of_find?_eq_some hbefore, ((hfind y).mp rfl).2⟩
  · rintro ⟨hpasses, hbefore⟩
    have hsound : ∀ x, l.find? test = some x → x ∈ l ∧ right x := by
      intro x hfound
      obtain ⟨htest, before, after, rfl, hnone⟩ := List.find?_eq_some_iff_append.mp hfound
      refine ⟨by simp, ?_⟩
      by_contra hwrong
      obtain ⟨y, hy, hright⟩ := hbefore before x after rfl htest hwrong
      have hfails := hnone y hy
      rw [hpasses y (by simp [hy]) hright] at hfails
      cases hfails
    refine fun x => ⟨hsound x, ?_⟩
    rintro ⟨hx, hright⟩
    cases hfound : l.find? test with
    | none => exact absurd (hpasses x hx hright) (List.find?_eq_none.mp hfound x hx)
    | some y =>
      obtain ⟨hy, hright'⟩ := hsound y hfound
      rw [right_unique hunique hy hx hright' hright]

end FirstMatch

variable {a : Arch}

/-! ## Load ranges -/

namespace ElfView

/-- The address just behind the library, as a number. -/
def loadEnd (view : ElfView a) : Nat := view.loadAddress.toNat + view.loadSize.toNat

/-- The address is in the range from the load address to the end. -/
def rangeContains (view : ElfView a) (address : Addr a) : Bool :=
  decide (view.loadAddress.toNat ≤ address.toNat) && decide (address.toNat < view.loadEnd)

def RangesDisjoint (view view' : ElfView a) : Prop :=
  ∀ address, ¬ (view.rangeContains address = true ∧ view'.rangeContains address = true)

variable {view : ElfView a} {address : Addr a}

theorem rangeContains_iff : view.rangeContains address = true ↔
    view.loadAddress.toNat ≤ address.toNat ∧ address.toNat < view.loadEnd := by
  simp [rangeContains]

theorem containsAddress_iff : view.containsAddress address = true ↔
    view.loadAddress.toNat ≤ address.toNat ∧ address.toNat ≤ view.loadEnd ∧
      view.loadEnd < 2 ^ (8 * a.wordBytes) := by
  unfold containsAddress loadEnd
  rw [Bool.and_eq_true, decide_eq_true_eq, decide_eq_true_eq, BitVec.le_def, BitVec.le_def,
    BitVec.toNat_add]
  have hstart := view.loadAddress.isLt
  have hsize := view.loadSize.isLt
  rcases Nat.lt_or_ge (view.loadAddress.toNat + view.loadSize.toNat) (2 ^ (8 * a.wordBytes))
    with hlt | hge
  · rw [Nat.mod_eq_of_lt hlt]
    omega
  · -- the end is before the start
    rw [Nat.mod_eq_sub_mod hge, Nat.mod_eq_of_lt (by omega)]
    omega

/-- An address in the range passes exactly if the range ends before the address space does. -/
theorem containsAddress_of_rangeContains_iff (h : view.rangeContains address = true) :
    view.containsAddress address = true ↔ view.loadEnd < 2 ^ (8 * a.wordBytes) := by
  rw [rangeContains_iff] at h
  rw [containsAddress_iff]
  omega

theorem containsAddress_of_not_rangeContains_iff (h : ¬ view.rangeContains address = true) :
    view.containsAddress address = true ↔ view.loadEnd = address.toNat := by
  rw [rangeContains_iff] at h
  rw [containsAddress_iff]
  have hlt := address.isLt
  unfold loadEnd at *
  omega

end ElfView

/-! ## Searching a list of libraries -/

section Search

variable {α : Type*} (view? : α → Option (ElfView a)) (address : Addr a) {l : List α}

/-- The library that has the address ends before the address space does, and comes before any that
    ends there. -/
def Unambiguous (l : List α) : Prop :=
  (∀ x ∈ l, ∀ view ∈ view? x, view.rangeContains address = true →
    view.loadEnd < 2 ^ (8 * a.wordBytes)) ∧
  ∀ before x after, l = before ++ x :: after → (∃ view ∈ view? x, view.loadEnd = address.toNat) →
    ∃ y ∈ before, ∃ view ∈ view? y, view.rangeContains address = true

theorem unambiguous_of_no_end (h : ∀ x ∈ l, ∀ view ∈ view? x,
    view.loadEnd ≠ address.toNat ∧ view.loadEnd < 2 ^ (8 * a.wordBytes)) :
    Unambiguous view? address l := by
  refine ⟨fun x hx view hview _ => (h x hx view hview).2, ?_⟩
  rintro before x after rfl ⟨view, hview, hend⟩
  exact absurd hend (h x (by simp) view hview).1

theorem screens_containsAddress_iff :
    Screens (fun x => (view? x).any (·.containsAddress address))
      (fun x => (view? x).any (·.rangeContains address)) l ↔ Unambiguous view? address l := by
  unfold Screens Unambiguous
  simp only [Option.any_eq_true]
  refine and_congr (forall₂_congr fun x _ => ?_) ?_
  · cases view? x with
    | none => simp
    | some view =>
      simp only [Option.mem_def, Option.some.injEq, exists_eq_left', forall_eq']
      exact forall_congr' fun h => ElfView.containsAddress_of_rangeContains_iff h
  · refine forall_congr' fun before => forall_congr' fun x => forall₂_congr fun after _ => ?_
    cases view? x with
    | none => simp
    | some view =>
      simp only [Option.mem_def, Option.some.injEq, exists_eq_left']
      by_cases hrange : view.rangeContains address = true
      · have hne : view.loadEnd ≠ address.toNat := (ElfView.rangeContains_iff.mp hrange).2.ne'
        simp [hrange, hne]
      · rw [ElfView.containsAddress_of_not_rangeContains_iff hrange]
        simp [hrange]

end Search

namespace LibraryList

def crazyView (view : LibPtr → ElfView a) (wrap : LibraryView) : Option (ElfView a) :=
  match wrap.type with
  | .crazy ptr _ => some (view ptr)
  | _ => none

variable {st : LibraryList} {view : LibPtr → ElfView a} {address : Addr a}

theorem findLibraryForAddress_eq : st.findLibraryForAddress view address =
    st.knownLibraries.find? fun wrap =>
      (crazyView view wrap).any (·.containsAddress address) := by
  unfold findLibraryForAddress
  congr 1
  funext wrap
  unfold crazyView
  cases wrap.type with
  | none => rfl
  | system handle => rfl
  | crazy ptr lib => rfl

theorem findArmExIdx_eq {libs : List LibPtr} {fuel : Nat}
    (hlinked : Linked st.listNext st.listPrev none st.head libs) (hfuel : libs.length < fuel)
    (exidx : LibPtr → ArmExidx a) :
    st.findArmExIdx view exidx address fuel =
      some (((libs.find? fun lib => (view lib).containsAddress address).map
        (exidxResult exidx)).getD (0, 0)) := by
  unfold findArmExIdx
  rw [hlinked.visits.follow_eq _ _ hfuel, visitAll_search _ (exidxResult exidx), Option.or_none]
  rfl

/-- The wrapper that is found is the one whose library has the address. -/
def FindsLibrary (st : LibraryList) (view : LibPtr → ElfView a) (address : Addr a) : Prop :=
  ∀ wrap, st.findLibraryForAddress view address = some wrap ↔
    wrap ∈ st.knownLibraries ∧ ∃ v ∈ crazyView view wrap, v.rangeContains address = true

/-- Whatever the exception tables are, the one that is returned is that of the library that has
    the address, and there is none otherwise. -/
def FindsExidx (st : LibraryList) (libs : List LibPtr) (view : LibPtr → ElfView a)
    (address : Addr a) (fuel : Nat) : Prop :=
  ∀ exidx, ∃ result, st.findArmExIdx view exidx address fuel = some result ∧
    (∀ lib ∈ libs, (view lib).rangeContains address = true → result = exidxResult exidx lib) ∧
    ((∀ lib ∈ libs, ¬ (view lib).rangeContains address = true) → result = (0, 0))

theorem findsLibrary_iff (hdisjoint : st.knownLibraries.Pairwise fun v w =>
      ∀ x ∈ crazyView view v, ∀ y ∈ crazyView view w, x.RangesDisjoint y) (address : Addr a) :
    st.FindsLibrary view address ↔ Unambiguous (crazyView view) address st.knownLibraries := by
  unfold FindsLibrary
  rw [← screens_containsAddress_iff, ← find?_eq_right_iff]
  · simp only [findLibraryForAddress_eq, Option.any_eq_true, Option.mem_def]
  · refine hdisjoint.imp fun {v w} hvw => ?_
    rw [Option.any_eq_true, Option.any_eq_true]
    rintro ⟨⟨x, hx, hcontains⟩, y, hy, hcontains'⟩
    exact hvw x hx y hy address ⟨hcontains, hcontains'⟩

/-- Tables that tell the libraries with the address from the others. -/
def markedExidx (view : LibPtr → ElfView a) (address : Addr a) (lib : LibPtr) : ArmExidx a where
  table := if (view lib).rangeContains address then 1 else 2
  count := 0

theorem findsExidx_iff {libs : List LibPtr} {fuel : Nat}
    (hlinked : Linked st.listNext st.listPrev none st.head libs) (hfuel : libs.length < fuel)
    (hdisjoint : libs.Pairwise fun p q => (view p).RangesDisjoint (view q)) (address : Addr a) :
    st.FindsExidx libs view address fuel ↔
      Unambiguous (fun lib => some (view lib)) address libs := by
  have hunique : libs.Pairwise fun p q =>
      ¬ ((view p).rangeContains address = true ∧ (view q).rangeContains address = true) :=
    hdisjoint.imp fun hpq => hpq address
  rw [← screens_containsAddress_iff]
  simp only [Option.any_some]
  rw [← find?_eq_right_iff hunique]
  unfold FindsExidx
  simp only [findArmExIdx_eq hlinked hfuel, Option.some.injEq, exists_eq_left']
  have hone : (1 : Addr a) ≠ 2 ∧ (0 : Addr a) ≠ 1 ∧ (2 : Addr a) ≠ 0 := by cases a <;> decide
  refine ⟨fun hfinds => ?_, fun hfind exidx => ⟨fun lib hmem hrange => ?_, fun hnone => ?_⟩⟩
  · -- tables that tell the libraries with the address from the others show which one is found
    obtain ⟨hfound, hnone⟩ := hfinds (markedExidx view address)
    have hsound : ∀ lib, libs.find? (fun lib => (view lib).containsAddress address) = some lib →
        lib ∈ libs ∧ (view lib).rangeContains address = true := by
      intro lib hlib
      refine ⟨List.mem_of_find?_eq_some hlib, ?_⟩
      by_contra hwrong
      rw [hlib, Option.map_some, Option.getD_some, exidxResult, markedExidx,
        if_neg hwrong] at hfound hnone
      by_cases hex : ∃ other ∈ libs, (view other).rangeContains address = true
      · obtain ⟨other, hmem, hrange⟩ := hex
        have heq := hfound other hmem hrange
        rw [exidxResult, markedExidx, if_pos hrange] at heq
        exact hone.1 (congrArg Prod.fst heq).symm
      · refine hone.2.2 (congrArg Prod.fst (hnone fun other hmem hrange => ?_))
        exact hex ⟨other, hmem, hrange⟩
    refine fun lib => ⟨hsound lib, ?_⟩
    rintro ⟨hmem, hrange⟩
    cases hlib : libs.find? fun lib => (view lib).containsAddress address with
    | none =>
      have heq := hfound lib hmem hrange
      rw [hlib, exidxResult, markedExidx, if_pos hrange] at heq
      exact absurd (congrArg Prod.fst heq) hone.2.1
    | some other =>
      obtain ⟨hmem', hrange'⟩ := hsound other hlib
      rw [right_unique hunique hmem' hmem hrange' hrange]
  · rw [(hfind lib).mpr ⟨hmem, hrange⟩, Option.map_some, Option.getD_some]
  · have hlib : libs.find? (fun lib => (view lib).containsAddress address) = none := by
      rw [Option.eq_none_iff_forall_ne_some]
      intro lib hlib
      obtain ⟨hmem, hrange⟩ := (hfind lib).mp hlib
      exact hnone lib hmem hrange
    rw [hlib, Option.map_none, Option.getD_none]

/-- **The library of an address.** Among libraries with disjoint ranges, both lookups find the one
    that has the address exactly if it comes first among those that have it or end there, and does
    not end with the address space. -/
theorem lookups_right_iff {libs : List LibPtr} {fuel : Nat}
    (hknown : st.knownLibraries.Pairwise fun v w =>
      ∀ x ∈ crazyView view v, ∀ y ∈ crazyView view w, x.RangesDisjoint y)
    (hlinked : Linked st.listNext st.listPrev none st.head libs) (hfuel : libs.length < fuel)
    (hlibs : libs.Pairwise fun p q => (view p).RangesDisjoint (view q)) (address : Addr a) :
    (st.FindsLibrary view address ↔ Unambiguous (crazyView view) address st.knownLibraries) ∧
    (st.FindsExidx libs view address fuel ↔
      Unambiguous (fun lib => some (view lib)) address libs) :=
  ⟨findsLibrary_iff hknown address, findsExidx_iff hlinked hfuel hlibs address⟩

/-! ## Two libraries, one right after the other -/

def twoLibraries : LibraryList :=
  let lib : SharedLibrary := { fullPath := [], loadAddress := 0, needed := [] }
  ((((empty.linkLibrary 1).pushView (.crazy 1 lib) ['a']).linkLibrary 2).pushView
    (.crazy 2 lib) ['b'])

/-- The library `low` is at `0x10000`, the other at `0x11000`. -/
def adjacent (low : LibPtr) (lib : LibPtr) : ElfView .arm :=
  { ElfView.cleared with
    loadAddress := if lib = low then 0x10000 else 0x11000
    loadSize := 0x1000 }

theorem rangeContains_adjacent {low lib : LibPtr} {address : Addr .arm} :
    (adjacent low lib).rangeContains address = true ↔
      (if lib = low then 0x10000 else 0x11000) ≤ address.toNat ∧
        address.toNat < (if lib = low then 0x11000 else 0x12000) := by
  rw [ElfView.rangeContains_iff]
  by_cases hlib : lib = low
  · simp only [ElfView.loadEnd, adjacent, if_pos hlib]
    rfl
  · simp only [ElfView.loadEnd, adjacent, if_neg hlib]
    rfl

theorem rangesDisjoint_adjacent {low p q : LibPtr} (h : ¬ (p = low ↔ q = low)) :
    (adjacent low p).RangesDisjoint (adjacent low q) := by
  intro address
  rw [rangeContains_adjacent, rangeContains_adjacent]
  by_cases hp : p = low
  · have hq : q ≠ low := fun hq => h ⟨fun _ => hq, fun _ => hp⟩
    rw [if_pos hp, if_pos hp, if_neg hq, if_neg hq]
    omega
  · have hq : q = low := by
      by_contra hq
      exact h ⟨fun heq => absurd heq hp, fun heq => absurd heq hq⟩
    rw [if_neg hp, if_neg hp, if_pos hq, if_pos hq]
    omega

theorem known_twoLibraries (low : LibPtr) (h : ¬ (1 = low ↔ 2 = low)) :
    twoLibraries.knownLibraries.Pairwise fun v w => ∀ x ∈ crazyView (adjacent low) v,
      ∀ y ∈ crazyView (adjacent low) w, x.RangesDisjoint y := by
  simpa [twoLibraries, empty, crazyView, linkLibrary, pushView] using rangesDisjoint_adjacent h

theorem linked_twoLibraries :
    Linked twoLibraries.listNext twoLibraries.listPrev none twoLibraries.head [2, 1] :=
  ⟨rfl, rfl, rfl, rfl, rfl⟩

theorem loadEnd_adjacent (low lib : LibPtr) :
    (adjacent low lib).loadEnd ≠ (0x10800 : Addr .arm).toNat ∧
      (adjacent low lib).loadEnd < 2 ^ (8 * Arch.arm.wordBytes) := by
  unfold ElfView.loadEnd adjacent
  split <;> decide

/-- In the middle of a library. -/
theorem lookups_right_inside :
    twoLibraries.FindsLibrary (adjacent 1) 0x10800 ∧
      twoLibraries.FindsExidx [2, 1] (adjacent 1) 0x10800 3 := by
  have hlibs : [2, 1].Pairwise fun p q => (adjacent 1 p).RangesDisjoint (adjacent 1 q) := by
    have hdisjoint : (adjacent 1 2).RangesDisjoint (adjacent 1 1) :=
      rangesDisjoint_adjacent (by decide)
    simpa using hdisjoint
  have hfuel : [2, 1].length < 3 := by decide
  obtain ⟨hlibrary, hexidx⟩ := lookups_right_iff (known_twoLibraries 1 (by decide))
    linked_twoLibraries hfuel hlibs 0x10800
  refine ⟨hlibrary.mpr (unambiguous_of_no_end _ _ ?_), hexidx.mpr (unambiguous_of_no_end _ _ ?_)⟩
  · intro wrap _ view hview
    unfold crazyView at hview
    split at hview
    next ptr lib _ => exact Option.some.inj hview ▸ loadEnd_adjacent 1 ptr
    next => cases hview
  · intro lib _ view hview
    exact Option.some.inj hview ▸ loadEnd_adjacent 1 lib

/-- Where one ends and the other begins, the one that ends there is found if it was entered first,
    and its exception table is used if it was loaded last. -/
theorem lookups_wrong_at_end :
    (twoLibraries.knownLibraries.Pairwise fun v w => ∀ x ∈ crazyView (adjacent 1) v,
      ∀ y ∈ crazyView (adjacent 1) w, x.RangesDisjoint y) ∧
    (twoLibraries.findLibraryForAddress (adjacent 1) 0x11000).map LibraryView.name =
      some ['a'] ∧
    ¬ twoLibraries.FindsLibrary (adjacent 1) 0x11000 ∧
    (adjacent 2 2).RangesDisjoint (adjacent 2 1) ∧
    ¬ twoLibraries.FindsExidx [2, 1] (adjacent 2) 0x11000 3 := by
  refine ⟨known_twoLibraries 1 (by decide), by decide +kernel, fun hfinds => ?_,
    rangesDisjoint_adjacent (by decide), fun hfinds => ?_⟩
  · have hfound : twoLibraries.findLibraryForAddress (adjacent 1) 0x11000 =
        twoLibraries.knownLibraries.head? := by decide +kernel
    obtain ⟨-, view, hview, hrange⟩ := (hfinds _).mp hfound
    cases hview
    exact absurd hrange (by decide +kernel)
  · obtain ⟨result, hresult, hlib, -⟩ := hfinds fun lib => ⟨BitVec.ofNat _ lib, 0⟩
    have heq := hlib 1 (by decide) (by decide +kernel)
    rw [heq] at hresult
    exact absurd hresult (by decide +kernel)

end LibraryList

/-! ## The base address the unwinder is told -/

variable {a : Arch}

/-- A library that was loaded, with what the loader did for it. -/
structure LoadedLibrary (a : Arch) where
  kernel : Kernel a
  space : Space a
  fullPath : CString
  loadAddress : Addr a
  fileOffset : Addr a
  loaded : Loaded a
  view : ElfView a
  loadAt_eq : (loadAt kernel space fullPath fileOffset loadAddress).2 = .ok loaded
  loadView_eq : (SharedLibrary.loadView kernel space fullPath loadAddress fileOffset).2 =
    (view, .ok ())

/-- The view looks for the table like the loader, if a `PT_PHDR` entry comes first. -/
theorem ElfView.findPhdr0_eq {mem : Addr a → Byte} {table : List (Phdr a)} {bias phdr : Addr a}
    (hfound : findPhdr mem table bias = .ok phdr) (hne : phdr ≠ 0)
    (hfirst : ∀ n, table.findIdx? (·.pType = PT_PHDR) = some n → n = 0) :
    findPhdr0 mem phdr bias table = phdr := by
  rw [findPhdr0]
  cases hidx : table.findIdx? (·.pType = PT_PHDR) with
  | some n =>
    have hentry : phdr + BitVec.ofNat _ (n * a.phdrSize) = phdr := by simp [hfirst n hidx]
    simp only [hentry]
    exact if_pos hne
  | none =>
    -- both look for the ELF header at the first loadable segment
    have hnone : table.find? (·.pType = PT_PHDR) = none := by simpa using hidx
    rw [findPhdr, hnone] at hfound
    simp only [ne_eq, not_true_eq_false, if_false]
    cases hseg : table.find? (·.pType = PT_LOAD) with
    | none =>
      rw [hseg] at hfound
      cases hfound
    | some seg =>
      rw [hseg] at hfound
      dsimp only at hfound ⊢
      split at hfound
      next hzero => rw [checkPhdr_ok hfound, if_pos hzero]
      next => cases hfound

theorem ElfView.initUnmapped_phdr {mem : Addr a → Byte} {loadAddress phdr : Addr a}
    {phdrCount : Nat} {view : ElfView a}
    (h : (view.initUnmapped mem loadAddress phdr phdrCount).2 = .ok ()) :
    (view.initUnmapped mem loadAddress phdr phdrCount).1.phdr =
      findPhdr0 mem phdr
        (loadAddress - (phdrTableGetLoadSize (readTable mem phdr phdrCount)).minVaddr)
        (readTable mem phdr phdrCount) ∧
    (view.initUnmapped mem loadAddress phdr phdrCount).1.phdrCount = phdrCount := by
  unfold initUnmapped at h ⊢
  dsimp only at h ⊢
  split at h
  next => cases h
  next hsize =>
    rw [if_neg hsize]
    split at h
    next => cases h
    next hdynamic =>
      rw [if_neg hdynamic]
      split at h
      next => cases h
      next hphdr0 =>
        rw [if_neg hphdr0]
        exact ⟨rfl, rfl⟩

namespace LoadedLibrary

variable (lib : LoadedLibrary a)

def linkMap : LinkMapData a := lib.view.linkMap (getBaseNamePtr lib.fullPath)

def info : DlPhdrInfo a := phdrInfo lib.linkMap lib.view

def loadedMem : Addr a → Byte :=
  (loadAt lib.kernel lib.space lib.fullPath lib.fileOffset lib.loadAddress).1.space.mem

/-- The `seg_start` of `LoadSegments` for an entry of the table it goes through. -/
def segStart (entry : Phdr a) : Addr a := entry.pVaddr + lib.loaded.loadBias

theorem initUnmapped_eq : ElfView.cleared.initUnmapped lib.loadedMem lib.loaded.loadStart
    lib.loaded.loadedPhdr lib.loaded.phdrTable.length = (lib.view, .ok ()) := by
  have hload := lib.loadAt_eq
  have hview := lib.loadView_eq
  unfold SharedLibrary.loadView at hview
  unfold loadedMem
  split at hview
  next heq =>
    rw [heq] at hload
    cases hload
  next mapping loaded heq =>
    rw [heq] at hload ⊢
    cases hload
    dsimp only
    split at hview
    next => cases hview
    next view heq' =>
      cases hview
      exact heq'

theorem reservation_for : lib.loaded.toReservation.For lib.loaded.phdrTable := by
  obtain ⟨file, header, hloads⟩ := loadAt_ok lib.loadAt_eq
  exact reserveAddressSpace_for hloads.reserved

theorem view_loadAddress : lib.view.loadAddress = lib.loaded.loadStart := by
  have hinit := lib.initUnmapped_eq
  have hsize := (ElfView.initUnmapped_ok (congrArg Prod.snd hinit)).1
  have hfields := ElfView.cleared.initUnmapped_fields hsize lib.reservation_for.start_ne
  rw [hinit] at hfields
  exact hfields.1

/-- What is reported is where the segments are exactly if the bias is the load address. -/
theorem dlpiAddr_eq_iff :
    lib.info.dlpiAddr = lib.loaded.loadBias ↔
      ∃ seg ∈ lib.loaded.phdrTable, seg.pType = PT_LOAD ∧ seg.pVaddr.toNat < 4096 := by
  have hfor := lib.reservation_for
  have haddr : lib.info.dlpiAddr = lib.loaded.loadStart := lib.view_loadAddress
  rw [← minVaddr_eq_zero_iff (exists_loadable (hfor.size_eq ▸ hfor.size_ne)), haddr, hfor.bias_eq]
  rw [eq_comm, BitVec.sub_eq_iff_eq_add]
  simp

/-- The sum that an unwinder forms is where `LoadSegments` has put the segment. -/
def SumsRight (info : DlPhdrInfo a) : Prop :=
  ∀ entry ∈ lib.loaded.phdrTable, entry.pType = PT_LOAD →
    info.dlpiAddr + entry.pVaddr = lib.segStart entry

theorem sumsRight_iff : lib.SumsRight lib.info ↔
    ∃ seg ∈ lib.loaded.phdrTable, seg.pType = PT_LOAD ∧ seg.pVaddr.toNat < 4096 := by
  have hfor := lib.reservation_for
  obtain ⟨seg, hmem, hload⟩ := exists_loadable (hfor.size_eq ▸ hfor.size_ne)
  have hsum : ∀ entry : Phdr a, lib.info.dlpiAddr + entry.pVaddr = lib.segStart entry ↔
      lib.info.dlpiAddr = lib.loaded.loadBias := by
    intro entry
    rw [segStart, BitVec.add_comm entry.pVaddr, BitVec.add_left_inj]
  rw [← lib.dlpiAddr_eq_iff]
  exact ⟨fun hright => (hsum seg).mp (hright seg hmem hload),
    fun haddr entry _ _ => (hsum entry).mpr haddr⟩

/-- A library in whose table an unwinder can look: the headers are laid out as they should be, a
    `PT_PHDR` entry comes first, and nothing has been written to the table since the load. -/
structure TableInPlace (file : File a) (header : Ehdr a) (mem : Addr a → Byte) : Prop where
  opened : lib.kernel.openReadOnly lib.fullPath = .ok file
  readHeader : readElfHeader lib.kernel file lib.fileOffset = .ok header
  mappable : Mappable file lib.fileOffset lib.loaded.phdrTable
  layout : HeaderLoaded header lib.loaded.phdrTable
  first : ∀ n, lib.loaded.phdrTable.findIdx? (·.pType = PT_PHDR) = some n → n = 0
  kept : ∀ i < lib.loaded.phdrTable.length * a.phdrSize,
    mem (lib.loaded.loadedPhdr + BitVec.ofNat _ i) =
      lib.loadedMem (lib.loaded.loadedPhdr + BitVec.ofNat _ i)

theorem loadedPhdr_ne_zero (hrules : ∀ seg ∈ lib.loaded.phdrTable, seg.pType = PT_LOAD → seg.Rules)
    (h : lib.loaded.HeaderInSegment) : lib.loaded.loadedPhdr ≠ 0 := by
  obtain ⟨seg, hmem, hload, hle, -⟩ := h
  have hfor := lib.reservation_for
  have hwithin := (hfor.pages_within hmem hload (hrules seg hmem hload).end_lt).1
  have hfloor := pageFloor_le (seg.pVaddr + lib.loaded.loadBias).toNat
  have hne : lib.loaded.loadStart.toNat ≠ 0 := fun h => hfor.start_ne (BitVec.eq_of_toNat_eq h)
  rw [BitVec.add_comm] at hle
  intro hzero
  rw [hzero, BitVec.ofNat_eq_ofNat, BitVec.toNat_zero] at hle
  omega

variable {lib} {file : File a} {header : Ehdr a} {mem : Addr a → Byte}

/-- Then the view finds the table where the loader has found it. -/
theorem TableInPlace.readTable_eq (h : lib.TableInPlace file header mem) :
    ElfView.readTable mem lib.info.dlpiPhdr lib.info.dlpiPhnum = lib.loaded.phdrTable := by
  obtain ⟨file', header', hloads⟩ := loadAt_ok lib.loadAt_eq
  obtain rfl : file' = file := Except.ok.inj (hloads.opened.symm.trans h.opened)
  obtain rfl : header' = header := Except.ok.inj (hloads.readHeader.symm.trans h.readHeader)
  obtain ⟨hsegment, hread, -⟩ := hloads.table_agrees h.mappable h.layout
  have hne := lib.loadedPhdr_ne_zero h.mappable.rules hsegment
  obtain ⟨hphdr, hcount⟩ := ElfView.initUnmapped_phdr (congrArg Prod.snd lib.initUnmapped_eq)
  rw [lib.initUnmapped_eq, loadedMem, hread, ← lib.reservation_for.bias_eq] at hphdr
  rw [lib.initUnmapped_eq] at hcount
  have heq := hphdr.trans (ElfView.findPhdr0_eq hloads.found hne h.first)
  calc _ = ElfView.readTable mem lib.loaded.loadedPhdr lib.loaded.phdrTable.length := by
        rw [← heq, ← hcount]
        rfl
    _ = _ := (readPhdrTable_congr h.kept).trans hread

end LoadedLibrary

namespace LibraryList

variable {lib : LibPtr → LoadedLibrary a} {callback : List (DlPhdrInfo a) → DlPhdrInfo a → Int}

/-- The loop goes through the libraries until the callback answers something else than 0. -/
theorem visitAll_info (before : List (DlPhdrInfo a)) (libs : List LibPtr) : ∃ passed result,
    visitAll (fun (s : List (DlPhdrInfo a) × Int) ptr =>
      ((s.1 ++ [(lib ptr).info], callback s.1 (lib ptr).info),
        decide (callback s.1 (lib ptr).info ≠ 0))) (before, 0) libs = (before ++ passed, result) ∧
    passed <+: libs.map (fun ptr => (lib ptr).info) ∧
    (result = 0 → passed = libs.map fun ptr => (lib ptr).info) := by
  induction libs generalizing before with
  | nil => exact ⟨[], 0, by simp [visitAll], List.nil_prefix, fun _ => rfl⟩
  | cons ptr libs ih =>
    rw [visitAll]
    by_cases hstop : callback before (lib ptr).info = 0
    · obtain ⟨passed, result, heq, hprefix, hall⟩ := ih (before ++ [(lib ptr).info])
      refine ⟨(lib ptr).info :: passed, result, ?_, ?_, fun hzero => ?_⟩
      · simpa [hstop] using heq
      · simpa using hprefix
      · simp [hall hzero]
    · refine ⟨[(lib ptr).info], callback before (lib ptr).info, by simp [hstop], by simp, ?_⟩
      exact fun hzero => absurd hzero hstop

theorem iteratePhdr_eq {st : LibraryList} {libs : List LibPtr} {fuel : Nat}
    (hlinked : Linked st.listNext st.listPrev none st.head libs) (hfuel : libs.length < fuel) :
    ∃ passed result, st.iteratePhdr (fun ptr => (lib ptr).linkMap) (fun ptr => (lib ptr).view)
        callback fuel = some (passed, result) ∧
      passed <+: libs.map (fun ptr => (lib ptr).info) ∧
      (result = 0 → passed = libs.map fun ptr => (lib ptr).info) := by
  unfold iteratePhdr
  rw [hlinked.visits.follow_eq _ _ hfuel]
  obtain ⟨passed, result, heq, hpassed⟩ := visitAll_info [] libs
  exact ⟨passed, result, congrArg some heq, hpassed⟩

/-- **The reported base.** The callback gets what is known about the libraries of the list, in
    order. For each of them `dlpi_addr + p_vaddr` is where the segments are exactly if the lowest
    of them starts in the first page; and the entries at `dlpi_phdr` are those of the segments, if
    the table is in place. -/
theorem iteratePhdr_reported_iff {st : LibraryList} (lib : LibPtr → LoadedLibrary a)
    (callback : List (DlPhdrInfo a) → DlPhdrInfo a → Int) {libs : List LibPtr} {fuel : Nat}
    (hlinked : Linked st.listNext st.listPrev none st.head libs) (hfuel : libs.length < fuel) :
    (∃ passed result, st.iteratePhdr (fun ptr => (lib ptr).linkMap) (fun ptr => (lib ptr).view)
        callback fuel = some (passed, result) ∧
      passed <+: libs.map (fun ptr => (lib ptr).info) ∧
      (result = 0 → passed = libs.map fun ptr => (lib ptr).info)) ∧
    ∀ ptr ∈ libs,
      ((lib ptr).SumsRight (lib ptr).info ↔ ∃ seg ∈ (lib ptr).loaded.phdrTable,
        seg.pType = PT_LOAD ∧ seg.pVaddr.toNat < 4096) ∧
      ∀ (file : File a) (header : Ehdr a) (mem : Addr a → Byte),
        (lib ptr).TableInPlace file header mem →
        ElfView.readTable mem (lib ptr).info.dlpiPhdr (lib ptr).info.dlpiPhnum =
          (lib ptr).loaded.phdrTable := by
  refine ⟨iteratePhdr_eq hlinked hfuel, fun ptr _ => ⟨(lib ptr).sumsRight_iff, ?_⟩⟩
  intro file header mem hplace
  exact hplace.readTable_eq

end LibraryList

/-! ## Two libraries -/

def linkedAtFile (vaddr : Addr .i386) (h : (elf32 (ElfView.linkedAt vaddr)).length < 2 ^ 31) :
    File .i386 := { bytes := elf32 (ElfView.linkedAt vaddr), size_lt := h }

def libraryAtZero : LoadedLibrary .i386 where
  kernel := .granting (linkedAtFile 0 (by decide)) 0x40000
  space := { mem := fun _ => 0, prot := fun _ => none }
  fullPath := []
  loadAddress := 0
  fileOffset := 0
  loaded := { loadStart := 0x40000, loadSize := 0x1000, loadBias := 0x40000,
              phdrTable := ElfView.linkedAt 0, loadedPhdr := 0x40034 }
  view := (ElfView.viewLinkedAt 0).1
  loadAt_eq := by decide +kernel
  loadView_eq := by decide +kernel

def libraryAtPage : LoadedLibrary .i386 where
  kernel := .granting (linkedAtFile 0x1000 (by decide)) 0x40000
  space := { mem := fun _ => 0, prot := fun _ => none }
  fullPath := []
  loadAddress := 0
  fileOffset := 0
  loaded := { loadStart := 0x40000, loadSize := 0x1000, loadBias := 0x3f000,
              phdrTable := ElfView.linkedAt 0x1000, loadedPhdr := 0x40034 }
  view := (ElfView.viewLinkedAt 0x1000).1
  loadAt_eq := by decide +kernel
  loadView_eq := by decide +kernel

def oneLibrary : LibraryList := { LibraryList.empty with head := some 1 }

theorem linked_oneLibrary :
    Linked oneLibrary.listNext oneLibrary.listPrev none oneLibrary.head [1] := ⟨rfl, rfl, rfl⟩

theorem iteratePhdr_reported_libraryAtZero :
    libraryAtZero.SumsRight libraryAtZero.info ∧
    ElfView.readTable libraryAtZero.loadedMem libraryAtZero.info.dlpiPhdr
      libraryAtZero.info.dlpiPhnum = libraryAtZero.loaded.phdrTable := by
  obtain ⟨-, hreported⟩ := LibraryList.iteratePhdr_reported_iff (fun _ => libraryAtZero)
    (fun _ _ => 0) linked_oneLibrary (by decide : [1].length < 2)
  obtain ⟨hsums, htable⟩ := hreported 1 (by decide)
  have hphdr : libraryAtZero.loaded.phdrTable.find? (·.pType = PT_PHDR) = none := by decide
  have hidx : libraryAtZero.loaded.phdrTable.findIdx? (·.pType = PT_PHDR) = none := by decide
  refine ⟨hsums.mpr (by decide +kernel), htable (linkedAtFile 0 (by decide)) twoEntriesHeader _ ?_⟩
  exact {
    opened := rfl
    readHeader := by decide +kernel
    mappable := ⟨by decide +kernel, by decide +kernel, by decide +kernel⟩
    layout := ⟨segment 0 0 116 116 5, by decide, rfl, by decide, by decide, by simp [hphdr],
      fun _ => ⟨by decide, by decide⟩⟩
    first := by simp [hidx]
    kept := fun _ _ => rfl }

/-- The segment is at `0x40000`, the sum is `0x41000`. -/
theorem iteratePhdr_reported_wrong :
    oneLibrary.iteratePhdr (fun _ => libraryAtPage.linkMap) (fun _ => libraryAtPage.view)
      (fun _ _ => 0) 2 = some ([libraryAtPage.info], 0) ∧
    libraryAtPage.info.dlpiAddr = 0x40000 ∧
    libraryAtPage.segStart (segment 0 0x1000 116 116 5) = 0x40000 ∧
    ¬ libraryAtPage.SumsRight libraryAtPage.info := by
  refine ⟨rfl, by decide +kernel, by decide +kernel, fun hright => ?_⟩
  exact absurd (hright (segment 0 0x1000 116 116 5) List.mem_cons_self rfl) (by decide +kernel)

end CrystaxNdk.CrazyLinker
