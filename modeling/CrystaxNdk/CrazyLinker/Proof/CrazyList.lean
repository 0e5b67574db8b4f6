import CrystaxNdk.CrazyLinker.Proof.LoadSteps

/-!
# The intrusive list of crazy libraries

`head_`, `list_next_` and `list_prev_` link the crazy libraries of the vector, the last one first. A
library leaves this list when its last reference is given back, and the vector only after its
dependencies were unloaded; in between its count tells it from the others. Which counts those are
depends on what is known of the libraries, so the lemmas, one for each thing the code does, are
about any `test` of the counts.
-/

namespace CrystaxNdk.CrazyLinker

open Lib List

namespace LibraryList

/-- The crazy libraries in `vs` whose count passes the test. -/
def crazyWhere (test : Int → Bool) (vs : List LibraryView) : List LibPtr :=
  (vs.filter fun v => v.isCrazy && test v.refCount).map LibraryView.ptr

def Chained (test : Int → Bool) (st : LibraryList) : Prop :=
  Linked st.listNext st.listPrev none st.head (crazyWhere test st.knownLibraries).reverse

variable {test : Int → Bool} {st : LibraryList} {v : LibraryView}

/-! ## Changes of the vector -/

theorem mem_crazyWhere {vs : List LibraryView} {p : ViewPtr} :
    p ∈ crazyWhere test vs ↔
      ∃ v ∈ vs, v.isCrazy = true ∧ test v.refCount = true ∧ v.ptr = p := by
  simp [crazyWhere, and_assoc]

theorem nodup_crazyWhere {vs : List LibraryView} (h : (vs.map LibraryView.ptr).Nodup) :
    (crazyWhere test vs).Nodup :=
  h.sublist (filter_sublist.map LibraryView.ptr)

theorem crazyWhere_append_singleton (vs : List LibraryView) (v : LibraryView) :
    crazyWhere test (vs ++ [v]) =
      crazyWhere test vs ++ if v.isCrazy && test v.refCount then [v.ptr] else [] := by
  rw [crazyWhere, filter_append, map_append, crazyWhere]
  by_cases hv : (v.isCrazy && test v.refCount) = true
  · simp [hv]
  · simp [hv]

/-- The libraries after a change of counts, read off the views before it. -/
theorem crazyWhere_bumpRef (p : ViewPtr) (n : Int) :
    crazyWhere test (st.bumpRef p n).knownLibraries =
      (st.knownLibraries.filter fun v => v.isCrazy &&
        test (if v.ptr = p then v.refCount + n else v.refCount)).map LibraryView.ptr := by
  rw [crazyWhere, knownLibraries_bumpRef, modifyKey, filter_map, map_map]
  have hfilter : ∀ v : LibraryView,
      ((fun v : LibraryView => v.isCrazy && test v.refCount) ∘ fun v =>
        if v.ptr = p then { v with refCount := v.refCount + n } else v) v =
      (v.isCrazy && test (if v.ptr = p then v.refCount + n else v.refCount)) := by
    intro v
    by_cases hp : v.ptr = p
    · simp only [Function.comp_apply, if_pos hp]
      rfl
    · simp only [Function.comp_apply, if_neg hp]
  rw [filter_congr fun v _ => hfilter v]
  refine map_congr_left fun v _ => ?_
  show LibraryView.ptr (if v.ptr = p then _ else v) = v.ptr
  split <;> rfl

/-- Nothing changes while the count passes the test or fails it, or if the view is not crazy. -/
theorem crazyWhere_bumpRef_of_same (hptrs : (st.knownLibraries.map LibraryView.ptr).Nodup)
    (hv : v ∈ st.knownLibraries) {n : Int}
    (hsame : v.isCrazy = false ∨ test (v.refCount + n) = test v.refCount) :
    crazyWhere test (st.bumpRef v.ptr n).knownLibraries = crazyWhere test st.knownLibraries := by
  rw [crazyWhere_bumpRef, crazyWhere]
  congr 1
  refine filter_congr fun w hw => ?_
  by_cases hp : w.ptr = v.ptr
  · obtain rfl := inj_on_of_nodup_map hptrs hw hv hp
    rw [if_pos rfl]
    rcases hsame with hcrazy | htest
    · simp [hcrazy]
    · rw [htest]
  · rw [if_neg hp]

theorem crazyWhere_bumpRef_of_not (hptrs : (st.knownLibraries.map LibraryView.ptr).Nodup)
    (hv : v ∈ st.knownLibraries) {n : Int} (hnot : test (v.refCount + n) = false) :
    crazyWhere test (st.bumpRef v.ptr n).knownLibraries =
      (crazyWhere test st.knownLibraries).erase v.ptr := by
  rw [(nodup_crazyWhere hptrs).erase_eq_filter, crazyWhere_bumpRef, crazyWhere, filter_map,
    filter_filter]
  congr 1
  refine filter_congr fun w hw => ?_
  by_cases hp : w.ptr = v.ptr
  · obtain rfl := inj_on_of_nodup_map hptrs hw hv hp
    simp [hnot]
  · simp [hp]

theorem crazyWhere_removeKey {vs : List LibraryView} (hptrs : (vs.map LibraryView.ptr).Nodup)
    {p : ViewPtr} (hnot : ∀ w ∈ vs, w.ptr = p → w.isCrazy = false ∨ test w.refCount = false) :
    crazyWhere test (removeKey LibraryView.ptr p vs) = crazyWhere test vs := by
  rw [removeKey_eq_filter hptrs, crazyWhere, filter_filter, crazyWhere]
  congr 1
  refine filter_congr fun w hw => ?_
  by_cases hp : w.ptr = p
  · rcases hnot w hw hp with hcrazy | htest
    · simp [hcrazy]
    · simp [htest]
  · simp [hp]

/-! ## What the code does -/

theorem Chained.bumpRef (h : Chained test st)
    (hptrs : (st.knownLibraries.map LibraryView.ptr).Nodup) (hv : v ∈ st.knownLibraries) {n : Int}
    (hsame : v.isCrazy = false ∨ test (v.refCount + n) = test v.refCount) :
    Chained test (st.bumpRef v.ptr n) := by
  rw [Chained, crazyWhere_bumpRef_of_same hptrs hv hsame]
  exact h

/-- A crazy library leaves the list when its last reference is given back. -/
theorem Chained.retire (h : Chained test st)
    (hptrs : (st.knownLibraries.map LibraryView.ptr).Nodup) (hv : v ∈ st.knownLibraries)
    (hcrazy : v.isCrazy = true) (htest : test v.refCount = true)
    (hnot : test (v.refCount + -1) = false) (events : List Event) :
    Chained test (((st.bumpRef v.ptr (-1)).unlinkLibrary v.ptr).emit events) := by
  have hmem : v.ptr ∈ (crazyWhere test st.knownLibraries).reverse := by
    rw [mem_reverse, mem_crazyWhere]
    exact ⟨v, hv, hcrazy, htest, rfl⟩
  have hnodup : (crazyWhere test st.knownLibraries).reverse.Nodup :=
    nodup_reverse.mpr (nodup_crazyWhere hptrs)
  have hptrs' : (crazyWhere test (st.bumpRef v.ptr (-1)).knownLibraries).reverse =
      (crazyWhere test st.knownLibraries).reverse.erase v.ptr := by
    rw [crazyWhere_bumpRef_of_not hptrs hv hnot, hnodup.erase_eq_filter,
      (nodup_crazyWhere hptrs).erase_eq_filter, filter_reverse]
  show Linked _ _ none _ (crazyWhere test (st.bumpRef v.ptr (-1)).knownLibraries).reverse
  rw [hptrs']
  exact Linked.unlink h hnodup hmem

theorem Chained.pushSystem (h : Chained test st) (events : List Event) (handle : Nat)
    (n : CString) : Chained test ((st.emit events).pushView (.system handle) n) := by
  rw [Chained, knownLibraries_pushView, crazyWhere_append_singleton,
    if_neg (by simp [LibraryView.isCrazy]), append_nil]
  exact h

theorem Chained.enter (h : Chained test st)
    (hptrs : (st.knownLibraries.map LibraryView.ptr).Nodup)
    (hfresh : ∀ v ∈ st.knownLibraries, v.ptr < st.nextPtr) (hone : test 1 = true)
    (lib : SharedLibrary) (n : CString) : Chained test (st.enter lib n) := by
  have hnew : st.nextPtr ∉ (crazyWhere test st.knownLibraries).reverse := by
    rw [mem_reverse, mem_crazyWhere]
    rintro ⟨w, hw, -, -, hptr⟩
    exact (hfresh w hw).ne hptr
  have hlink := Linked.linkFront h (nodup_reverse.mpr (nodup_crazyWhere hptrs)) hnew
  rw [Chained, knownLibraries_enter, crazyWhere_append_singleton,
    if_pos (by simp [LibraryView.isCrazy, hone]), reverse_append]
  exact hlink

theorem Chained.removeView (h : Chained test st)
    (hptrs : (st.knownLibraries.map LibraryView.ptr).Nodup)
    (hnot : ∀ w ∈ st.knownLibraries, w.ptr = v.ptr →
      w.isCrazy = false ∨ test w.refCount = false) : Chained test (st.removeView v) := by
  have hlinks : (st.removeView v).listNext = st.listNext ∧
      (st.removeView v).listPrev = st.listPrev ∧ (st.removeView v).head = st.head := by
    unfold LibraryList.removeView
    cases v.type with
    | none => exact ⟨rfl, rfl, rfl⟩
    | system handle => exact ⟨rfl, rfl, rfl⟩
    | crazy ptr lib => exact ⟨rfl, rfl, rfl⟩
  rw [Chained, hlinks.1, hlinks.2.1, hlinks.2.2, knownLibraries_removeView,
    crazyWhere_removeKey hptrs hnot]
  exact h

end LibraryList

end CrystaxNdk.CrazyLinker
