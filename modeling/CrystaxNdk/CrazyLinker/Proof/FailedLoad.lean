import CrystaxNdk.CrazyLinker.Proof.Dependencies

/-!
# What a failed load leaves behind

`LoadLibrary` returns as soon as something fails and undoes nothing: the dependencies it loaded
up to then stay in the list, with a reference nobody will ever give back. The exception is a
failure met before any dependency was loaded, which can only lie on the chain of *first*
dependencies (`FailsAtOnce`). Every other failure is seen in the sum of the counts.
-/

namespace CrystaxNdk.CrazyLinker

open Lib

namespace LibraryList

variable {sys : System} {st st' st₁ : LibraryList} {mode : Int} {search : SearchPathList}
  {n : CString} {addr off fuel : Nat}

/-- The views with their counts and the list of crazy libraries are the same. -/
def SameLists (st st' : LibraryList) : Prop :=
  st'.knownLibraries = st.knownLibraries ∧ st'.head = st.head ∧
    st'.listNext = st.listNext ∧ st'.listPrev = st.listPrev

/-- The load of a name fails with nothing loaded before the failure: at the library itself, or
    at its first dependency. -/
inductive FailsAtOnce (sys : System) (mode : Int) (search : SearchPathList) (st : LibraryList) :
    CString → Nat → Nat → Prop where
  | refused {n : CString} {addr off : Nat} {wrap : LibraryView} {e : LoadError} :
      st.findKnownLibrary n = some wrap → (st.openKnown wrap addr).2 = .error e →
      FailsAtOnce sys mode search st n addr off
  | system {n : CString} {addr off : Nat} {e : LoadError} :
      st.findKnownLibrary n = none → isSystemLibrary n = true →
      (openSystem sys st n mode).2 = .error e → FailsAtOnce sys mode search st n addr off
  | unopened {n : CString} {addr off : Nat} {e : LoadError} :
      st.findKnownLibrary n = none → isSystemLibrary n = false →
      openFile sys st search n addr off = .error e → FailsAtOnce sys mode search st n addr off
  | unrelocated {n : CString} {addr off : Nat} {lib : SharedLibrary} {message : CString} :
      st.findKnownLibrary n = none → isSystemLibrary n = false →
      openFile sys st search n addr off = .ok lib → lib.needed = [] →
      sys.relocate lib [] = .error message → FailsAtOnce sys mode search st n addr off
  | first {n : CString} {addr off : Nat} {lib : SharedLibrary} {m : CString}
      {ms : List CString} :
      st.findKnownLibrary n = none → isSystemLibrary n = false →
      openFile sys st search n addr off = .ok lib → lib.needed = m :: ms →
      FailsAtOnce sys mode search st m 0 0 → FailsAtOnce sys mode search st n addr off

theorem FailsAtOnce.unchanged (h : FailsAtOnce sys mode search st n addr off) :
    ∀ fuel st' r, loadLibrary sys mode search (fuel + 1) st n addr off = some (st', r) →
      st' = st ∧ ∃ e, r = .error e := by
  induction h with
  | @refused n addr off wrap e hknown hfails =>
    intro fuel st' r hload
    rw [loadLibrary_known_eq hknown] at hload
    rcases openKnown_cases st wrap addr with ⟨e', hopen⟩ | hopen
    · rw [hopen] at hload
      cases hload
      exact ⟨rfl, e', rfl⟩
    · rw [hopen] at hfails
      cases hfails
  | @system n addr off e hknown hsystem hfails =>
    intro fuel st' r hload
    rw [loadLibrary_system_eq hknown hsystem] at hload
    rcases openSystem_cases sys st n mode with ⟨e', hopen⟩ | ⟨handle, hopen⟩
    · rw [hopen] at hload
      cases hload
      exact ⟨rfl, e', rfl⟩
    · rw [hopen] at hfails
      cases hfails
  | unopened hknown hsystem hopen =>
    intro fuel st' r hload
    rw [loadLibrary_unopened_eq hknown hsystem hopen] at hload
    cases hload
    exact ⟨rfl, _, rfl⟩
  | unrelocated hknown hsystem hopen hneeded hrelocate =>
    intro fuel st' r hload
    rw [loadLibrary_opened_ok hknown hsystem hopen (by rw [hneeded]; rfl)] at hload
    simp only [finishLoad, List.filterMap_nil, hrelocate] at hload
    cases hload
    exact ⟨rfl, _, rfl⟩
  | @first n addr off lib m ms hknown hsystem hopen hneeded _ ih =>
    intro fuel st' r hload
    cases hm : loadLibrary sys mode search fuel st m 0 0 with
    | none =>
      rw [loadLibrary_opened_none hknown hsystem hopen
        (by rw [hneeded, loadDependencies, hm])] at hload
      cases hload
    | some res =>
      obtain ⟨st₁, r₁⟩ := res
      cases fuel with
      | zero => cases hm
      | succ fuel =>
        obtain ⟨rfl, e, rfl⟩ := ih fuel st₁ r₁ hm
        rw [loadLibrary_opened_error hknown hsystem hopen
          (by rw [hneeded, loadDependencies, hm])] at hload
        cases hload
        exact ⟨rfl, _, rfl⟩

/-! ## The sum of the counts -/

def refTotal (st : LibraryList) : Int := (st.knownLibraries.map LibraryView.refCount).sum

theorem refTotal_addRef {v : LibraryView} (hv : v ∈ st.knownLibraries) :
    st.refTotal < (st.addRef v.ptr).refTotal := by
  unfold refTotal addRef
  rw [knownLibraries_bumpRef, modifyKey, List.map_map]
  refine List.sum_lt_sum _ _ (fun w _ => ?_) ⟨v, hv, ?_⟩
  · by_cases hp : w.ptr = v.ptr
    · simp [hp]
    · simp [hp]
  · simp

theorem refTotal_append {v : LibraryView}
    (hknown : st'.knownLibraries = st.knownLibraries ++ [v]) :
    st'.refTotal = st.refTotal + v.refCount := by
  simp [refTotal, hknown]

theorem SameLists.refTotal_eq (h : SameLists st st') : st'.refTotal = st.refTotal := by
  rw [refTotal, h.1, refTotal]

/-- **A load raises the sum of the counts**: always when it succeeds, and when it fails unless
    the failure comes before the first dependency is loaded. -/
theorem loadLibrary_refTotal {r : Except LoadError ViewPtr}
    (h : loadLibrary sys mode search fuel st n addr off = some (st', r)) :
    (∀ wrap, r = .ok wrap → st.refTotal < st'.refTotal) ∧
      ∀ e, r = .error e → st.refTotal < st'.refTotal ∨
        st' = st ∧ FailsAtOnce sys mode search st n addr off := by
  refine (loadLibrary_induct
    (P := fun st n addr off st' r => (∀ wrap, r = .ok wrap → st.refTotal < st'.refTotal) ∧
      ∀ e, r = .error e → st.refTotal < st'.refTotal ∨
        st' = st ∧ FailsAtOnce sys mode search st n addr off)
    (Q := fun st ns st' r => (∀ wraps, r = .ok wraps → st.refTotal < st'.refTotal ∨
        st' = st ∧ ns = [] ∧ wraps = []) ∧
      ∀ e, r = .error e → st.refTotal < st'.refTotal ∨
        st' = st ∧ ∃ m ms, ns = m :: ms ∧ FailsAtOnce sys mode search st m 0 0)
    ?known ?system ?unopened ?dependency ?finish ?nil ?stop ?goOn fuel).1 st n addr off st' r h
  case known =>
    intro st n addr off v hfind
    obtain ⟨hv, -⟩ := findKnownLibrary_some hfind
    rcases openKnown_cases st v addr with ⟨e, hopen⟩ | hopen
    · have hfails : FailsAtOnce sys mode search st n addr off :=
        .refused hfind (congrArg Prod.snd hopen)
      rw [hopen]
      exact ⟨fun wrap hok => (by cases hok), fun _ _ => Or.inr ⟨rfl, hfails⟩⟩
    · rw [hopen]
      exact ⟨fun wrap _ => refTotal_addRef hv, fun e herror => (by cases herror)⟩
  case system =>
    intro st n addr off hfind hsystem
    rcases openSystem_cases sys st n mode with ⟨e, hopen⟩ | ⟨handle, hopen⟩
    · have hfails : FailsAtOnce sys mode search st n addr off :=
        .system hfind hsystem (congrArg Prod.snd hopen)
      rw [hopen]
      exact ⟨fun wrap hok => (by cases hok), fun _ _ => Or.inr ⟨rfl, hfails⟩⟩
    · rw [hopen]
      refine ⟨fun wrap _ => ?_, fun e herror => (by cases herror)⟩
      rw [refTotal_append (knownLibraries_pushView (.system handle) n)]
      exact lt_add_one _
  case unopened =>
    intro st n addr off e hfind hsystem hopen
    exact ⟨fun wrap hok => (by cases hok),
      fun _ _ => Or.inr ⟨rfl, .unopened hfind hsystem hopen⟩⟩
  case dependency =>
    intro st n addr off lib st' e hfind hsystem hopen hQ
    refine ⟨fun wrap hok => (by cases hok), fun _ _ => ?_⟩
    rcases hQ.2 e rfl with hless | ⟨hst, m, ms, hneeded, hfails⟩
    · exact Or.inl hless
    · exact Or.inr ⟨hst, .first hfind hsystem hopen hneeded hfails⟩
  case finish =>
    intro st n addr off lib st₁ deps hfind hsystem hopen _ hQ
    rcases finishLoad_cases sys st₁ lib deps n with ⟨e, hfinish⟩ | hfinish
    · rw [hfinish]
      refine ⟨fun wrap hok => (by cases hok), fun _ _ => ?_⟩
      rcases hQ.1 deps rfl with hless | ⟨rfl, hneeded, rfl⟩
      · exact Or.inl hless
      · obtain ⟨message, hrelocate⟩ : ∃ message, sys.relocate lib [] = .error message := by
          cases hrelocate : sys.relocate lib [] with
          | error message => exact ⟨message, rfl⟩
          | ok u => simp [finishLoad, hrelocate] at hfinish
        exact Or.inr ⟨rfl, .unrelocated hfind hsystem hopen hneeded hrelocate⟩
    · rw [hfinish]
      refine ⟨fun wrap _ => ?_, fun e herror => (by cases herror)⟩
      rw [refTotal_append (knownLibraries_enter lib n)]
      rcases hQ.1 deps rfl with hless | ⟨rfl, -, -⟩
      · exact hless.trans (lt_add_one _)
      · exact lt_add_one _
  case nil =>
    intro st
    refine ⟨fun wraps hok => ?_, fun e herror => (by cases herror)⟩
    cases hok
    exact Or.inr ⟨rfl, rfl, rfl⟩
  case stop =>
    intro st n ns st' e hP
    refine ⟨fun wraps hok => (by cases hok), fun _ _ => ?_⟩
    rcases hP.2 e rfl with hless | ⟨hst, hfails⟩
    · exact Or.inl hless
    · exact Or.inr ⟨hst, n, ns, rfl, hfails⟩
  case goOn =>
    intro st n ns st₁ d st' r hP hQ
    -- the reference to the first dependency stays, whatever becomes of the others
    have hless : st.refTotal < st'.refTotal := by
      have hfirst : st.refTotal < st₁.refTotal := hP.1 d rfl
      have hrest : st₁.refTotal < st'.refTotal ∨ st' = st₁ := by
        cases r with
        | error e => exact (hQ.2 e rfl).imp_right And.left
        | ok ds => exact (hQ.1 ds rfl).imp_right And.left
      rcases hrest with hrest | rfl
      · exact hfirst.trans hrest
      · exact hfirst
    exact ⟨fun _ _ => Or.inl hless, fun _ _ => Or.inl hless⟩

/-- **A failed load leaves the lists alone exactly when it fails at once.** -/
theorem failedLoad_sameLists_iff (sys : System) (mode : Int) (search : SearchPathList)
    (fuel : Nat) (st : LibraryList) (n : CString) (addr off : Nat) (st' : LibraryList)
    (e : LoadError)
    (h : loadLibrary sys mode search fuel st n addr off = some (st', .error e)) :
    SameLists st st' ↔ FailsAtOnce sys mode search st n addr off := by
  constructor
  · intro hsame
    rcases (loadLibrary_refTotal h).2 e rfl with hless | ⟨-, hfails⟩
    · exact absurd hsame.refTotal_eq hless.ne'
    · exact hfails
  · intro hfails
    cases fuel with
    | zero => cases h
    | succ fuel =>
      obtain ⟨rfl, -⟩ := hfails.unchanged fuel st' _ h
      exact ⟨rfl, rfl, rfl, rfl⟩

/-- The first dependency of `liba.so` does not exist. -/
theorem failedLoad_sameLists_iff_missing :
    ∃ st' e, loadLibrary (System.directory [("liba.so".toList, ["libmissing.so".toList])]) 2
        System.libPath 2 empty "liba.so".toList 0 0 = some (st', .error e) ∧
      (SameLists empty st' ↔ FailsAtOnce (System.directory
        [("liba.so".toList, ["libmissing.so".toList])]) 2 System.libPath empty
        "liba.so".toList 0 0) :=
  ⟨_, _, rfl, failedLoad_sameLists_iff _ _ _ 2 _ _ _ _ _ _ rfl⟩

/-- The second dependency of `liba.so` does not exist: the first one, `libb.so`, is loaded and
    stays. -/
theorem failedLoad_leaks :
    Acyclic (fun a b => ∃ off, (System.directory
        [("liba.so".toList, ["libb.so".toList, "libmissing.so".toList]),
         ("libb.so".toList, [])]).Needs System.libPath off a b) ∧
    ∃ st' e, loadLibrary (System.directory
        [("liba.so".toList, ["libb.so".toList, "libmissing.so".toList]), ("libb.so".toList, [])]) 2
        System.libPath 2 empty "liba.so".toList 0 0 = some (st', .error e) ∧
      ¬ SameLists empty st' := by
  refine ⟨System.acyclic_directory _ _
    (fun path => if path = "/lib/liba.so".toList then 1 else 0) (by decide), _, _, rfl, ?_⟩
  exact fun hsame => absurd (congrArg List.length hsame.1) (by decide)

end LibraryList

end CrystaxNdk.CrazyLinker
