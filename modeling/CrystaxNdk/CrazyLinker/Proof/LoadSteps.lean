import CrystaxNdk.CrazyLinker.LibraryList

/-!
# What one step of the list can do

Each elementary operation of `LibraryList` touches one part of the state; the first section
says which. The second is the induction every fact about `LoadLibrary` goes through:
`loadLibrary_induct` has one premise per way a call can end and one per way the loop over the
dependencies can go on, so a later proof names the cases and never unfolds the recursion. The last
one is about `UnloadLibrary`: what it does in each case, and what it leaves (`Unloads`).
-/

namespace CrystaxNdk.CrazyLinker

open Lib List

namespace LibraryList

variable {sys : System} {st st' st₁ : LibraryList} {mode : Int} {search : SearchPathList}

/-! ## The parts of the state -/

@[simp] theorem knownLibraries_emit (es : List Event) :
    (st.emit es).knownLibraries = st.knownLibraries := rfl

@[simp] theorem knownLibraries_linkLibrary (lib : LibPtr) :
    (st.linkLibrary lib).knownLibraries = st.knownLibraries := rfl

@[simp] theorem knownLibraries_unlinkLibrary (lib : LibPtr) :
    (st.unlinkLibrary lib).knownLibraries = st.knownLibraries := rfl

@[simp] theorem knownLibraries_bumpRef (wrap : ViewPtr) (n : Int) :
    (st.bumpRef wrap n).knownLibraries = modifyKey LibraryView.ptr wrap
      (fun v => { v with refCount := v.refCount + n }) st.knownLibraries := rfl

theorem map_name_bumpRef (wrap : ViewPtr) (n : Int) :
    (st.bumpRef wrap n).knownLibraries.map LibraryView.name =
      st.knownLibraries.map LibraryView.name :=
  map_modifyKey fun _ => rfl

theorem map_ptr_bumpRef (wrap : ViewPtr) (n : Int) :
    (st.bumpRef wrap n).knownLibraries.map LibraryView.ptr =
      st.knownLibraries.map LibraryView.ptr :=
  map_modifyKey fun _ => rfl

theorem mem_bumpRef {p : ViewPtr} {n : Int} {w : LibraryView}
    (hw : w ∈ (st.bumpRef p n).knownLibraries) :
    ∃ v ∈ st.knownLibraries, w.ptr = v.ptr ∧ w.name = v.name ∧ w.type = v.type ∧
      w.refCount = if v.ptr = p then v.refCount + n else v.refCount := by
  obtain ⟨v, hv, rfl⟩ := mem_modifyKey.mp hw
  refine ⟨v, hv, ?_⟩
  by_cases hp : v.ptr = p
  · simp [hp]
  · simp [hp]

@[simp] theorem knownLibraries_pushView (type : ViewType) (name : CString) :
    (st.pushView type name).knownLibraries =
      st.knownLibraries ++ [{ ptr := st.nextPtr, type, name, refCount := 1 }] := rfl

@[simp] theorem knownLibraries_removeView (v : LibraryView) :
    (st.removeView v).knownLibraries = removeKey LibraryView.ptr v.ptr st.knownLibraries := by
  cases hv : v.type <;> simp [removeView, hv]

@[simp] theorem nextPtr_emit (es : List Event) : (st.emit es).nextPtr = st.nextPtr := rfl

@[simp] theorem nextPtr_linkLibrary (lib : LibPtr) :
    (st.linkLibrary lib).nextPtr = st.nextPtr := rfl

@[simp] theorem nextPtr_unlinkLibrary (lib : LibPtr) :
    (st.unlinkLibrary lib).nextPtr = st.nextPtr := rfl

@[simp] theorem nextPtr_bumpRef (wrap : ViewPtr) (n : Int) :
    (st.bumpRef wrap n).nextPtr = st.nextPtr := rfl

@[simp] theorem nextPtr_pushView (type : ViewType) (name : CString) :
    (st.pushView type name).nextPtr = st.nextPtr + 1 := rfl

@[simp] theorem nextPtr_removeView (v : LibraryView) :
    (st.removeView v).nextPtr = st.nextPtr := by
  cases hv : v.type <;> simp [removeView, hv]

/-! ## Lookups -/

theorem findKnownLibrary_some {n : CString} {wrap : LibraryView}
    (h : st.findKnownLibrary n = some wrap) :
    wrap ∈ st.knownLibraries ∧ wrap.name = getBaseNamePtr n := by
  refine ⟨mem_of_find?_eq_some h, ?_⟩
  have := find?_some h
  simpa using (of_decide_eq_true this).symm

theorem findKnownLibrary_none {n : CString} (h : st.findKnownLibrary n = none) :
    ∀ v ∈ st.knownLibraries, v.name ≠ getBaseNamePtr n := by
  intro v hv hname
  have := find?_eq_none.mp h v hv
  simp [hname] at this

theorem findLibraryByName_some {name : CString} {v : LibraryView}
    (h : st.findLibraryByName name = some v) : v ∈ st.knownLibraries := by
  unfold findLibraryByName at h
  split at h
  · cases h
  · exact mem_of_find?_eq_some h

theorem crazyLibraryFindByName_some {name : CString} {wrap : ViewPtr}
    (h : crazyLibraryFindByName st name = some (st', wrap)) :
    ∃ v ∈ st.knownLibraries, st' = st.addRef v.ptr ∧ wrap = v.ptr := by
  unfold crazyLibraryFindByName at h
  cases hfind : st.findLibraryByName name with
  | none =>
    rw [hfind] at h
    cases h
  | some v =>
    rw [hfind] at h
    cases h
    exact ⟨v, findLibraryByName_some hfind, rfl, rfl⟩

theorem view?_some {wrap : ViewPtr} {v : LibraryView} (h : st.view? wrap = some v) :
    v ∈ st.knownLibraries ∧ v.ptr = wrap := by
  refine ⟨mem_of_find?_eq_some h, ?_⟩
  have := find?_some h
  simpa using this

/-- At unique addresses the lookup finds the view that is there. -/
theorem view?_of_mem (hnd : (st.knownLibraries.map LibraryView.ptr).Nodup) {v : LibraryView}
    (hv : v ∈ st.knownLibraries) : st.view? v.ptr = some v := by
  cases hf : st.view? v.ptr with
  | none =>
    have := find?_eq_none.mp hf v hv
    simp at this
  | some w =>
    obtain ⟨hw, hptr⟩ := view?_some hf
    rw [inj_on_of_nodup_map hnd hw hv hptr]

/-! ## The ends of a call -/

/-- A known library is either handed out once more or refused with the state as it was. -/
theorem openKnown_cases (st : LibraryList) (wrap : LibraryView) (addr : Nat) :
    (∃ e, st.openKnown wrap addr = (st, .error e)) ∨
      st.openKnown wrap addr = (st.addRef wrap.ptr, .ok wrap.ptr) := by
  unfold openKnown
  by_cases haddr : addr ≠ 0
  · rw [if_pos haddr]
    cases wrap.getCrazy with
    | none => exact Or.inl ⟨_, rfl⟩
    | some lib =>
      dsimp only
      by_cases hlib : lib.loadAddress ≠ addr
      · rw [if_pos hlib]
        exact Or.inl ⟨_, rfl⟩
      · rw [if_neg hlib]
        exact Or.inr rfl
  · rw [if_neg haddr]
    exact Or.inr rfl

theorem openSystem_cases (sys : System) (st : LibraryList) (n : CString) (mode : Int) :
    (∃ e, openSystem sys st n mode = (st, .error e)) ∨
      ∃ handle, openSystem sys st n mode =
        ((st.emit [.dlopen handle]).pushView (.system handle) n, .ok st.nextPtr) := by
  unfold openSystem
  cases sys.dlopen st.nextPtr n mode with
  | error e => exact Or.inl ⟨_, rfl⟩
  | ok handle => exact Or.inr ⟨handle, rfl⟩

/-- The state after a library was relocated and entered. -/
def enter (st : LibraryList) (lib : SharedLibrary) (n : CString) : LibraryList :=
  (((st.emit [.addEntry st.nextPtr]).linkLibrary st.nextPtr).pushView
    (.crazy st.nextPtr lib) n).emit [.callConstructors st.nextPtr]

@[simp] theorem knownLibraries_enter (lib : SharedLibrary) (n : CString) :
    (st.enter lib n).knownLibraries = st.knownLibraries ++
      [{ ptr := st.nextPtr, type := .crazy st.nextPtr lib, name := n, refCount := 1 }] := rfl

theorem log_enter (lib : SharedLibrary) (n : CString) : (st.enter lib n).log =
    st.log ++ [.addEntry st.nextPtr, .callConstructors st.nextPtr] :=
  append_assoc st.log _ _

theorem log_removeLibrary {v : LibraryView} {lib : SharedLibrary}
    (htype : v.type = .crazy v.ptr lib) :
    ((st.emit [.delEntry v.ptr]).removeView v).log =
      st.log ++ [.delEntry v.ptr, .deleteLibrary v.ptr] := by
  simp [removeView, emit, htype]

@[simp] theorem nextPtr_enter (lib : SharedLibrary) (n : CString) :
    (st.enter lib n).nextPtr = st.nextPtr + 1 := rfl

theorem finishLoad_cases (sys : System) (st : LibraryList) (lib : SharedLibrary)
    (deps : List ViewPtr) (n : CString) :
    (∃ e, finishLoad sys st lib deps n = (st, .error e)) ∨
      finishLoad sys st lib deps n = (st.enter lib n, .ok st.nextPtr) := by
  unfold finishLoad
  cases sys.relocate lib (deps.filterMap st.view?) with
  | error e => exact Or.inl ⟨_, rfl⟩
  | ok u => exact Or.inr rfl

/-! ## One unfolding -/

section Unfold

variable {fuel : Nat} {n : CString} {addr off : Nat}

theorem loadLibrary_known_eq {wrap : LibraryView} (hk : st.findKnownLibrary n = some wrap) :
    loadLibrary sys mode search (fuel + 1) st n addr off = some (st.openKnown wrap addr) := by
  rw [loadLibrary, hk]

theorem loadLibrary_system_eq (hk : st.findKnownLibrary n = none)
    (hsys : isSystemLibrary n = true) :
    loadLibrary sys mode search (fuel + 1) st n addr off = some (openSystem sys st n mode) := by
  rw [loadLibrary, hk]
  simp only [hsys, if_true]

theorem loadLibrary_unopened_eq {e : LoadError} (hk : st.findKnownLibrary n = none)
    (hsys : isSystemLibrary n = false) (hf : openFile sys st search n addr off = .error e) :
    loadLibrary sys mode search (fuel + 1) st n addr off = some (st, .error e) := by
  rw [loadLibrary, hk]
  simp only [hsys, Bool.false_eq_true, if_false, hf]

variable {lib : SharedLibrary} {deps : List ViewPtr} {e : LoadError}

theorem loadLibrary_opened_none (hk : st.findKnownLibrary n = none)
    (hsys : isSystemLibrary n = false) (hf : openFile sys st search n addr off = .ok lib)
    (hd : loadDependencies (fun st name => loadLibrary sys mode search fuel st name 0 0)
      st lib.needed = none) :
    loadLibrary sys mode search (fuel + 1) st n addr off = none := by
  rw [loadLibrary, hk]
  simp only [hsys, Bool.false_eq_true, if_false, hf, hd]

theorem loadLibrary_opened_error (hk : st.findKnownLibrary n = none)
    (hsys : isSystemLibrary n = false) (hf : openFile sys st search n addr off = .ok lib)
    (hd : loadDependencies (fun st name => loadLibrary sys mode search fuel st name 0 0)
      st lib.needed = some (st₁, .error e)) :
    loadLibrary sys mode search (fuel + 1) st n addr off =
      some (st₁, .error (.dependency (getBaseNamePtr n) e)) := by
  rw [loadLibrary, hk]
  simp only [hsys, Bool.false_eq_true, if_false, hf, hd]

theorem loadLibrary_opened_ok (hk : st.findKnownLibrary n = none)
    (hsys : isSystemLibrary n = false) (hf : openFile sys st search n addr off = .ok lib)
    (hd : loadDependencies (fun st name => loadLibrary sys mode search fuel st name 0 0)
      st lib.needed = some (st₁, .ok deps)) :
    loadLibrary sys mode search (fuel + 1) st n addr off =
      some (finishLoad sys st₁ lib deps n) := by
  rw [loadLibrary, hk]
  simp only [hsys, Bool.false_eq_true, if_false, hf, hd]

end Unfold

/-! ## The induction -/

section Induct

variable
  {P : LibraryList → CString → Nat → Nat → LibraryList → Except LoadError ViewPtr → Prop}
  {Q : LibraryList → List CString → LibraryList → Except LoadError (List ViewPtr) → Prop}

theorem loadDependencies_induct
    {load : LibraryList → CString → Option (LibraryList × Except LoadError ViewPtr)}
    (hload : ∀ st n st' r, load st n = some (st', r) → P st n 0 0 st' r)
    (nil : ∀ st, Q st [] st (.ok []))
    (stop : ∀ st n ns st' e, P st n 0 0 st' (.error e) → Q st (n :: ns) st' (.error e))
    (goOn : ∀ st n ns st₁ d st' r, P st n 0 0 st₁ (.ok d) → Q st₁ ns st' r →
      Q st (n :: ns) st' (r.map (d :: ·))) :
    ∀ ns st st' r, loadDependencies load st ns = some (st', r) → Q st ns st' r := by
  intro ns
  induction ns with
  | nil =>
    intro st st' r h
    cases h
    exact nil _
  | cons n ns ih =>
    intro st st' r h
    rw [loadDependencies] at h
    cases hn : load st n with
    | none => rw [hn] at h; exact absurd h (by simp)
    | some res =>
      obtain ⟨st₁, r₁⟩ := res
      rw [hn] at h
      cases r₁ with
      | error e =>
        cases h
        exact stop _ _ _ _ _ (hload _ _ _ _ hn)
      | ok d =>
        dsimp only at h
        cases hns : loadDependencies load st₁ ns with
        | none => rw [hns] at h; exact absurd h (by simp)
        | some res' =>
          obtain ⟨st₂, r₂⟩ := res'
          rw [hns] at h
          have hQ := goOn _ n ns _ _ _ _ (hload _ _ _ _ hn) (ih _ _ _ hns)
          cases r₂ with
          | error e =>
            cases h
            exact hQ
          | ok ds =>
            cases h
            exact hQ

/-- **Induction over the calls of `LoadLibrary`.** `P` is about one call, `Q` about the loop
    over the dependencies of one library; they are proved together. -/
theorem loadLibrary_induct
    (known : ∀ st n addr off wrap, st.findKnownLibrary n = some wrap →
      P st n addr off (st.openKnown wrap addr).1 (st.openKnown wrap addr).2)
    (system : ∀ st n addr off, st.findKnownLibrary n = none → isSystemLibrary n = true →
      P st n addr off (openSystem sys st n mode).1 (openSystem sys st n mode).2)
    (unopened : ∀ st n addr off e, st.findKnownLibrary n = none → isSystemLibrary n = false →
      openFile sys st search n addr off = .error e → P st n addr off st (.error e))
    (dependency : ∀ st n addr off lib st' e, st.findKnownLibrary n = none →
      isSystemLibrary n = false → openFile sys st search n addr off = .ok lib →
      Q st lib.needed st' (.error e) →
      P st n addr off st' (.error (.dependency (getBaseNamePtr n) e)))
    (finish : ∀ st n addr off lib st₁ deps, st.findKnownLibrary n = none →
      isSystemLibrary n = false → openFile sys st search n addr off = .ok lib →
      (∃ fuel, loadDependencies (fun st name => loadLibrary sys mode search fuel st name 0 0)
        st lib.needed = some (st₁, .ok deps)) →
      Q st lib.needed st₁ (.ok deps) →
      P st n addr off (finishLoad sys st₁ lib deps n).1 (finishLoad sys st₁ lib deps n).2)
    (nil : ∀ st, Q st [] st (.ok []))
    (stop : ∀ st n ns st' e, P st n 0 0 st' (.error e) → Q st (n :: ns) st' (.error e))
    (goOn : ∀ st n ns st₁ d st' r, P st n 0 0 st₁ (.ok d) → Q st₁ ns st' r →
      Q st (n :: ns) st' (r.map (d :: ·))) :
    ∀ fuel,
      (∀ st n addr off st' r, loadLibrary sys mode search fuel st n addr off = some (st', r) →
        P st n addr off st' r) ∧
      ∀ ns st st' r, loadDependencies
          (fun st name => loadLibrary sys mode search fuel st name 0 0) st ns = some (st', r) →
        Q st ns st' r := by
  -- the two claims depend on each other; the loop only needs the first one at the same fuel
  have loop : ∀ fuel, (∀ st n addr off st' r,
      loadLibrary sys mode search fuel st n addr off = some (st', r) → P st n addr off st' r) →
      ∀ ns st st' r, loadDependencies
        (fun st name => loadLibrary sys mode search fuel st name 0 0) st ns = some (st', r) →
        Q st ns st' r :=
    fun fuel hP => loadDependencies_induct (fun st n st' r hl => hP st n 0 0 st' r hl)
      nil stop goOn
  intro fuel
  induction fuel with
  | zero =>
    have hP : ∀ st n addr off st' r,
        loadLibrary sys mode search 0 st n addr off = some (st', r) → P st n addr off st' r :=
      fun st n addr off st' r h => (by cases h)
    exact ⟨hP, loop 0 hP⟩
  | succ fuel ih =>
    refine (fun hP => ⟨hP, loop (fuel + 1) hP⟩) ?_
    intro st n addr off st' r h
    cases hk : st.findKnownLibrary n with
    | some wrap =>
      rw [loadLibrary_known_eq hk] at h
      have hP := known st n addr off wrap hk
      rw [Option.some.inj h] at hP
      exact hP
    | none =>
      cases hsys : isSystemLibrary n with
      | true =>
        rw [loadLibrary_system_eq hk hsys] at h
        have hP := system st n addr off hk hsys
        rw [Option.some.inj h] at hP
        exact hP
      | false =>
        cases hf : openFile sys st search n addr off with
        | error e =>
          rw [loadLibrary_unopened_eq hk hsys hf] at h
          cases h
          exact unopened _ _ _ _ _ hk hsys hf
        | ok lib =>
          cases hd : loadDependencies
              (fun st name => loadLibrary sys mode search fuel st name 0 0) st lib.needed with
          | none => rw [loadLibrary_opened_none hk hsys hf hd] at h; cases h
          | some res =>
            obtain ⟨st₁, r₁⟩ := res
            cases r₁ with
            | error e =>
              rw [loadLibrary_opened_error hk hsys hf hd] at h
              cases h
              exact dependency _ _ _ _ _ _ _ hk hsys hf (ih.2 _ _ _ _ hd)
            | ok deps =>
              rw [loadLibrary_opened_ok hk hsys hf hd] at h
              have hP := finish st n addr off lib st₁ deps hk hsys hf ⟨fuel, hd⟩ (ih.2 _ _ _ _ hd)
              rw [Option.some.inj h] at hP
              exact hP

end Induct

/-! ## One unfolding of `UnloadLibrary` -/

section Unload

variable {v : LibraryView}

theorem unloadLibrary_of_more (fuel : Nat) {wrap : ViewPtr}
    (hview : st.view? wrap = some v) (htype : v.type ≠ .none) (hmore : v.refCount - 1 ≠ 0) :
    unloadLibrary (fuel + 1) st wrap = some (st.bumpRef wrap (-1)) := by
  rw [unloadLibrary, hview]
  dsimp only
  cases hkind : v.type with
  | none => exact absurd hkind htype
  | system handle => exact if_pos hmore
  | crazy ptr lib => exact if_pos hmore

/-- The library behind `ptr` is past saving: it leaves the intrusive list and is told. -/
def retireLibrary (st : LibraryList) (ptr : ViewPtr) : LibraryList :=
  ((st.bumpRef ptr (-1)).unlinkLibrary ptr).emit [.callJniOnUnload ptr, .callDestructors ptr]

theorem unloadLibrary_of_system {handle : Nat} (fuel : Nat) (hview : st.view? v.ptr = some v)
    (hlast : v.refCount - 1 = 0) (htype : v.type = .system handle) :
    unloadLibrary (fuel + 1) st v.ptr = some ((st.bumpRef v.ptr (-1)).removeView v) := by
  rw [unloadLibrary, hview]
  simp only [htype, hlast, ne_eq, not_true_eq_false, if_false]

theorem unloadLibrary_of_crazy {lib : SharedLibrary} (fuel : Nat)
    (hview : st.view? v.ptr = some v) (hlast : v.refCount - 1 = 0)
    (htype : v.type = .crazy v.ptr lib) :
    unloadLibrary (fuel + 1) st v.ptr =
      (unloadDependencies (unloadLibrary fuel) (st.retireLibrary v.ptr) lib.needed).map
        fun st => (st.emit [.delEntry v.ptr]).removeView v := by
  rw [unloadLibrary, hview]
  simp only [htype, hlast, ne_eq, not_true_eq_false, if_false, retireLibrary]
  cases unloadDependencies (unloadLibrary fuel) (((st.bumpRef v.ptr (-1)).unlinkLibrary v.ptr).emit
    [.callJniOnUnload v.ptr, .callDestructors v.ptr]) lib.needed with
  | none => rfl
  | some st => rfl

/-- What `UnloadLibrary` leaves: some of the views, with other counts. The views without references
    are on their way out; they are all still there, and no other view is among them. -/
structure Unloads (st st' : LibraryList) : Prop where
  kept : ∀ w ∈ st'.knownLibraries, ∃ k, { w with refCount := k } ∈ st.knownLibraries ∧
    (w.refCount ≤ 0 → k ≤ 0)
  leaving : ∀ w ∈ st.knownLibraries, w.refCount ≤ 0 →
    ∃ k ≤ 0, { w with refCount := k } ∈ st'.knownLibraries

theorem Unloads.refl (st : LibraryList) : Unloads st st where
  kept := fun w hw => ⟨w.refCount, hw, id⟩
  leaving := fun w hw hcount => ⟨w.refCount, hcount, hw⟩

theorem Unloads.trans (h : Unloads st st₁) (h₁ : Unloads st₁ st') : Unloads st st' where
  kept := by
    intro w hw
    obtain ⟨k₁, hw₁, hk₁⟩ := h₁.kept w hw
    obtain ⟨k, hmem, hk⟩ := h.kept _ hw₁
    exact ⟨k, hmem, fun hcount => hk (hk₁ hcount)⟩
  leaving := by
    intro w hw hcount
    obtain ⟨k₁, hk₁, hw₁⟩ := h.leaving w hw hcount
    obtain ⟨k, hk, hmem⟩ := h₁.leaving _ hw₁ hk₁
    exact ⟨k, hk, hmem⟩

theorem unloads_release (hptrs : (st.knownLibraries.map LibraryView.ptr).Nodup)
    (hv : v ∈ st.knownLibraries) (hmore : v.refCount - 1 ≠ 0) :
    Unloads st (st.bumpRef v.ptr (-1)) where
  kept := by
    intro w' hw'
    obtain ⟨w, hw, rfl⟩ := mem_modifyKey.mp hw'
    by_cases hptr : w.ptr = v.ptr
    · obtain rfl := inj_on_of_nodup_map hptrs hw hv hptr
      rw [if_pos rfl]
      refine ⟨w.refCount, hw, fun hcount => ?_⟩
      dsimp only at hcount
      omega
    · rw [if_neg hptr]
      exact ⟨w.refCount, hw, id⟩
  leaving := by
    intro w hw hcount
    by_cases hptr : w.ptr = v.ptr
    · exact ⟨w.refCount + -1, by omega, mem_modifyKey_self hw hptr⟩
    · exact ⟨w.refCount, hcount, mem_modifyKey_of_ne hw hptr⟩

/-- The last reference was given back, and after some more unloading the view goes. -/
theorem unloads_last {st₂ : LibraryList} (hptrs : (st.knownLibraries.map LibraryView.ptr).Nodup)
    (hv : v ∈ st.knownLibraries) (hlast : v.refCount - 1 = 0)
    (hst₁ : st₁.knownLibraries = (st.bumpRef v.ptr (-1)).knownLibraries)
    (hunloads : Unloads st₁ st₂) (hptrs₂ : (st₂.knownLibraries.map LibraryView.ptr).Nodup)
    (hknown : st'.knownLibraries = removeKey LibraryView.ptr v.ptr st₂.knownLibraries) :
    Unloads st st' where
  kept := by
    intro w hw
    rw [hknown, removeKey_eq_filter hptrs₂, mem_filter, decide_eq_true_eq] at hw
    obtain ⟨k, hw₁, hk⟩ := hunloads.kept w hw.1
    rw [hst₁, knownLibraries_bumpRef] at hw₁
    exact ⟨k, mem_of_mem_modifyKey hw₁ hw.2 fun _ => rfl, hk⟩
  leaving := by
    intro w hw hcount
    have hwv : w.ptr ≠ v.ptr := by
      intro hwv
      obtain rfl := inj_on_of_nodup_map hptrs hw hv hwv
      omega
    have hw₁ : w ∈ st₁.knownLibraries := hst₁ ▸ mem_modifyKey_of_ne hw hwv
    obtain ⟨k, hk, hw₂⟩ := hunloads.leaving w hw₁ hcount
    rw [hknown]
    exact ⟨k, hk, mem_removeKey_of_ne hw₂ hwv⟩

/-- A view whose last reference was given back is still there when its dependencies are
    unloaded. -/
theorem Unloads.mem_of_last {st₂ : LibraryList} (hunloads : Unloads st₁ st₂)
    (hv : v ∈ st.knownLibraries) (hlast : v.refCount - 1 = 0)
    (hst₁ : st₁.knownLibraries = (st.bumpRef v.ptr (-1)).knownLibraries) :
    ∃ k ≤ 0, { v with refCount := k } ∈ st₂.knownLibraries := by
  have hmem : { v with refCount := v.refCount + -1 } ∈ st₁.knownLibraries :=
    hst₁ ▸ mem_modifyKey_self hv rfl
  obtain ⟨k, hk, hw⟩ := hunloads.leaving _ hmem (show v.refCount + -1 ≤ 0 by omega)
  exact ⟨k, hk, hw⟩

end Unload

end LibraryList

end CrystaxNdk.CrazyLinker
