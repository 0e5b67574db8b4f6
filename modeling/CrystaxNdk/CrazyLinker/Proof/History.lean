import CrystaxNdk.CrazyLinker.RDebug
import CrystaxNdk.CrazyLinker.Proof.CrazyList
import CrystaxNdk.CrazyLinker.Proof.Dependencies

/-!
# What the log and the list say of the libraries

A library is entered with the debugger, taken out again and deleted, in this order and each at most
once, whatever calls the linker gets: `history_of_apiCalls`. And the intrusive list has the crazy
libraries of the vector, the one that was entered last first: `crazyList_of_calls`. Nothing is
assumed about the libraries. They may need each other in a circle, and a handle may be closed more
often than it was opened, as long as there is a library behind it.

What makes it true of `UnloadLibrary` is that a view on its way out has no references left, so no
call below takes it out of the vector a second time (`Unloads`).
-/

namespace CrystaxNdk.CrazyLinker

open Lib List

/-- The library whose `link_map` an event is about. -/
def Event.entry : Event → Option LibPtr
  | .addEntry lib => some lib
  | .delEntry lib => some lib
  | .deleteLibrary lib => some lib
  | _ => none

def history (log : List Event) (lib : LibPtr) : List Event :=
  log.filter fun event => event.entry = some lib

/-- All that can happen to a `link_map`. -/
def wholeHistory (lib : LibPtr) : List Event := [.addEntry lib, .delEntry lib, .deleteLibrary lib]

theorem history_append (log log' : List Event) (lib : LibPtr) :
    history (log ++ log') lib = history log lib ++ history log' lib := filter_append ..

theorem history_append_of_forall_ne {log' : List Event} {lib : LibPtr} (log : List Event)
    (h : ∀ event ∈ log', event.entry ≠ some lib) :
    history (log ++ log') lib = history log lib := by
  have hnone : history log' lib = [] := by
    rw [history, filter_eq_nil_iff]
    exact fun event hevent => by simpa using h event hevent
  rw [history_append, hnone, append_nil]

theorem nodup_wholeHistory (lib : LibPtr) : (wholeHistory lib).Nodup := by simp [wholeHistory]

namespace LibraryList

variable {sys : System} {st st' st₁ : LibraryList} {v w : LibraryView} {n : CString}

/-- The log and the vector agree: a library that is known was entered and no more, and nothing has
    happened yet at an address that was not given out. -/
structure Recorded (st : LibraryList) : Prop where
  ptrs : (st.knownLibraries.map LibraryView.ptr).Nodup
  fresh : ∀ v ∈ st.knownLibraries, v.ptr < st.nextPtr
  crazyPtr : ∀ v ∈ st.knownLibraries, ∀ ptr lib, v.type = .crazy ptr lib → ptr = v.ptr
  known : ∀ v ∈ st.knownLibraries, ∀ ptr lib, v.type = .crazy ptr lib →
    history st.log ptr = [.addEntry ptr]
  begins : ∀ lib, history st.log lib <+: wholeHistory lib
  unborn : ∀ lib, st.nextPtr ≤ lib → history st.log lib = []

theorem recorded_empty : Recorded empty where
  ptrs := nodup_nil
  fresh := fun _ h => absurd h not_mem_nil
  crazyPtr := fun _ h => absurd h not_mem_nil
  known := fun _ h => absurd h not_mem_nil
  begins := fun _ => nil_prefix
  unborn := fun _ _ => rfl

/-! ## The elementary operations -/

/-- Counts may change, views may go, and events of other kinds may be logged. -/
theorem Recorded.of_subset (h : Recorded st)
    (hptrs : (st'.knownLibraries.map LibraryView.ptr).Nodup)
    (hviews : ∀ w ∈ st'.knownLibraries, ∃ v ∈ st.knownLibraries, w.ptr = v.ptr ∧ w.type = v.type)
    (hnext : st'.nextPtr = st.nextPtr)
    (hlog : ∀ lib, history st'.log lib = history st.log lib) : Recorded st' where
  ptrs := hptrs
  fresh := by
    intro w hw
    obtain ⟨v, hv, hptr, -⟩ := hviews w hw
    rw [hptr, hnext]
    exact h.fresh v hv
  crazyPtr := by
    intro w hw ptr lib htype
    obtain ⟨v, hv, hptr, htype'⟩ := hviews w hw
    rw [hptr]
    exact h.crazyPtr v hv ptr lib (htype' ▸ htype)
  known := by
    intro w hw ptr lib htype
    obtain ⟨v, hv, -, htype'⟩ := hviews w hw
    rw [hlog]
    exact h.known v hv ptr lib (htype' ▸ htype)
  begins := fun lib => (hlog lib).symm ▸ h.begins lib
  unborn := fun lib hlib => (hlog lib).trans (h.unborn lib (hnext ▸ hlib))

theorem Recorded.bumpRef (h : Recorded st) (wrap : ViewPtr) (k : Int) :
    Recorded (st.bumpRef wrap k) := by
  refine h.of_subset ?_ ?_ rfl fun _ => rfl
  · rw [map_ptr_bumpRef]
    exact h.ptrs
  · intro w hw
    obtain ⟨v, hv, hptr, -, htype, -⟩ := mem_bumpRef hw
    exact ⟨v, hv, hptr, htype⟩

theorem Recorded.retire (h : Recorded st) (lib : LibPtr) : Recorded (st.retireLibrary lib) := by
  refine (h.bumpRef lib (-1)).of_subset (h.bumpRef lib (-1)).ptrs (fun w hw => ⟨w, hw, rfl, rfl⟩)
    rfl fun p => ?_
  exact history_append_of_forall_ne _ (by simp [Event.entry])

theorem nodup_removeView (h : Recorded st) (v : LibraryView) :
    ((removeKey LibraryView.ptr v.ptr st.knownLibraries).map LibraryView.ptr).Nodup :=
  h.ptrs.sublist (removeKey_sublist.map _)

theorem Recorded.removeSystem (h : Recorded st) {handle : Nat} (htype : v.type = .system handle) :
    Recorded (st.removeView v) := by
  refine h.of_subset ?_ ?_ (nextPtr_removeView v) ?_
  · rw [knownLibraries_removeView]
    exact nodup_removeView h v
  · intro w hw
    rw [knownLibraries_removeView] at hw
    exact ⟨w, removeKey_sublist.subset hw, rfl, rfl⟩
  · intro lib
    have hlog : (st.removeView v).log = st.log ++ [.dlclose handle] := by
      simp only [removeView, htype, emit]
    rw [hlog]
    exact history_append_of_forall_ne _ (by simp [Event.entry])

theorem Recorded.removeCrazy (h : Recorded st) {ptr : LibPtr} {lib : SharedLibrary}
    (hw : w ∈ st.knownLibraries) (hptr : w.ptr = v.ptr) (hsame : w.type = v.type)
    (htype : v.type = .crazy ptr lib) : Recorded ((st.emit [.delEntry ptr]).removeView v) := by
  have hwtype : w.type = .crazy ptr lib := hsame.trans htype
  obtain rfl : ptr = v.ptr := (h.crazyPtr w hw ptr lib hwtype).trans hptr
  have hlog : ((st.emit [.delEntry v.ptr]).removeView v).log = _ := log_removeLibrary htype
  -- only the history of the library itself changes, and becomes whole
  have hself : history ((st.emit [.delEntry v.ptr]).removeView v).log v.ptr =
      wholeHistory v.ptr := by
    rw [hlog, history_append, h.known w hw _ lib hwtype]
    simp [history, Event.entry, wholeHistory]
  have hother : ∀ p, p ≠ v.ptr →
      history ((st.emit [.delEntry v.ptr]).removeView v).log p = history st.log p := by
    intro p hp
    rw [hlog]
    exact history_append_of_forall_ne _ (by simp [Event.entry, Ne.symm hp])
  have hviews : ∀ u ∈ ((st.emit [.delEntry v.ptr]).removeView v).knownLibraries,
      u ∈ st.knownLibraries ∧ u.ptr ≠ v.ptr := by
    intro u hu
    rw [knownLibraries_removeView, knownLibraries_emit, removeKey_eq_filter h.ptrs] at hu
    simpa using hu
  constructor
  case ptrs =>
    rw [knownLibraries_removeView]
    exact nodup_removeView h v
  case fresh =>
    intro u hu
    rw [nextPtr_removeView]
    exact h.fresh u (hviews u hu).1
  case crazyPtr =>
    intro u hu
    exact h.crazyPtr u (hviews u hu).1
  case known =>
    intro u hu ptr lib' hu'
    obtain ⟨hmem, hne⟩ := hviews u hu
    obtain rfl := h.crazyPtr u hmem ptr lib' hu'
    rw [hother _ hne]
    exact h.known u hmem _ lib' hu'
  case begins =>
    intro p
    by_cases hp : p = v.ptr
    · rw [hp, hself]
    · rw [hother p hp]
      exact h.begins p
  case unborn =>
    intro p hp
    rw [nextPtr_removeView, nextPtr_emit] at hp
    have hne : p ≠ v.ptr := by
      rw [← hptr]
      exact ((h.fresh w hw).trans_le hp).ne'
    rw [hother p hne]
    exact h.unborn p hp

/-- A new view at the next address, with the events that are logged for it. -/
theorem Recorded.push (h : Recorded st) (hptr : v.ptr = st.nextPtr)
    (hknown : st'.knownLibraries = st.knownLibraries ++ [v]) (hnext : st'.nextPtr = st.nextPtr + 1)
    (hother : ∀ lib, lib ≠ st.nextPtr → history st'.log lib = history st.log lib)
    (hbegins : history st'.log st.nextPtr <+: wholeHistory st.nextPtr)
    (htype : ∀ ptr lib, v.type = .crazy ptr lib →
      ptr = v.ptr ∧ history st'.log ptr = [.addEntry ptr]) : Recorded st' where
  ptrs := by
    rw [hknown, map_append, map_singleton, nodup_append]
    refine ⟨h.ptrs, by simp, ?_⟩
    rintro p hp q hq rfl
    obtain ⟨u, hu, rfl⟩ := mem_map.mp hp
    have hlt := h.fresh u hu
    rw [mem_singleton.mp hq, hptr] at hlt
    exact lt_irrefl _ hlt
  fresh := by
    intro u hu
    rw [hknown, mem_append, mem_singleton] at hu
    rw [hnext]
    rcases hu with hu | rfl
    · exact (h.fresh u hu).trans (Nat.lt_succ_self _)
    · rw [hptr]
      exact Nat.lt_succ_self _
  crazyPtr := by
    intro u hu ptr lib hu'
    rw [hknown, mem_append, mem_singleton] at hu
    rcases hu with hu | rfl
    · exact h.crazyPtr u hu ptr lib hu'
    · exact (htype ptr lib hu').1
  known := by
    intro u hu ptr lib hu'
    rw [hknown, mem_append, mem_singleton] at hu
    rcases hu with hu | rfl
    · have hlt := h.fresh u hu
      rw [hother ptr (by rw [h.crazyPtr u hu ptr lib hu']; exact hlt.ne)]
      exact h.known u hu ptr lib hu'
    · exact (htype ptr lib hu').2
  begins := by
    intro lib
    by_cases hlib : lib = st.nextPtr
    · rw [hlib]
      exact hbegins
    · rw [hother lib hlib]
      exact h.begins lib
  unborn := by
    intro lib hlib
    rw [hnext] at hlib
    rw [hother lib (by omega)]
    exact h.unborn lib (by omega)

/-! ## Loading -/

theorem Recorded.pushSystem (h : Recorded st) (handle : Nat) (n : CString) :
    Recorded ((st.emit [.dlopen handle]).pushView (.system handle) n) := by
  have hlog : ∀ lib, history (st.log ++ [.dlopen handle]) lib = history st.log lib :=
    fun lib => history_append_of_forall_ne _ (by simp [Event.entry])
  refine h.push (v := ⟨st.nextPtr, .system handle, n, 1⟩) rfl rfl rfl (fun lib _ => hlog lib) ?_
    (fun _ _ htype => (by cases htype))
  show history (st.log ++ _) _ <+: _
  rw [hlog]
  exact h.begins _

theorem Recorded.enter (h : Recorded st) (lib : SharedLibrary) (n : CString) :
    Recorded (st.enter lib n) := by
  have hlog : (st.enter lib n).log = _ := log_enter lib n
  have hself : history (st.enter lib n).log st.nextPtr = [.addEntry st.nextPtr] := by
    rw [hlog, history_append, h.unborn _ le_rfl]
    simp [history, Event.entry]
  refine h.push (v := ⟨st.nextPtr, .crazy st.nextPtr lib, n, 1⟩) rfl rfl rfl ?_ ?_ ?_
  · intro p hp
    rw [hlog]
    exact history_append_of_forall_ne _ (by simp [Event.entry, Ne.symm hp])
  · rw [hself]
    exact ⟨_, rfl⟩
  · intro ptr lib' htype
    cases htype
    exact ⟨rfl, hself⟩

/-! ## The intrusive list -/

/-- The count of a view that is not on its way out. -/
abbrev positive (count : Int) : Bool := decide (0 < count)

/-- The crazy libraries that have references are linked, the last one first, and were entered with
    the debugger in the order they have in the vector. -/
structure Listed (st : LibraryList) : Prop extends Recorded st where
  chained : Chained positive st
  entered : ((crazyWhere positive st.knownLibraries).map Event.addEntry).Sublist st.log

def AllPositive (st : LibraryList) : Prop := ∀ v ∈ st.knownLibraries, 0 < v.refCount

theorem listed_empty : Listed empty where
  toRecorded := recorded_empty
  chained := rfl
  entered := List.Sublist.refl []

theorem Listed.of_sublist (h : Listed st) (hrecorded : Recorded st')
    (hchained : Chained positive st')
    (hsub : (crazyWhere positive st'.knownLibraries).Sublist
      (crazyWhere positive st.knownLibraries))
    (hlog : st.log <+: st'.log) : Listed st' where
  toRecorded := hrecorded
  chained := hchained
  entered := ((hsub.map Event.addEntry).trans h.entered).trans hlog.sublist

theorem Listed.bumpRef (h : Listed st) (hv : v ∈ st.knownLibraries) {k : Int}
    (hsame : positive (v.refCount + k) = positive v.refCount) :
    Listed (st.bumpRef v.ptr k) := by
  refine h.of_sublist (h.toRecorded.bumpRef v.ptr k) (h.chained.bumpRef h.ptrs hv (Or.inr hsame)) ?_
    prefix_rfl
  rw [crazyWhere_bumpRef_of_same h.ptrs hv (Or.inr hsame)]

theorem Listed.addRef (h : Listed st) (hpositive : st.AllPositive) (hv : v ∈ st.knownLibraries) :
    Listed (st.addRef v.ptr) ∧ (st.addRef v.ptr).AllPositive := by
  have hcount := hpositive v hv
  refine ⟨h.bumpRef hv (decide_eq_decide.mpr (by omega)), fun w hw => ?_⟩
  obtain ⟨u, hu, -, -, -, hcount'⟩ := mem_bumpRef hw
  have hcountU := hpositive u hu
  rw [hcount']
  split <;> omega

theorem Listed.retire (h : Listed st) (hv : v ∈ st.knownLibraries) (hcrazy : v.isCrazy = true)
    (hlast : v.refCount - 1 = 0) : Listed (st.retireLibrary v.ptr) := by
  have hnot : positive (v.refCount + -1) = false := decide_eq_false (by omega)
  refine h.of_sublist (h.toRecorded.retire v.ptr)
    (h.chained.retire h.ptrs hv hcrazy (decide_eq_true (by omega)) hnot _) ?_
    (prefix_append _ _)
  show (crazyWhere positive (st.bumpRef v.ptr (-1)).knownLibraries).Sublist _
  rw [crazyWhere_bumpRef_of_not h.ptrs hv hnot]
  exact erase_sublist

theorem log_removeView (st : LibraryList) (v : LibraryView) : st.log <+: (st.removeView v).log := by
  unfold removeView
  cases v.type with
  | none => exact prefix_rfl
  | system handle => exact prefix_append _ _
  | crazy ptr lib => exact prefix_append _ _

/-- A view leaves the vector that is not in the list any more. -/
theorem Listed.removeView (h : Listed st) (hrecorded : Recorded (st.removeView v))
    (hnot : ∀ w ∈ st.knownLibraries, w.ptr = v.ptr →
      w.isCrazy = false ∨ positive w.refCount = false) : Listed (st.removeView v) := by
  refine h.of_sublist hrecorded (h.chained.removeView h.ptrs hnot) ?_ (log_removeView st v)
  rw [knownLibraries_removeView, crazyWhere_removeKey h.ptrs hnot]

theorem Listed.removeSystem (h : Listed st) (hv : v ∈ st.knownLibraries) {handle : Nat}
    (htype : v.type = .system handle) : Listed ((st.bumpRef v.ptr (-1)).removeView v) := by
  have hcrazy : v.isCrazy = false := by simp [LibraryView.isCrazy, htype]
  have hbump : Listed (st.bumpRef v.ptr (-1)) := by
    refine h.of_sublist (h.toRecorded.bumpRef _ _) (h.chained.bumpRef h.ptrs hv (Or.inl hcrazy)) ?_
      prefix_rfl
    rw [crazyWhere_bumpRef_of_same h.ptrs hv (Or.inl hcrazy)]
  refine hbump.removeView (hbump.toRecorded.removeSystem htype) fun w hw hptr => Or.inl ?_
  obtain ⟨u, hu, hptr', -, htype', -⟩ := mem_bumpRef hw
  obtain rfl := inj_on_of_nodup_map h.ptrs hu hv (hptr'.symm.trans hptr)
  simp [LibraryView.isCrazy, htype', htype]

theorem Listed.removeCrazy (h : Listed st) {lib : SharedLibrary} (hw : w ∈ st.knownLibraries)
    (hptr : w.ptr = v.ptr) (hsame : w.type = v.type) (hcount : w.refCount ≤ 0)
    (htype : v.type = .crazy v.ptr lib) : Listed ((st.emit [.delEntry v.ptr]).removeView v) := by
  have hrecorded := h.toRecorded.removeCrazy hw hptr hsame htype
  have hnot : ∀ u ∈ st.knownLibraries, u.ptr = v.ptr →
      u.isCrazy = false ∨ positive u.refCount = false := by
    intro u hu hu'
    obtain rfl := inj_on_of_nodup_map h.ptrs hu hw (hu'.trans hptr.symm)
    exact Or.inr (decide_eq_false (by omega))
  have hchained : Chained positive (st.emit [.delEntry v.ptr]) := h.chained
  refine h.of_sublist hrecorded (hchained.removeView h.ptrs hnot) ?_
    ((prefix_append _ _).trans (log_removeView (st.emit [.delEntry v.ptr]) v))
  rw [knownLibraries_removeView, knownLibraries_emit, crazyWhere_removeKey h.ptrs hnot]

theorem Listed.pushSystem (h : Listed st) (handle : Nat) (n : CString) :
    Listed ((st.emit [.dlopen handle]).pushView (.system handle) n) := by
  refine h.of_sublist (h.toRecorded.pushSystem handle n) (h.chained.pushSystem _ handle n) ?_
    (prefix_append _ _)
  rw [knownLibraries_pushView, crazyWhere_append_singleton,
    if_neg (by simp [LibraryView.isCrazy]), append_nil]
  exact List.Sublist.refl _

theorem Listed.enter (h : Listed st) (lib : SharedLibrary) (n : CString) :
    Listed (st.enter lib n) where
  toRecorded := h.toRecorded.enter lib n
  chained := h.chained.enter h.ptrs h.fresh rfl lib n
  entered := by
    rw [log_enter, knownLibraries_enter, crazyWhere_append_singleton,
      if_pos (by simp [LibraryView.isCrazy]), map_append]
    exact h.entered.append (List.Sublist.cons_cons _ (nil_sublist _))

theorem AllPositive.append (h : st.AllPositive) (hcount : v.refCount = 1)
    (hknown : st'.knownLibraries = st.knownLibraries ++ [v]) : st'.AllPositive := by
  intro w hw
  rw [hknown, mem_append, mem_singleton] at hw
  rcases hw with hw | rfl
  · exact h w hw
  · omega

/-! ## Loading -/

theorem loadLibrary_listed {mode : Int} {search : SearchPathList} {fuel addr off : Nat}
    {r : Except LoadError ViewPtr}
    (hload : loadLibrary sys mode search fuel st n addr off = some (st', r)) (h : Listed st)
    (hpositive : st.AllPositive) : Listed st' ∧ st'.AllPositive := by
  refine (loadLibrary_induct
    (P := fun st _ _ _ st' _ => Listed st → st.AllPositive → Listed st' ∧ st'.AllPositive)
    (Q := fun st _ st' _ => Listed st → st.AllPositive → Listed st' ∧ st'.AllPositive)
    ?known ?system ?unopened ?dependency ?finish ?nil ?stop ?goOn fuel).1 st n addr off st' r
    hload h hpositive
  case known =>
    intro st n addr off wrap hfind h hpositive
    rcases openKnown_cases st wrap addr with ⟨e, hopen⟩ | hopen
    · rw [hopen]
      exact ⟨h, hpositive⟩
    · rw [hopen]
      exact h.addRef hpositive (findKnownLibrary_some hfind).1
  case system =>
    intro st n addr off _ _ h hpositive
    rcases openSystem_cases sys st n mode with ⟨e, hopen⟩ | ⟨handle, hopen⟩
    · rw [hopen]
      exact ⟨h, hpositive⟩
    · rw [hopen]
      exact ⟨h.pushSystem handle n, hpositive.append rfl rfl⟩
  case unopened => exact fun _ _ _ _ _ _ _ _ h hpositive => ⟨h, hpositive⟩
  case dependency => exact fun _ _ _ _ _ _ _ _ _ _ hloop h hpositive => hloop h hpositive
  case finish =>
    intro st n addr off lib st₁ deps _ _ _ _ hloop h hpositive
    obtain ⟨h₁, hpositive₁⟩ := hloop h hpositive
    rcases finishLoad_cases sys st₁ lib deps n with ⟨e, hfinish⟩ | hfinish
    · rw [hfinish]
      exact ⟨h₁, hpositive₁⟩
    · rw [hfinish]
      exact ⟨h₁.enter lib n, hpositive₁.append rfl rfl⟩
  case nil => exact fun _ h hpositive => ⟨h, hpositive⟩
  case stop => exact fun _ _ _ _ _ hone h hpositive => hone h hpositive
  case goOn =>
    intro st n ns st₁ d st' r hone hrest h hpositive
    obtain ⟨h₁, hpositive₁⟩ := hone h hpositive
    exact hrest h₁ hpositive₁

/-! ## Unloading -/

theorem unloadDependencies_listed {unload : LibraryList → ViewPtr → Option LibraryList}
    (hunload : ∀ st wrap st', unload st wrap = some st' → Listed st →
      Listed st' ∧ Unloads st st') :
    ∀ ns st st', unloadDependencies unload st ns = some st' → Listed st →
      Listed st' ∧ Unloads st st' := by
  intro ns
  induction ns with
  | nil =>
    intro st st' hdeps h
    cases hdeps
    exact ⟨h, Unloads.refl st⟩
  | cons n ns ih =>
    intro st st' hdeps h
    rw [unloadDependencies] at hdeps
    cases hfind : st.findKnownLibrary n with
    | none =>
      rw [hfind] at hdeps
      exact ih st st' hdeps h
    | some dependency =>
      rw [hfind] at hdeps
      dsimp only at hdeps
      cases hone : unload st dependency.ptr with
      | none =>
        rw [hone] at hdeps
        cases hdeps
      | some st₁ =>
        rw [hone] at hdeps
        obtain ⟨h₁, hunloads₁⟩ := hunload _ _ _ hone h
        obtain ⟨h', hunloads⟩ := ih st₁ st' hdeps h₁
        exact ⟨h', hunloads₁.trans hunloads⟩

theorem unloadLibrary_listed : ∀ fuel st wrap st', unloadLibrary fuel st wrap = some st' →
    Listed st → Listed st' ∧ Unloads st st' := by
  intro fuel
  induction fuel with
  | zero =>
    intro st wrap st' hunload
    cases hunload
  | succ fuel ih =>
    intro st wrap st' hunload h
    cases hview : st.view? wrap with
    | none =>
      rw [unloadLibrary, hview] at hunload
      cases hunload
    | some v =>
      obtain ⟨hv, rfl⟩ := view?_some hview
      by_cases htyped : v.type = .none
      · rw [unloadLibrary, hview] at hunload
        simp only [htyped] at hunload
        cases hunload
        exact ⟨h, Unloads.refl st⟩
      by_cases hmore : v.refCount - 1 ≠ 0
      · rw [unloadLibrary_of_more fuel hview htyped hmore] at hunload
        cases hunload
        exact ⟨h.bumpRef hv (decide_eq_decide.mpr (by omega)), unloads_release h.ptrs hv hmore⟩
      rw [not_not] at hmore
      cases htype : v.type with
      | none => exact absurd htype htyped
      | system handle =>
        rw [unloadLibrary_of_system fuel hview hmore htype] at hunload
        cases hunload
        exact ⟨h.removeSystem hv htype, unloads_last h.ptrs hv hmore rfl (Unloads.refl _)
          (h.toRecorded.bumpRef _ _).ptrs (knownLibraries_removeView v)⟩
      | crazy ptr lib =>
        obtain rfl := h.crazyPtr v hv ptr lib htype
        rw [unloadLibrary_of_crazy fuel hview hmore htype] at hunload
        obtain ⟨st₂, hdeps, rfl⟩ := Option.map_eq_some_iff.mp hunload
        obtain ⟨h₂, hunloads⟩ := unloadDependencies_listed ih _ _ _ hdeps
          (h.retire hv (by simp [LibraryView.isCrazy, htype]) hmore)
        have hknown : (st.retireLibrary v.ptr).knownLibraries =
            (st.bumpRef v.ptr (-1)).knownLibraries := rfl
        -- the view itself has no reference left, so the calls below have not taken it out
        obtain ⟨k, hcount, hw⟩ := hunloads.mem_of_last hv hmore hknown
        exact ⟨h₂.removeCrazy hw rfl rfl hcount htype,
          unloads_last h.ptrs hv hmore hknown hunloads h₂.ptrs (by simp)⟩

theorem Unloads.allPositive (h : Unloads st st') (hpositive : st.AllPositive) :
    st'.AllPositive := by
  intro w' hw'
  by_contra hcount
  obtain ⟨k, hw, hk⟩ := h.kept w' hw'
  exact (hpositive _ hw).not_ge (hk (not_lt.mp hcount))

end LibraryList

/-! ## Any sequence of calls -/

open LibraryList

variable {sys : System} {st st' : LibraryList}

theorem crazyLibraryOpen_listed {search : SearchPathList} {setJavaVM : SharedLibrary → Bool}
    {fuel : Nat} {libName : CString} {loadAddress fileOffset : Nat} {wrap : Option ViewPtr}
    (hopen : crazyLibraryOpen sys search setJavaVM fuel st libName loadAddress fileOffset =
      some (st', wrap)) (h : Listed st) (hpositive : st.AllPositive) :
    Listed st' ∧ st'.AllPositive := by
  unfold crazyLibraryOpen at hopen
  cases hload : loadLibrary sys 2 search fuel st libName loadAddress fileOffset with
  | none =>
    rw [hload] at hopen
    cases hopen
  | some res =>
    obtain ⟨st₁, r⟩ := res
    obtain ⟨h₁, hpositive₁⟩ := loadLibrary_listed hload h hpositive
    rw [hload] at hopen
    cases r with
    | error e =>
      cases hopen
      exact ⟨h₁, hpositive₁⟩
    | ok loaded =>
      dsimp only at hopen
      cases hlib : (st₁.view? loaded).bind LibraryView.getCrazy with
      | none =>
        rw [hlib] at hopen
        cases hopen
        exact ⟨h₁, hpositive₁⟩
      | some lib =>
        rw [hlib] at hopen
        dsimp only at hopen
        by_cases hvm : setJavaVM lib = true
        · rw [if_pos hvm] at hopen
          cases hopen
          exact ⟨h₁, hpositive₁⟩
        · rw [if_neg hvm] at hopen
          obtain ⟨st₂, hunload, heq⟩ := Option.map_eq_some_iff.mp hopen
          cases heq
          obtain ⟨h₂, hunloads⟩ := unloadLibrary_listed _ _ _ _ hunload h₁
          exact ⟨h₂, hunloads.allPositive hpositive₁⟩

theorem ApiCall.listed (hcall : ApiCall sys st st') (h : Listed st) (hpositive : st.AllPositive) :
    Listed st' ∧ st'.AllPositive := by
  cases hcall with
  | opens hopen => exact crazyLibraryOpen_listed hopen h hpositive
  | @finds libraryName _ wrap hfind =>
    obtain ⟨v, hv, rfl, -⟩ := crazyLibraryFindByName_some hfind
    exact h.addRef hpositive hv
  | findsFromAddress hmem => exact h.addRef hpositive hmem
  | closes hunload =>
    obtain ⟨h', hunloads⟩ := unloadLibrary_listed _ _ _ _ hunload h
    exact ⟨h', hunloads.allPositive hpositive⟩

/-- **One library in the log.** Whatever calls were made, a library was entered with the debugger,
    taken out and deleted in this order, each at most once. -/
theorem history_of_apiCalls (hcalls : Relation.ReflTransGen (ApiCall sys) LibraryList.empty st)
    (lib : LibPtr) : history st.log lib <+: wholeHistory lib := by
  have hlisted : Listed st ∧ st.AllPositive := by
    induction hcalls with
    | refl => exact ⟨listed_empty, fun _ hv => absurd hv not_mem_nil⟩
    | tail _ hcall ih => exact hcall.listed ih.1 ih.2
  exact hlisted.1.begins lib

/-! ## Loads and unloads -/

/-- A call of `LoadLibrary` that succeeds, or of `UnloadLibrary`. -/
inductive ListCall (st : LibraryList) : LibraryList → Prop
  | loads {sys : System} {mode : Int} {search : SearchPathList} {fuel : Nat} {libName : CString}
      {loadAddress fileOffset : Nat} {st' : LibraryList} {wrap : ViewPtr}
      (h : loadLibrary sys mode search fuel st libName loadAddress fileOffset =
        some (st', .ok wrap)) : ListCall st st'
  | unloads {fuel : Nat} {wrap : ViewPtr} {st' : LibraryList}
      (h : unloadLibrary fuel st wrap = some st') : ListCall st st'

theorem listed_of_calls (hcalls : Relation.ReflTransGen ListCall LibraryList.empty st) :
    Listed st ∧ st.AllPositive := by
  induction hcalls with
  | refl => exact ⟨listed_empty, fun _ hv => absurd hv not_mem_nil⟩
  | tail _ hcall ih =>
    cases hcall with
    | loads hload => exact loadLibrary_listed hload ih.1 ih.2
    | unloads hunload =>
      obtain ⟨h', hunloads⟩ := unloadLibrary_listed _ _ _ _ hunload ih.1
      exact ⟨h', hunloads.allPositive ih.2⟩

/-- The crazy libraries of a vector without views on their way out. -/
theorem LibraryList.Listed.mem_crazyWhere (h : Listed st) (hpositive : st.AllPositive)
    {ptr : LibPtr} :
    ptr ∈ crazyWhere positive st.knownLibraries ↔
      ∃ v ∈ st.knownLibraries, ∃ lib, v.type = .crazy ptr lib := by
  rw [LibraryList.mem_crazyWhere]
  constructor
  · rintro ⟨v, hv, hcrazy, -, rfl⟩
    cases htype : v.type with
    | crazy ptr lib =>
      obtain rfl := h.crazyPtr v hv ptr lib htype
      exact ⟨v, hv, lib, htype⟩
    | _ => simp [LibraryView.isCrazy, htype] at hcrazy
  · rintro ⟨v, hv, lib, htype⟩
    exact ⟨v, hv, by simp [LibraryView.isCrazy, htype], decide_eq_true (hpositive v hv),
      (h.crazyPtr v hv ptr lib htype).symm⟩

/-- **The list of crazy libraries.** After any successful loads and unloads, `head_`, `list_next_`
    and `list_prev_` make a doubly linked list without repetitions of the libraries behind the crazy
    views of the vector. Each of them was entered once in the log, and read from its end the list is
    in the order of the log. -/
theorem crazyList_of_calls (hcalls : Relation.ReflTransGen ListCall LibraryList.empty st) :
    ∃ libs : List LibPtr, Linked st.listNext st.listPrev none st.head libs ∧ libs.Nodup ∧
      (∀ ptr, ptr ∈ libs ↔ ∃ v ∈ st.knownLibraries, ∃ lib, v.type = .crazy ptr lib) ∧
      (libs.reverse.map Event.addEntry).Sublist st.log ∧
      ∀ ptr ∈ libs, st.log.count (.addEntry ptr) = 1 := by
  obtain ⟨h, hpositive⟩ := listed_of_calls hcalls
  have hmem : ∀ ptr, ptr ∈ (crazyWhere positive st.knownLibraries).reverse ↔
      ∃ v ∈ st.knownLibraries, ∃ lib, v.type = .crazy ptr lib := by
    intro ptr
    rw [mem_reverse]
    exact h.mem_crazyWhere hpositive
  refine ⟨_, h.chained, nodup_reverse.mpr (nodup_crazyWhere h.ptrs), hmem, ?_, ?_⟩
  · rw [reverse_reverse]
    exact h.entered
  · intro ptr hptr
    obtain ⟨v, hv, lib, htype⟩ := (hmem ptr).mp hptr
    have hcount : (history st.log ptr).count (.addEntry ptr) = st.log.count (.addEntry ptr) :=
      count_filter (by simp [Event.entry])
    rw [← hcount, h.known v hv ptr lib htype]
    exact count_singleton_self

/-- `liba.so` and `libb.so` are loaded, and `liba.so` is unloaded. -/
theorem crazyList_of_calls_two :
    ∃ st, Relation.ReflTransGen ListCall LibraryList.empty st ∧ st.head = some 2 ∧
      ∃ libs : List LibPtr, Linked st.listNext st.listPrev none st.head libs ∧ libs.Nodup ∧
        (∀ ptr, ptr ∈ libs ↔ ∃ v ∈ st.knownLibraries, ∃ lib, v.type = .crazy ptr lib) ∧
        (libs.reverse.map Event.addEntry).Sublist st.log ∧
        ∀ ptr ∈ libs, st.log.count (.addEntry ptr) = 1 := by
  let sys : System := System.directory [("liba.so".toList, []), ("libb.so".toList, [])]
  obtain ⟨st₁, hfirst⟩ : ∃ st, loadLibrary sys 2 System.libPath 2 LibraryList.empty
      "liba.so".toList 0 0 = some (st, .ok 1) := ⟨_, rfl⟩
  obtain ⟨st₂, hsecond⟩ : ∃ st, loadLibrary sys 2 System.libPath 2 st₁ "libb.so".toList 0 0 =
      some (st, .ok 2) := by
    cases hfirst
    exact ⟨_, rfl⟩
  obtain ⟨st₃, hunload, hhead⟩ : ∃ st, unloadLibrary 2 st₂ 1 = some st ∧ st.head = some 2 := by
    cases hfirst
    cases hsecond
    exact ⟨_, rfl, rfl⟩
  have hcalls : Relation.ReflTransGen ListCall LibraryList.empty st₃ :=
    ((Relation.ReflTransGen.single (ListCall.loads hfirst)).tail (ListCall.loads hsecond)).tail
      (ListCall.unloads hunload)
  exact ⟨st₃, hcalls, hhead, crazyList_of_calls hcalls⟩

end CrystaxNdk.CrazyLinker
