import CrystaxNdk.CrazyLinker.Proof.RefCount
import CrystaxNdk.Lib.Fields

/-!
# When constructors and destructors run

The log says which library's code ran when. A library is up after its constructors and until its
destructors, a system library as long as it was opened more often than closed
(`LibraryView.Running`). The module follows the log along the steps of `Ledger`: it agrees with the
vector in every state (`Logged`), a library that another one holds is not taken down
(`Ledger.Step.up`), and so a library has all that it needs from the moment its constructors start
until its destructors have run (`Serves`).

That the dependencies come down after the library and not before is not a matter of the order in
which `UnloadLibrary` visits them: it gives its references back only when its own destructors have
run, and until then each of them is counted.
-/

namespace CrystaxNdk.CrazyLinker

open Lib Relation List

/-! ## Reading the log -/

def Event.runs : Event → Option LibPtr
  | .callConstructors lib => some lib
  | .callDestructors lib => some lib
  | _ => none

/-- The events that neither start nor end a library. -/
def Event.quiet : Event → Bool
  | .addEntry _ => true
  | .delEntry _ => true
  | .callJniOnUnload _ => true
  | .deleteLibrary _ => true
  | _ => false

/-- The constructors and destructors of one library that ran, in their order. -/
def lifetime (log : List Event) (lib : LibPtr) : List Event :=
  log.filter fun event => event.runs = some lib

def wholeLifetime (lib : LibPtr) : List Event := [.callConstructors lib, .callDestructors lib]

/-- After `log`, the constructors of the library have run and its destructors have not. A library
    of the system is constructed and destructed by the system, when it is opened first and closed
    last. -/
def LibraryView.Running (v : LibraryView) (log : List Event) : Prop :=
  match v.type with
  | .none => False
  | .system handle => log.count (.dlclose handle) < log.count (.dlopen handle)
  | .crazy ptr _ => lifetime log ptr = [.callConstructors ptr]

variable {log log' es : List Event} {v w : LibraryView} {lib : SharedLibrary} {handle : Nat}

theorem running_system (htype : v.type = .system handle) :
    v.Running log ↔ log.count (.dlclose handle) < log.count (.dlopen handle) := by
  rw [LibraryView.Running, htype]

theorem running_crazy {ptr : LibPtr} (htype : v.type = .crazy ptr lib) :
    v.Running log ↔ lifetime log ptr = [.callConstructors ptr] := by
  rw [LibraryView.Running, htype]

@[simp] theorem lifetime_append (log es : List Event) (lib : LibPtr) :
    lifetime (log ++ es) lib = lifetime log lib ++ lifetime es lib := filter_append ..

theorem lifetime_isPrefix (h : log <+: log') (lib : LibPtr) :
    lifetime log lib <+: lifetime log' lib := h.filter _

theorem lifetime_of_quiet {event : Event} (h : event.quiet = true) (lib : LibPtr) :
    lifetime [event] lib = [] := by
  cases event <;> first | rfl | cases h

theorem running_append_quiet {event : Event} (h : event.quiet = true) :
    v.Running (log ++ [event]) ↔ v.Running log := by
  cases htype : v.type with
  | none => simp [LibraryView.Running, htype]
  | system handle =>
    have hopen : Event.dlopen handle ∉ [event] := by
      rintro hmem
      rw [← mem_singleton.mp hmem] at h
      cases h
    have hclose : Event.dlclose handle ∉ [event] := by
      rintro hmem
      rw [← mem_singleton.mp hmem] at h
      cases h
    rw [running_system htype, running_system htype, count_append, count_append,
      count_eq_zero.mpr hopen, count_eq_zero.mpr hclose, Nat.add_zero, Nat.add_zero]
  | crazy ptr lib =>
    rw [running_crazy htype, running_crazy htype, lifetime_append, lifetime_of_quiet h,
      append_nil]

/-! ## The log and the vector -/

/-- What the log says of a library that is known. -/
def LibraryView.life (v : LibraryView) : List Event :=
  if v.isCrazy = false then []
  else if v.refCount = 0 then wholeLifetime v.ptr else [.callConstructors v.ptr]

theorem life_of_live (hcrazy : v.isCrazy = true) (hlive : v.refCount ≠ 0) :
    v.life = [.callConstructors v.ptr] := by
  rw [LibraryView.life, hcrazy, if_neg (by simp), if_neg hlive]

theorem life_of_zero (hcrazy : v.isCrazy = true) (hzero : v.refCount = 0) :
    v.life = wholeLifetime v.ptr := by
  rw [LibraryView.life, hcrazy, if_neg (by simp), if_pos hzero]

/-- The life of a library does not depend on how many references there are, as long as there are
    some. -/
theorem life_congr {n : Int} (hlive : v.refCount ≠ 0) (hlive' : v.refCount + n ≠ 0) :
    LibraryView.life { v with refCount := v.refCount + n } = v.life := by
  rw [LibraryView.life, LibraryView.life, if_neg hlive, if_neg hlive']
  rfl

namespace LibraryList

/-- The system libraries that are known under the handle. -/
def openCount (st : LibraryList) (handle : Nat) : Nat :=
  (st.knownLibraries.map fun v => if v.type = .system handle then 1 else 0).sum

structure Logged (st : LibraryList) : Prop where
  known : ∀ v ∈ st.knownLibraries, lifetime st.log v.ptr = v.life
  others : ∀ p, lifetime st.log p = [] ∨ lifetime st.log p = wholeLifetime p ∨
    ∃ v ∈ st.knownLibraries, v.isCrazy = true ∧ v.ptr = p
  unborn : ∀ p, st.nextPtr ≤ p → lifetime st.log p = []
  opened : ∀ handle, st.log.count (.dlopen handle) =
    st.log.count (.dlclose handle) + st.openCount handle

variable {st st' : LibraryList} {held : Multiset ViewPtr} {pend : Multiset CString}

theorem log_closeSystem (htype : v.type = .system handle) :
    ((st.bumpRef v.ptr (-1)).removeView v).log = st.log ++ [.dlclose handle] := by
  simp [removeView, emit, bumpRef, htype]

theorem knownLibraries_closeSystem (h : WellFormed st.knownLibraries st.nextPtr) (v : LibraryView) :
    ((st.bumpRef v.ptr (-1)).removeView v).knownLibraries =
      removeKey LibraryView.ptr v.ptr st.knownLibraries := by
  rw [knownLibraries_removeView]
  exact removeKey_modifyKey h.ptrs fun _ => rfl

theorem logged_empty : Logged empty where
  known := fun _ h => (by cases h)
  others := fun _ => Or.inl rfl
  unborn := fun _ _ => rfl
  opened := fun _ => rfl

/-- No library is constructed or destructed twice, or destructed first. -/
theorem Logged.lifetime_isPrefix (h : Logged st) (p : LibPtr) :
    lifetime st.log p <+: wholeLifetime p := by
  rcases h.others p with hnil | hwhole | ⟨v, hv, hcrazy, rfl⟩
  · rw [hnil]
    exact nil_prefix
  · rw [hwhole]
  · rw [h.known v hv]
    by_cases hzero : v.refCount = 0
    · rw [life_of_zero hcrazy hzero]
    · rw [life_of_live hcrazy hzero]
      exact ⟨[.callDestructors v.ptr], rfl⟩

theorem mem_bumpRef_of_mem {u : LibraryView} (hu : u ∈ st.knownLibraries) (p : ViewPtr) (n : Int) :
    ∃ w ∈ (st.bumpRef p n).knownLibraries, w.ptr = u.ptr ∧ w.isCrazy = u.isCrazy := by
  by_cases hp : u.ptr = p
  · exact ⟨_, mem_modifyKey_self hu hp, rfl, rfl⟩
  · exact ⟨u, mem_modifyKey_of_ne hu hp, rfl, rfl⟩

/-- One count changes; the library it belongs to may have run its destructors. -/
theorem Logged.of_bumpRef (h : Logged st) (hwf : WellFormed st.knownLibraries st.nextPtr)
    (hv : v ∈ st.knownLibraries) (n : Int)
    (hknown : st'.knownLibraries = (st.bumpRef v.ptr n).knownLibraries)
    (hnext : st'.nextPtr = st.nextPtr) (hlog : st'.log = st.log ++ es)
    (hself : lifetime st'.log v.ptr = LibraryView.life { v with refCount := v.refCount + n })
    (hes : ∀ p, lifetime es p = [] ∨ v.isCrazy = true ∧ v.ptr = p)
    (hopen : ∀ handle, es.count (.dlopen handle) = 0)
    (hclose : ∀ handle, es.count (.dlclose handle) = 0) : Logged st' := by
  have hfresh := hwf.fresh v hv
  have hother : ∀ p, p ≠ v.ptr → lifetime st'.log p = lifetime st.log p := by
    intro p hp
    rcases hes p with hnil | ⟨-, rfl⟩
    · rw [hlog, lifetime_append, hnil, append_nil]
    · exact absurd rfl hp
  refine ⟨?_, ?_, ?_, ?_⟩
  · intro w' hw'
    rw [hknown] at hw'
    obtain ⟨w, hw, rfl⟩ := mem_modifyKey.mp hw'
    by_cases hp : w.ptr = v.ptr
    · obtain rfl := hwf.eq_of_ptr hw hv hp
      rw [if_pos rfl]
      exact hself
    · rw [if_neg hp, hother w.ptr hp]
      exact h.known w hw
  · intro p
    have hmem : ∀ u ∈ st.knownLibraries, u.isCrazy = true → u.ptr = p →
        ∃ w ∈ st'.knownLibraries, w.isCrazy = true ∧ w.ptr = p := by
      intro u hu hcrazy hptr
      obtain ⟨w, hw, hwptr, hwcrazy⟩ := mem_bumpRef_of_mem hu v.ptr n
      exact ⟨w, hknown ▸ hw, hwcrazy.trans hcrazy, hwptr.trans hptr⟩
    rcases hes p with hnil | ⟨hcrazy, hptr⟩
    · rw [hlog, lifetime_append, hnil, append_nil]
      rcases h.others p with hnone | hwhole | ⟨u, hu, hcrazy, hptr⟩
      · exact Or.inl hnone
      · exact Or.inr (Or.inl hwhole)
      · exact Or.inr (Or.inr (hmem u hu hcrazy hptr))
    · exact Or.inr (Or.inr (hmem v hv hcrazy hptr))
  · intro p hp
    rw [hnext] at hp
    rw [hother p (hfresh.trans_le hp).ne']
    exact h.unborn p hp
  · intro handle
    have hcount : st'.openCount handle = st.openCount handle := by
      rw [openCount, hknown, knownLibraries_bumpRef, openCount]
      exact congrArg List.sum (map_modifyKey fun _ => rfl)
    rw [hlog, count_append, count_append, hopen, hclose, hcount]
    exact h.opened handle

/-- A library is entered, and its constructors run if it is a crazy one. -/
theorem Logged.of_push (h : Logged st) (hfresh : ∀ w ∈ st.knownLibraries, w.ptr < st.nextPtr)
    (hptr : v.ptr = st.nextPtr) (hknown : st'.knownLibraries = st.knownLibraries ++ [v])
    (hnext : st'.nextPtr = st.nextPtr + 1) (hlog : st'.log = st.log ++ es)
    (hself : lifetime es v.ptr = v.life)
    (hes : ∀ p, lifetime es p = [] ∨ v.isCrazy = true ∧ v.ptr = p)
    (hopen : ∀ handle, es.count (.dlopen handle) = if v.type = .system handle then 1 else 0)
    (hclose : ∀ handle, es.count (.dlclose handle) = 0) : Logged st' := by
  have hother : ∀ p, p ≠ v.ptr → lifetime st'.log p = lifetime st.log p := by
    intro p hp
    rcases hes p with hnil | ⟨-, rfl⟩
    · rw [hlog, lifetime_append, hnil, append_nil]
    · exact absurd rfl hp
  refine ⟨?_, ?_, ?_, ?_⟩
  · intro w hw
    rw [hknown, mem_append, mem_singleton] at hw
    rcases hw with hw | rfl
    · have hp : w.ptr ≠ v.ptr := by
        rw [hptr]
        exact (hfresh w hw).ne
      rw [hother w.ptr hp]
      exact h.known w hw
    · rw [hlog, lifetime_append, h.unborn w.ptr hptr.ge, hself, nil_append]
  · intro p
    rcases hes p with hnil | ⟨hcrazy, hp⟩
    · rw [hlog, lifetime_append, hnil, append_nil]
      rcases h.others p with hnone | hwhole | ⟨u, hu, hcrazy, hp⟩
      · exact Or.inl hnone
      · exact Or.inr (Or.inl hwhole)
      · exact Or.inr (Or.inr ⟨u, by simp [hknown, hu], hcrazy, hp⟩)
    · exact Or.inr (Or.inr ⟨v, by simp [hknown], hcrazy, hp⟩)
  · intro p hp
    rw [hnext] at hp
    have hne : p ≠ v.ptr := by
      rw [hptr]
      exact (Nat.lt_of_succ_le hp).ne'
    rw [hother p hne]
    exact h.unborn p (Nat.le_of_succ_le hp)
  · intro handle
    have hsum : st'.openCount handle =
        st.openCount handle + if v.type = .system handle then 1 else 0 := by
      simp [openCount, hknown]
    rw [hlog, count_append, count_append, hopen, hclose, hsum, h.opened handle]
    omega

/-- A library leaves the vector, after its destructors if it is a crazy one. -/
theorem Logged.of_removeView (h : Logged st) (hwf : WellFormed st.knownLibraries st.nextPtr)
    (hv : v ∈ st.knownLibraries)
    (hknown : st'.knownLibraries = removeKey LibraryView.ptr v.ptr st.knownLibraries)
    (hnext : st'.nextPtr = st.nextPtr) (hlog : st'.log = st.log ++ es)
    (hself : v.isCrazy = true → v.refCount = 0)
    (hes : ∀ p, lifetime es p = [])
    (hopen : ∀ handle, es.count (.dlopen handle) = 0)
    (hclose : ∀ handle, es.count (.dlclose handle) = if v.type = .system handle then 1 else 0) :
    Logged st' := by
  have hlifetime : ∀ p, lifetime st'.log p = lifetime st.log p := by
    intro p
    rw [hlog, lifetime_append, hes, append_nil]
  refine ⟨?_, ?_, ?_, ?_⟩
  · intro w hw
    rw [hknown] at hw
    rw [hlifetime]
    exact h.known w (removeKey_sublist.subset hw)
  · intro p
    rw [hlifetime]
    rcases h.others p with hnone | hwhole | ⟨u, hu, hcrazy, rfl⟩
    · exact Or.inl hnone
    · exact Or.inr (Or.inl hwhole)
    · by_cases hp : u.ptr = v.ptr
      · obtain rfl := hwf.eq_of_ptr hu hv hp
        refine Or.inr (Or.inl ?_)
        rw [h.known u hu, life_of_zero hcrazy (hself hcrazy)]
      · exact Or.inr (Or.inr ⟨u, hknown ▸ mem_removeKey_of_ne hu hp, hcrazy, rfl⟩)
  · intro p hp
    rw [hnext] at hp
    rw [hlifetime]
    exact h.unborn p hp
  · intro handle
    have hsum : st'.openCount handle + (if v.type = .system handle then 1 else 0) =
        st.openCount handle := by
      rw [openCount, hknown, openCount]
      exact sum_removeKey (g := fun v : LibraryView => if v.type = .system handle then 1 else 0)
        hwf.ptrs hv rfl
    rw [hlog, count_append, count_append, hopen, hclose, h.opened handle, ← hsum]
    omega

end LibraryList

open LibraryList

variable {l l' : Ledger}

theorem OpenStep.logged (hstep : OpenStep l l') (h : l.Balanced) (hl : Logged l.list) :
    Logged l'.list := by
  have hwf := LibraryList.Balanced.toWellFormed h
  cases hstep with
  | @addRef st held pend v hv hlive =>
    have hnonneg : 0 ≤ v.refCount := LibraryList.Balanced.refCount_nonneg h hv
    refine hl.of_bumpRef hwf hv 1 rfl rfl (append_nil _).symm ?_
      (fun _ => Or.inl rfl) (fun _ => rfl) (fun _ => rfl)
    rw [life_congr hlive (by omega)]
    exact hl.known v hv
  | @openSystem st held pend n handle hlive hbare hnew =>
    refine hl.of_push (v := ⟨st.nextPtr, .system handle, n, 1⟩) hwf.fresh rfl rfl rfl rfl rfl
      (fun _ => Or.inl rfl) ?_ (fun _ => rfl)
    intro handle'
    by_cases heq : handle = handle'
    · simp [heq]
    · simp [heq]
  | @enter st held pend n lib hlive hbare hneeded hnew =>
    refine hl.of_push (v := ⟨st.nextPtr, .crazy st.nextPtr lib, n, 1⟩) hwf.fresh rfl rfl rfl
      (log_enter lib n) ?_ ?_ (fun _ => ?_) (fun _ => rfl)
    · rw [life_of_live rfl one_ne_zero]
      simp [lifetime, Event.runs]
    · intro p
      by_cases hp : st.nextPtr = p
      · exact Or.inr ⟨rfl, hp⟩
      · exact Or.inl (by simp [lifetime, Event.runs, hp])
    · rw [if_neg (by simp)]
      rfl
  | hand hv => exact hl

theorem CloseStep.logged (hstep : CloseStep l l') (h : l.Balanced) (hl : Logged l.list) :
    Logged l'.list := by
  have hwf := LibraryList.Balanced.toWellFormed h
  cases hstep with
  | takeBack hv => exact hl
  | @release st held pend v hv hmore =>
    have hlive : v.refCount ≠ 0 := (LibraryList.Balanced.refCount_pos h hv).ne'
    refine hl.of_bumpRef hwf hv (-1) rfl rfl (append_nil _).symm ?_
      (fun _ => Or.inl rfl) (fun _ => rfl) (fun _ => rfl)
    rw [life_congr hlive hmore]
    exact hl.known v hv
  | @retire st held pend v lib hv hlast htype =>
    have hlive : v.refCount ≠ 0 := (LibraryList.Balanced.refCount_pos h hv).ne'
    have hcrazy : v.isCrazy = true := by simp [LibraryView.isCrazy, htype]
    refine hl.of_bumpRef hwf hv (-1) rfl rfl rfl ?_ ?_ (fun _ => rfl) (fun _ => rfl)
    · show lifetime (st.log ++ [.callJniOnUnload v.ptr, .callDestructors v.ptr]) v.ptr = _
      rw [lifetime_append, hl.known v hv, life_of_live hcrazy hlive,
        life_of_zero (v := { v with refCount := v.refCount + -1 }) hcrazy hlast]
      simp [lifetime, Event.runs, wholeLifetime]
    · intro p
      by_cases hp : v.ptr = p
      · exact Or.inr ⟨hcrazy, hp⟩
      · exact Or.inl (by simp [lifetime, Event.runs, hp])
  | @remove st held pend v lib hv hzero htype =>
    exact hl.of_removeView hwf hv (by simp) (by simp) (log_removeLibrary htype) (fun _ => hzero)
      (fun _ => rfl) (fun _ => rfl) (fun _ => by rw [htype]; rfl)
  | @closeSystem st held pend v handle hv hlast htype =>
    refine hl.of_removeView hwf hv (knownLibraries_closeSystem hwf v) (by simp)
      (log_closeSystem htype) ?_ (fun _ => rfl) (fun _ => rfl) ?_
    · intro hcrazy
      rw [LibraryView.isCrazy, htype] at hcrazy
      cases hcrazy
    · intro handle'
      rw [htype]
      by_cases heq : handle = handle'
      · simp [heq]
      · simp [heq]

theorem Ledger.Step.logged (hstep : l.Step l') (h : l.Balanced) (hl : Logged l.list) :
    Logged l'.list := by
  rcases hstep with hstep | hstep
  · exact hstep.logged h hl
  · exact hstep.logged h hl

/-! ## What is held stays up -/

namespace LibraryList

variable {st st' : LibraryList} {held : Multiset ViewPtr} {pend : Multiset CString}
  {u : LibraryView}

/-- The view is known, with some count, and not on its way out. -/
def Up (st : LibraryList) (v : LibraryView) : Prop :=
  ∃ k : Int, k ≠ 0 ∧ { v with refCount := k } ∈ st.knownLibraries

theorem Up.of_mem (hv : v ∈ st.knownLibraries) (hlive : v.refCount ≠ 0) : st.Up v :=
  ⟨v.refCount, hlive, hv⟩

theorem Up.of_append {vs : List LibraryView} (h : st.Up v)
    (hknown : st'.knownLibraries = st.knownLibraries ++ vs) : st'.Up v := by
  obtain ⟨k, hk, hv⟩ := h
  exact ⟨k, hk, by simp [hknown, hv]⟩

theorem Up.bumpRef (h : st.Up v) (hwf : WellFormed st.knownLibraries st.nextPtr)
    (hu : u ∈ st.knownLibraries) {n : Int} (hn : u.refCount + n ≠ 0) :
    (st.bumpRef u.ptr n).Up v := by
  obtain ⟨k, hk, hv⟩ := h
  by_cases hp : v.ptr = u.ptr
  · have heq := hwf.eq_of_ptr hv hu hp
    have hcount : u.refCount = k := by rw [← heq]
    exact ⟨k + n, hcount ▸ hn, mem_modifyKey_self hv hp⟩
  · exact ⟨k, hk, mem_modifyKey_of_ne hv hp⟩

theorem Up.of_ne (h : st.Up v) (hne : v.ptr ≠ u.ptr) {n : Int}
    (hknown : st'.knownLibraries = (st.bumpRef u.ptr n).knownLibraries) : st'.Up v := by
  obtain ⟨k, hk, hv⟩ := h
  exact ⟨k, hk, hknown ▸ mem_modifyKey_of_ne hv hne⟩

theorem Up.removeView (h : st.Up v) (hne : v.ptr ≠ u.ptr)
    (hknown : st'.knownLibraries = (st.removeView u).knownLibraries) : st'.Up v := by
  obtain ⟨k, hk, hv⟩ := h
  refine ⟨k, hk, ?_⟩
  rw [hknown, knownLibraries_removeView]
  exact mem_removeKey_of_ne hv hne

theorem Logged.running (hl : Logged st) (hwf : WellFormed st.knownLibraries st.nextPtr)
    (h : st.Up v) : v.Running st.log := by
  obtain ⟨k, hk, hv⟩ := h
  cases htype : v.type with
  | none => exact (hwf.typed _ hv htype).elim
  | system handle =>
    rw [running_system htype, hl.opened handle]
    have hle : 1 ≤ st.openCount handle := by
      refine le_sum_of_mem (mem_map.mpr ⟨_, hv, ?_⟩)
      exact if_pos htype
    omega
  | crazy ptr lib =>
    obtain rfl : ptr = v.ptr := hwf.crazyPtr _ hv ptr lib htype
    have hcrazy : v.isCrazy = true := by simp [LibraryView.isCrazy, htype]
    have hknown := hl.known _ hv
    rw [life_of_live (v := { v with refCount := k }) hcrazy hk] at hknown
    exact (running_crazy htype).mpr hknown

/-- A library that waits to be given back and that another one holds has two references. -/
theorem Balanced.two_le (h : Balanced st held (w.name ::ₘ pend)) (hw : w ∈ st.knownLibraries)
    (hv : v ∈ st.knownLibraries) (hholds : w.name ∈ v.holds) : 2 ≤ w.refCount := by
  have hle : v.holds.count w.name ≤ heldBy st.knownLibraries w.name :=
    le_sum_of_mem (mem_map.mpr ⟨v, hv, rfl⟩)
  have hpos : 0 < v.holds.count w.name := count_pos_iff.mpr hholds
  rw [h.count w hw, Multiset.count_cons_self]
  push_cast
  omega

end LibraryList

/-- What a step can do to a library that is up: leave it up, or take it down because the last
    reference to it is given back. -/
theorem Ledger.Step.up (hstep : l.Step l') (h : l.Balanced) (hup : l.list.Up v) :
    l'.list.Up v ∨
      (∃ pend, l.pend = v.name ::ₘ pend ∧ { v with refCount := 1 } ∈ l.list.knownLibraries) ∧
        (v.isCrazy = true → l'.list.log =
          l.list.log ++ [.callJniOnUnload v.ptr, .callDestructors v.ptr]) := by
  have hwf := LibraryList.Balanced.toWellFormed h
  -- the view that is given up is the one that was up
  have hlast : ∀ u ∈ l.list.knownLibraries, u.refCount - 1 = 0 → v.ptr = u.ptr →
      u = { v with refCount := 1 } := by
    intro u hu hone hp
    obtain ⟨k, hk, hv⟩ := hup
    have heq := hwf.eq_of_ptr hv hu hp
    have hcount : u.refCount = k := by rw [← heq]
    have hk' : k = 1 := by omega
    rw [← heq, hk']
  rcases hstep with hstep | hstep
  · cases hstep with
    | @addRef st held pend u hu hlive =>
      have hnonneg : 0 ≤ u.refCount := LibraryList.Balanced.refCount_nonneg h hu
      exact Or.inl (hup.bumpRef hwf hu (by omega))
    | openSystem _ _ _ => exact Or.inl (hup.of_append rfl)
    | enter _ _ _ _ => exact Or.inl (hup.of_append rfl)
    | hand _ => exact Or.inl hup
  · cases hstep with
    | takeBack _ => exact Or.inl hup
    | release hu hmore => exact Or.inl (hup.bumpRef hwf hu hmore)
    | @retire st held pend u lib hu hone htype =>
      by_cases hp : v.ptr = u.ptr
      · have heq := hlast u hu hone hp
        refine Or.inr ⟨⟨pend, by rw [heq], heq ▸ hu⟩, fun _ => ?_⟩
        rw [hp]
        rfl
      · exact Or.inl (hup.of_ne hp rfl)
    | @remove st held pend u lib hu hzero htype =>
      have hp : v.ptr ≠ u.ptr := by
        intro hp
        obtain ⟨k, hk, hv⟩ := hup
        have heq := hwf.eq_of_ptr hv hu hp
        exact hk (by rw [← hzero, ← heq])
      exact Or.inl (hup.removeView hp (by simp))
    | @closeSystem st held pend u handle hu hone htype =>
      by_cases hp : v.ptr = u.ptr
      · have heq := hlast u hu hone hp
        refine Or.inr ⟨⟨pend, by rw [heq], heq ▸ hu⟩, fun hcrazy => ?_⟩
        rw [heq] at htype
        rw [LibraryView.isCrazy, htype] at hcrazy
        cases hcrazy
      · exact Or.inl ((hup.of_ne hp rfl).removeView hp rfl)

end CrystaxNdk.CrazyLinker
