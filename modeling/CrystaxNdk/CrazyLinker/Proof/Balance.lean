import CrystaxNdk.CrazyLinker.Proof.CrazyList
import CrystaxNdk.CrazyLinker.Proof.Dependencies

/-!
# The books of the reference counts

A reference to a view is a handle some client holds or a `DT_NEEDED` entry of a library that is
known. In the middle of a call there is a third kind: an entry whose reference is taken before
the library that needs it is entered, or given back after that library is past saving.
`Balanced st held pend` says that the counts of `st` are exactly these references, `held` being
the handles and `pend` the names of the third kind. A view whose count has come to `0` stays in
the vector until its dependencies are unloaded; its entries are among `pend` by then, so it
holds nothing itself (`LibraryView.holds`).

After the lemmas for each thing the code does to the list, loads and unloads are taken apart into
such steps, which other invariants of the linker are proved over as well.
-/

namespace CrystaxNdk.CrazyLinker

open Lib List

/-- The names a view holds a reference to. -/
def LibraryView.holds (v : LibraryView) : List CString :=
  if v.refCount = 0 then [] else v.needed

namespace LibraryList

/-- How often the libraries in `vs` hold a reference to `name`. -/
def heldBy (vs : List LibraryView) (name : CString) : Nat :=
  (vs.map fun v => v.holds.count name).sum

/-- The crazy libraries in `vs` that are not on their way out. -/
def crazyPtrs (vs : List LibraryView) : List LibPtr :=
  (vs.filter fun v => v.isCrazy && decide (v.refCount ≠ 0)).map LibraryView.ptr

/-- The part of the invariant that does not mention the counts. No library needs one that was
    entered after it, because its dependencies were all there before it. -/
structure WellFormed (vs : List LibraryView) (nextPtr : Nat) : Prop
    extends Distinct vs nextPtr where
  bareNeeded : ∀ v ∈ vs, ∀ m ∈ v.needed, '/' ∉ m
  typed : ∀ v ∈ vs, v.type ≠ .none
  crazyPtr : ∀ v ∈ vs, ∀ ptr lib, v.type = .crazy ptr lib → ptr = v.ptr
  irreflexive : ∀ v ∈ vs, v.name ∉ v.needed
  ordered : vs.Pairwise fun v w => w.name ∉ v.needed

/-- The counts of `st` are the handles `held`, the names `pend` and what the libraries hold. -/
structure Balanced (st : LibraryList) (held : Multiset ViewPtr) (pend : Multiset CString) :
    Prop extends WellFormed st.knownLibraries st.nextPtr where
  count : ∀ v ∈ st.knownLibraries,
    v.refCount = held.count v.ptr + pend.count v.name + heldBy st.knownLibraries v.name
  heldKnown : ∀ p ∈ held, ∃ v ∈ st.knownLibraries, v.ptr = p
  pendKnown : ∀ m ∈ pend, st.Known m
  holdsKnown : ∀ v ∈ st.knownLibraries, ∀ m ∈ v.holds, st.Known m
  chain : Linked st.listNext st.listPrev none st.head (crazyPtrs st.knownLibraries).reverse

/-- The count of a view that is not on its way out. -/
abbrev alive (count : Int) : Bool := decide (count ≠ 0)

def AllLive (st : LibraryList) : Prop := ∀ v ∈ st.knownLibraries, v.refCount ≠ 0

variable {st st' : LibraryList} {held : Multiset ViewPtr} {pend pend' : Multiset CString}
  {v w : LibraryView}

theorem balanced_empty : Balanced empty 0 0 where
  toDistinct := distinct_nil 1
  bareNeeded := fun _ h => (by cases h)
  typed := fun _ h => (by cases h)
  crazyPtr := fun _ h => (by cases h)
  irreflexive := fun _ h => (by cases h)
  ordered := List.Pairwise.nil
  count := fun _ h => (by cases h)
  heldKnown := fun _ h => absurd h (Multiset.notMem_zero _)
  pendKnown := fun _ h => absurd h (Multiset.notMem_zero _)
  holdsKnown := fun _ h => (by cases h)
  chain := rfl

/-! ## Reading the invariant -/

theorem Balanced.chained (h : Balanced st held pend) : Chained alive st := h.chain

theorem Balanced.findKnownLibrary (h : Balanced st held pend) (hv : v ∈ st.knownLibraries) :
    st.findKnownLibrary v.name = some v := by
  have hbase : getBaseNamePtr v.name = v.name := getBaseNamePtr_of_not_mem (h.bare v hv)
  cases hf : st.findKnownLibrary v.name with
  | none =>
    exact absurd ⟨v, hv, hbase.symm⟩ (findKnownLibrary_eq_none.mp hf)
  | some w =>
    obtain ⟨hw, hname⟩ := findKnownLibrary_some hf
    rw [h.eq_of_name hw hv (hname.trans hbase)]

theorem Balanced.refCount_nonneg (h : Balanced st held pend) (hv : v ∈ st.knownLibraries) :
    0 ≤ v.refCount := by
  rw [h.count v hv]
  positivity

theorem Balanced.refCount_pos (h : Balanced st held (v.name ::ₘ pend))
    (hv : v ∈ st.knownLibraries) : 0 < v.refCount := by
  rw [h.count v hv, Multiset.count_cons_self]
  positivity

/-- Counting names in a list and in the multiset of it, whichever equality test is used. -/
theorem count_coe (ns : List CString) (name : CString) :
    (ns : Multiset CString).count name = ns.count name := by
  rw [Multiset.coe_count]
  congr
  exact lawful_beq_subsingleton _ _

theorem holds_eq_needed (h : v.refCount ≠ 0) : v.holds = v.needed := if_neg h

theorem holds_subset_needed {m : CString} (h : m ∈ v.holds) : m ∈ v.needed := by
  unfold LibraryView.holds at h
  split at h
  · exact absurd h (not_mem_nil)
  · exact h

/-- A view nobody holds a reference to: what the three kinds of references add up to is `0`. -/
theorem Balanced.of_refCount_eq_zero (h : Balanced st held pend) (hv : v ∈ st.knownLibraries)
    (hzero : v.refCount = 0) :
    v.ptr ∉ held ∧ v.name ∉ pend ∧ ∀ w ∈ st.knownLibraries, v.name ∉ w.holds := by
  have hcount := h.count v hv
  rw [hzero] at hcount
  refine ⟨?_, ?_, ?_⟩
  · rw [← Multiset.count_eq_zero]
    omega
  · rw [← Multiset.count_eq_zero]
    omega
  · intro w hw
    rw [← count_eq_zero]
    have hle : w.holds.count v.name ≤ heldBy st.knownLibraries v.name :=
      le_sum_of_mem (mem_map.mpr ⟨w, hw, rfl⟩)
    omega

theorem count_hold {vs : List LibraryView} {k : Nat} (h : WellFormed vs k) (hv : v ∈ vs)
    (hw : w ∈ vs) (held : Multiset ViewPtr) (pend : Multiset CString) :
    (v.ptr ::ₘ held).count w.ptr + pend.count w.name =
      held.count w.ptr + (v.name ::ₘ pend).count w.name := by
  have hiff : w.ptr = v.ptr ↔ w.name = v.name :=
    ⟨fun hp => by rw [h.eq_of_ptr hw hv hp], fun hn => by rw [h.eq_of_name hw hv hn]⟩
  rw [Multiset.count_cons, Multiset.count_cons, if_congr hiff rfl rfl]
  omega

/-- Whether a reference is booked as a handle or as a name makes no difference. -/
theorem balanced_hold_iff (hv : v ∈ st.knownLibraries) :
    Balanced st (v.ptr ::ₘ held) pend ↔ Balanced st held (v.name ::ₘ pend) := by
  constructor
  · intro h
    refine { h with count := ?_, heldKnown := ?_, pendKnown := ?_ }
    · intro w hw
      have hcount := count_hold h.toWellFormed hv hw held pend
      rw [h.count w hw]
      omega
    · exact fun p hp => h.heldKnown p (Multiset.mem_cons_of_mem hp)
    · intro m hm
      rcases Multiset.mem_cons.mp hm with rfl | hm
      · exact ⟨v, hv, rfl⟩
      · exact h.pendKnown m hm
  · intro h
    refine { h with count := ?_, heldKnown := ?_, pendKnown := ?_ }
    · intro w hw
      have hcount := count_hold h.toWellFormed hv hw held pend
      rw [h.count w hw]
      omega
    · intro p hp
      rcases Multiset.mem_cons.mp hp with rfl | hp
      · exact ⟨v, hv, rfl⟩
      · exact h.heldKnown p hp
    · exact fun m hm => h.pendKnown m (Multiset.mem_cons_of_mem hm)

/-! ## Changing a count -/

theorem needed_of_type_eq (h : w.type = v.type) : w.needed = v.needed := by
  unfold LibraryView.needed
  rw [h]

theorem known_bumpRef {p : ViewPtr} {n : Int} {name : CString} :
    (st.bumpRef p n).Known name ↔ st.Known name := by
  rw [known_iff_mem, known_iff_mem, map_name_bumpRef]

theorem WellFormed.bumpRef {k : Nat} (h : WellFormed st.knownLibraries k) (p : ViewPtr)
    (n : Int) : WellFormed (st.bumpRef p n).knownLibraries k where
  toDistinct := h.toDistinct.bumpRef p n
  bareNeeded := by
    intro w hw
    obtain ⟨v, hv, -, -, htype, -⟩ := mem_bumpRef hw
    rw [needed_of_type_eq htype]
    exact h.bareNeeded v hv
  typed := by
    intro w hw
    obtain ⟨v, hv, -, -, htype, -⟩ := mem_bumpRef hw
    exact htype ▸ h.typed v hv
  crazyPtr := by
    intro w hw ptr lib hcrazy
    obtain ⟨v, hv, hptr, -, htype, -⟩ := mem_bumpRef hw
    rw [hptr]
    exact h.crazyPtr v hv ptr lib (htype ▸ hcrazy)
  irreflexive := by
    intro w hw
    obtain ⟨v, hv, -, hname, htype, -⟩ := mem_bumpRef hw
    rw [hname, needed_of_type_eq htype]
    exact h.irreflexive v hv
  ordered := by
    rw [knownLibraries_bumpRef, modifyKey, pairwise_map]
    refine h.ordered.imp fun {v w} hvw => ?_
    have hw : (if w.ptr = p then { w with refCount := w.refCount + n } else w).name = w.name := by
      split <;> rfl
    have hv : (if v.ptr = p then { v with refCount := v.refCount + n } else v).needed =
        v.needed := by
      split <;> rfl
    rw [hw, hv]
    exact hvw

/-- One count changes by `n`; the names that wait change with it, and with what the view
    holds. -/
theorem Balanced.of_bumpRef (h : Balanced st held pend) (hv : v ∈ st.knownLibraries)
    (hlive : v.refCount ≠ 0) (n : Int)
    (hknown : st'.knownLibraries = (st.bumpRef v.ptr n).knownLibraries)
    (hnext : st'.nextPtr = st.nextPtr)
    (hchain : Chained alive st')
    (hpend : ∀ name, (pend'.count name : Int) +
      ({ v with refCount := v.refCount + n } : LibraryView).holds.count name =
        pend.count name + v.needed.count name + if name = v.name then n else 0)
    (hpendKnown : ∀ m ∈ pend', st.Known m) : Balanced st' held pend' := by
  have hwf : WellFormed st'.knownLibraries st'.nextPtr := by
    rw [hknown, hnext]
    exact h.toWellFormed.bumpRef v.ptr n
  have hknown' : ∀ name, st.Known name → st'.Known name := by
    intro name hname
    rw [known_iff_mem, hknown, ← known_iff_mem, known_bumpRef]
    exact hname
  refine { hwf with count := ?_, heldKnown := ?_, pendKnown := ?_, holdsKnown := ?_,
                    chain := hchain }
  · intro w' hw'
    rw [hknown] at hw' ⊢
    obtain ⟨w, hw, hptr, hname, -, hcount⟩ := mem_bumpRef hw'
    -- the books of `w.name` before and after
    have hsum := sum_modifyKey (g := fun u => u.holds.count w.name)
      (f := fun u => { u with refCount := u.refCount + n }) h.ptrs hv rfl
    have hsum' : heldBy (st.bumpRef v.ptr n).knownLibraries w.name + v.needed.count w.name =
        heldBy st.knownLibraries w.name +
          ({ v with refCount := v.refCount + n } : LibraryView).holds.count w.name := by
      rw [← holds_eq_needed hlive]
      exact hsum
    have hbook := h.count w hw
    have hpend := hpend w.name
    rw [hcount, hptr, hname]
    by_cases hwv : w.ptr = v.ptr
    · obtain rfl := h.eq_of_ptr hw hv hwv
      rw [if_pos rfl] at hpend ⊢
      omega
    · have hne : w.name ≠ v.name := fun hn => hwv (by rw [h.eq_of_name hw hv hn])
      rw [if_neg hne] at hpend
      rw [if_neg hwv]
      omega
  · intro p hp
    obtain ⟨w, hw, rfl⟩ := h.heldKnown p hp
    have : w.ptr ∈ st'.knownLibraries.map LibraryView.ptr := by
      rw [hknown, map_ptr_bumpRef]
      exact mem_map_of_mem hw
    exact mem_map.mp this
  · exact fun m hm => hknown' m (hpendKnown m hm)
  · intro w' hw' m hm
    rw [hknown] at hw'
    obtain ⟨w, hw, hptr, -, htype, hcount⟩ := mem_bumpRef hw'
    apply hknown'
    have hneeded : m ∈ w.needed := needed_of_type_eq htype ▸ holds_subset_needed hm
    by_cases hwv : w.ptr = v.ptr
    · obtain rfl := h.eq_of_ptr hw hv hwv
      exact h.holdsKnown w hw m (by rw [holds_eq_needed hlive]; exact hneeded)
    · rw [if_neg hwv] at hcount
      have hwlive : w.refCount ≠ 0 := by
        intro hzero
        rw [LibraryView.holds, hcount, if_pos hzero] at hm
        exact absurd hm not_mem_nil
      exact h.holdsKnown w hw m (by rw [holds_eq_needed hwlive]; exact hneeded)

/-! ## The steps of the code -/

theorem Balanced.addRef (h : Balanced st held pend) (hv : v ∈ st.knownLibraries)
    (hlive : v.refCount ≠ 0) : Balanced (st.addRef v.ptr) held (v.name ::ₘ pend) := by
  have hpos : v.refCount + 1 ≠ 0 := by
    have := h.refCount_nonneg hv
    omega
  refine h.of_bumpRef hv hlive 1 rfl rfl ?_ ?_ ?_
  · exact h.chained.bumpRef h.ptrs hv (Or.inr (by simp [hlive, hpos]))
  · intro name
    rw [holds_eq_needed (v := { v with refCount := v.refCount + 1 }) hpos,
      Multiset.count_cons]
    show ((_ : Nat) : Int) + v.needed.count name = _
    by_cases hname : name = v.name
    · rw [if_pos hname, if_pos hname]
      push_cast
      ring
    · rw [if_neg hname, if_neg hname]
      simp
  · intro m hm
    rcases Multiset.mem_cons.mp hm with rfl | hm
    · exact ⟨v, hv, rfl⟩
    · exact h.pendKnown m hm

theorem Balanced.release (h : Balanced st held (v.name ::ₘ pend)) (hv : v ∈ st.knownLibraries)
    (hmore : v.refCount - 1 ≠ 0) : Balanced (st.bumpRef v.ptr (-1)) held pend := by
  have hlive : v.refCount ≠ 0 := (h.refCount_pos hv).ne'
  refine h.of_bumpRef hv hlive (-1) rfl rfl ?_ ?_ ?_
  · have hmore' : v.refCount + -1 ≠ 0 := hmore
    exact h.chained.bumpRef h.ptrs hv (Or.inr (by simp [hlive, hmore']))
  · intro name
    rw [holds_eq_needed (v := { v with refCount := v.refCount + -1 }) hmore,
      Multiset.count_cons]
    show (_ : Int) + v.needed.count name = _
    by_cases hname : name = v.name
    · rw [if_pos hname, if_pos hname]
      push_cast
      ring
    · rw [if_neg hname, if_neg hname]
      simp
  · exact fun m hm => h.pendKnown m (Multiset.mem_cons_of_mem hm)

/-- The last reference is given back: what the library holds now waits to be given back. -/
theorem Balanced.retire (h : Balanced st held (v.name ::ₘ pend)) (hv : v ∈ st.knownLibraries)
    (hlast : v.refCount - 1 = 0)
    (hknown : st'.knownLibraries = (st.bumpRef v.ptr (-1)).knownLibraries)
    (hnext : st'.nextPtr = st.nextPtr)
    (hchain : Chained alive st') :
    Balanced st' held (v.needed + pend) := by
  have hlive : v.refCount ≠ 0 := (h.refCount_pos hv).ne'
  refine h.of_bumpRef hv hlive (-1) hknown hnext hchain ?_ ?_
  · intro name
    have hholds : ({ v with refCount := v.refCount + -1 } : LibraryView).holds = [] := if_pos hlast
    rw [hholds, Multiset.count_cons, Multiset.count_add, count_coe,
      count_nil]
    by_cases hname : name = v.name
    · rw [if_pos hname, if_pos hname]
      push_cast
      ring
    · rw [if_neg hname, if_neg hname]
      push_cast
      ring
  · intro m hm
    rcases Multiset.mem_add.mp hm with hm | hm
    · exact h.holdsKnown v hv m (by rw [holds_eq_needed hlive]; exact Multiset.mem_coe.mp hm)
    · exact h.pendKnown m (Multiset.mem_cons_of_mem hm)

/-- A crazy library leaves the intrusive list when its last reference is given back. -/
theorem Balanced.retire_crazy (h : Balanced st held (v.name ::ₘ pend))
    (hv : v ∈ st.knownLibraries) (hlast : v.refCount - 1 = 0) (hcrazy : v.isCrazy = true)
    (events : List Event) :
    Balanced (((st.bumpRef v.ptr (-1)).unlinkLibrary v.ptr).emit events) held
      (v.needed + pend) := by
  refine h.retire hv hlast rfl rfl ?_
  have hlast' : v.refCount + -1 = 0 := hlast
  exact h.chained.retire h.ptrs hv hcrazy (by simp [(h.refCount_pos hv).ne'])
    (by simp [hlast']) events

theorem Balanced.retire_system (h : Balanced st held (v.name ::ₘ pend))
    (hv : v ∈ st.knownLibraries) (hlast : v.refCount - 1 = 0) (hcrazy : v.isCrazy = false) :
    Balanced (st.bumpRef v.ptr (-1)) held (v.needed + pend) := by
  exact h.retire hv hlast rfl rfl (h.chained.bumpRef h.ptrs hv (Or.inl hcrazy))

/-- A library is entered: the references to what it needs were waiting for it. -/
theorem Balanced.push (h : Balanced st held (v.needed + pend)) (hlive : st.AllLive)
    (hptr : v.ptr = st.nextPtr) (hcount : v.refCount = 1) (hbare : '/' ∉ v.name)
    (hbareNeeded : ∀ m ∈ v.needed, '/' ∉ m) (htyped : v.type ≠ .none)
    (hcrazyPtr : ∀ ptr lib, v.type = .crazy ptr lib → ptr = v.ptr)
    (hnew : ¬ st.Known v.name)
    (hknown : st'.knownLibraries = st.knownLibraries ++ [v])
    (hnext : st'.nextPtr = st.nextPtr + 1)
    (hchain : Chained alive st') :
    Balanced st' held (v.name ::ₘ pend) := by
  have hneeded : ∀ m ∈ v.needed, st.Known m := fun m hm =>
    h.pendKnown m (Multiset.mem_add.mpr (Or.inl (Multiset.mem_coe.mpr hm)))
  have hneededOld : ∀ w ∈ st.knownLibraries, v.name ∉ w.needed := fun w hw hmem =>
    hnew (h.holdsKnown w hw _ (by rw [holds_eq_needed (hlive w hw)]; exact hmem))
  have holds : v.holds = v.needed := holds_eq_needed (by omega)
  have hheldBy : ∀ name, heldBy st'.knownLibraries name =
      heldBy st.knownLibraries name + v.needed.count name := by
    intro name
    simp [heldBy, hknown, holds]
  have hknown' : ∀ name, st.Known name → st'.Known name := by
    rintro name ⟨w, hw, hname⟩
    exact ⟨w, by simp [hknown, hw], hname⟩
  have hfresh : ∀ w ∈ st.knownLibraries, w.ptr ≠ v.ptr := by
    intro w hw
    rw [hptr]
    exact (h.fresh w hw).ne
  have hmem : ∀ w ∈ st'.knownLibraries, w ∈ st.knownLibraries ∨ w = v := by
    intro w hw
    simpa [hknown] using hw
  constructor
  · constructor
    · rw [hknown, hnext]
      exact h.toDistinct.append hbare hnew hptr
    · intro w hw
      rcases hmem w hw with hw | rfl
      · exact h.bareNeeded w hw
      · exact hbareNeeded
    · intro w hw
      rcases hmem w hw with hw | rfl
      · exact h.typed w hw
      · exact htyped
    · intro w hw
      rcases hmem w hw with hw | rfl
      · exact h.crazyPtr w hw
      · exact hcrazyPtr
    · intro w hw
      rcases hmem w hw with hw | rfl
      · exact h.irreflexive w hw
      · exact fun hself => hnew (hneeded _ hself)
    · rw [hknown, pairwise_append]
      refine ⟨h.ordered, pairwise_singleton _ _, ?_⟩
      intro w hw u hu
      rw [mem_singleton] at hu
      exact hu ▸ hneededOld w hw
  · intro w hw
    rw [hheldBy, Multiset.count_cons]
    rcases hmem w hw with hw | rfl
    · have hne : w.name ≠ v.name := fun hn => hnew ⟨w, hw, hn⟩
      have hbook := h.count w hw
      rw [Multiset.count_add, count_coe] at hbook
      rw [if_neg hne]
      push_cast at hbook ⊢
      omega
    · -- nothing referred to the new view before it was there
      have hheld : held.count w.ptr = 0 := by
        rw [Multiset.count_eq_zero]
        intro hp
        obtain ⟨u, hu, hup⟩ := h.heldKnown _ hp
        exact hfresh u hu hup
      have hpend : pend.count w.name = 0 := by
        rw [Multiset.count_eq_zero]
        exact fun hm => hnew (h.pendKnown _ (Multiset.mem_add.mpr (Or.inr hm)))
      have hheldBy₀ : heldBy st.knownLibraries w.name = 0 := by
        refine sum_eq_zero fun k hk => ?_
        obtain ⟨u, hu, rfl⟩ := mem_map.mp hk
        exact count_eq_zero.mpr fun hm => hnew (h.holdsKnown u hu _ hm)
      have hself : w.needed.count w.name = 0 :=
        count_eq_zero.mpr fun hm => hnew (hneeded _ hm)
      rw [if_pos rfl, hheld, hpend, hheldBy₀, hself, hcount]
      rfl
  · intro p hp
    obtain ⟨w, hw, hwp⟩ := h.heldKnown p hp
    exact ⟨w, by simp [hknown, hw], hwp⟩
  · intro m hm
    rcases Multiset.mem_cons.mp hm with rfl | hm
    · exact ⟨v, by simp [hknown], rfl⟩
    · exact hknown' m (h.pendKnown m (Multiset.mem_add.mpr (Or.inr hm)))
  · intro w hw m hm
    apply hknown'
    rcases hmem w hw with hw | rfl
    · exact h.holdsKnown w hw m hm
    · exact hneeded m (holds_subset_needed hm)
  · exact hchain

theorem Balanced.removeView (h : Balanced st held pend) (hv : v ∈ st.knownLibraries)
    (hzero : v.refCount = 0) (hknown : st'.knownLibraries = (st.removeView v).knownLibraries)
    (hnext : st'.nextPtr = st.nextPtr) (hhead : st'.head = st.head)
    (hlistNext : st'.listNext = st.listNext) (hlistPrev : st'.listPrev = st.listPrev) :
    Balanced st' held pend := by
  obtain ⟨hheld, hpend, hheldBy⟩ := h.of_refCount_eq_zero hv hzero
  have hfilter : st'.knownLibraries = st.knownLibraries.filter fun w => w.ptr ≠ v.ptr := by
    rw [hknown, knownLibraries_removeView, removeKey_eq_filter h.ptrs]
  have hmem : ∀ w, w ∈ st'.knownLibraries ↔ w ∈ st.knownLibraries ∧ w.ptr ≠ v.ptr := by
    intro w
    rw [hfilter]
    simp
  have hold : ∀ w ∈ st'.knownLibraries, w ∈ st.knownLibraries := fun w hw => ((hmem w).mp hw).1
  have hsub : st'.knownLibraries.Sublist st.knownLibraries := hfilter ▸ filter_sublist
  have hknown' : ∀ name, name ≠ v.name → st.Known name → st'.Known name := by
    rintro name hne ⟨w, hw, rfl⟩
    exact ⟨w, (hmem w).mpr ⟨hw, fun hp => hne (by rw [h.eq_of_ptr hw hv hp])⟩, rfl⟩
  constructor
  · exact
      { toDistinct := hnext ▸ h.toDistinct.sublist hsub
        bareNeeded := fun w hw => h.bareNeeded w (hold w hw)
        typed := fun w hw => h.typed w (hold w hw)
        crazyPtr := fun w hw => h.crazyPtr w (hold w hw)
        irreflexive := fun w hw => h.irreflexive w (hold w hw)
        ordered := h.ordered.sublist hsub }
  · intro w hw
    have hsum := sum_removeKey (g := fun u => u.holds.count w.name) h.ptrs hv rfl
    rw [show v.holds = [] from if_pos hzero, count_nil, Nat.add_zero] at hsum
    rw [h.count w (hold w hw), hknown, knownLibraries_removeView]
    congr 2
    exact hsum.symm
  · intro p hp
    obtain ⟨w, hw, rfl⟩ := h.heldKnown p hp
    exact ⟨w, (hmem w).mpr ⟨hw, fun hwv => hheld (hwv ▸ hp)⟩, rfl⟩
  · exact fun m hm => hknown' m (fun hmv => hpend (hmv ▸ hm)) (h.pendKnown m hm)
  · intro w hw m hm
    exact hknown' m (fun hmv => hheldBy w (hold w hw) (hmv ▸ hm)) (h.holdsKnown w (hold w hw) m hm)
  · have hptrs : crazyWhere alive (removeKey LibraryView.ptr v.ptr st.knownLibraries) =
        crazyWhere alive st.knownLibraries := by
      refine crazyWhere_removeKey h.ptrs fun w hw hp => Or.inr ?_
      obtain rfl := h.eq_of_ptr hw hv hp
      simp [hzero]
    have hchained : Chained alive st' := by
      rw [Chained, hhead, hlistNext, hlistPrev, hknown, knownLibraries_removeView, hptrs]
      exact h.chain
    exact hchained

end LibraryList

/-!
## Loads and unloads in small steps

`LoadLibrary` and `UnloadLibrary` are recursive, and what a library may rely on has to hold in the
middle of them too. So they are taken apart into steps on a `Ledger`, the list with the references
that are on their way: what a load does is an `OpenStep` each time, what an unload does is a
`CloseStep`, and each keeps the books balanced (`Ledger.Step.balanced`). An invariant of the linker
is then one case per step.
-/

open Relation

/-- The list, the handles clients hold, and the names whose references wait. -/
structure Ledger where
  list : LibraryList
  held : Multiset ViewPtr
  pend : Multiset CString

namespace LibraryList

variable {st st' : LibraryList} {held : Multiset ViewPtr} {pend : Multiset CString}
  {v : LibraryView} {n : CString} {lib : SharedLibrary} {handle : Nat}

/-! ### Entering a library -/

theorem AllLive.addRef (h : Balanced st held pend) (hlive : st.AllLive) (wrap : ViewPtr) :
    (st.addRef wrap).AllLive := by
  intro w hw
  obtain ⟨u, hu, -, -, -, hcount⟩ := mem_bumpRef hw
  have hnonneg := h.refCount_nonneg hu
  have hne := hlive u hu
  rw [hcount]
  split <;> omega

theorem AllLive.append (hlive : st.AllLive) (hcount : v.refCount = 1)
    (hknown : st'.knownLibraries = st.knownLibraries ++ [v]) : st'.AllLive := by
  intro w hw
  rw [hknown, List.mem_append, List.mem_singleton] at hw
  rcases hw with hw | rfl
  · exact hlive w hw
  · rw [hcount]
    decide

theorem Balanced.pushSystem (h : Balanced st held pend) (hlive : st.AllLive) (hbare : '/' ∉ n)
    (hnew : ¬ st.Known n) (events : List Event) (handle : Nat) :
    Balanced ((st.emit events).pushView (.system handle) n) held (n ::ₘ pend) := by
  have hnothing : Balanced st held (([] : List CString) + pend) := by
    rwa [Multiset.coe_nil, zero_add]
  refine Balanced.push (v := ⟨st.nextPtr, .system handle, n, 1⟩) hnothing hlive rfl rfl hbare
    (fun _ hm => (by cases hm)) (fun htype => (by cases htype)) (fun _ _ htype => (by cases htype))
    hnew rfl rfl (h.chained.pushSystem events handle n)

theorem Balanced.enter {lib : SharedLibrary} (h : Balanced st held (lib.needed + pend))
    (hlive : st.AllLive) (hbare : '/' ∉ n) (hbareNeeded : ∀ m ∈ lib.needed, '/' ∉ m)
    (hnew : ¬ st.Known n) : Balanced (st.enter lib n) held (n ::ₘ pend) := by
  refine Balanced.push (v := ⟨st.nextPtr, .crazy st.nextPtr lib, n, 1⟩) h hlive rfl rfl hbare
    hbareNeeded (fun htype => (by cases htype)) ?_ hnew rfl rfl ?_
  · intro ptr lib' htype
    cases htype
    rfl
  · exact h.chained.enter h.ptrs h.fresh rfl lib n

/-! ### Taking one out -/

theorem Balanced.retireLibrary (h : Balanced st held (v.name ::ₘ pend))
    (hv : v ∈ st.knownLibraries) (hlast : v.refCount - 1 = 0)
    (htype : v.type = .crazy v.ptr lib) :
    Balanced (st.retireLibrary v.ptr) held (lib.needed + pend) := by
  have hretire := h.retire_crazy hv hlast (by simp [LibraryView.isCrazy, htype])
    [.callJniOnUnload v.ptr, .callDestructors v.ptr]
  rwa [show v.needed = lib.needed by simp [LibraryView.needed, htype]] at hretire

theorem Balanced.removeLibrary (h : Balanced st held pend) (hv : v ∈ st.knownLibraries)
    (hzero : v.refCount = 0) (htype : v.type = .crazy v.ptr lib) :
    Balanced ((st.emit [.delEntry v.ptr]).removeView v) held pend :=
  h.removeView hv hzero (by simp) (by simp) (by simp [LibraryList.removeView, htype, emit])
    (by simp [LibraryList.removeView, htype, emit]) (by simp [LibraryList.removeView, htype, emit])

/-- The last reference to a system library is given back, which closes it. -/
theorem Balanced.closeSystem (h : Balanced st held (v.name ::ₘ pend))
    (hv : v ∈ st.knownLibraries) (hlast : v.refCount - 1 = 0) (htype : v.type = .system handle) :
    Balanced ((st.bumpRef v.ptr (-1)).removeView v) held pend := by
  have hretire := h.retire_system hv hlast (by simp [LibraryView.isCrazy, htype])
  rw [show v.needed = [] by simp [LibraryView.needed, htype], Multiset.coe_nil, zero_add]
    at hretire
  have hmem : { v with refCount := v.refCount + -1 } ∈ (st.bumpRef v.ptr (-1)).knownLibraries :=
    mem_modifyKey_self hv rfl
  exact hretire.removeView hmem hlast (by simp) (by simp)
    (by simp [LibraryList.removeView, htype, emit]) (by simp [LibraryList.removeView, htype, emit])
    (by simp [LibraryList.removeView, htype, emit])

end LibraryList

open LibraryList

/-! ### The steps -/

/-- What a load does: hand out a library that is known, open one of the system's, enter one whose
    dependencies wait for it, and give the reference to the client. -/
inductive OpenStep : Ledger → Ledger → Prop where
  | addRef {st : LibraryList} {held : Multiset ViewPtr} {pend : Multiset CString}
      {v : LibraryView} :
      v ∈ st.knownLibraries → v.refCount ≠ 0 →
      OpenStep ⟨st, held, pend⟩ ⟨st.addRef v.ptr, held, v.name ::ₘ pend⟩
  | openSystem {st : LibraryList} {held : Multiset ViewPtr} {pend : Multiset CString}
      {n : CString} {handle : Nat} :
      st.AllLive → '/' ∉ n → ¬ st.Known n →
      OpenStep ⟨st, held, pend⟩
        ⟨(st.emit [.dlopen handle]).pushView (.system handle) n, held, n ::ₘ pend⟩
  | enter {st : LibraryList} {held : Multiset ViewPtr} {pend : Multiset CString}
      {n : CString} {lib : SharedLibrary} :
      st.AllLive → '/' ∉ n → (∀ m ∈ lib.needed, '/' ∉ m) → ¬ st.Known n →
      OpenStep ⟨st, held, lib.needed + pend⟩ ⟨st.enter lib n, held, n ::ₘ pend⟩
  | hand {st : LibraryList} {held : Multiset ViewPtr} {pend : Multiset CString}
      {v : LibraryView} :
      v ∈ st.knownLibraries → OpenStep ⟨st, held, v.name ::ₘ pend⟩ ⟨st, v.ptr ::ₘ held, pend⟩

/-- What an unload does: take the handle back, and give up one reference after the other. The last
    one to a crazy library takes two steps, with those of its dependencies in between. -/
inductive CloseStep : Ledger → Ledger → Prop where
  | takeBack {st : LibraryList} {held : Multiset ViewPtr} {pend : Multiset CString}
      {v : LibraryView} :
      v ∈ st.knownLibraries → CloseStep ⟨st, v.ptr ::ₘ held, pend⟩ ⟨st, held, v.name ::ₘ pend⟩
  | release {st : LibraryList} {held : Multiset ViewPtr} {pend : Multiset CString}
      {v : LibraryView} :
      v ∈ st.knownLibraries → v.refCount - 1 ≠ 0 →
      CloseStep ⟨st, held, v.name ::ₘ pend⟩ ⟨st.bumpRef v.ptr (-1), held, pend⟩
  | retire {st : LibraryList} {held : Multiset ViewPtr} {pend : Multiset CString}
      {v : LibraryView} {lib : SharedLibrary} :
      v ∈ st.knownLibraries → v.refCount - 1 = 0 → v.type = .crazy v.ptr lib →
      CloseStep ⟨st, held, v.name ::ₘ pend⟩ ⟨st.retireLibrary v.ptr, held, lib.needed + pend⟩
  | remove {st : LibraryList} {held : Multiset ViewPtr} {pend : Multiset CString}
      {v : LibraryView} {lib : SharedLibrary} :
      v ∈ st.knownLibraries → v.refCount = 0 → v.type = .crazy v.ptr lib →
      CloseStep ⟨st, held, pend⟩ ⟨(st.emit [.delEntry v.ptr]).removeView v, held, pend⟩
  | closeSystem {st : LibraryList} {held : Multiset ViewPtr} {pend : Multiset CString}
      {v : LibraryView} {handle : Nat} :
      v ∈ st.knownLibraries → v.refCount - 1 = 0 → v.type = .system handle →
      CloseStep ⟨st, held, v.name ::ₘ pend⟩ ⟨(st.bumpRef v.ptr (-1)).removeView v, held, pend⟩

def Ledger.Step (l l' : Ledger) : Prop := OpenStep l l' ∨ CloseStep l l'

def Ledger.Balanced (l : Ledger) : Prop := LibraryList.Balanced l.list l.held l.pend

variable {l l' : Ledger}

theorem OpenStep.balanced (hstep : OpenStep l l') (h : l.Balanced) : l'.Balanced := by
  cases hstep with
  | addRef hv hlive => exact LibraryList.Balanced.addRef h hv hlive
  | openSystem hlive hbare hnew => exact LibraryList.Balanced.pushSystem h hlive hbare hnew _ _
  | enter hlive hbare hneeded hnew =>
    exact LibraryList.Balanced.enter h hlive hbare hneeded hnew
  | hand hv => exact (balanced_hold_iff hv).mpr h

theorem CloseStep.balanced (hstep : CloseStep l l') (h : l.Balanced) : l'.Balanced := by
  cases hstep with
  | takeBack hv => exact (balanced_hold_iff hv).mp h
  | release hv hmore => exact LibraryList.Balanced.release h hv hmore
  | retire hv hlast htype => exact LibraryList.Balanced.retireLibrary h hv hlast htype
  | remove hv hzero htype => exact LibraryList.Balanced.removeLibrary h hv hzero htype
  | closeSystem hv hlast htype => exact LibraryList.Balanced.closeSystem h hv hlast htype

theorem Ledger.Step.balanced (hstep : l.Step l') (h : l.Balanced) : l'.Balanced := by
  rcases hstep with hstep | hstep
  · exact hstep.balanced h
  · exact hstep.balanced h

theorem Ledger.Balanced.opened (hsteps : ReflTransGen OpenStep l l') (h : l.Balanced) :
    l'.Balanced := by
  induction hsteps with
  | refl => exact h
  | tail _ hstep ih => exact hstep.balanced ih

theorem Ledger.Balanced.closed (hsteps : ReflTransGen CloseStep l l') (h : l.Balanced) :
    l'.Balanced := by
  induction hsteps with
  | refl => exact h
  | tail _ hstep ih => exact hstep.balanced ih

end CrystaxNdk.CrazyLinker
