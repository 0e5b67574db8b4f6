import CrystaxNdk.CrazyLinker.Proof.Dependencies

/-!
# One view per library

A view keeps the name its library was opened under, with the directory if there was one, but
`FindKnownLibrary` looks for the *base name* of a request. A library opened by a path is
therefore never found again (`loadLibrary_twice`). As long as nothing is entered under a name
with a `'/'` in it, names and base names agree and every library is there once.

A cycle of dependencies would also enter a name twice, but no load comes back from one
(`load_trapped`): the only way to a second view of the same bare name is a library at a
file offset that needs its own file at offset `0`.
-/

namespace CrystaxNdk.CrazyLinker

open Lib Relation

namespace LibraryList

variable {sys : System} {st st' st₁ : LibraryList} {mode : Int} {search : SearchPathList}
  {n : CString} {addr off fuel : Nat}

/-! ## Cycles -/

/-- Every library in `C` needs another one in it. -/
structure Trap (sys : System) (search : SearchPathList) (C : Set CString) : Prop where
  bare : ∀ c ∈ C, '/' ∉ c
  crazy : ∀ c ∈ C, isSystemLibrary c = false
  needs : ∀ c ∈ C, ∃ c' ∈ C, sys.Needs search 0 c c'

/-- **No load comes back from a cycle with a library**, and none enters one of it. -/
theorem load_trapped {C : Set CString} (hC : Trap sys search C) (mode : Int) (fuel : Nat) :
    (∀ st n addr off st' r, loadLibrary sys mode search fuel st n addr off = some (st', r) →
      off = 0 → (∀ c ∈ C, ¬ st.Known c) →
        (∀ c ∈ C, ¬ st'.Known c) ∧ (n ∈ C → ∀ wrap, r ≠ .ok wrap)) ∧
    ∀ ns st st' r, loadDependencies
        (fun st name => loadLibrary sys mode search fuel st name 0 0) st ns = some (st', r) →
      (∀ c ∈ C, ¬ st.Known c) →
        (∀ c ∈ C, ¬ st'.Known c) ∧ ((∃ c ∈ C, c ∈ ns) → ∀ wraps, r ≠ .ok wraps) := by
  -- a name of the trap is never entered: each needs another one, which is not known either
  refine loadLibrary_induct
    (P := fun st n _ off st' r => off = 0 → (∀ c ∈ C, ¬ st.Known c) →
      (∀ c ∈ C, ¬ st'.Known c) ∧ (n ∈ C → ∀ wrap, r ≠ .ok wrap))
    (Q := fun st ns st' r => (∀ c ∈ C, ¬ st.Known c) →
      (∀ c ∈ C, ¬ st'.Known c) ∧ ((∃ c ∈ C, c ∈ ns) → ∀ wraps, r ≠ .ok wraps))
    ?known ?system ?unopened ?dependency ?finish ?nil ?stop ?goOn fuel
  case known =>
    intro st n addr off wrap hfind _ hunknown
    constructor
    · intro c hc
      rw [known_iff_entries, entries_openKnown, ← known_iff_entries]
      exact hunknown c hc
    · intro hn
      obtain ⟨hwrap, hname⟩ := findKnownLibrary_some hfind
      rw [getBaseNamePtr_of_not_mem (hC.bare n hn)] at hname
      exact absurd ⟨wrap, hwrap, hname⟩ (hunknown n hn)
  case system =>
    intro st n addr off _ hsys _ hunknown
    have hn : n ∉ C := fun hn => by simp [hC.crazy n hn] at hsys
    refine ⟨fun c hc hknown => ?_, fun hmem => absurd hmem hn⟩
    rcases (adds_openSystem sys st n mode).known hknown with hknown | rfl
    · exact hunknown c hc hknown
    · exact hn hc
  case unopened =>
    intro st n addr off e _ _ _ _ hunknown
    exact ⟨hunknown, fun _ wrap hok => (by cases hok)⟩
  case dependency =>
    intro st n addr off lib st' e _ _ _ hQ _ hunknown
    exact ⟨(hQ hunknown).1, fun _ wrap hok => (by cases hok)⟩
  case finish =>
    intro st n addr off lib st₁ deps _ _ hopen _ hQ hoff hunknown
    subst hoff
    obtain ⟨hunknown₁, hfails⟩ := hQ hunknown
    have hn : n ∉ C := by
      intro hn
      obtain ⟨c, hc, hneeds⟩ := hC.needs n hn
      exact hfails ⟨c, hc, (mem_needed_iff hopen).mpr hneeds⟩ deps rfl
    refine ⟨fun c hc hknown => ?_, fun hmem => absurd hmem hn⟩
    rcases (adds_finishLoad sys st₁ lib deps n).known hknown with hknown | rfl
    · exact hunknown₁ c hc hknown
    · exact hn hc
  case nil =>
    intro st hunknown
    refine ⟨hunknown, ?_⟩
    rintro ⟨c, -, hmem⟩
    exact absurd hmem List.not_mem_nil
  case stop =>
    intro st n ns st' e hP hunknown
    exact ⟨(hP rfl hunknown).1, fun _ wraps hok => (by cases hok)⟩
  case goOn =>
    intro st n ns st₁ d st' r hP hQ hunknown
    obtain ⟨hunknown₁, hn⟩ := hP rfl hunknown
    obtain ⟨hunknown', hns⟩ := hQ hunknown₁
    refine ⟨hunknown', ?_⟩
    rintro ⟨c, hc, hmem⟩ wraps hok
    rcases List.mem_cons.mp hmem with rfl | hmem
    · exact hn hc d rfl
    · cases r with
      | error e => cases hok
      | ok ds => exact hns ⟨c, hc, hmem⟩ ds rfl

/-! ## Names without a directory -/

theorem trap_of_cycle {m : CString} (hk : st.findKnownLibrary n = none)
    (hsys : isSystemLibrary n = false) (hneeds : sys.Needs search 0 n m)
    (hreach : ReflTransGen (Pulls sys search st) m n) (hn : '/' ∉ n)
    (hbare : ∀ m, Pursues sys search st n 0 m → '/' ∉ m) :
    Trap sys search {c | ReflTransGen (Pulls sys search st) m c ∧
      ReflTransGen (Pulls sys search st) c n} ∧
    ∀ c, ReflTransGen (Pulls sys search st) m c → ReflTransGen (Pulls sys search st) c n →
      ¬ st.Known c := by
  have hpull : Pulls sys search st n m := ⟨hk, hsys, hneeds⟩
  -- from every library on the cycle one step leads on along it
  have hstep : ∀ c, ReflTransGen (Pulls sys search st) m c →
      ReflTransGen (Pulls sys search st) c n →
      ∃ c', Pulls sys search st c c' ∧ ReflTransGen (Pulls sys search st) c' n := by
    intro c _ hcn
    rcases ReflTransGen.cases_head hcn with rfl | ⟨c', hcc', hc'n⟩
    · exact ⟨m, hpull, hreach⟩
    · exact ⟨c', hcc', hc'n⟩
  have hbareC : ∀ c, ReflTransGen (Pulls sys search st) m c → '/' ∉ c :=
    fun c hmc => hbare c ⟨hk, hsys, m, hneeds, hmc⟩
  refine ⟨⟨fun c hc => hbareC c hc.1, fun c hc => ?_, fun c hc => ?_⟩, fun c hmc hcn => ?_⟩
  · obtain ⟨c', hcc', -⟩ := hstep c hc.1 hc.2
    exact hcc'.2.1
  · obtain ⟨c', hcc', hc'n⟩ := hstep c hc.1 hc.2
    exact ⟨c', ⟨hc.1.tail hcc', hc'n⟩, hcc'.2.2⟩
  · obtain ⟨c', hcc', -⟩ := hstep c hmc hcn
    have := findKnownLibrary_eq_none.mp hcc'.1
    rwa [getBaseNamePtr_of_not_mem (hbareC c hmc)] at this

/-- What makes an open safe: the base name is known already; or the name and those of all
    libraries loaded for it are base names, and no second view of the same file is asked for
    through an offset. Some opens that do no harm are left out, as that of a library which needs
    `dir/libm.so` while `libm.so` is known: the entry is never loaded. -/
def Plain (sys : System) (search : SearchPathList) (st : LibraryList) (n : CString)
    (fileOffset : Nat) : Prop :=
  st.Known (getBaseNamePtr n) ∨
    '/' ∉ n ∧ (∀ m, Pursues sys search st n fileOffset m → '/' ∉ m) ∧
      (fileOffset = 0 ∨ ¬ Pursues sys search st n fileOffset n)

/-- **A plain open keeps the names bare and different.** -/
theorem loadLibrary_distinct {wrap : ViewPtr}
    (hload : loadLibrary sys mode search fuel st n addr off = some (st', .ok wrap))
    (h : Distinct st.knownLibraries st.nextPtr) (hplain : Plain sys search st n off) :
    Distinct st'.knownLibraries st'.nextPtr := by
  -- that known names stay known is carried along, for the dependencies that come later
  refine ((loadLibrary_induct
    (P := fun st n _ off st' r => (∀ name, st.Known name → st'.Known name) ∧
      ∀ wrap, Distinct st.knownLibraries st.nextPtr → Plain sys search st n off →
        r = .ok wrap → Distinct st'.knownLibraries st'.nextPtr)
    (Q := fun st ns st' r => (∀ name, st.Known name → st'.Known name) ∧
      ∀ wraps, Distinct st.knownLibraries st.nextPtr →
        (∀ m ∈ ns, ∀ x, ReflTransGen (Pulls sys search st) m x → '/' ∉ x) →
        r = .ok wraps → Distinct st'.knownLibraries st'.nextPtr)
    ?known ?system ?unopened ?dependency ?finish ?nil ?stop ?goOn fuel).1 st n addr off st' _
    hload).2 wrap h hplain rfl
  case known =>
    intro st n addr off v _
    refine ⟨(adds_openKnown (n := n) st v addr).keeps, fun wrap h _ hok => ?_⟩
    rcases openKnown_cases st v addr with ⟨e, hopen⟩ | hopen
    · rw [hopen] at hok
      cases hok
    · rw [hopen]
      exact h.bumpRef v.ptr 1
  case system =>
    intro st n addr off hk _
    refine ⟨(adds_openSystem sys st n mode).keeps, fun wrap h hplain hok => ?_⟩
    rw [findKnownLibrary_eq_none] at hk
    rcases hplain with hknown | ⟨hbare, -⟩
    · exact absurd hknown hk
    · rw [getBaseNamePtr_of_not_mem hbare] at hk
      rcases openSystem_cases sys st n mode with ⟨e, hopen⟩ | ⟨handle, hopen⟩
      · rw [hopen] at hok
        cases hok
      · rw [hopen]
        exact h.append hbare hk rfl
  case unopened =>
    intro st n addr off e _ _ _
    exact ⟨fun _ => id, fun wrap _ _ hok => (by cases hok)⟩
  case dependency =>
    intro st n addr off lib st' e _ _ _ hQ
    exact ⟨hQ.1, fun wrap _ _ hok => (by cases hok)⟩
  case finish =>
    intro st n addr off lib st₁ deps hk hsys hopen hran hQ
    obtain ⟨fuel, hdeps⟩ := hran
    refine ⟨fun name hname => (adds_finishLoad sys st₁ lib deps n).keeps name (hQ.1 name hname),
      fun wrap h hplain hok => ?_⟩
    rcases hplain with hknown | ⟨hn, hbare, hoff⟩
    · exact absurd hknown (findKnownLibrary_eq_none.mp hk)
    have h₁ : Distinct st₁.knownLibraries st₁.nextPtr := hQ.2 deps h
      (fun m hm x hx => hbare x (pursues_of_opened hk hsys hopen hm hx)) rfl
    -- the dependencies have not entered `n` itself: they would have run into a cycle
    have hnew : ¬ st₁.Known n := by
      intro hknown
      rcases (loadDependencies_walks hdeps).reaches n hknown with hknown | ⟨m, hm, hreach⟩
      · rw [findKnownLibrary_eq_none, getBaseNamePtr_of_not_mem hn] at hk
        exact hk hknown
      · rcases hoff with rfl | hoff
        · obtain ⟨htrap, hunknown⟩ :=
            trap_of_cycle hk hsys (openFile_needs hopen m hm) hreach hn hbare
          exact ((load_trapped htrap mode fuel).2 _ _ _ _ hdeps fun c hc =>
            hunknown c hc.1 hc.2).2 ⟨m, ⟨ReflTransGen.refl, hreach⟩, hm⟩ deps rfl
        · exact hoff (pursues_of_opened hk hsys hopen hm hreach)
    rcases finishLoad_cases sys st₁ lib deps n with ⟨e, hfinish⟩ | hfinish
    · rw [hfinish] at hok
      cases hok
    · rw [hfinish]
      exact h₁.append hn hnew rfl
  case nil => exact fun st => ⟨fun _ => id, fun wraps h _ _ => h⟩
  case stop =>
    intro st n ns st' e hP
    exact ⟨hP.1, fun wraps _ _ hok => (by cases hok)⟩
  case goOn =>
    intro st n ns st₁ d st' r hP hQ
    refine ⟨fun name hname => hQ.1 name (hP.1 name hname), fun wraps h hbare hok => ?_⟩
    cases r with
    | error e => cases hok
    | ok ds =>
      have h₁ : Distinct st₁.knownLibraries st₁.nextPtr := by
        refine hP.2 d h (Or.inr ⟨hbare n (by simp) n ReflTransGen.refl, ?_, Or.inl rfl⟩) rfl
        exact fun m hm => hbare n (by simp) m (reach_of_pursues (Or.inr hm))
      refine hQ.2 ds h₁ (fun m hm x hx => hbare m (by simp [hm]) x ?_) rfl
      exact ReflTransGen.mono (fun a b hab => Pulls.mono hP.1 hab) _ _ hx

/-! ## Runs -/

/-- Where names are base names, a request is answered with the view of its base name. -/
theorem loadLibrary_reopens {wrap : ViewPtr} {v : LibraryView}
    (h : Distinct st.knownLibraries st.nextPtr)
    (hload : loadLibrary sys mode search fuel st n addr off = some (st', .ok wrap))
    (hv : v ∈ st.knownLibraries) (hbase : getBaseNamePtr v.name = getBaseNamePtr n) :
    wrap = v.ptr ∧ st' = st.addRef v.ptr := by
  rw [getBaseNamePtr_of_not_mem (h.bare v hv)] at hbase
  cases fuel with
  | zero => cases hload
  | succ fuel =>
    cases hfind : st.findKnownLibrary n with
    | none => exact absurd ⟨v, hv, hbase⟩ (findKnownLibrary_eq_none.mp hfind)
    | some w =>
      obtain ⟨hw, hname⟩ := findKnownLibrary_some hfind
      obtain rfl := h.eq_of_name hw hv (hname.trans hbase.symm)
      rw [loadLibrary_known_eq hfind] at hload
      rcases openKnown_cases st w addr with ⟨e, hopen⟩ | hopen
      · rw [hopen] at hload
        cases hload
      · rw [hopen] at hload
        cases hload
        exact ⟨rfl, rfl⟩

def PlainOpen (sys : System) (st st' : LibraryList) : Prop :=
  ∃ mode search fuel n addr off wrap,
    loadLibrary sys mode search fuel st n addr off = some (st', .ok wrap) ∧
      Plain sys search st n off

theorem distinct_of_run (hrun : ReflTransGen (PlainOpen sys) empty st) :
    Distinct st.knownLibraries st.nextPtr := by
  induction hrun with
  | refl => exact distinct_nil 1
  | tail _ hopen ih =>
    obtain ⟨mode, search, fuel, n, addr, off, wrap, hload, hplain⟩ := hopen
    exact loadLibrary_distinct hload ih hplain

/-- **No library is loaded twice** along safe opens: base names stay different, and every further
    open of a known base name, in whatever form, returns the view that is there with one more
    reference. -/
theorem openedOnce_of_run (sys : System) (st : LibraryList)
    (hrun : ReflTransGen (PlainOpen sys) empty st) :
    (st.knownLibraries.map fun v => getBaseNamePtr v.name).Nodup ∧
    ∀ mode search fuel n addr off st' wrap v,
      loadLibrary sys mode search fuel st n addr off = some (st', .ok wrap) →
      v ∈ st.knownLibraries → getBaseNamePtr v.name = getBaseNamePtr n →
      wrap = v.ptr ∧ st'.view? wrap = some { v with refCount := v.refCount + 1 } ∧
        st'.entries = st.entries := by
  have h : Distinct st.knownLibraries st.nextPtr := distinct_of_run hrun
  constructor
  · have hnames : (st.knownLibraries.map fun v => getBaseNamePtr v.name) =
        st.knownLibraries.map LibraryView.name :=
      List.map_congr_left fun v hv => getBaseNamePtr_of_not_mem (h.bare v hv)
    rw [hnames]
    exact h.names
  · intro mode search fuel n addr off st' wrap v hload hv hbase
    obtain ⟨rfl, rfl⟩ := loadLibrary_reopens h hload hv hbase
    refine ⟨rfl, ?_, entries_bumpRef _ _⟩
    exact view?_of_mem (v := { v with refCount := v.refCount + 1 }) (h.bumpRef v.ptr 1).ptrs
      (mem_modifyKey_self hv rfl)

/-- `liba.so`, opened by its bare name and then by its path, is one view with two references. -/
theorem openedOnce_of_run_bare :
    ∃ st st', ReflTransGen (PlainOpen (System.directory [("liba.so".toList, [])])) empty st ∧
      loadLibrary (System.directory [("liba.so".toList, [])]) 2 System.libPath 1 st
        "/lib/liba.so".toList 0 0 = some (st', .ok 1) ∧
      (st'.view? 1).map LibraryView.refCount = some 2 := by
  obtain ⟨st, hload, hknown⟩ : ∃ st, loadLibrary (System.directory [("liba.so".toList, [])]) 2
      System.libPath 1 empty "liba.so".toList 0 0 = some (st, .ok 1) ∧
      ∃ v, st.knownLibraries = [v] ∧ v.name = "liba.so".toList ∧ v.refCount = 1 :=
    ⟨_, rfl, _, rfl, rfl, rfl⟩
  obtain ⟨v, hv, hname, hcount⟩ := hknown
  obtain ⟨st', hload'⟩ : ∃ st', loadLibrary (System.directory [("liba.so".toList, [])]) 2
      System.libPath 1 st "/lib/liba.so".toList 0 0 = some (st', .ok 1) := by
    cases hload
    exact ⟨_, rfl⟩
  have hplain : Plain (System.directory [("liba.so".toList, [])]) System.libPath empty
      "liba.so".toList 0 := by
    refine Or.inr ⟨by decide, ?_, Or.inl rfl⟩
    rintro m ⟨-, -, first, ⟨path, -, hfirst⟩, -⟩
    obtain ⟨lib, hlib, -, hmem⟩ := System.neededAt_directory hfirst
    rw [List.mem_singleton.mp hlib] at hmem
    exact absurd hmem List.not_mem_nil
  have hrun := ReflTransGen.single (r := PlainOpen (System.directory [("liba.so".toList, [])]))
    ⟨2, System.libPath, 1, "liba.so".toList, 0, 0, 1, hload, hplain⟩
  obtain ⟨-, hview, -⟩ := (openedOnce_of_run _ st hrun).2 _ _ _ _ _ _ st' 1 v hload'
    (by simp [hv]) (by rw [hname]; decide)
  exact ⟨st, st', hrun, hload', by rw [hview, Option.map_some, hcount]; rfl⟩

/-- Opened by its path twice, the same file becomes two views of one base name. -/
theorem loadLibrary_twice :
    ∃ st st', loadLibrary (System.directory [("liba.so".toList, [])]) 2 System.libPath 1 empty
        "/lib/liba.so".toList 0 0 = some (st, .ok 1) ∧
      loadLibrary (System.directory [("liba.so".toList, [])]) 2 System.libPath 1 st
        "/lib/liba.so".toList 0 0 = some (st', .ok 2) ∧
      ¬ (st'.knownLibraries.map fun v => getBaseNamePtr v.name).Nodup :=
  ⟨_, _, rfl, rfl, by decide⟩

end LibraryList

end CrystaxNdk.CrazyLinker
