import CrystaxNdk.Lib.Topo
import CrystaxNdk.NdkDepends.BuildGraph

/-!
# The order of the libraries

The visitors of a library are the edges into it from the libraries that are not in the result yet.
In a graph without cycles some library left has none, and it is the one that is taken; nothing
that was taken is needed by what is left, so the map only loses entries.

Along a cycle the map never gets empty. When a library is taken, `visitors[...]--` enters what it
needs, be it for the second time, and one of these is on the cycle again.
-/

namespace CrystaxNdk.NdkDepends

open Lib Relation List

/-! ## The map of visitors -/

section Visitors

variable {visitors : VisitorMap} {ds : List String} {x : String}

def bump (c : Int) (visitors : VisitorMap) (libname : String) : VisitorMap :=
  visitors.insert libname (visitors.getD libname 0 + c)

theorem addVisitor_eq_bump : addVisitor = bump 1 := by
  funext visitors libname
  unfold addVisitor bump
  rw [Std.TreeMap.getD_eq_getD_getElem?]
  cases visitors[libname]? with
  | none => rfl
  | some n => rfl

theorem getElem?_foldl_bump (c : Int) : (ds.foldl (bump c) visitors)[x]? =
    if x ∈ ds then some (visitors.getD x 0 + c * ds.count x) else visitors[x]? := by
  induction ds generalizing visitors with
  | nil => simp
  | cons d ds ih =>
    rw [foldl_cons, ih, bump, Std.TreeMap.getD_insert, Std.TreeMap.getElem?_insert]
    by_cases hd : d = x
    · by_cases hx : x ∈ ds
      · simp only [hd, hx, compare_eq_iff_eq, if_true, mem_cons, true_or, count_cons_self,
          Nat.cast_add, Nat.cast_one]
        ring_nf
      · simp [hd, hx, count_eq_zero_of_not_mem hx]
    · have hx : x ≠ d := fun h => hd h.symm
      simp [hd, hx, count_cons_of_ne hd]

theorem mem_foldl_bump (c : Int) : x ∈ ds.foldl (bump c) visitors ↔ x ∈ ds ∨ x ∈ visitors := by
  rw [Std.TreeMap.mem_iff_isSome_getElem?, getElem?_foldl_bump, Std.TreeMap.mem_iff_isSome_getElem?]
  by_cases hx : x ∈ ds <;> simp [hx]

/-! ## The minimum -/

theorem foldl_smaller_fst_le (l : List (String × Int)) (best : Int × String) :
    (l.foldl smaller best).1 ≤ best.1 ∧ ∀ entry ∈ l, (l.foldl smaller best).1 ≤ entry.2 := by
  induction l generalizing best with
  | nil => simp
  | cons entry l ih =>
    obtain ⟨hbest, hrest⟩ := ih (smaller best entry)
    have hfirst : (smaller best entry).1 ≤ best.1 ∧ (smaller best entry).1 ≤ entry.2 := by
      unfold smaller
      split_ifs with hle
      · exact ⟨hle, le_rfl⟩
      · exact ⟨le_rfl, (not_le.mp hle).le⟩
    refine ⟨hbest.trans hfirst.1, ?_⟩
    intro other hother
    rcases mem_cons.mp hother with rfl | hother
    · exact hbest.trans hfirst.2
    · exact hrest other hother

theorem foldl_smaller_mem (l : List (String × Int)) (best : Int × String) :
    l.foldl smaller best = best ∨
      ((l.foldl smaller best).2, (l.foldl smaller best).1) ∈ l := by
  induction l generalizing best with
  | nil => simp
  | cons entry l ih =>
    rcases ih (smaller best entry) with heq | hmem
    · rw [foldl_cons, heq]
      unfold smaller
      split_ifs with hle
      · exact Or.inr (by simp)
      · exact Or.inl rfl
    · exact Or.inr (mem_cons_of_mem _ hmem)

theorem minVisitor_le {n : Int} (h : visitors[x]? = some n) : (minVisitor visitors).1 ≤ n :=
  (foldl_smaller_fst_le _ _).2 (x, n) (Std.TreeMap.mem_toList_iff_getElem?_eq_some.mpr h)

/-- The library found is one of the map, unless the search failed. -/
theorem getElem?_minVisitor (h : (minVisitor visitors).1 ≠ intMax) :
    visitors[(minVisitor visitors).2]? = some (minVisitor visitors).1 := by
  rcases foldl_smaller_mem visitors.toList (intMax, "") with heq | hmem
  · exact absurd (congrArg Prod.fst heq) h
  · exact Std.TreeMap.mem_toList_iff_getElem?_eq_some.mp hmem

end Visitors

/-! ## The counts -/

section Counts

variable {visitors : VisitorMap} {x : String}

theorem getElem?_insertZero (libname : String) :
    (if libname ∈ visitors then visitors else visitors.insert libname 0)[x]? =
      if x = libname then some (visitors.getD x 0) else visitors[x]? := by
  by_cases hx : x = libname
  · subst hx
    rw [if_pos rfl]
    by_cases hmem : x ∈ visitors
    · rw [if_pos hmem, Std.TreeMap.getD_eq_getD_getElem?]
      obtain ⟨n, hn⟩ := Option.isSome_iff_exists.mp (Std.TreeMap.mem_iff_isSome_getElem?.mp hmem)
      simp [hn]
    · rw [if_neg hmem, Std.TreeMap.getD_eq_fallback hmem]
      simp
  · rw [if_neg hx]
    split_ifs with hmem
    · rfl
    · rw [Std.TreeMap.getElem?_insert, if_neg]
      rw [compare_eq_iff_eq]
      exact fun h => hx h.symm

theorem getElem?_countNode (entry : String × LibNode) : (countNode visitors entry)[x]? =
    if x = entry.1 ∨ x ∈ entry.2.neededLibs then
      some (visitors.getD x 0 + entry.2.neededLibs.count x)
    else visitors[x]? := by
  unfold countNode
  rw [addVisitor_eq_bump, getElem?_foldl_bump, Std.TreeMap.getD_eq_getD_getElem?,
    getElem?_insertZero, Std.TreeMap.getD_eq_getD_getElem?]
  by_cases hx : x ∈ entry.2.neededLibs
  · rw [if_pos hx, if_pos (Or.inr hx), one_mul]
    split_ifs <;> simp
  · simp [hx, count_eq_zero_of_not_mem hx]

theorem getElem?_foldl_countNode (l : List (String × LibNode)) : (l.foldl countNode visitors)[x]? =
    if x ∈ l.map Prod.fst ∨ x ∈ l.flatMap (·.2.neededLibs) then
      some (visitors.getD x 0 + (l.flatMap (·.2.neededLibs)).count x)
    else visitors[x]? := by
  induction l generalizing visitors with
  | nil => simp
  | cons entry l ih =>
    have hgetD : (countNode visitors entry).getD x 0 =
        visitors.getD x 0 + entry.2.neededLibs.count x := by
      rw [Std.TreeMap.getD_eq_getD_getElem?, getElem?_countNode]
      split_ifs with hx
      · rfl
      · rw [not_or] at hx
        simp [count_eq_zero_of_not_mem hx.2, Std.TreeMap.getD_eq_getD_getElem?]
    rw [foldl_cons, ih, getElem?_countNode, hgetD]
    by_cases hl : x ∈ l.map Prod.fst ∨ x ∈ l.flatMap (·.2.neededLibs)
    · have hall : x ∈ (entry :: l).map Prod.fst ∨ x ∈ (entry :: l).flatMap (·.2.neededLibs) := by
        rcases hl with hl | hl
        · exact Or.inl (mem_cons_of_mem _ hl)
        · exact Or.inr (by rw [flatMap_cons]; exact mem_append_right _ hl)
      rw [if_pos hl, if_pos hall, flatMap_cons, count_append]
      push_cast
      rw [add_assoc]
    · have hiff : (x ∈ (entry :: l).map Prod.fst ∨ x ∈ (entry :: l).flatMap (·.2.neededLibs)) ↔
          x = entry.1 ∨ x ∈ entry.2.neededLibs := by
        rw [not_or] at hl
        rw [map_cons, mem_cons, flatMap_cons, mem_append]
        simp only [hl.1, hl.2, or_false]
      rw [if_neg hl]
      simp only [hiff]
      rw [not_or] at hl
      rw [flatMap_cons, count_append, count_eq_zero_of_not_mem hl.2, add_zero]

end Counts

/-! ## The libraries of a graph -/

section Libraries

variable {deps : DependencyGraph} {x y : String}

def Needs (deps : DependencyGraph) (x y : String) : Prop := y ∈ neededLibs deps x

/-- The libraries of the graph: those it has a node for, and those they need. -/
def libraries (deps : DependencyGraph) : List String :=
  deps.keys ++ ((deps.keys.flatMap (neededLibs deps)).dedup.filter (· ∉ deps.keys))

theorem neededLibs_of_not_mem (h : x ∉ deps.keys) : neededLibs deps x = [] := by
  rw [Std.TreeMap.mem_keys] at h
  rw [neededLibs, Std.TreeMap.getD_eq_fallback h]

theorem mem_libraries : x ∈ libraries deps ↔
    x ∈ deps.keys ∨ x ∈ deps.keys.flatMap (neededLibs deps) := by
  unfold libraries
  rw [mem_append, mem_filter, mem_dedup, decide_eq_true_eq]
  tauto

theorem nodup_libraries : (libraries deps).Nodup := by
  rw [libraries, nodup_append]
  refine ⟨Std.TreeMap.nodup_keys, (nodup_dedup _).filter _, ?_⟩
  rintro x hx y hy rfl
  exact absurd hx (by simpa using (mem_filter.mp hy).2)

theorem libraries_closed : ∀ n ∈ libraries deps, ∀ b ∈ neededLibs deps n, b ∈ libraries deps := by
  intro n _ b hb
  by_cases hn : n ∈ deps.keys
  · exact mem_libraries.mpr (Or.inr (mem_flatMap.mpr ⟨n, hn, hb⟩))
  · rw [neededLibs_of_not_mem hn] at hb
    exact absurd hb not_mem_nil

theorem flatMap_libraries :
    (libraries deps).flatMap (neededLibs deps) = deps.keys.flatMap (neededLibs deps) := by
  have hrest : ((deps.keys.flatMap (neededLibs deps)).dedup.filter (· ∉ deps.keys)).flatMap
      (neededLibs deps) = [] := by
    rw [flatMap_eq_nil_iff]
    intro n hn
    exact neededLibs_of_not_mem (by simpa using (mem_filter.mp hn).2)
  rw [libraries, flatMap_append, hrest, append_nil]

theorem flatMap_toList :
    deps.toList.flatMap (·.2.neededLibs) = deps.keys.flatMap (neededLibs deps) := by
  rw [← Std.TreeMap.map_fst_toList_eq_keys, flatMap_map]
  refine flatMap_congr fun entry hentry => ?_
  have hsome : deps[entry.1]? = some entry.2 :=
    Std.TreeMap.mem_toList_iff_getElem?_eq_some.mp hentry
  rw [neededLibs, Std.TreeMap.getD_eq_getD_getElem?, hsome, Option.getD_some]

/-- **The visitors** of a library are the edges into it. -/
theorem getElem?_countVisitors : (countVisitors deps)[x]? =
    if x ∈ libraries deps then some (incoming (neededLibs deps) (libraries deps) x : Int)
    else none := by
  rw [countVisitors, getElem?_foldl_countNode, flatMap_toList, incoming, flatMap_libraries,
    Std.TreeMap.map_fst_toList_eq_keys]
  simp only [← mem_libraries]
  simp

theorem neededLibs_insertIfNew (libname : String) :
    neededLibs (deps.insertIfNew libname {}) x = neededLibs deps x := by
  unfold neededLibs
  rw [Std.TreeMap.getD_insertIfNew]
  split_ifs with h
  · obtain rfl : libname = x := compare_eq_iff_eq.mp h.1
    rw [Std.TreeMap.getD_eq_fallback h.2]
  · rfl

end Libraries

/-! ## The loop -/

section Loop

variable {deps : DependencyGraph} {st st' : SortState}

theorem sortRound_ok (h : sortRound st = .ok st') :
    (minVisitor st.visitors).1 ≠ intMax ∧
    (∀ x, neededLibs st'.deps x = neededLibs st.deps x) ∧
    st'.visitors = (neededLibs st.deps (minVisitor st.visitors).2).foldl (bump (-1))
      (st.visitors.erase (minVisitor st.visitors).2) ∧
    st'.result = st.result ++ [(minVisitor st.visitors).2] := by
  unfold sortRound at h
  dsimp only at h
  by_cases hmax : (minVisitor st.visitors).1 = intMax
  · rw [if_pos hmax] at h
    cases h
  · rw [if_neg hmax] at h
    obtain rfl := Except.ok.inj h
    exact ⟨hmax, fun x => neededLibs_insertIfNew _, rfl, rfl⟩

theorem sortRound_of_ne (h : (minVisitor st.visitors).1 ≠ intMax) :
    ∃ st', sortRound st = .ok st' := by
  unfold sortRound
  dsimp only
  rw [if_neg h]
  exact ⟨_, rfl⟩

/-- The result is a list in the making, and the map has the libraries left with their visitors. -/
structure Sorting (deps : DependencyGraph) (st : SortState) : Prop where
  needed : ∀ x, neededLibs st.deps x = neededLibs deps x
  emitted : Emitted (neededLibs deps) (libraries deps) st.result
  counts : ∀ x, st.visitors[x]? =
    if x ∈ libraries deps ∧ x ∉ st.result then
      some (incoming (neededLibs deps) (pending (libraries deps) st.result) x : Int)
    else none

theorem sorting_start : Sorting deps
    { deps, visitors := countVisitors deps, result := [], warnings := [] } where
  needed := fun _ => rfl
  emitted := emitted_nil
  counts := by
    intro x
    rw [getElem?_countVisitors]
    simp

theorem Sorting.mem_visitors (h : Sorting deps st) {x : String} :
    x ∈ st.visitors ↔ x ∈ libraries deps ∧ x ∉ st.result := by
  rw [Std.TreeMap.mem_iff_isSome_getElem?, h.counts]
  split_ifs with hx <;> simp [hx]

theorem Sorting.minVisitor_eq_zero (h : Sorting deps st) (hacyclic : Acyclic (Needs deps))
    (hne : st.visitors.isEmpty = false) : (minVisitor st.visitors).1 = 0 := by
  obtain ⟨y, hy⟩ := Std.TreeMap.isEmpty_eq_false_iff_exists_mem.mp hne
  obtain ⟨a, ha, hout, hready⟩ := Emitted.exists_ready
    (hacyclic.mono fun _ _ hx => hx.2) ⟨y, h.mem_visitors.mp hy⟩
  have hzero : incoming (neededLibs deps) (pending (libraries deps) st.result) a = 0 := by
    rw [incoming_eq_zero_iff]
    intro n hn hna
    exact (mem_pending.mp hn).2 (hready n (mem_pending.mp hn).1 hna)
  have hle : (minVisitor st.visitors).1 ≤ 0 := by
    apply minVisitor_le (x := a)
    rw [h.counts, if_pos ⟨ha, hout⟩, hzero]
    rfl
  have hne : (minVisitor st.visitors).1 ≠ intMax := by
    unfold intMax
    omega
  have hmin := getElem?_minVisitor hne
  rw [h.counts] at hmin
  split_ifs at hmin
  have hnonneg := Option.some.inj hmin
  omega

theorem Sorting.minVisitor_ready (h : Sorting deps st) (hacyclic : Acyclic (Needs deps))
    (hne : st.visitors.isEmpty = false) :
    (minVisitor st.visitors).2 ∈ libraries deps ∧ (minVisitor st.visitors).2 ∉ st.result ∧
      ∀ n ∈ libraries deps, (minVisitor st.visitors).2 ∈ neededLibs deps n → n ∈ st.result := by
  have hzero := h.minVisitor_eq_zero hacyclic hne
  have hmax : (minVisitor st.visitors).1 ≠ intMax := by
    rw [hzero]
    decide
  have hmin := getElem?_minVisitor hmax
  rw [h.counts, hzero] at hmin
  split_ifs at hmin with hlib
  refine ⟨hlib.1, hlib.2, fun n hn hneeds => ?_⟩
  have hcount : incoming (neededLibs deps) (pending (libraries deps) st.result)
      (minVisitor st.visitors).2 = 0 := by
    exact_mod_cast Option.some.inj hmin
  by_contra hout
  exact incoming_eq_zero_iff.mp hcount n (mem_pending.mpr ⟨hn, hout⟩) hneeds

theorem Sorting.round (h : Sorting deps st) (hacyclic : Acyclic (Needs deps))
    (hne : st.visitors.isEmpty = false) :
    ∃ st', sortRound st = .ok st' ∧ Sorting deps st' ∧
      (pending (libraries deps) st'.result).length + 1 =
        (pending (libraries deps) st.result).length := by
  obtain ⟨hmem, hout, hready⟩ := h.minVisitor_ready hacyclic hne
  have hmax : (minVisitor st.visitors).1 ≠ intMax := by
    rw [h.minVisitor_eq_zero hacyclic hne]
    decide
  obtain ⟨st', hround⟩ := sortRound_of_ne hmax
  obtain ⟨-, hneeded, hvisitors, hresult⟩ := sortRound_ok hround
  generalize (minVisitor st.visitors).2 = lib at *
  have hself : lib ∉ neededLibs deps lib := fun hlib => hout (hready lib hmem hlib)
  refine ⟨st', hround, ⟨fun x => (hneeded x).trans (h.needed x), ?_, fun x => ?_⟩, ?_⟩
  · rw [hresult]
    exact h.emitted.emit hmem hout hready
  · have hcount : incoming (neededLibs deps) (pending (libraries deps) st.result) x =
        (neededLibs deps lib).count x +
          incoming (neededLibs deps) (pending (libraries deps) (st.result ++ [lib])) x :=
      incoming_pending nodup_libraries hmem hout
    rw [hvisitors, hresult, getElem?_foldl_bump, h.needed, Std.TreeMap.getD_erase,
      Std.TreeMap.getElem?_erase]
    by_cases hx : x = lib
    · subst hx
      simp [hself]
    · have hx' : lib ≠ x := fun heq => hx heq.symm
      by_cases hneeds : x ∈ neededLibs deps lib
      · -- what it needs is still to come
        have hxlib : x ∈ libraries deps := libraries_closed lib hmem x hneeds
        have hxout : x ∉ st.result := by
          intro hxout
          obtain ⟨front, back, heq⟩ := append_of_mem hxout
          have hfirst := h.emitted.sourced front x back heq lib hmem hneeds
          exact hout (heq ▸ mem_append_left _ hfirst)
        have hvalue := h.counts x
        rw [if_pos ⟨hxlib, hxout⟩] at hvalue
        rw [if_pos hneeds, Std.TreeMap.getD_eq_getD_getElem?, hvalue, hcount]
        simp [hx, hx', hxlib, hxout]
      · rw [if_neg hneeds, h.counts, hcount, count_eq_zero_of_not_mem hneeds]
        simp [hx, hx']
  · rw [hresult]
    exact length_pending nodup_libraries hmem hout

/-- The loop ends, with all libraries in the result. -/
theorem Sorting.loop (hacyclic : Acyclic (Needs deps)) : ∀ fuel st, Sorting deps st →
    (pending (libraries deps) st.result).length < fuel →
    ∃ st', sortLoop fuel st = some (.ok st') ∧ Sorting deps st' ∧
      st'.visitors.isEmpty = true := by
  intro fuel
  induction fuel with
  | zero => intro st _ hlt; omega
  | succ fuel ih =>
    intro st h hlt
    rw [sortLoop]
    cases hempty : st.visitors.isEmpty with
    | true => exact ⟨st, rfl, h, hempty⟩
    | false =>
      obtain ⟨st₁, hround, h₁, hlen⟩ := h.round hacyclic hempty
      rw [hround]
      exact ih st₁ h₁ (by omega)

end Loop

/-! ## Graphs without cycles -/

theorem sortLoop_mono {st : SortState} {res : Except String SortState} :
    ∀ {fuel fuel' : Nat}, fuel ≤ fuel' → sortLoop fuel st = some res →
      sortLoop fuel' st = some res := by
  intro fuel
  induction fuel generalizing st with
  | zero => intro fuel' _ h; cases h
  | succ fuel ih =>
    intro fuel' hle h
    obtain ⟨fuel', rfl⟩ : ∃ k, fuel' = k + 1 := ⟨fuel' - 1, by omega⟩
    rw [sortLoop] at h ⊢
    cases hempty : st.visitors.isEmpty with
    | true =>
      rw [hempty] at h
      exact h
    | false =>
      rw [hempty] at h
      cases hround : sortRound st with
      | error message =>
        rw [hround] at h
        exact h
      | ok st₁ =>
        rw [hround] at h
        exact ih (by omega) h

theorem mem_libraries_iff_needs {deps : DependencyGraph} {x : String} :
    x ∈ libraries deps ↔ x ∈ deps ∨ ∃ y, Needs deps y x := by
  rw [mem_libraries, Std.TreeMap.mem_keys, mem_flatMap]
  refine or_congr_right ⟨?_, ?_⟩
  · rintro ⟨y, -, hy⟩
    exact ⟨y, hy⟩
  · rintro ⟨y, hy⟩
    refine ⟨y, ?_, hy⟩
    by_contra hkey
    rw [Needs, neededLibs_of_not_mem hkey] at hy
    exact absurd hy not_mem_nil

/-- **The libraries in order.** If no library needs itself, directly or through others, the loop
    ends, and every library of the graph is in the result once, before all it needs. -/
theorem getTopologicalSortedLibraries_sorted (deps : DependencyGraph)
    (hacyclic : Acyclic (Needs deps)) :
    ∃ rounds result, (∀ fuel, rounds ≤ fuel →
        getTopologicalSortedLibraries fuel deps = some (.ok result)) ∧
      result.Nodup ∧ (∀ x, x ∈ result ↔ x ∈ deps ∨ ∃ y, Needs deps y x) ∧
      Ordered (neededLibs deps) result := by
  obtain ⟨st, hloop, hsorting, hempty⟩ := Sorting.loop hacyclic
    ((libraries deps).length + 1) _ sorting_start (by simp)
  have hall : libraries deps ⊆ st.result := by
    intro x hx
    by_contra hout
    have hmem : x ∈ st.visitors := hsorting.mem_visitors.mpr ⟨hx, hout⟩
    have hne := Std.TreeMap.isEmpty_eq_false_iff_exists_mem.mpr ⟨x, hmem⟩
    rw [hempty] at hne
    cases hne
  refine ⟨(libraries deps).length + 1, st.result, fun fuel hfuel => ?_, hsorting.emitted.nodup,
    fun x => ?_,
    hsorting.emitted.ordered hall libraries_closed⟩
  · rw [getTopologicalSortedLibraries, sortLoop_mono hfuel hloop]
    rfl
  · rw [← mem_libraries_iff_needs]
    exact ⟨fun hx => hsorting.emitted.subset hx, fun hx => hall hx⟩

theorem acyclic_of_rank {deps : DependencyGraph} (rank : String → Nat)
    (h : ∀ x ∈ deps.keys, ∀ y ∈ neededLibs deps x, rank y < rank x) : Acyclic (Needs deps) := by
  refine Acyclic.of_rank rank fun x y hxy => ?_
  by_cases hkey : x ∈ deps.keys
  · exact h x hkey y hxy
  · rw [Needs, neededLibs_of_not_mem hkey] at hxy
    exact absurd hxy not_mem_nil

def graphOf (nodes : List (String × List String)) : DependencyGraph :=
  nodes.foldl (fun deps node => deps.insert node.1 { type := .path, neededLibs := node.2 }) ∅

theorem getTopologicalSortedLibraries_sorted_diamond :
    ∃ rounds result, (∀ fuel, rounds ≤ fuel →
        getTopologicalSortedLibraries fuel
          (graphOf [("a", ["b", "c", "b"]), ("b", ["d"]), ("c", ["d"])]) = some (.ok result)) ∧
      result.Nodup ∧ (∀ x, x ∈ result ↔
        x ∈ graphOf [("a", ["b", "c", "b"]), ("b", ["d"]), ("c", ["d"])] ∨
          ∃ y, Needs (graphOf [("a", ["b", "c", "b"]), ("b", ["d"]), ("c", ["d"])]) y x) ∧
      Ordered (neededLibs (graphOf [("a", ["b", "c", "b"]), ("b", ["d"]), ("c", ["d"])]))
        result := by
  refine getTopologicalSortedLibraries_sorted _ (acyclic_of_rank
    (fun x => if x = "a" then 2 else if x = "b" ∨ x = "c" then 1 else 0) ?_)
  decide +kernel

-- of two libraries without visitors the later one is taken
example : getTopologicalSortedLibraries 5
    (graphOf [("a", ["b", "c", "b"]), ("b", ["d"]), ("c", ["d"])]) =
      some (.ok ["a", "c", "b", "d"]) := by decide +kernel

/-! ## Graphs with a cycle -/

section Cycle

variable {deps : DependencyGraph} {st st' : SortState}

theorem exists_needs_of_cycle {x : String} (h : TransGen (Needs deps) x x) :
    ∃ y, Needs deps x y ∧ TransGen (Needs deps) y y := by
  obtain ⟨y, hxy, hyx⟩ := TransGen.head'_iff.mp h
  exact ⟨y, hxy, TransGen.tail' hyx hxy⟩

/-- Some library on a cycle is in the map. -/
structure Circling (deps : DependencyGraph) (st : SortState) : Prop where
  needed : ∀ x, neededLibs st.deps x = neededLibs deps x
  left : ∃ x ∈ st.visitors, TransGen (Needs deps) x x

theorem circling_start (hcycle : ∃ x, TransGen (Needs deps) x x) : Circling deps
    { deps, visitors := countVisitors deps, result := [], warnings := [] } where
  needed := fun _ => rfl
  left := by
    obtain ⟨x, hx⟩ := hcycle
    obtain ⟨y, hxy, hy⟩ := exists_needs_of_cycle hx
    refine ⟨y, ?_, hy⟩
    rw [Std.TreeMap.mem_iff_isSome_getElem?, getElem?_countVisitors,
      if_pos (mem_libraries_iff_needs.mpr (Or.inr ⟨x, hxy⟩))]
    rfl

theorem Circling.round (h : Circling deps st) (hround : sortRound st = .ok st') :
    Circling deps st' := by
  obtain ⟨-, hneeded, hvisitors, -⟩ := sortRound_ok hround
  refine ⟨fun x => (hneeded x).trans (h.needed x), ?_⟩
  obtain ⟨x, hmem, hx⟩ := h.left
  rw [hvisitors]
  by_cases htaken : (minVisitor st.visitors).2 = x
  · obtain ⟨y, hxy, hy⟩ := exists_needs_of_cycle hx
    refine ⟨y, (mem_foldl_bump _).mpr (Or.inl ?_), hy⟩
    rw [htaken, h.needed]
    exact hxy
  · refine ⟨x, (mem_foldl_bump _).mpr (Or.inr ?_), hx⟩
    simp [htaken, hmem]

theorem Circling.loop : ∀ fuel st, Circling deps st → ∀ st', sortLoop fuel st ≠ some (.ok st') := by
  intro fuel
  induction fuel with
  | zero => intro st _ st' h; cases h
  | succ fuel ih =>
    intro st hst st' h
    obtain ⟨x, hx, -⟩ := hst.left
    rw [sortLoop, Std.TreeMap.isEmpty_eq_false_iff_exists_mem.mpr ⟨x, hx⟩] at h
    cases hround : sortRound st with
    | error message =>
      rw [hround] at h
      cases h
    | ok st₁ =>
      rw [hround] at h
      exact ih st₁ (hst.round hround) st' h

theorem not_sorted_of_circling (hstart : Circling deps
      { deps, visitors := countVisitors deps, result := [], warnings := [] })
    (fuel : Nat) (result : List String) :
    getTopologicalSortedLibraries fuel deps ≠ some (.ok result) := by
  intro h
  obtain ⟨res, hloop, hres⟩ := Option.map_eq_some_iff.mp h
  cases res with
  | error message => cases hres
  | ok st => exact Circling.loop fuel _ hstart st hloop

end Cycle

/-- **A cycle is never finished**: no number of rounds empties the map. -/
theorem getTopologicalSortedLibraries_cycle (deps : DependencyGraph)
    (hcycle : ∃ x, TransGen (Needs deps) x x) :
    ¬ ∃ fuel result, getTopologicalSortedLibraries fuel deps = some (.ok result) := by
  rintro ⟨fuel, result, h⟩
  exact not_sorted_of_circling (circling_start hcycle) fuel result h

/-- A library that needs itself. -/
theorem getTopologicalSortedLibraries_cycle_self :
    ¬ ∃ fuel result, getTopologicalSortedLibraries fuel (graphOf [("a", ["a"])]) =
      some (.ok result) := by
  refine getTopologicalSortedLibraries_cycle _ ⟨"a", TransGen.single ?_⟩
  change "a" ∈ neededLibs (graphOf [("a", ["a"])]) "a"
  decide +kernel

/-- Two libraries that need each other: after the second round the first is back in the map. -/
theorem getTopologicalSortedLibraries_pair :
    ∃ deps : DependencyGraph, deps.keys = ["a", "b"] ∧ Needs deps "a" "b" ∧ Needs deps "b" "a" ∧
      ¬ ∃ fuel result, getTopologicalSortedLibraries fuel deps = some (.ok result) := by
  have hab : Needs (graphOf [("a", ["b"]), ("b", ["a"])]) "a" "b" := by
    change "b" ∈ neededLibs _ "a"
    decide +kernel
  have hba : Needs (graphOf [("a", ["b"]), ("b", ["a"])]) "b" "a" := by
    change "a" ∈ neededLibs _ "b"
    decide +kernel
  refine ⟨graphOf [("a", ["b"]), ("b", ["a"])], by decide +kernel, hab, hba, ?_⟩
  have hcycle : TransGen (Needs (graphOf [("a", ["b"]), ("b", ["a"])])) "a" "a" :=
    (TransGen.single hab).tail hba
  rintro ⟨fuel, result, h⟩
  exact not_sorted_of_circling (circling_start ⟨"a", hcycle⟩) fuel result h

end CrystaxNdk.NdkDepends
