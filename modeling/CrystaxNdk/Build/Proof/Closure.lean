import CrystaxNdk.Lib.Reach
import CrystaxNdk.Build.Graph

/-!
# The closure of a list of modules

`_ndk_mod_list` and `_ndk_mod_wq` are the nodes that are done and the queue of an exploration, and
the visitors are the two together. Each round of `-ndk-mod-closure-recursive` is one visit.
-/

namespace CrystaxNdk.Build

open Lib List

namespace Vars

variable {deps : Word → List Word} {st st' : Vars} {seeds : List Word}

theorem treeIsVisited_iff {name : Word} : st.treeIsVisited name = true ↔ name ∈ st.treeVisitors :=
  st.visited_iff name

/-! ## One round -/

/-- The dependencies that get into the queue are those that were never in it. -/
theorem foldl_closureVisitNew (ds : List Word) (st : Vars) :
    (ds.foldl closureVisitNew st).list = st.list ∧
    (ds.foldl closureVisitNew st).wq = st.wq ++ unseen st.treeVisitors ds ∧
    (ds.foldl closureVisitNew st).treeVisitors =
      st.treeVisitors ++ unseen st.treeVisitors ds := by
  induction ds generalizing st with
  | nil => simp [unseen]
  | cons d ds ih =>
    rw [foldl_cons]
    by_cases hd : d ∈ st.treeVisitors
    · have hskip : closureVisitNew st d = st := if_pos (treeIsVisited_iff.mpr hd)
      rw [hskip, unseen, if_pos hd]
      exact ih st
    · have hvisit : closureVisitNew st d = st.closureVisit d :=
        if_neg fun h => hd (treeIsVisited_iff.mp h)
      obtain ⟨hlist, hwq, hvisitors⟩ := ih (st.closureVisit d)
      rw [hvisit, hlist, hwq, hvisitors, unseen, if_neg hd]
      simp [closureVisit, treeSetVisited, pushBack]

structure Exploring (deps : Word → List Word) (seeds : List Word) (st : Vars) : Prop where
  explored : Explored deps seeds st.list st.wq
  visitors : st.treeVisitors = st.list ++ st.wq

/-- What a round makes of the variables: one `pop-first`, and one loop over the dependencies. -/
def closureRound (deps : Word → List Word) (st : Vars) : Vars :=
  let st := st.popFirst
  let st := { st with list := st.list ++ st.module.toList }
  let st := st.getDepends deps
  st.depends.foldl closureVisitNew st

theorem closureRecursive_succ (fuel : Nat) : closureRecursive deps (fuel + 1) st =
    if (closureRound deps st).wq ≠ [] then closureRecursive deps fuel (closureRound deps st)
    else some (closureRound deps st) := rfl

theorem closureRound_spec {a : Word} {queue : List Word} (hwq : st.wq = a :: queue)
    (h : Exploring deps seeds st) :
    Exploring deps seeds (closureRound deps st) ∧
    (closureRound deps st).list = st.list ++ [a] ∧
    ∃ more, (closureRound deps st).wq = queue ++ more := by
  -- the state the loop over the dependencies starts in
  obtain ⟨mid, hmid, hlist, hqueue, hvisitors⟩ : ∃ mid : Vars,
      closureRound deps st = (deps a).foldl closureVisitNew mid ∧
      mid.list = st.list ++ [a] ∧ mid.wq = queue ∧ mid.treeVisitors = st.treeVisitors := by
    unfold closureRound
    simp only [popFirst, getDepends, hwq, head?_cons, Option.toList_some, Option.elim_some,
      tail_cons]
    exact ⟨_, rfl, rfl, rfl, rfl⟩
  obtain ⟨hlist', hwq', hvisitors'⟩ := foldl_closureVisitNew (deps a) mid
  have hseen : mid.treeVisitors = st.list ++ [a] ++ queue := by
    rw [hvisitors, h.visitors, hwq, append_cons]
  rw [hmid]
  refine ⟨⟨?_, ?_⟩, hlist'.trans hlist, _, hqueue ▸ hwq'⟩
  · rw [hlist', hwq', hlist, hqueue, hseen]
    have hexplored := h.explored
    rw [hwq] at hexplored
    exact hexplored.visit
  · rw [hlist', hwq', hvisitors', hlist, hqueue, hseen, append_assoc]

/-! ## All rounds -/

theorem closureRecursive_mono {fuel : Nat} (h : closureRecursive deps fuel st = some st') :
    ∀ fuel', fuel ≤ fuel' → closureRecursive deps fuel' st = some st' := by
  induction fuel generalizing st with
  | zero => cases h
  | succ fuel ih =>
    intro fuel' hle
    obtain ⟨fuel', rfl⟩ : ∃ n, fuel' = n + 1 := ⟨fuel' - 1, by omega⟩
    rw [closureRecursive_succ] at h ⊢
    by_cases hwq : (closureRound deps st).wq ≠ []
    · rw [if_pos hwq] at h ⊢
      exact ih h fuel' (by omega)
    · rw [if_neg hwq] at h ⊢
      exact h

/-- The rounds come to an end: each makes the list longer, and there are finitely many nodes. -/
theorem closureRecursive_spec {univ : Finset Word}
    (huniv : ∀ n, Reached deps seeds n → n ∈ univ) (h : Exploring deps seeds st)
    (hwq : st.wq ≠ []) {fuel : Nat} (hfuel : univ.card < st.list.length + fuel) :
    ∃ st', closureRecursive deps fuel st = some st' ∧ Exploring deps seeds st' ∧ st'.wq = [] ∧
      st.list ++ st.wq <+: st'.list := by
  induction fuel generalizing st with
  | zero =>
    have hle := h.explored.length_le huniv
    omega
  | succ fuel ih =>
    obtain ⟨a, queue, hcons⟩ := exists_cons_of_ne_nil hwq
    obtain ⟨hround, hlist, more, hqueue⟩ := closureRound_spec hcons h
    have hgrow : st.list ++ st.wq <+:
        (closureRound deps st).list ++ (closureRound deps st).wq := by
      rw [hlist, hqueue, hcons]
      exact ⟨more, by simp⟩
    rw [closureRecursive_succ]
    by_cases hdone : (closureRound deps st).wq = []
    · rw [if_neg (not_not.mpr hdone)]
      rw [hdone, append_nil] at hgrow
      exact ⟨_, rfl, hround, hdone, hgrow⟩
    · rw [if_pos hdone]
      have hlength : univ.card < (closureRound deps st).list.length + fuel := by
        rw [hlist, length_append, length_singleton]
        omega
      obtain ⟨st', hrun, hst', hend, hrest⟩ := ih hround hdone hlength
      exact ⟨st', hrun, hst', hend, hgrow.trans hrest⟩

/-! ## The closure -/

theorem foldl_closureVisit (names : List Word) (st : Vars) :
    (names.foldl closureVisit st).list = st.list ∧
    (names.foldl closureVisit st).wq = st.wq ++ names ∧
    (names.foldl closureVisit st).treeVisitors = st.treeVisitors ++ names := by
  induction names generalizing st with
  | nil => simp
  | cons name names ih =>
    obtain ⟨hlist, hwq, hvisitors⟩ := ih (st.closureVisit name)
    rw [foldl_cons, hlist, hwq, hvisitors]
    simp [closureVisit, treeSetVisited, pushBack]

def closureStart (st : Vars) (modules : List Word) : Vars :=
  modules.foldl closureVisit { st with wq := [], list := [] }.treeSetupVisit

theorem getClosure_eq (fuel : Nat) : st.getClosure deps fuel seeds =
    (closureRecursive deps fuel (st.closureStart seeds)).map fun st => (st, st.list) := rfl

theorem exploring_closureStart (hnodup : seeds.Nodup) (st : Vars) :
    Exploring deps seeds (st.closureStart seeds) ∧ (st.closureStart seeds).list = [] ∧
      (st.closureStart seeds).wq = seeds := by
  obtain ⟨hlist, hwq, hvisitors⟩ : (st.closureStart seeds).list = [] ∧
      (st.closureStart seeds).wq = seeds ∧ (st.closureStart seeds).treeVisitors = seeds := by
    unfold closureStart
    simp [foldl_closureVisit, treeSetupVisit]
  refine ⟨⟨?_, ?_⟩, hlist, hwq⟩
  · rw [hlist, hwq]
    exact explored_start hnodup
  · rw [hlist, hwq, hvisitors, nil_append]

theorem getClosure_mono {fuel : Nat} {res : Vars × List Word}
    (h : st.getClosure deps fuel seeds = some res) :
    ∀ fuel', fuel ≤ fuel' → st.getClosure deps fuel' seeds = some res := by
  intro fuel' hle
  rw [getClosure_eq] at h
  obtain ⟨st', hrun, hres⟩ := Option.map_eq_some_iff.mp h
  rw [getClosure_eq, closureRecursive_mono hrun fuel' hle, ← hres]
  rfl

/-- `-ndk-mod-get-closure` lists what can be reached, each node once, and the modules it was called
    with come first. -/
theorem getClosure_spec (hfinite : {n | deps n ≠ []}.Finite) (hnodup : seeds.Nodup)
    (hseeds : seeds ≠ []) (st : Vars) :
    ∃ rounds st' nodes, st.getClosure deps rounds seeds = some (st', nodes) ∧ nodes.Nodup ∧
      (∀ n, n ∈ nodes ↔ Reached deps seeds n) ∧ seeds <+: nodes := by
  obtain ⟨univ, huniv⟩ : ∃ univ : Finset Word, ∀ n, Reached deps seeds n → n ∈ univ :=
    ⟨(finite_reached hfinite seeds).toFinset, fun n hn => (Set.Finite.mem_toFinset _).mpr hn⟩
  obtain ⟨hstart, hlist, hwq⟩ : Exploring deps seeds (st.closureStart seeds) ∧ _ :=
    exploring_closureStart hnodup st
  have henough : univ.card < (st.closureStart seeds).list.length + (univ.card + 1) := by omega
  obtain ⟨st', hrun, hst', hend, hfirst⟩ :=
    closureRecursive_spec huniv hstart (by rw [hwq]; exact hseeds) henough
  have hexplored := hst'.explored
  rw [hend] at hexplored
  rw [hlist, hwq, nil_append] at hfirst
  have hclosure : st.getClosure deps (univ.card + 1) seeds = some (st', st'.list) := by
    rw [getClosure_eq, hrun, Option.map_some]
  exact ⟨_, st', st'.list, hclosure, by simpa using hexplored.nodup,
    fun n => hexplored.mem_iff, hfirst⟩

/-- Without modules the queue is empty from the start, and its one round finds nothing to do. -/
theorem getClosure_nil (st : Vars) : ∃ st', st.getClosure deps 1 [] = some (st', []) :=
  ⟨_, rfl⟩

/-- `-ndk-mod-get-closure` comes to an end on every finite graph, whatever is left in the variables
    from before, and lists each node that can be reached once. -/
theorem getClosure_reached (deps : Word → List Word) (hfinite : {n | deps n ≠ []}.Finite)
    (seeds : List Word) (hnodup : seeds.Nodup) (st : Vars) :
    ∃ rounds st' nodes,
      (∀ fuel, rounds ≤ fuel → st.getClosure deps fuel seeds = some (st', nodes)) ∧
      nodes.Nodup ∧ ∀ n, n ∈ nodes ↔ Reached deps seeds n := by
  by_cases hseeds : seeds = []
  · subst hseeds
    obtain ⟨st', hrun⟩ : ∃ st', st.getClosure deps 1 [] = some (st', []) := getClosure_nil st
    exact ⟨1, st', [], getClosure_mono hrun, nodup_nil, by simp [Reached]⟩
  · obtain ⟨rounds, st', nodes, hrun, hnodes, hmem, -⟩ := getClosure_spec hfinite hnodup hseeds st
    exact ⟨rounds, st', nodes, getClosure_mono hrun, hnodes, hmem⟩

section Circular

def modA : Word := ⟨['A'], by simp, by simp [isBlank]⟩

def modB : Word := ⟨['B'], by simp, by simp [isBlank]⟩

def modC : Word := ⟨['C'], by simp, by simp [isBlank]⟩

/-- The edges of the test `-test-ndk-mod-get-closure.circular-deps`. -/
def ringDepends (n : Word) : List Word :=
  ([(modA, [modB]), (modB, [modC]), (modC, [modA])].lookup n).getD []

theorem getClosure_reached_ring : ∃ rounds st' nodes,
    (∀ fuel, rounds ≤ fuel → initial.getClosure ringDepends fuel [modA] = some (st', nodes)) ∧
      nodes.Nodup ∧ ∀ n, n ∈ nodes ↔ Reached ringDepends [modA] n :=
  getClosure_reached ringDepends (finite_lookup _) [modA] (nodup_singleton modA) initial

example : (initial.getClosure ringDepends 3 [modA]).map Prod.snd = some [modA, modB, modC] := by
  decide +kernel

end Circular

end Vars

end CrystaxNdk.Build
