import CrystaxNdk.Lib.Words

/-!
# `definitions-graph.mk` — graphs in make variables

The functions of `ndk-build` that walk a dependency graph keep everything in global variables,
and what one of them leaves there the next one finds. `Vars` has these variables; a family
`_ndk_mod_xxx.<name>` is a function from names, and a counter, which is a string of `x`s in the
source, is the number of them. The dependency function, `$(call $2,<name>)` there, is `deps` here.
It is never called for a name that is not there, except by a closure of no modules at all, where it
answers nothing.

All assignments are made through `eval`, which reads the line a second time. The names are those it
leaves as they are: without `$` and `#`, and without `:` and `=`, since they are part of the names
of variables.

Recursive functions take the depth they may reach as `fuel` and answer `none` when it is used up.
-/

namespace CrystaxNdk.Build

open Lib

/-- `_ndk_mod_wq`, `_ndk_mod_list` and so on. The visitors are the nodes with a visited flag. -/
structure Vars where
  wq : List Word
  list : List Word
  module : Option Word
  depends : List Word
  nodes : List Word
  treeVisited : Word → Bool
  treeVisitors : List Word
  topoIncoming : Word → Nat
  visited_iff : ∀ n, treeVisited n = true ↔ n ∈ treeVisitors

theorem foldl_update_false (names : List Word) (visited : Word → Bool) (n : Word) :
    names.foldl (fun visited name => Function.update visited name false) visited n = true ↔
      visited n = true ∧ n ∉ names := by
  induction names generalizing visited with
  | nil => simp
  | cons name names ih =>
    rw [List.foldl_cons, ih]
    by_cases hn : n = name
    · simp [hn]
    · simp [hn]

namespace Vars

def initial : Vars where
  wq := []
  list := []
  module := none
  depends := []
  nodes := []
  treeVisited := fun _ => false
  treeVisitors := []
  topoIncoming := fun _ => 0
  visited_iff := by simp

/-! ## Visits -/

def treeSetupVisit (st : Vars) : Vars :=
  { st with
    treeVisited := st.treeVisitors.foldl (fun visited n => Function.update visited n false)
      st.treeVisited
    treeVisitors := []
    visited_iff := by
      intro n
      rw [foldl_update_false, st.visited_iff]
      simp }

def treeIsVisited (st : Vars) (name : Word) : Bool := st.treeVisited name

def treeSetVisited (st : Vars) (name : Word) : Vars :=
  { st with
    treeVisited := Function.update st.treeVisited name true
    treeVisitors := st.treeVisitors ++ [name]
    visited_iff := by
      intro n
      by_cases hn : n = name
      · simp [hn]
      · simp [hn, st.visited_iff] }

/-! ## The work queue -/

def popFirst (st : Vars) : Vars := { st with module := st.wq.head?, wq := st.wq.tail }

def pushBack (st : Vars) (names : List Word) : Vars := { st with wq := st.wq ++ names }

def getDepends (deps : Word → List Word) (st : Vars) : Vars :=
  { st with depends := st.module.elim [] deps }

/-! ## The closure -/

def closureVisit (st : Vars) (name : Word) : Vars := (st.pushBack [name]).treeSetVisited name

/-- The loop over the dependencies in `-ndk-mod-closure-recursive`. -/
def closureVisitNew (st : Vars) (dep : Word) : Vars :=
  if st.treeIsVisited dep then st else st.closureVisit dep

def closureRecursive (deps : Word → List Word) : Nat → Vars → Option Vars
  | 0, _ => none
  | fuel + 1, st =>
    let st := st.popFirst
    let st := { st with list := st.list ++ st.module.toList }
    let st := st.getDepends deps
    let st := st.depends.foldl closureVisitNew st
    if st.wq ≠ [] then closureRecursive deps fuel st else some st

def getClosure (deps : Word → List Word) (fuel : Nat) (st : Vars) (modules : List Word) :
    Option (Vars × List Word) :=
  let st := { st with wq := [], list := [] }
  let st := modules.foldl closureVisit st.treeSetupVisit
  (closureRecursive deps fuel st).map fun st => (st, st.list)

/-! ## Topological order -/

def topoZeroIncoming (st : Vars) (name : Word) : Vars :=
  { st with topoIncoming := Function.update st.topoIncoming name 0 }

def topoIncrementIncoming (st : Vars) (name : Word) : Vars :=
  { st with topoIncoming := Function.update st.topoIncoming name (st.topoIncoming name + 1) }

/-- `-ndk-mod-topo-decrement-incoming`: `%x=%` leaves the empty string as it is. -/
def topoDecrementIncoming (st : Vars) (name : Word) : Vars :=
  { st with topoIncoming := Function.update st.topoIncoming name (st.topoIncoming name - 1) }

def topoHasIncoming (st : Vars) (name : Word) : Bool := st.topoIncoming name ≠ 0

def topoFindFirstZeroIncoming (st : Vars) (names : List Word) : Option Word :=
  (names.filter fun n => !st.topoHasIncoming n).head?

def topoCount (deps : Word → List Word) (st : Vars) (names : List Word) : Vars :=
  names.foldl (fun st n => (deps n).foldl topoIncrementIncoming { st with depends := deps n })
    (names.foldl topoZeroIncoming st)

/-- The loop over the dependencies in `-ndk-mod-topo-sort`. -/
def topoRelease (st : Vars) (dep : Word) : Vars :=
  let st := st.topoDecrementIncoming dep
  if st.topoHasIncoming dep then st else st.pushBack [dep]

def topoSort (deps : Word → List Word) : Nat → Vars → Option Vars
  | 0, _ => none
  | fuel + 1, st =>
    let st := st.popFirst
    match st.module with
    | none => some st
    | some n =>
      let st := { st with list := st.list ++ [n], nodes := Word.filterOut [n] st.nodes }
      let st := (st.topoDecrementIncoming n).getDepends deps
      topoSort deps fuel (st.depends.foldl topoRelease st)

def getTopoList (deps : Word → List Word) (fuel : Nat) (st : Vars) (top : Word) :
    Option (Vars × List Word) :=
  match st.getClosure deps fuel [top] with
  | none => none
  | some (st, nodes) =>
    let st := topoCount deps { st with nodes } nodes
    let st := { st with list := [], wq := (st.topoFindFirstZeroIncoming nodes).toList }
    (topoSort deps fuel st).map fun st => (st, st.list ++ st.nodes)

def getTopologicalDepends (deps : Word → List Word) (fuel : Nat) (st : Vars) (top : Word) :
    Option (Vars × List Word) :=
  (st.getTopoList deps fuel top).map fun res => (res.1, res.2.tail)

end Vars

end CrystaxNdk.Build
