import CrystaxNdk.Lib.Linked

/-!
# `include/crystax/list.hpp`

The nodes of a `list_t` have the pointers to their neighbours in them. The state has the links of
all nodes, on the list or not; `NULL` is `none`. Pointers and `size_t` have `bits` bits.
-/

namespace CrystaxNdk.Vfs

open Lib

abbrev NodePtr (bits : Nat) := { p : Fin (2 ^ bits) // p.val ≠ 0 }

structure ListT (bits : Nat) where
  next : NodePtr bits → Option (NodePtr bits)
  prev : NodePtr bits → Option (NodePtr bits)
  phead : Option (NodePtr bits)
  ptail : Option (NodePtr bits)
  sz : BitVec bits

/-- A call, with nodes that are not `NULL`. -/
inductive ListOp (bits : Nat)
  | push (before node : NodePtr bits)
  | pushFront (node : NodePtr bits)
  | pushBack (node : NodePtr bits)
  | pop (node : NodePtr bits)
  | popFront
  | popBack

namespace ListT

variable {bits : Nat}

/-- The constructor, where there are nodes with these links. -/
def new (next prev : NodePtr bits → Option (NodePtr bits)) : ListT bits :=
  ⟨next, prev, none, none, 0⟩

def push (s : ListT bits) : (before node : Option (NodePtr bits)) → ListT bits × Bool
  | some before, some node =>
    let after := s.next before
    let next := Function.update s.next before (some node)
    let prev := assign s.prev after (some node)
    ({ s with
        next := Function.update next node after
        prev := Function.update prev node (some before)
        sz := s.sz + 1 }, true)
  | _, _ => (s, false)

def pop (s : ListT bits) : Option (NodePtr bits) → ListT bits × Option (NodePtr bits)
  | none => (s, none)
  | some node =>
    let next := assign s.next (s.prev node) (s.next node)
    let prev := assign s.prev (next node) (s.prev node)
    let phead := if some node = s.phead then next node else s.phead
    let ptail := if some node = s.phead then s.ptail
      else if some node = s.ptail then prev node else s.ptail
    let ptail := if phead = none then none else ptail
    let phead := if ptail = none then none else phead
    (⟨Function.update next node none, Function.update prev node none, phead, ptail, s.sz - 1⟩,
      some node)

def pushFront (s : ListT bits) (node : Option (NodePtr bits)) : ListT bits × Bool :=
  if s.phead = none then ({ s with phead := node, ptail := node, sz := 1 }, true)
  else s.push s.phead node

def pushBack (s : ListT bits) (node : Option (NodePtr bits)) : ListT bits × Bool :=
  if s.phead = none then ({ s with phead := node, ptail := node, sz := 1 }, true)
  else
    match s.push s.ptail node with
    | (s, false) => (s, false)
    | (s, true) => ({ s with ptail := node }, true)

def popFront (s : ListT bits) : ListT bits × Option (NodePtr bits) := s.pop s.phead

def popBack (s : ListT bits) : ListT bits × Option (NodePtr bits) := s.pop s.ptail

def step (s : ListT bits) : ListOp bits → ListT bits
  | .push before node => (s.push (some before) (some node)).1
  | .pushFront node => (s.pushFront (some node)).1
  | .pushBack node => (s.pushBack (some node)).1
  | .pop node => (s.pop (some node)).1
  | .popFront => s.popFront.1
  | .popBack => s.popBack.1

end ListT

end CrystaxNdk.Vfs
