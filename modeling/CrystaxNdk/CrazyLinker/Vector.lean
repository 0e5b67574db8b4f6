import CrystaxNdk.CrazyLinker.Elf
import CrystaxNdk.Lib.Blocks

/-!
# `Vector` and `Set`

The containers of `crazy_linker_util.h`. A vector owns a block from `realloc`, here the list of the
items that fit into it, `none` where nothing was written yet. `realloc`, `memmove` and `memset` are
given a number of items times `sizeof(T)`, a product in `size_t`, and work on the whole items that
so many bytes are; `realloc` never fails. A read or write outside of the block has no result, nor
has a read of an item that was not written.

`Set` is called `ItemSet`.
-/

namespace CrystaxNdk.CrazyLinker

open Lib

/-- What the templates are instantiated with: `T` on a target, `sizeof(T)`, and the item that
    `memset` writes. -/
structure Items (α : Type) where
  arch : Arch
  size : Nat
  size_pos : 0 < size
  zero : α

namespace Items

variable {α : Type} (T : Items α)

def sizeT (n : Nat) : Nat := n % 2 ^ (8 * T.arch.wordBytes)

/-- The whole items in `n * sizeof(T)` bytes. -/
def cells (n : Nat) : Nat := T.sizeT (n * T.size) / T.size

end Items

def toInt (n : Nat) : Int := (n + 2 ^ 31) % 2 ^ 32 - 2 ^ 31

/-! ## The block -/

section Block

variable {α : Type}

def realloc (items : List (Option α)) (n : Nat) : List (Option α) :=
  items.take n ++ List.replicate (n - items.length) none

def readItem (items : List (Option α)) (n : Nat) : Option α := items[n]?.join

def store (items : List (Option α)) (dst : Nat) (new : List (Option α)) :
    Option (List (Option α)) :=
  if new = [] ∨ dst + new.length ≤ items.length then some (blit items dst new) else none

def writeItem (items : List (Option α)) (n : Nat) (item : α) : Option (List (Option α)) :=
  store items n [some item]

/-- `memmove(items + dst, items + src, …)` of `n` items. -/
def memmove (items : List (Option α)) (dst src n : Nat) : Option (List (Option α)) :=
  if n = 0 ∨ src + n ≤ items.length then store items dst ((items.drop src).take n) else none

/-- `memset(items + dst, 0, …)` of `n` items. -/
def memset (items : List (Option α)) (dst n : Nat) (zero : α) : Option (List (Option α)) :=
  store items dst (List.replicate n (some zero))

end Block

/-! ## `Vector` -/

structure Vector (α : Type) where
  items : List (Option α)
  count : Nat
  capacity : Nat
deriving DecidableEq

namespace Vector

variable {α : Type} [DecidableEq α] (T : Items α)

def empty : Vector α := ⟨[], 0, 0⟩

def reserve (v : Vector α) (newCapacity : Nat) : Vector α where
  items := realloc v.items (T.cells newCapacity)
  count := if newCapacity < v.count then newCapacity else v.count
  capacity := newCapacity

def place (v : Vector α) (n : Nat) (item : α) : Option (Vector α) := do
  let items ← (if v.count < n then some v.items
    else memmove v.items (n + 1) n (T.cells (v.count - n)))
  let items ← writeItem items (if v.count < n then v.count else n) item
  return { v with items, count := T.sizeT (v.count + 1) }

def insertAt (v : Vector α) (index : Int) (item : α) : Option (Vector α) :=
  let v := if v.capacity ≤ v.count then
      v.reserve T (T.sizeT (v.capacity + v.capacity / 2 + 4))
    else v
  v.place T index.toNat item

def removeAt (v : Vector α) (index : Int) : Option (Vector α) :=
  if index < 0 ∨ v.count ≤ index.toNat then some v
  else do
    let n := index.toNat
    let items ← memmove v.items n (n + 1) (T.cells (v.count - n - 1))
    return { v with items, count := v.count - 1 }

def fill (v : Vector α) (newSize : Nat) : Option (Vector α) := do
  let items ← (if v.count < newSize then
      memset v.items v.count (T.cells (newSize - v.count)) T.zero
    else some v.items)
  return { v with items, count := newSize }

def resize (v : Vector α) (newSize : Nat) : Option (Vector α) :=
  let v := if v.capacity < newSize then v.reserve T newSize else v
  v.fill T newSize

def indexFrom (items : List (Option α)) (item : α) : (rest n : Nat) → Option Int
  | 0, _ => some (-1)
  | rest + 1, n => do
    let x ← readItem items n
    if x = item then some (toInt n) else indexFrom items item rest (n + 1)

def indexOf (v : Vector α) (item : α) : Option Int := indexFrom v.items item v.count 0

def pushBack (v : Vector α) (item : α) : Option (Vector α) := v.insertAt T (toInt v.count) item

def popFirst (v : Vector α) : Option (Vector α × α) := do
  let result ← readItem v.items 0
  let v ← v.removeAt T 0
  return (v, result)

/-- `PopLast`, of a vector that is not empty. -/
def popLast (v : Vector α) : Option (Vector α × α) := do
  let result ← readItem v.items (v.count - 1)
  let v ← v.resize T (v.count - 1)
  return (v, result)

inductive Op (α : Type)
  | pushBack (item : α)
  | insertAt (index : Int) (item : α)
  | removeAt (index : Int)
  | popFirst
  | popLast
  | resize (newSize : Nat)
  | indexOf (item : α)

inductive Output (α : Type)
  | nothing
  | item (item : α)
  | index (index : Int)
deriving DecidableEq

def step (v : Vector α) : Op α → Option (Vector α × Output α)
  | .pushBack item => (v.pushBack T item).map (·, .nothing)
  | .insertAt index item => (v.insertAt T index item).map (·, .nothing)
  | .removeAt index => (v.removeAt T index).map (·, .nothing)
  | .popFirst => (v.popFirst T).map fun result => (result.1, .item result.2)
  | .popLast => (v.popLast T).map fun result => (result.1, .item result.2)
  | .resize newSize => (v.resize T newSize).map (·, .nothing)
  | .indexOf item => (v.indexOf item).map fun index => (v, .index index)

end Vector

/-! ## `Set` -/

structure ItemSet (α : Type) where
  items : Vector α

namespace ItemSet

variable {α : Type} [DecidableEq α] (T : Items α)

def empty : ItemSet α := ⟨Vector.empty⟩

def has (s : ItemSet α) (item : α) : Option Bool := (s.items.indexOf item).map (0 ≤ ·)

def add (s : ItemSet α) (item : α) : Option (ItemSet α × Bool) := do
  let idx ← s.items.indexOf item
  if 0 ≤ idx then return (s, false)
  else
    let items ← s.items.pushBack T item
    return (⟨items⟩, true)

def del (s : ItemSet α) (item : α) : Option (ItemSet α × Bool) := do
  let idx ← s.items.indexOf item
  if idx < 0 then return (s, false)
  else
    let items ← s.items.removeAt T idx
    return (⟨items⟩, true)

inductive Op (α : Type)
  | add (item : α)
  | del (item : α)
  | has (item : α)

def step (s : ItemSet α) : Op α → Option (ItemSet α × Bool)
  | .add item => s.add T item
  | .del item => s.del T item
  | .has item => (s.has item).map (s, ·)

end ItemSet

end CrystaxNdk.CrazyLinker
