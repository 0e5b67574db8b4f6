import CrystaxNdk.CrazyLinker.Elf
import CrystaxNdk.Lib.Linked

/-!
# `ElfSymbols` — looking up symbols

`crazy_linker_elf_symbols.cpp`. The tables are arrays in the memory of the library; nothing in the
code keeps it from reading on behind their ends, so they are functions here. The two lookups by
address go through the symbols in order, the lookup by name along a chain of the hash table. Index 0
ends a chain: no lookup by name finds the symbol there, which the format reserves.
-/

namespace CrystaxNdk.CrazyLinker

open Lib

/-! ## Symbols -/

structure Sym (a : Arch) where
  stName : BitVec 32
  stInfo : Byte
  stShndx : BitVec 16
  stValue : Addr a
  stSize : Addr a
deriving DecidableEq

def SHN_UNDEF : BitVec 16 := 0
def STB_GLOBAL : Byte := 1
def STB_WEAK : Byte := 2

def Sym.bind {a : Arch} (sym : Sym a) : Byte := sym.stInfo >>> 4

/-- A C string, without its `'\0'`. -/
structure SymbolName where
  bytes : List Byte
  noNul : 0 ∉ bytes
deriving DecidableEq

def sameString (string : Nat → Byte) : List Byte → Bool
  | [] => decide (string 0 = 0)
  | c :: cs => decide (string 0 = c) && sameString (fun i => string (i + 1)) cs

def elfHashStep (h : BitVec 32) (c : Byte) : BitVec 32 :=
  let h := (h <<< 4) + c.setWidth 32
  let g := h &&& 0xf0000000
  let h := h ^^^ g
  h ^^^ (g >>> 24)

def elfHash (name : SymbolName) : BitVec 32 := name.bytes.foldl elfHashStep 0

/-! ## The tables -/

structure SymbolTables (a : Arch) where
  symbolTable : Nat → Sym a
  stringTable : Nat → Byte
  hashBucket : Nat → BitVec 32
  hashBucketSize : Nat
  hashChain : Nat → BitVec 32
  hashChainSize : Nat

namespace SymbolTables

variable {a : Arch} (t : SymbolTables a)

def nameIs (n : Nat) (name : SymbolName) : Bool :=
  sameString (fun i => t.stringTable ((t.symbolTable n).stName.toNat + i)) name.bytes

/-- The loop of `LookupByName` goes on to the next index unless this is true. -/
def accepts (name : SymbolName) (n : Nat) : Bool :=
  t.nameIs n name && decide ((t.symbolTable n).stShndx ≠ SHN_UNDEF) &&
    (decide ((t.symbolTable n).bind = STB_GLOBAL) || decide ((t.symbolTable n).bind = STB_WEAK))

/-- An index that is not the end of a chain. -/
def index? (n : BitVec 32) : Option Nat := if n = 0 then none else some n.toNat

def chainNext (n : Nat) : Option Nat := index? (t.hashChain n)

def chainHead (name : SymbolName) : Option Nat :=
  index? (t.hashBucket ((elfHash name).toNat % t.hashBucketSize))

/-- `LookupByName`: the index of the symbol, or `NULL`. -/
def lookupByName (name : SymbolName) (fuel : Nat) : Option (Option Nat) :=
  follow t.chainNext
    (fun found n => if t.accepts name n then (some n, true) else (found, false))
    fuel none (t.chainHead name)

/-- `elf_addr` is in a symbol. The end is computed as a word. -/
def inside (elfAddr : Addr a) (n : Nat) : Bool :=
  decide ((t.symbolTable n).stValue ≤ elfAddr) &&
    decide (elfAddr < (t.symbolTable n).stValue + (t.symbolTable n).stSize)

def lookupByAddress (address loadBias : Addr a) : Option Nat :=
  (List.range t.hashChainSize).find? fun n =>
    decide ((t.symbolTable n).stShndx ≠ SHN_UNDEF) && t.inside (address - loadBias) n

def diff (elfAddr : Addr a) (n : Nat) : Addr a :=
  if elfAddr < (t.symbolTable n).stValue then (t.symbolTable n).stValue - elfAddr
  else elfAddr - (t.symbolTable n).stValue - (t.symbolTable n).stSize

/-- The loop of `LookupNearestByAddress`, from some index on. -/
def nearest (elfAddr : Addr a) : List Nat → Option Nat → Addr a → Option Nat
  | [], nearestSym, _ => nearestSym
  | n :: ns, nearestSym, nearestDiff =>
    if (t.symbolTable n).stShndx = SHN_UNDEF then nearest elfAddr ns nearestSym nearestDiff
    else if t.inside elfAddr n then some n
    else if t.diff elfAddr n < nearestDiff then nearest elfAddr ns (some n) (t.diff elfAddr n)
    else nearest elfAddr ns nearestSym nearestDiff

structure Report (a : Arch) where
  symName : Nat
  symAddr : Addr a
  symSize : Addr a
deriving DecidableEq

/-- The report of a symbol. The name is given by its offset in the string table. -/
def report (loadBias : Addr a) (n : Nat) : Report a where
  symName := (t.symbolTable n).stName.toNat
  symAddr := (t.symbolTable n).stValue + loadBias
  symSize := (t.symbolTable n).stSize

def lookupNearestByAddress (address loadBias : Addr a) : Option (Report a) :=
  (t.nearest (address - loadBias) (List.range t.hashChainSize) none (~~~ 0)).map
    (t.report loadBias)

end SymbolTables

end CrystaxNdk.CrazyLinker
