import CrystaxNdk.Lib.Memory
import CrystaxNdk.CrazyLinker.Names

/-!
# ELF headers and program header tables

`elf_traits.h` and the part of `linker_phdr.cpp` that reads a program header table. The linker
is compiled for one architecture at a time; here the architecture is a parameter, which decides
the width of `ELF::Addr` and the layout of the headers. Headers are decoded from a stream of
bytes, so that a file and the memory it was mapped to are read by the same functions.
-/

namespace CrystaxNdk.CrazyLinker

open Lib

/-! ## Architectures -/

inductive Arch where
  | arm
  | aarch64
  | i386
  | mips
deriving DecidableEq, Repr

namespace Arch

def wordBytes : Arch → Nat
  | .aarch64 => 8
  | .arm | .i386 | .mips => 4

def machine : Arch → BitVec 16
  | .arm => 40
  | .aarch64 => 183
  | .i386 => 3
  | .mips => 8

def elfClass : Arch → Byte
  | .aarch64 => 2
  | .arm | .i386 | .mips => 1

def ehdrSize (a : Arch) : Nat := 40 + 3 * a.wordBytes

def phdrSize : Arch → Nat
  | .aarch64 => 56
  | .arm | .i386 | .mips => 32

theorem twelve_le_bits (a : Arch) : 12 ≤ 8 * a.wordBytes := by
  cases a <;> decide

theorem wordBytes_pos (a : Arch) : 0 < a.wordBytes := by
  cases a <;> decide

theorem phdrSize_pos (a : Arch) : 0 < a.phdrSize := by
  cases a <;> decide

theorem wordBytes_le_two_pow (a : Arch) : a.wordBytes ≤ 2 ^ (8 * a.wordBytes) := by
  cases a <;> decide

end Arch

/-- `ELF::Addr`, and every other type of that width. -/
abbrev Addr (a : Arch) := BitVec (8 * a.wordBytes)

/-! ## Decoding -/

/-- The little-endian field of `n` bytes at `pos`. -/
def field (f : Nat → Byte) (pos n : Nat) {bits : Nat} : BitVec bits :=
  BitVec.ofNat bits (leNat (fun i => f (pos + i)) n)

theorem field_congr {f g : Nat → Byte} {pos n bits : Nat}
    (h : ∀ i < pos + n, f i = g i) : (field f pos n : BitVec bits) = field g pos n := by
  unfold field
  rw [leNat_congr fun i hi => h (pos + i) (by omega)]

/-- `ELF::Ehdr`, the fields that are read. -/
structure Ehdr (a : Arch) where
  magic : List Byte
  eiClass : Byte
  eiData : Byte
  eType : BitVec 16
  eMachine : BitVec 16
  eVersion : BitVec 32
  ePhoff : Addr a
  ePhnum : BitVec 16
deriving DecidableEq

def readEhdr (a : Arch) (f : Nat → Byte) : Ehdr a where
  magic := [f 0, f 1, f 2, f 3]
  eiClass := f 4
  eiData := f 5
  eType := field f 16 2
  eMachine := field f 18 2
  eVersion := field f 20 4
  ePhoff := field f (24 + a.wordBytes) a.wordBytes
  ePhnum := field f (32 + 3 * a.wordBytes) 2

theorem readEhdr_ePhoff_congr {a : Arch} {f g : Nat → Byte} (h : ∀ i < a.ehdrSize, f i = g i) :
    (readEhdr a f).ePhoff = (readEhdr a g).ePhoff := by
  refine field_congr fun i hi => h i ?_
  unfold Arch.ehdrSize
  omega

structure Phdr (a : Arch) where
  pType : BitVec 32
  pFlags : BitVec 32
  pOffset : Addr a
  pVaddr : Addr a
  pPaddr : Addr a
  pFilesz : Addr a
  pMemsz : Addr a
  pAlign : Addr a
deriving DecidableEq

/-- The 64-bit layout has `p_flags` in front, the 32-bit one near the end. -/
def readPhdr : (a : Arch) → (Nat → Byte) → Phdr a
  | .aarch64, f =>
    { pType := field f 0 4, pFlags := field f 4 4, pOffset := field f 8 8,
      pVaddr := field f 16 8, pPaddr := field f 24 8, pFilesz := field f 32 8,
      pMemsz := field f 40 8, pAlign := field f 48 8 }
  | .arm, f => readPhdr32 f
  | .i386, f => readPhdr32 f
  | .mips, f => readPhdr32 f
where
  readPhdr32 {a : Arch} (f : Nat → Byte) : Phdr a :=
    { pType := field f 0 4, pOffset := field f 4 4, pVaddr := field f 8 4,
      pPaddr := field f 12 4, pFilesz := field f 16 4, pMemsz := field f 20 4,
      pFlags := field f 24 4, pAlign := field f 28 4 }

/-- The `count` entries of a table, one after the other. -/
def readPhdrTable (a : Arch) (f : Nat → Byte) (count : Nat) : List (Phdr a) :=
  (List.range count).map fun n => readPhdr a fun i => f (n * a.phdrSize + i)

theorem readPhdr_congr {a : Arch} {f g : Nat → Byte} (h : ∀ i < a.phdrSize, f i = g i) :
    readPhdr a f = readPhdr a g := by
  have hfield : ∀ pos n, pos + n ≤ a.phdrSize → ∀ bits,
      (field f pos n : BitVec bits) = field g pos n :=
    fun pos n hle bits => field_congr fun i hi => h i (by omega)
  cases a <;>
    simp only [Arch.phdrSize] at hfield <;>
    simp only [readPhdr, readPhdr.readPhdr32] <;>
    congr 1 <;> exact hfield _ _ (by decide) _

theorem readPhdrTable_congr {a : Arch} {f g : Nat → Byte} {count : Nat}
    (h : ∀ i < count * a.phdrSize, f i = g i) :
    readPhdrTable a f count = readPhdrTable a g count := by
  unfold readPhdrTable
  refine List.map_congr_left fun n hn => readPhdr_congr fun i hi => h _ ?_
  rw [List.mem_range] at hn
  calc n * a.phdrSize + i < n * a.phdrSize + a.phdrSize := by omega
    _ = (n + 1) * a.phdrSize := by rw [Nat.add_mul, Nat.one_mul]
    _ ≤ count * a.phdrSize := Nat.mul_le_mul_right _ hn

/-! ## Constants -/

def PT_LOAD : BitVec 32 := 1
def PT_DYNAMIC : BitVec 32 := 2
def PT_PHDR : BitVec 32 := 6

def PF_X : BitVec 32 := 1
def PF_W : BitVec 32 := 2
def PF_R : BitVec 32 := 4

structure Prot where
  read : Bool
  write : Bool
  exec : Bool
deriving DecidableEq, Repr

def Prot.none : Prot := { read := false, write := false, exec := false }

def pflagsToProt (flags : BitVec 32) : Prot where
  read := flags &&& PF_R ≠ 0
  write := flags &&& PF_W ≠ 0
  exec := flags &&& PF_X ≠ 0

/-! ## `linker_phdr.cpp` -/

variable {a : Arch}

/-- The variables of the loop in `phdr_table_get_load_size`. -/
structure Extent (a : Arch) where
  minVaddr : Addr a
  maxVaddr : Addr a
  foundPtLoad : Bool

def Extent.add (e : Extent a) (phdr : Phdr a) : Extent a :=
  if phdr.pType ≠ PT_LOAD then e
  else
    { foundPtLoad := true
      minVaddr := if phdr.pVaddr < e.minVaddr then phdr.pVaddr else e.minVaddr
      maxVaddr :=
        if phdr.pVaddr + phdr.pMemsz > e.maxVaddr then phdr.pVaddr + phdr.pMemsz
        else e.maxVaddr }

structure LoadSize (a : Arch) where
  size : Addr a
  minVaddr : Addr a
  maxVaddr : Addr a
deriving DecidableEq

def phdrTableGetLoadSize (table : List (Phdr a)) : LoadSize a :=
  let e : Extent a :=
    table.foldl Extent.add { minVaddr := ~~~ 0, maxVaddr := 0, foundPtLoad := false }
  let minVaddr := pageStart (if e.foundPtLoad then e.minVaddr else 0)
  let maxVaddr := pageEnd e.maxVaddr
  { size := maxVaddr - minVaddr, minVaddr, maxVaddr }

/-- What `phdr_table_get_dynamic_section` stores. Without a `PT_DYNAMIC` the address is `NULL`
    and the flags are not set. -/
structure DynamicSection (a : Arch) where
  dynamic : Addr a
  dynamicCount : Nat
  dynamicFlags : Option (BitVec 32)

/-- `phdr_table_get_dynamic_section`. The count goes through `unsigned`. -/
def phdrTableGetDynamicSection (table : List (Phdr a)) (loadBias : Addr a) : DynamicSection a :=
  match table.find? (·.pType = PT_DYNAMIC) with
  | none => { dynamic := 0, dynamicCount := 0, dynamicFlags := none }
  | some phdr =>
    { dynamic := loadBias + phdr.pVaddr
      dynamicCount := phdr.pMemsz.toNat / (2 * a.wordBytes) % 2 ^ 32
      dynamicFlags := some phdr.pFlags }

end CrystaxNdk.CrazyLinker
