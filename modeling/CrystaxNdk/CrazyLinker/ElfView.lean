import CrystaxNdk.CrazyLinker.ElfLoader

/-!
# `ElfView` — the library as it is in memory

`crazy_linker_elf_view.cpp` derives everything again from a program header table in memory:
`SharedLibrary::Load` passes it the table the loader found in the segments it mapped, and the
destructor of `SharedLibrary` unmaps what the view says.
-/

namespace CrystaxNdk.CrazyLinker

open Lib

variable {a : Arch}

structure ElfView (a : Arch) where
  phdr : Addr a
  phdrCount : Nat
  dynamic : Addr a
  dynamicCount : Nat
  dynamicFlags : BitVec 32
  loadAddress : Addr a
  loadSize : Addr a
  loadBias : Addr a
deriving DecidableEq

def ElfView.cleared : ElfView a where
  phdr := 0
  phdrCount := 0
  dynamic := 0
  dynamicCount := 0
  dynamicFlags := 0
  loadAddress := 0
  loadSize := 0
  loadBias := 0

inductive ViewError where
  | invalidTable
  | noDynamic
  | malformed
deriving DecidableEq, Repr

def ViewError.text : ViewError → CString
  | .invalidTable => "Invalid program header table".toList
  | .noDynamic => "No PT_DYNAMIC section!".toList
  | .malformed => "Malformed ELF binary".toList

namespace ElfView

def readTable (mem : Addr a → Byte) (phdr : Addr a) (phdrCount : Nat) : List (Phdr a) :=
  readPhdrTable a (fun i => mem (phdr + BitVec.ofNat _ i)) phdrCount

/-- `phdr0` before it is checked. If there is a `PT_PHDR` it is the address of that entry, not
    the address the entry gives; `NULL` if nothing is found. -/
def findPhdr0 (mem : Addr a → Byte) (phdr loadBias : Addr a) (table : List (Phdr a)) : Addr a :=
  let phdr0 :=
    match table.findIdx? (·.pType = PT_PHDR) with
    | some n => phdr + BitVec.ofNat _ (n * a.phdrSize)
    | none => 0
  if phdr0 ≠ 0 then phdr0
  else
    match table.find? (·.pType = PT_LOAD) with
    | none => 0
    | some entry =>
      if entry.pOffset = 0 then
        let elfAddr := loadBias + entry.pVaddr
        elfAddr + (readEhdr a fun i => mem (elfAddr + BitVec.ofNat _ i)).ePhoff
      else 0

/-- The check on `phdr0`: some entry, of any type, has the table in its file part. -/
def contains (table : List (Phdr a)) (loadBias phdr0 : Addr a) : Bool :=
  let limit := phdr0 + BitVec.ofNat _ (a.phdrSize * table.length)
  table.any fun entry => loadBias + entry.pVaddr ≤ phdr0 ∧
    limit ≤ loadBias + entry.pVaddr + entry.pFilesz

/-- `InitUnmapped`. A failure leaves the fields that are already set. -/
def initUnmapped (mem : Addr a → Byte) (loadAddress phdr : Addr a) (phdrCount : Nat)
    (view : ElfView a) : ElfView a × Except ViewError Unit :=
  let table := readTable mem phdr phdrCount
  let extent := phdrTableGetLoadSize table
  let view := { view with loadSize := extent.size }
  if extent.size = 0 then (view, .error .invalidTable)
  else
    -- the dynamic section is located with the load address, not with the bias
    let dynamic := phdrTableGetDynamicSection table loadAddress
    let view := { view with
      loadAddress := if loadAddress ≠ 0 then loadAddress else extent.minVaddr
      loadBias := loadAddress - extent.minVaddr
      dynamic := dynamic.dynamic
      dynamicCount := dynamic.dynamicCount
      dynamicFlags := dynamic.dynamicFlags.getD view.dynamicFlags }
    if view.dynamic = 0 then (view, .error .noDynamic)
    else
      let phdr0 := findPhdr0 mem phdr view.loadBias table
      if phdr0 = 0 ∨ contains table view.loadBias phdr0 = false then (view, .error .malformed)
      else ({ view with phdr := phdr0, phdrCount }, .ok ())

end ElfView

namespace SharedLibrary

/-- The first block of `SharedLibrary::Load`: load the file, then describe what was loaded. The
    view is the one of a new library. -/
def loadView (kernel : Kernel a) (space : Space a) (fullPath : CString)
    (loadAddress fileOffset : Addr a) :
    Space a × ElfView a × Except (ElfError a ⊕ ViewError) Unit :=
  match loadAt kernel space fullPath fileOffset loadAddress with
  | (mapping, .error e) => (mapping.space, ElfView.cleared, .error (.inl e))
  | (mapping, .ok loaded) =>
    match ElfView.cleared.initUnmapped mapping.space.mem loaded.loadStart loaded.loadedPhdr
        loaded.phdrTable.length with
    | (view, .error e) => (mapping.space, view, .error (.inr e))
    | (view, .ok ()) => (mapping.space, view, .ok ())

def destroy (view : ElfView a) (space : Space a) : Space a :=
  if view.loadAddress ≠ 0 then space.munmap view.loadAddress view.loadSize else space

end SharedLibrary

end CrystaxNdk.CrazyLinker
