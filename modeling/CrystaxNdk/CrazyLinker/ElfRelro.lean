import CrystaxNdk.CrazyLinker.ElfLoader
import CrystaxNdk.Lib.Blocks

/-!
# `SharedRelro::InitFrom` — taking RELRO pages from another process

`crazy_linker_elf_relro.cpp` and the check of `crazy_linker_ashmem.cpp`. Pages of the RELRO section
that are the same in an ashmem region are replaced by a shared mapping of the region. The process
has, next to bytes and protections, the offset in the region that an address is a mapping of. The
region is also mapped as a whole while `InitFrom` runs, at an address where there is nothing else;
what is read from there is the content of the region.
-/

namespace CrystaxNdk.CrazyLinker

open Lib

variable {a : Arch}

/-! ## Answers of the kernel -/

/-- The values of `errno` that make a difference, and the others. -/
inductive Errno where
  | eperm
  | eacces
  | other (n : Nat)
deriving DecidableEq

/-- What the calls for a descriptor return, `none` if they succeed: the three of
    `CheckFileDescriptorIsReadOnly`, the mapping of the whole region, and the two of
    `SwapPagesFromFd` with their arguments. -/
structure AshmemKernel (a : Arch) where
  mapWritable : Option Errno
  mapReadable : Option Errno
  makeWritable : Option Errno
  mapRegion : Option Errno
  munmap : (addr : Addr a) → (size : Nat) → Option Errno
  mmap : (addr : Addr a) → (size offset : Nat) → Option Errno
  strerror : Errno → CString

namespace AshmemKernel

/-- `CheckFileDescriptorIsReadOnly`, with `errno` if it is false. When the page could be made
    writable, `errno` is still that of the first call. -/
def checkFileDescriptorIsReadOnly (k : AshmemKernel a) : Except Errno Unit :=
  match k.mapWritable with
  | none => .error .eperm
  | some errno =>
    if errno ≠ .eperm then .error errno
    else
      match k.mapReadable with
      | some errno => .error errno
      | none =>
        match k.makeWritable with
        | none => .error .eperm
        | some errno => if errno ≠ .eacces then .error errno else .ok ()

end AshmemKernel

/-! ## Errors -/

inductive RelroError (a : Arch) where
  | notReadOnly (strerror : CString)
  | cannotMapRegion (strerror : CString)
  | couldNotUnmap (addr : Addr a) (size : Nat) (strerror : CString)
  | couldNotMap (addr : Addr a) (size : Nat) (strerror : CString)
deriving DecidableEq

def pointerRange (addr : Addr a) (size : Nat) : CString :=
  pointerText addr.toNat ++ "-".toList ++ pointerText (addr + BitVec.ofNat _ size).toNat

def RelroError.text : RelroError a → CString
  | .notReadOnly strerror =>
    "Ashmem file descriptor is not read-only: ".toList ++ strerror ++ ['\n']
  | .cannotMapRegion strerror =>
    "Cannot map RELRO ashmem region as read-only: ".toList ++ strerror ++ ['\n']
  | .couldNotUnmap addr size strerror =>
    "SwapPagesFromFd: Could not unmap ".toList ++ pointerRange addr size ++ ": ".toList ++ strerror
  | .couldNotMap addr size strerror =>
    "SwapPagesFromFd: Could not map ".toList ++ pointerRange addr size ++ ": ".toList ++ strerror

/-! ## The process -/

/-- The process, the variable `similar_size`, and the text in the caller's `Error` object. -/
structure RelroState (a : Arch) where
  space : Space a
  shared : Addr a → Option Nat
  similarSize : Nat
  error : Option (RelroError a)

namespace RelroState

def setError (st : RelroState a) (e : RelroError a) : RelroState a := { st with error := some e }

def unmap (st : RelroState a) (addr : Addr a) (size : Nat) : RelroState a :=
  { st with
    space := { st.space with prot := fill st.space.prot addr size fun _ => none }
    shared := fill st.shared addr size fun _ => none }

/-- The effect of the `mmap` with `PROT_READ` and `MAP_SHARED`. -/
def mapShared (st : RelroState a) (content : Nat → Byte) (addr : Addr a) (size offset : Nat) :
    RelroState a :=
  { st with
    space :=
      { mem := fill st.space.mem addr size fun i => content (offset + i)
        prot := fill st.space.prot addr size fun _ => some { Prot.none with read := true } }
    shared := fill st.shared addr size fun i => some (offset + i) }

end RelroState

def swapPagesFromFd (k : AshmemKernel a) (content : Nat → Byte) (addr : Addr a)
    (size offset : Nat) (st : RelroState a) : RelroState a × Bool :=
  match k.munmap addr size with
  | some errno => (st.setError (.couldNotUnmap addr size (k.strerror errno)), false)
  | none =>
    let st := st.unmap addr size
    match k.mmap addr size offset with
    | some errno => (st.setError (.couldNotMap addr size (k.strerror errno)), false)
    | none => (st.mapShared content addr size offset, true)

/-! ## `InitFrom` -/

/-- The fields of `SharedRelro` that `InitFrom` sets. -/
structure SharedRelro (a : Arch) where
  start : Addr a
  size : Addr a
deriving DecidableEq

namespace SharedRelro

def pageEquals (mem : Addr a → Byte) (content : Nat → Byte) (relroStart : Addr a) (p : Nat) :
    Bool :=
  (List.range 4096).all fun i =>
    decide (mem (relroStart + BitVec.ofNat (8 * a.wordBytes) (p + i)) = content (p + i))

def nextPage (a : Arch) (p : Nat) : Nat := (p + 4096) % 2 ^ (8 * a.wordBytes)

def swapBlock (k : AshmemKernel a) (content : Nat → Byte) (relroStart : Addr a)
    (st : RelroState a) (p p2 : Nat) : RelroState a × Bool :=
  let r := swapPagesFromFd k content (relroStart + BitVec.ofNat _ p) (p2 - p) p st
  if r.2 then ({ r.1 with similarSize := r.1.similarSize + (p2 - p) }, true) else r

def initFrom (k : AshmemKernel a) (content : Nat → Byte) (relroStart relroSize : Addr a)
    (fuel : Nat) (relro : SharedRelro a) (st : RelroState a) :
    Option (SharedRelro a × RelroState a × Bool) :=
  match k.checkFileDescriptorIsReadOnly with
  | .error errno => some (relro, st.setError (.notReadOnly (k.strerror errno)), false)
  | .ok _ =>
    match k.mapRegion with
    | some errno => some (relro, st.setError (.cannotMapRegion (k.strerror errno)), false)
    | none =>
      (scanBlocks (nextPage a) relroSize.toNat
        (fun st => pageEquals st.space.mem content relroStart) (swapBlock k content relroStart)
        fuel { st with similarSize := 0 } 0).map fun r =>
          if r.2 ∧ r.1.similarSize ≠ 0 then (⟨relroStart, relroSize⟩, r.1, true)
          else (relro, r.1, false)

end SharedRelro

end CrystaxNdk.CrazyLinker
