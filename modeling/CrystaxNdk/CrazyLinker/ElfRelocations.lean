import CrystaxNdk.CrazyLinker.ElfLoader

/-!
# `ElfRelocations`

`crazy_linker_elf_relocations.cpp`, and from `linker_phdr.cpp` the two functions that make the
segments writable for the time of the relocation. The relocation tables are the arrays that
`Init` finds in the dynamic section. A relocation that is accepted is one update of the target
word; the value it stores is a function of the old one.

The functions report an error in two ways, by the value they return and by the text they leave
in `error`; the state has the second one, since `ApplyRelRelocs` does not look at the first one
when it resolves a symbol.
-/

namespace CrystaxNdk.CrazyLinker

open Lib

variable {a : Arch}

/-! ## Relocation entries -/

/-- An `ELF::Rel` or `ELF::Rela`; only the latter has an addend. -/
structure Reloc (a : Arch) where
  rOffset : Addr a
  rInfo : Addr a
  rAddend : Addr a := 0
deriving DecidableEq

def Arch.symbolShift : Arch → Nat
  | .aarch64 => 32
  | .arm | .i386 | .mips => 8

namespace Reloc

def relType (r : Reloc a) : BitVec 32 := BitVec.ofNat 32 (r.rInfo.toNat % 2 ^ a.symbolShift)

def relSymbol (r : Reloc a) : Nat := r.rInfo.toNat / 2 ^ a.symbolShift

/-- The addend as `ApplyRelaReloc` keeps it, in an `ELF::Sword`, which has 32 bits on every
    architecture. -/
def addend (r : Reloc a) : Addr a := (r.rAddend.setWidth 32).signExtend (8 * a.wordBytes)

end Reloc

/-- The relocation types that have a name in the source. -/
inductive RelocCode where
  | armAbs32 | armRel32 | armCopy | armGlobDat | armJumpSlot | armRelative
  | aarch64Abs64 | aarch64Copy | aarch64GlobDat | aarch64JumpSlot | aarch64Relative
  | i386Abs32 | i386Pc32 | i386GlobDat | i386JmpSlot | i386Relative
  | mipsRel32
deriving DecidableEq, Repr

/-- The number of a type, and for which architecture it is defined. -/
def RelocCode.number : RelocCode → Arch × BitVec 32
  | .armAbs32 => (.arm, 2)
  | .armRel32 => (.arm, 3)
  | .armCopy => (.arm, 20)
  | .armGlobDat => (.arm, 21)
  | .armJumpSlot => (.arm, 22)
  | .armRelative => (.arm, 23)
  | .aarch64Abs64 => (.aarch64, 257)
  | .aarch64Copy => (.aarch64, 1024)
  | .aarch64GlobDat => (.aarch64, 1025)
  | .aarch64JumpSlot => (.aarch64, 1026)
  | .aarch64Relative => (.aarch64, 1027)
  | .i386Abs32 => (.i386, 1)
  | .i386Pc32 => (.i386, 2)
  | .i386GlobDat => (.i386, 6)
  | .i386JmpSlot => (.i386, 7)
  | .i386Relative => (.i386, 8)
  | .mipsRel32 => (.mips, 3)

def relocCodes : List RelocCode :=
  [.armAbs32, .armRel32, .armCopy, .armGlobDat, .armJumpSlot, .armRelative,
    .aarch64Abs64, .aarch64Copy, .aarch64GlobDat, .aarch64JumpSlot, .aarch64Relative,
    .i386Abs32, .i386Pc32, .i386GlobDat, .i386JmpSlot, .i386Relative, .mipsRel32]

def Reloc.code (r : Reloc a) : Option RelocCode := relocCodes.find? (·.number = (a, r.relType))

inductive RelocationType where
  | unknown
  | absolute
  | relative
  | pcRelative
  | copy
deriving DecidableEq, Repr

def getRelocationType : Option RelocCode → RelocationType
  | some .armJumpSlot | some .armGlobDat | some .armAbs32 => .absolute
  | some .armRel32 | some .armRelative => .relative
  | some .armCopy => .copy
  | some .aarch64JumpSlot | some .aarch64GlobDat | some .aarch64Abs64 => .absolute
  | some .aarch64Relative => .relative
  | some .aarch64Copy => .copy
  | some .i386JmpSlot | some .i386GlobDat | some .i386Abs32 => .absolute
  | some .i386Relative => .relative
  | some .i386Pc32 => .pcRelative
  | some .mipsRel32 => .relative
  | none => .unknown

/-! ## Errors -/

inductive RelocError where
  | couldNotFind (symName : CString)
  | invalidWeak (type : RelocationType) (symName : CString)
  | relativeWithSymbol
  | armCopy
  | aarch64Copy
  | invalidType (type : BitVec 32)
  | cannotLocate (symName : CString)
  | cantUnprotect (strerror : CString)
  | cantReprotect (strerror : CString)
deriving DecidableEq

def RelocationType.number : RelocationType → Nat
  | .unknown => 0
  | .absolute => 1
  | .relative => 2
  | .pcRelative => 3
  | .copy => 4

def RelocError.text : RelocError → CString
  | .couldNotFind symName => "Could not find symbol '".toList ++ symName ++ "'".toList
  | .invalidWeak type symName =>
    "Invalid weak relocation type (".toList ++ decimal type.number ++
      ") for unknown symbol '".toList ++ symName ++ "'".toList
  | .relativeWithSymbol => "Invalid relative relocation with symbol".toList
  | .armCopy => "Invalid R_ARM_COPY relocation in shared library".toList
  | .aarch64Copy => "Invalid R_AARCH64_COPY relocation in shared library".toList
  | .invalidType type => "Invalid relocation type (".toList ++ decimal type.toNat ++ ")".toList
  | .cannotLocate symName => "Cannot locate symbol ".toList ++ symName
  | .cantUnprotect strerror => "Can't unprotect loadable segments: ".toList ++ strerror
  | .cantReprotect strerror => "Can't reprotect loadable segments: ".toList ++ strerror

/-! ## Symbols -/

/-- What `ApplyAll` asks the symbol table of the library. -/
structure ElfSymbols where
  lookupNameById : Nat → CString
  isWeakById : Nat → Bool

/-- `SymbolResolver::Lookup`; `NULL` if there is no such symbol. -/
abbrev SymbolResolver (a : Arch) := CString → Addr a

/-- What `ResolveSymbol` returns, stores and reports. -/
structure Resolution (a : Arch) where
  resolved : Bool
  symAddr : Addr a
  error : Option RelocError

/-- `ResolveSymbol`. Where it fails, `sym_addr` keeps the 0 it was initialised with. -/
def resolveSymbol (symbols : ElfSymbols) (resolver : SymbolResolver a) (r : Reloc a)
    (reloc : Addr a) : Resolution a :=
  let symName := symbols.lookupNameById r.relSymbol
  let address := resolver symName
  if address ≠ 0 then { resolved := true, symAddr := address, error := none }
  else if symbols.isWeakById r.relSymbol = false then
    { resolved := false, symAddr := 0, error := some (.couldNotFind symName) }
  else
    match getRelocationType r.code with
    | .absolute | .relative => { resolved := true, symAddr := 0, error := none }
    | .pcRelative => { resolved := true, symAddr := reloc, error := none }
    | type => { resolved := false, symAddr := 0, error := some (.invalidWeak type symName) }

/-! ## Applying one relocation -/

abbrev WordUpdate (a : Arch) := Update (8 * a.wordBytes) a.wordBytes

/-- `reloc`, the address of the target word. -/
def Reloc.target (r : Reloc a) (loadBias : Addr a) : Addr a := r.rOffset + loadBias

def applyRelaReloc (loadBias : Addr a) (r : Reloc a) (symAddr : Addr a) (_resolved : Bool) :
    Except RelocError (WordUpdate a) :=
  let target := r.target loadBias
  match r.code with
  | some .aarch64JumpSlot => .ok { target, apply := fun _ => symAddr + r.addend }
  | some .aarch64GlobDat => .ok { target, apply := fun _ => symAddr + r.addend }
  | some .aarch64Abs64 => .ok { target, apply := fun old => old + (symAddr + r.addend) }
  | some .aarch64Relative =>
    if r.relSymbol ≠ 0 then .error .relativeWithSymbol
    else .ok { target, apply := fun _ => loadBias + r.addend }
  | some .aarch64Copy => .error .aarch64Copy
  | _ => .error (.invalidType r.relType)

def applyRelReloc (loadBias : Addr a) (r : Reloc a) (symAddr : Addr a) (resolved : Bool) :
    Except RelocError (WordUpdate a) :=
  let target := r.target loadBias
  match r.code with
  | some .armJumpSlot => .ok { target, apply := fun _ => symAddr }
  | some .armGlobDat => .ok { target, apply := fun _ => symAddr }
  | some .armAbs32 => .ok { target, apply := fun old => old + symAddr }
  | some .armRel32 => .ok { target, apply := fun old => old + (symAddr - r.rOffset) }
  | some .armRelative =>
    if r.relSymbol ≠ 0 then .error .relativeWithSymbol
    else .ok { target, apply := fun old => old + loadBias }
  | some .armCopy => .error .armCopy
  | some .i386JmpSlot => .ok { target, apply := fun _ => symAddr }
  | some .i386GlobDat => .ok { target, apply := fun _ => symAddr }
  | some .i386Relative =>
    if r.relSymbol ≠ 0 then .error .relativeWithSymbol
    else .ok { target, apply := fun old => old + loadBias }
  | some .i386Abs32 => .ok { target, apply := fun old => old + symAddr }
  | some .i386Pc32 => .ok { target, apply := fun old => old + (symAddr - target) }
  | some .mipsRel32 =>
    .ok { target, apply := fun old => if resolved then old + symAddr else old + loadBias }
  | _ => .error (.invalidType r.relType)

/-! ## The tables -/

inductive RelocationsType where
  | rel
  | rela
deriving DecidableEq, Repr

/-- The object after a successful `Init`; a table that is missing has no entries. -/
structure ElfRelocations (a : Arch) where
  phdr : List (Phdr a)
  loadBias : Addr a
  relocationsType : RelocationsType
  pltRelocations : List (Reloc a)
  relocations : List (Reloc a)
  pltGot : Addr a
  mipsSymtabCount : Nat
  mipsLocalGotCount : Nat
  mipsGotsym : Nat
  hasTextRelocations : Bool

/-- The process, and the text in the caller's `Error` object. -/
structure RelocState (a : Arch) where
  space : Space a
  error : Option RelocError

namespace RelocState

def update (st : RelocState a) (u : WordUpdate a) : RelocState a :=
  { st with space := { st.space with mem := u.run st.space.mem } }

def setError (st : RelocState a) (e : RelocError) : RelocState a := { st with error := some e }

end RelocState

namespace ElfRelocations

def applyReloc (rels : ElfRelocations a) : Reloc a → Addr a → Bool →
    Except RelocError (WordUpdate a) :=
  match rels.relocationsType with
  | .rel => applyRelReloc rels.loadBias
  | .rela => applyRelaReloc rels.loadBias

/-- The symbol of an entry, if it has one. -/
def resolve (rels : ElfRelocations a) (symbols : ElfSymbols) (resolver : SymbolResolver a)
    (r : Reloc a) : Resolution a :=
  if r.relSymbol ≠ 0 then resolveSymbol symbols resolver r (r.target rels.loadBias)
  else { resolved := false, symAddr := 0, error := none }

/-- The loop of `ApplyRelRelocs` and of `ApplyRelaRelocs`. That the symbol was not resolved is
    passed on to `ApplyRelReloc`, but does not end the loop. -/
def applyRelocs (rels : ElfRelocations a) (symbols : ElfSymbols) (resolver : SymbolResolver a) :
    List (Reloc a) → RelocState a → RelocState a × Bool
  | [], st => (st, true)
  | r :: rs, st =>
    if r.relType = 0 then applyRelocs rels symbols resolver rs st
    else
      let resolution := rels.resolve symbols resolver r
      let st := { st with error := resolution.error.or st.error }
      match rels.applyReloc r resolution.symAddr resolution.resolved with
      | .error e => (st.setError e, false)
      | .ok u => applyRelocs rels symbols resolver rs (st.update u)

/-! ## The global offset table on MIPS -/

def gotEntry (rels : ElfRelocations a) (n : Nat) : Addr a :=
  rels.pltGot + BitVec.ofNat _ (n * a.wordBytes)

/-- The two reserved entries and the local ones. -/
def mipsLocalGot (rels : ElfRelocations a) : List (WordUpdate a) :=
  { target := rels.gotEntry 0, apply := fun _ => 0xdeadbeef } ::
  { target := rels.gotEntry 1,
    apply := fun old => if old &&& 0x80000000 ≠ 0 then 0xdeadbeef else old } ::
  (List.range' 2 (rels.mipsLocalGotCount - 2)).map fun n =>
    { target := rels.gotEntry n, apply := fun old => old + rels.loadBias }

/-- The global entries, for the symbols from `mips_gotsym_` on. -/
def mipsGlobalGot (rels : ElfRelocations a) (symbols : ElfSymbols) (resolver : SymbolResolver a) :
    List Nat → RelocState a → RelocState a × Bool
  | [], st => (st, true)
  | idx :: idxs, st =>
    let got := rels.gotEntry (rels.mipsLocalGotCount + (idx - rels.mipsGotsym))
    let symName := symbols.lookupNameById idx
    let symAddr := resolver symName
    if symAddr ≠ 0 then
      mipsGlobalGot rels symbols resolver idxs
        (st.update { target := got, apply := fun _ => symAddr })
    else if symbols.isWeakById idx then
      mipsGlobalGot rels symbols resolver idxs (st.update { target := got, apply := fun _ => 0 })
    else (st.setError (.cannotLocate symName), false)

/-- The symbols with a global entry. -/
def mipsGotSymbols (rels : ElfRelocations a) : List Nat :=
  List.range' rels.mipsGotsym (rels.mipsSymtabCount - rels.mipsGotsym)

def relocateMipsGot (rels : ElfRelocations a) (symbols : ElfSymbols) (resolver : SymbolResolver a)
    (st : RelocState a) : RelocState a × Bool :=
  if rels.pltGot = 0 then (st, true)
  else
    let st := rels.mipsLocalGot.foldl RelocState.update st
    rels.mipsGlobalGot symbols resolver rels.mipsGotSymbols st

/-! ## Protections -/

/-- `mprotect`: the text of the error if the call fails. The number of the entry is there since
    the same call need not always have the same outcome. -/
abbrev Mprotect (a : Arch) := Nat → (addr length : Addr a) → Prot → Option CString

/-- `_phdr_table_set_load_prot`, from entry number `n` on; `extraWrite` is for `PROT_WRITE` in
    `extra_prot_flags`. Entries before one that fails stay changed. -/
def setLoadProt (mprotect : Mprotect a) (loadBias : Addr a) (extraWrite : Bool) :
    Nat → List (Phdr a) → Space a → Space a × Option CString
  | _, [], space => (space, none)
  | n, phdr :: table, space =>
    if phdr.pType ≠ PT_LOAD ∨ phdr.pFlags &&& PF_W ≠ 0 then
      setLoadProt mprotect loadBias extraWrite (n + 1) table space
    else
      let segPageStart := pageStart phdr.pVaddr + loadBias
      let segPageEnd := pageEnd (phdr.pVaddr + phdr.pMemsz) + loadBias
      let length := segPageEnd - segPageStart
      let flags := pflagsToProt phdr.pFlags
      let prot := { flags with write := flags.write || extraWrite }
      match mprotect n segPageStart length prot with
      | some strerror => (space, some strerror)
      | none =>
        let prots := fill space.prot segPageStart (pageCeil length.toNat) fun _ => some prot
        setLoadProt mprotect loadBias extraWrite (n + 1) table { space with prot := prots }

/-! ## `ApplyAll` -/

/-- The part between the two changes of the protections. -/
def applyTables (rels : ElfRelocations a) (symbols : ElfSymbols) (resolver : SymbolResolver a)
    (st : RelocState a) : RelocState a × Bool :=
  match rels.applyRelocs symbols resolver rels.pltRelocations st with
  | (st, false) => (st, false)
  | (st, true) =>
    match rels.applyRelocs symbols resolver rels.relocations st with
    | (st, false) => (st, false)
    | (st, true) =>
      if a = .mips then rels.relocateMipsGot symbols resolver st else (st, true)

/-- `phdr_table_unprotect_segments` (`extraWrite`) and `phdr_table_protect_segments`, which
    `ApplyAll` only calls for text relocations. -/
def changeProtections (rels : ElfRelocations a) (mprotect : Mprotect a) (extraWrite : Bool)
    (space : Space a) : Space a × Option CString :=
  if rels.hasTextRelocations then
    setLoadProt mprotect rels.loadBias extraWrite 0 rels.phdr space
  else (space, none)

def applyAll (rels : ElfRelocations a) (mprotect : Mprotect a) (symbols : ElfSymbols)
    (resolver : SymbolResolver a) (st : RelocState a) : RelocState a × Bool :=
  match rels.changeProtections mprotect true st.space with
  | (space, some strerror) => ({ st with space }.setError (.cantUnprotect strerror), false)
  | (space, none) =>
    match rels.applyTables symbols resolver { st with space } with
    | (st, false) => (st, false)
    | (st, true) =>
      match rels.changeProtections mprotect false st.space with
      | (space, some strerror) => ({ st with space }.setError (.cantReprotect strerror), false)
      | (space, none) => ({ st with space }, true)

/-! ## `CopyAndRelocate` -/

def adjusts : Option RelocCode → Bool
  | some .armRelative | some .aarch64Relative | some .i386Relative | some .mipsRel32 => true
  | _ => false

/-- `src <= x < src + size` as it is computed. -/
def inSection (srcAddr size x : Addr a) : Bool := ¬ (x < srcAddr ∨ x ≥ srcAddr + size)

/-- The loop of `RelocateRel` and of `RelocateRela`: what `AdjustRelocation` does for the
    entries of the main table that have no symbol and a target in the section. -/
def adjustments (rels : ElfRelocations a) (srcAddr dstAddr mapAddr size : Addr a) :
    List (WordUpdate a) :=
  rels.relocations.filterMap fun r =>
    let srcReloc := r.target rels.loadBias
    if r.relType = 0 ∨ r.relSymbol ≠ 0 then none
    else if inSection srcAddr size srcReloc = false then none
    else if adjusts r.code then
      some { target := srcReloc + (dstAddr - srcAddr),
             apply := fun old => old + (mapAddr - srcAddr) }
    else none

/-- The local entries of the global offset table that are in the section. -/
def gotAdjustments (rels : ElfRelocations a) (srcAddr dstAddr mapAddr size : Addr a) :
    List (WordUpdate a) :=
  if a = .mips ∧ rels.pltGot ≠ 0 then
    (List.range' 2 (rels.mipsLocalGotCount - 2)).filterMap fun n =>
      if inSection srcAddr size (rels.gotEntry n) then
        some { target := rels.gotEntry n + (dstAddr - srcAddr),
               apply := fun old => old + (mapAddr - srcAddr) }
      else none
  else []

def copyAndRelocate (rels : ElfRelocations a) (srcAddr dstAddr mapAddr size : Addr a)
    (mem : Addr a → Byte) : Addr a → Byte :=
  let mem := fill mem dstAddr size.toNat fun i => mem (srcAddr + BitVec.ofNat _ i)
  runUpdates (rels.adjustments srcAddr dstAddr mapAddr size ++
    rels.gotAdjustments srcAddr dstAddr mapAddr size) mem

end ElfRelocations

end CrystaxNdk.CrazyLinker
