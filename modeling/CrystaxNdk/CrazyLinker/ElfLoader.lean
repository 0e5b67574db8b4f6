import CrystaxNdk.CrazyLinker.Elf
import CrystaxNdk.Lib.Digits

/-!
# `ElfLoader` — mapping a library

`crazy_linker_elf_loader.cpp`, over a model of `mmap`. The address space gives each address its
byte and its protection. What the kernel answers is the structure `Kernel`, whose fields say
what POSIX promises about an answer; whether a call succeeds is otherwise left open.

`LoadSegments` is modelled as the list of operations it performs on the address space, in
order, up to the first one the kernel refuses; the list is kept, since some results are about
the ranges that were touched rather than the bytes.
-/

namespace CrystaxNdk.CrazyLinker

open Lib

/-! ## Files and address spaces -/

/-- An open file. `open` refuses a file whose size is not an `off_t`. -/
structure File (a : Arch) where
  bytes : List Byte
  size_lt : bytes.length < 2 ^ (8 * a.wordBytes - 1)
deriving DecidableEq

/-- The byte at an offset; the rest of the last page reads as zeroes. -/
def File.byte {a : Arch} (file : File a) (i : Nat) : Byte := file.bytes.getD i 0

/-- The process. An address without a protection is not mapped. -/
structure Space (a : Arch) where
  mem : Addr a → Byte
  prot : Addr a → Option Prot

/-- An operation of `LoadSegments`. The two maps are `MAP_FIXED | MAP_PRIVATE`. -/
inductive MapOp (a : Arch) where
  | mapFile (addr length : Addr a) (prot : Prot) (offset : Addr a)
  | memset (addr length : Addr a)
  | mapAnonymous (addr length : Addr a) (prot : Prot)
deriving DecidableEq

namespace MapOp

variable {a : Arch}

def addr : MapOp a → Addr a
  | .mapFile addr _ _ _ => addr
  | .memset addr _ => addr
  | .mapAnonymous addr _ _ => addr

/-- The number of bytes touched; a map always covers whole pages. -/
def extent : MapOp a → Nat
  | .mapFile _ length _ _ => pageCeil length.toNat
  | .memset _ length => length.toNat
  | .mapAnonymous _ length _ => pageCeil length.toNat

def content (file : File a) : MapOp a → Nat → Byte
  | .mapFile _ _ _ offset => fun i => file.byte (offset.toNat + i)
  | .memset _ _ => fun _ => 0
  | .mapAnonymous _ _ _ => fun _ => 0

def newProt : MapOp a → Option Prot
  | .mapFile _ _ prot _ => some prot
  | .memset _ _ => none
  | .mapAnonymous _ _ prot => some prot

end MapOp

namespace Space

variable {a : Arch}

/-- The address space after an operation that succeeded. -/
def perform (space : Space a) (file : File a) (op : MapOp a) : Space a where
  mem := fill space.mem op.addr op.extent (op.content file)
  prot :=
    match op.newProt with
    | none => space.prot
    | some prot => fill space.prot op.addr op.extent fun _ => some prot

/-- An anonymous map without access. -/
def reserve (space : Space a) (start size : Addr a) : Space a where
  mem := fill space.mem start (pageCeil size.toNat) fun _ => 0
  prot := fill space.prot start (pageCeil size.toNat) fun _ => some Prot.none

def munmap (space : Space a) (start size : Addr a) : Space a :=
  { space with prot := fill space.prot start (pageCeil size.toNat) fun _ => none }

end Space

/-! ## The kernel -/

/-- What the kernel answers; errors come with their `strerror` text. `refuses` also depends on
    the number of the segment, so the same call need not always have the same outcome. -/
structure Kernel (a : Arch) where
  openReadOnly : CString → Except CString (File a)
  seekTo : Addr a → Option CString
  read : Option CString
  mapHeader : (size offset : Addr a) → Option CString
  reserve : (addr size : Addr a) → (fixed : Bool) → Option (Addr a)
  refuses : Nat → MapOp a → Option CString
  /-- A reservation is a range of pages that starts at the address asked for, if that was fixed,
      and never at `NULL`; its end is an address too. -/
  reserve_spec : ∀ addr size fixed start, reserve addr size fixed = some start →
    start.toNat % 4096 = 0 ∧ start ≠ 0 ∧ (fixed = true → start = addr) ∧
      start.toNat + pageCeil size.toNat < 2 ^ (8 * a.wordBytes)
  /-- A fixed map is page-aligned, not empty and does not wrap around. -/
  refuses_spec : ∀ i op, refuses i op = none → op.newProt ≠ none →
    op.addr.toNat % 4096 = 0 ∧ 0 < op.extent ∧
      op.addr.toNat + op.extent ≤ 2 ^ (8 * a.wordBytes)

/-! ## Errors -/

/-- The errors of `LoadAt`, with what goes into the message. -/
inductive ElfError (a : Arch) where
  | loadAddress (wantedAddress : Addr a)
  | fileOffset (fileOffset : Addr a)
  | cantOpen (strerror : CString)
  | cantSeek (fileOffset : Addr a) (strerror : CString)
  | cantRead (strerror : CString)
  | tooSmall
  | badMagic
  | badClass (eiClass : Byte)
  | notLittleEndian (eiData : Byte)
  | notShared (eType : BitVec 16)
  | badVersion (eVersion : BitVec 32)
  | badMachine (eMachine : BitVec 16)
  | phdrCount (phdrNum : Nat)
  | phdrMmap (strerror : CString)
  | noLoadable
  | cantReserve (loadSize : Addr a)
  | cantMap (segment : Nat) (strerror : CString)
  | cantZeroFill (strerror : CString)
  | noLoadedPhdr
  | phdrNotLoaded (loaded : Addr a)
deriving DecidableEq

/-- `%d` of a value that is passed as an `int`. -/
def decimal (n : Nat) : CString := (toString (BitVec.ofNat 32 n).toInt).toList

/-- `%x` of a value that is passed as an `unsigned`. -/
def hex (n : Nat) : CString := Nat.toDigits 16 (n % 2 ^ 32)

def hex08 (n : Nat) : CString := Lib.hexPadded 8 (n % 2 ^ 32)

def ElfError.text {a : Arch} : ElfError a → CString
  | .loadAddress wanted =>
    "Load address is not page aligned (".toList ++ hex08 wanted.toNat ++ ")".toList
  | .fileOffset offset =>
    "File offset is not page aligned (".toList ++ hex08 offset.toNat ++ ")".toList
  | .cantOpen strerror => "Can't open file: ".toList ++ strerror
  | .cantSeek offset strerror =>
    "Can't seek to file offset ".toList ++ hex08 offset.toNat ++ ": ".toList ++ strerror
  | .cantRead strerror => "Can't read file: ".toList ++ strerror
  | .tooSmall => "File too small to be ELF".toList
  | .badMagic => "Bad ELF magic".toList
  | .badClass eiClass =>
    "Not a ".toList ++ decimal (8 * a.wordBytes) ++ "-bit class: ".toList ++
      decimal eiClass.toNat
  | .notLittleEndian eiData => "Not little-endian class: ".toList ++ decimal eiData.toNat
  | .notShared eType => "Not a shared library type: ".toList ++ decimal eType.toNat
  | .badVersion eVersion => "Unexpected ELF version: ".toList ++ decimal eVersion.toNat
  | .badMachine eMachine => "Unexpected ELF machine type: ".toList ++ decimal eMachine.toNat
  | .phdrCount phdrNum => "Invalid program header count: ".toList ++ decimal phdrNum
  | .phdrMmap strerror => "Phdr mmap failed: ".toList ++ strerror
  | .noLoadable => "No loadable segments".toList
  | .cantReserve loadSize =>
    "Could not reserve ".toList ++ decimal loadSize.toNat ++ " bytes of address space".toList
  | .cantMap segment strerror =>
    "Could not map segment ".toList ++ decimal segment ++ ": ".toList ++ strerror
  | .cantZeroFill strerror => "Could not zero-fill gap: ".toList ++ strerror
  | .noLoadedPhdr => "Can't find loaded program header".toList
  | .phdrNotLoaded loaded =>
    "Loaded program header ".toList ++ hex loaded.toNat ++ " not in loadable segment".toList

/-! ## Reading the headers -/

variable {a : Arch}

/-- `ReadElfHeader`: the checks in their order. -/
def readElfHeader (kernel : Kernel a) (file : File a) (fileOffset : Addr a) :
    Except (ElfError a) (Ehdr a) :=
  match kernel.read with
  | some strerror => .error (.cantRead strerror)
  | none =>
    if file.bytes.length - fileOffset.toNat < a.ehdrSize then .error .tooSmall
    else
      let header := readEhdr a fun i => file.byte (fileOffset.toNat + i)
      if header.magic ≠ [0x7f, 0x45, 0x4c, 0x46] then .error .badMagic
      else if header.eiClass ≠ a.elfClass then .error (.badClass header.eiClass)
      else if header.eiData ≠ 1 then .error (.notLittleEndian header.eiData)
      else if header.eType ≠ 3 then .error (.notShared header.eType)
      else if header.eVersion ≠ 1 then .error (.badVersion header.eVersion)
      else if header.eMachine ≠ a.machine then .error (.badMachine header.eMachine)
      else .ok header

/-- `ReadProgramHeader`: the table as it stands in the temporary map. -/
def readProgramHeader (kernel : Kernel a) (file : File a) (fileOffset : Addr a)
    (header : Ehdr a) : Except (ElfError a) (List (Phdr a)) :=
  let phdrNum := header.ePhnum.toNat
  if phdrNum < 1 ∨ phdrNum > 65536 / a.phdrSize then .error (.phdrCount phdrNum)
  else
    let pageMin := pageStart header.ePhoff
    let pageMax := pageEnd (header.ePhoff + BitVec.ofNat _ (phdrNum * a.phdrSize))
    let offset := pageOffset header.ePhoff
    match kernel.mapHeader (pageMax - pageMin) (pageMin + fileOffset) with
    | some strerror => .error (.phdrMmap strerror)
    | none =>
      .ok (readPhdrTable a
        (fun i => file.byte ((pageMin + fileOffset).toNat + (offset.toNat + i))) phdrNum)

/-! ## Reserving and mapping -/

structure Reservation (a : Arch) where
  loadStart : Addr a
  loadSize : Addr a
  loadBias : Addr a
deriving DecidableEq

def reserveAddressSpace (kernel : Kernel a) (table : List (Phdr a)) (wantedAddress : Addr a) :
    Except (ElfError a) (Reservation a) :=
  let extent := phdrTableGetLoadSize table
  if extent.size = 0 then .error .noLoadable
  else
    let addr := if wantedAddress ≠ 0 then wantedAddress else extent.minVaddr
    match kernel.reserve addr extent.size (wantedAddress ≠ 0) with
    | none => .error (.cantReserve extent.size)
    | some start =>
      .ok { loadStart := start, loadSize := extent.size, loadBias := start - extent.minVaddr }

/-- The operations of `LoadSegments` for one `PT_LOAD` entry. -/
def segmentOps (fileOffset loadBias : Addr a) (phdr : Phdr a) : List (MapOp a) :=
  let segStart := phdr.pVaddr + loadBias
  let segEnd := segStart + phdr.pMemsz
  let segPageStart := pageStart segStart
  let segPageEnd := pageEnd segEnd
  let segFileEnd := segStart + phdr.pFilesz
  let fileStart := phdr.pOffset
  let fileEnd := fileStart + phdr.pFilesz
  let filePageStart := pageStart fileStart
  let fileLength := fileEnd - filePageStart
  let prot := pflagsToProt phdr.pFlags
  (if fileLength ≠ 0 then
    [.mapFile segPageStart fileLength prot (filePageStart + fileOffset)] else []) ++
  -- the rest of the last file page
  (if phdr.pFlags &&& PF_W ≠ 0 ∧ pageOffset segFileEnd > 0 then
    [.memset segFileEnd (4096 - pageOffset segFileEnd)] else []) ++
  -- the pages after it
  (if segPageEnd > pageEnd segFileEnd then
    [.mapAnonymous (pageEnd segFileEnd) (segPageEnd - pageEnd segFileEnd) prot] else [])

/-- The address space while the segments are mapped, with the operations so far. -/
structure Mapping (a : Arch) where
  space : Space a
  performed : List (MapOp a)

def mapError (segment : Nat) (strerror : CString) : MapOp a → ElfError a
  | .mapFile .. => .cantMap segment strerror
  | .memset .. => .cantMap segment strerror
  | .mapAnonymous .. => .cantZeroFill strerror

/-- Perform operations until one is refused; `memset` is no system call and cannot be. -/
def performOps (kernel : Kernel a) (file : File a) (segment : Nat) :
    List (MapOp a) → Mapping a → Mapping a × Except (ElfError a) Unit
  | [], mapping => (mapping, .ok ())
  | op :: ops, mapping =>
    match if op.newProt = none then none else kernel.refuses segment op with
    | some strerror => (mapping, .error (mapError segment strerror op))
    | none =>
      performOps kernel file segment ops
        { space := mapping.space.perform file op, performed := mapping.performed ++ [op] }

/-- `LoadSegments`, from entry number `segment` on. -/
def loadSegments (kernel : Kernel a) (file : File a) (fileOffset loadBias : Addr a) :
    Nat → List (Phdr a) → Mapping a → Mapping a × Except (ElfError a) Unit
  | _, [], mapping => (mapping, .ok ())
  | segment, phdr :: table, mapping =>
    if phdr.pType ≠ PT_LOAD then
      loadSegments kernel file fileOffset loadBias (segment + 1) table mapping
    else
      match performOps kernel file segment (segmentOps fileOffset loadBias phdr) mapping with
      | (mapping, .error e) => (mapping, .error e)
      | (mapping, .ok ()) =>
        loadSegments kernel file fileOffset loadBias (segment + 1) table mapping

/-! ## The loaded program header -/

/-- `CheckPhdr`: the loaded table is in the file part of a segment. -/
def checkPhdr (table : List (Phdr a)) (loadBias loaded : Addr a) :
    Except (ElfError a) (Addr a) :=
  let loadedEnd := loaded + BitVec.ofNat _ (table.length * a.phdrSize)
  if table.any fun phdr => phdr.pType = PT_LOAD ∧ phdr.pVaddr + loadBias ≤ loaded ∧
      loadedEnd ≤ phdr.pFilesz + (phdr.pVaddr + loadBias) then .ok loaded
  else .error (.phdrNotLoaded loaded)

/-- `FindPhdr`: through `PT_PHDR`, or through the ELF header at the start of the first segment. -/
def findPhdr (mem : Addr a → Byte) (table : List (Phdr a)) (loadBias : Addr a) :
    Except (ElfError a) (Addr a) :=
  match table.find? (·.pType = PT_PHDR) with
  | some phdr => checkPhdr table loadBias (loadBias + phdr.pVaddr)
  | none =>
    match table.find? (·.pType = PT_LOAD) with
    | none => .error .noLoadedPhdr
    | some phdr =>
      if phdr.pOffset = 0 then
        let elfAddr := loadBias + phdr.pVaddr
        let header := readEhdr a fun i => mem (elfAddr + BitVec.ofNat _ i)
        checkPhdr table loadBias (elfAddr + header.ePhoff)
      else .error .noLoadedPhdr

/-! ## `LoadAt` -/

/-- What a caller can ask a loader that succeeded, and the table it worked from. -/
structure Loaded (a : Arch) extends Reservation a where
  phdrTable : List (Phdr a)
  loadedPhdr : Addr a
deriving DecidableEq

def prepare (kernel : Kernel a) (libPath : CString) (fileOffset wantedAddress : Addr a) :
    Except (ElfError a) (File a × List (Phdr a) × Reservation a) :=
  if wantedAddress ≠ pageStart wantedAddress then .error (.loadAddress wantedAddress)
  else if pageOffset fileOffset ≠ 0 then .error (.fileOffset fileOffset)
  else
    match kernel.openReadOnly libPath with
    | .error strerror => .error (.cantOpen strerror)
    | .ok file =>
      match if fileOffset = 0 then none else kernel.seekTo fileOffset with
      | some strerror => .error (.cantSeek fileOffset strerror)
      | none =>
        match readElfHeader kernel file fileOffset with
        | .error e => .error e
        | .ok header =>
          match readProgramHeader kernel file fileOffset header with
          | .error e => .error e
          | .ok table =>
            match reserveAddressSpace kernel table wantedAddress with
            | .error e => .error e
            | .ok reservation => .ok (file, table, reservation)

/-- `LoadAt`. A failure after the reservation unmaps it again. -/
def loadAt (kernel : Kernel a) (space : Space a) (libPath : CString)
    (fileOffset wantedAddress : Addr a) : Mapping a × Except (ElfError a) (Loaded a) :=
  match prepare kernel libPath fileOffset wantedAddress with
  | .error e => ({ space, performed := [] }, .error e)
  | .ok (file, table, reservation) =>
    let space := space.reserve reservation.loadStart reservation.loadSize
    match loadSegments kernel file fileOffset reservation.loadBias 0 table
        { space, performed := [] } with
    | (mapping, .error e) => (cleanup reservation mapping, .error e)
    | (mapping, .ok ()) =>
      match findPhdr mapping.space.mem table reservation.loadBias with
      | .error e => (cleanup reservation mapping, .error e)
      | .ok loadedPhdr =>
        (mapping, .ok { reservation with phdrTable := table, loadedPhdr })
where
  cleanup (reservation : Reservation a) (mapping : Mapping a) : Mapping a :=
    if reservation.loadStart ≠ 0 ∧ reservation.loadSize ≠ 0 then
      { mapping with
        space := mapping.space.munmap reservation.loadStart reservation.loadSize }
    else mapping

end CrystaxNdk.CrazyLinker
