import CrystaxNdk.Lib.Fields

/-!
# `ndk-depends.cc` — from ELF files to a sorted list of libraries

`ndk-depends` reads which libraries a file needs, follows them through the file system, and prints
all it found in an order in which no library comes before one that needs it. The module has the
program in three parts: sorting the graph (`GetTopologicalSortedLibraries`), reading ELF files
(`ElfParser`), and building the graph (`BuildDependencyGraph`).

The `std::map`s are ordered maps here, walked in the order of their keys, and `map[key]` enters a
default value at a key that is not there, as it does in C++. Nothing guarantees that the loops end,
so each takes the number of rounds it may make as `fuel` and answers `none` when that is used up.
Counts are integers; the source has an `int`, and the one place where its range shows is the value
the search for the minimum starts from.
-/

namespace CrystaxNdk.NdkDepends

inductive NodeType where
  | none
  | path
  | error
  | system
deriving DecidableEq, Repr

structure LibNode where
  type : NodeType := .none
  value : String := ""
  neededLibs : List String := []
deriving DecidableEq, Repr

abbrev DependencyGraph := Std.TreeMap String LibNode

abbrev VisitorMap := Std.TreeMap String Int

def neededLibs (deps : DependencyGraph) (libname : String) : List String :=
  (deps.getD libname {}).neededLibs

/-! ## Counting the visitors -/

def addVisitor (visitors : VisitorMap) (libname : String) : VisitorMap :=
  match visitors[libname]? with
  | some n => visitors.insert libname (n + 1)
  | none => visitors.insert libname 1

def countNode (visitors : VisitorMap) (entry : String × LibNode) : VisitorMap :=
  entry.2.neededLibs.foldl addVisitor
    (if entry.1 ∈ visitors then visitors else visitors.insert entry.1 0)

def countVisitors (deps : DependencyGraph) : VisitorMap := deps.toList.foldl countNode ∅

/-! ## Taking the libraries out -/

def intMax : Int := 2147483647

/-- One comparison of the search for the minimum. The later of two equal ones is taken. -/
def smaller (best : Int × String) (entry : String × Int) : Int × String :=
  if entry.2 ≤ best.1 then (entry.2, entry.1) else best

def minVisitor (visitors : VisitorMap) : Int × String :=
  visitors.toList.foldl smaller (intMax, "")

def dropVisitor (visitors : VisitorMap) (libname : String) : VisitorMap :=
  visitors.insert libname (visitors.getD libname 0 - 1)

structure SortState where
  deps : DependencyGraph
  visitors : VisitorMap
  result : List String
  warnings : List String

/-- One round. The error is the message of `panic`. -/
def sortRound (st : SortState) : Except String SortState :=
  let best := minVisitor st.visitors
  if best.1 = intMax then .error "INTERNAL: Could not find minimum visited node!"
  else
    .ok {
      deps := st.deps.insertIfNew best.2 {}
      visitors := (neededLibs st.deps best.2).foldl dropVisitor (st.visitors.erase best.2)
      result := st.result ++ [best.2]
      warnings :=
        if best.1 ≠ 0 then
          st.warnings ++ ["WARNING: Circular dependency found from: " ++ best.2 ++ "\n"]
        else st.warnings }

def sortLoop : Nat → SortState → Option (Except String SortState)
  | 0, _ => none
  | fuel + 1, st =>
    if st.visitors.isEmpty then some (.ok st)
    else
      match sortRound st with
      | .error message => some (.error message)
      | .ok st => sortLoop fuel st

/-- `GetTopologicalSortedLibraries`, with what it leaves in `*result`. -/
def getTopologicalSortedLibraries (fuel : Nat) (deps : DependencyGraph) :
    Option (Except String (List String)) :=
  (sortLoop fuel { deps, visitors := countVisitors deps, result := [], warnings := [] }).map
    fun st => st.map SortState.result

/-!
## Reading ELF files

`ElfParser` and `DynamicIterator` are templates over the class of the file, `Elf32` or `Elf64`, and
read through a `Reader` for one of the two byte orders. A number that cannot be read is 0. An `Off`
has the width of the class, so that offsets wrap around; the offset of a member of a section header
is added to it as a `size_t`, which has 64 bits on the host.
-/

open Lib

/-! ### Readers -/

/-- A file, and the byte order of the `Reader`. -/
structure Reader where
  file : List UInt8
  bigEndian : Bool

namespace Reader

def slice (reader : Reader) (pos size : Nat) : List UInt8 := (reader.file.drop pos).take size

/-- `FileReader::GetBytesAt`; `kMaxBytes` is 32. The position is an `off_t`, and `fseek` refuses one
    that is negative. -/
def getBytesAt (reader : Reader) (pos size : Nat) : Option (List UInt8) :=
  if size < 32 ∧ pos < 2 ^ 63 ∧ pos + size ≤ reader.file.length then some (reader.slice pos size)
  else none

/-- The number in some bytes: `get_u32_le`, `get_u32_be` and so on. -/
def decode (reader : Reader) (bytes : List UInt8) : Nat :=
  ofLittleEndian (if reader.bigEndian then bytes.reverse else bytes)

/-- A number of `size` bytes, or 0. -/
def getUintAt (size : Nat) (reader : Reader) (pos : Nat) : Nat :=
  ((reader.getBytesAt pos size).map reader.decode).getD 0

def getU16At : Reader → Nat → Nat := getUintAt 2

def getU32At : Reader → Nat → Nat := getUintAt 4

def getU64At : Reader → Nat → Nat := getUintAt 8

end Reader

inductive ElfClass where
  | elf32
  | elf64
deriving DecidableEq, Repr

namespace ElfClass

def offBytes : ElfClass → Nat
  | elf32 => 4
  | elf64 => 8

/-- How many values an `Off` has. -/
def offRange (c : ElfClass) : Nat := 2 ^ (8 * c.offBytes)

def shdrSize (c : ElfClass) : Nat := 16 + 6 * c.offBytes

def entrySize (c : ElfClass) : Nat := 2 * c.offBytes

end ElfClass

def shtDynamic : Nat := 6

def dtNeeded : Nat := 1

def dtSoname : Nat := 14

namespace Reader

variable (reader : Reader) (c : ElfClass)

def getOffAt (pos : Nat) : Nat :=
  match c with
  | .elf32 => reader.getU32At pos
  | .elf64 => reader.getU64At pos

/-- A member of the section header at `shdr`. -/
def shdrPos (shdr member : Nat) : Nat := (shdr + member) % 2 ^ 64

def shType (shdr : Nat) : Nat := reader.getU32At (shdrPos shdr 4)

def shContents (shdr : Nat) : Nat × Nat :=
  (reader.getOffAt c (shdrPos shdr (8 + 2 * c.offBytes)),
    reader.getOffAt c (shdrPos shdr (8 + 3 * c.offBytes)))

def shLink (shdr : Nat) : Nat := reader.getU32At (shdrPos shdr (8 + 4 * c.offBytes))

/-! ### The section table -/

structure SectionIterator where
  tableOffset : Nat
  tableCount : Nat
  tableEntrySize : Nat

/-- `SectionIterator(parser)`, with `e_shoff`, `e_shnum` and `e_shentsize`. -/
def sections : SectionIterator :=
  let entrySize := reader.getU16At (34 + 3 * c.offBytes)
  { tableOffset := reader.getOffAt c (24 + 2 * c.offBytes)
    tableCount := if entrySize < c.shdrSize then 0 else reader.getU16At (36 + 3 * c.offBytes)
    tableEntrySize := entrySize }

/-- The loops with `NextOffset` that look for a section of a type. An offset of 0 also is the answer
    when there are no more. -/
def findShdr (type entrySize : Nat) : (count offset : Nat) → Option Nat
  | 0, _ => none
  | count + 1, offset =>
    if offset = 0 then none
    else if reader.shType offset = type then some offset
    else findShdr type entrySize count ((offset + entrySize) % c.offRange)

/-- The header of the first section of a type. -/
def shdrByType (type : Nat) : Option Nat :=
  let iter := reader.sections c
  reader.findShdr c type iter.tableEntrySize iter.tableCount iter.tableOffset

/-- `GetSectionOffsetByType`, with the size, which is 0 before. -/
def getSectionOffsetByType (type : Nat) : Nat × Nat :=
  ((reader.shdrByType c type).map (reader.shContents c)).getD (0, 0)

/-- `GetDynamicStringTableIndex`, which makes an `int` of a `Word`. -/
def getDynamicStringTableIndex : Int :=
  ((reader.shdrByType c shtDynamic).map fun shdr =>
    let link := reader.shLink c shdr
    if link < 2 ^ 31 then (link : Int) else link - 2 ^ 32).getD 0

def skip : Nat → SectionIterator → SectionIterator
  | 0, iter => iter
  | count + 1, iter =>
    if iter.tableCount > 0 then
      skip count { iter with
        tableOffset := (iter.tableOffset + iter.tableEntrySize) % c.offRange
        tableCount := iter.tableCount - 1 }
    else iter

def getSectionOffsetByIndex (index : Int) : Nat × Nat :=
  let iter := skip c index.toNat (reader.sections c)
  if iter.tableCount = 0 ∨ iter.tableOffset = 0 then (0, 0)
  else reader.shContents c iter.tableOffset

/-! ### Strings -/

def readString : (strTableSize strTable : Nat) → List Char
  | 0, _ => []
  | size + 1, pos =>
    match reader.getBytesAt pos 1 with
    | some [byte] =>
      if byte = 0 then [] else Char.ofNat byte.toNat :: readString size ((pos + 1) % c.offRange)
    | _ => []

def getStringByIndex (strIndex : Nat) (strTableIndex : Int) : List Char :=
  if strTableIndex ≠ 0 then
    let table := reader.getSectionOffsetByIndex c strTableIndex
    if table.1 ≠ 0 ∧ strIndex < table.2 then
      reader.readString c (table.2 - strIndex) ((table.1 + strIndex) % c.offRange)
    else []
  else []

/-! ### The dynamic section -/

structure DynamicIterator where
  dynOffset : Nat
  dynSize : Nat
  started : Bool

def dynamicIterator : DynamicIterator :=
  let dyn := reader.getSectionOffsetByType c shtDynamic
  { dynOffset := dyn.1
    dynSize := dyn.2
    started := dyn.2 < c.entrySize }

/-- `GetNext`, which gives no iterator when it answers false. -/
def getNext (iter : DynamicIterator) : Option DynamicIterator :=
  if !iter.started then some { iter with started := true }
  else if iter.dynSize < c.entrySize then none
  else
    some { iter with
      dynOffset := (iter.dynOffset + c.entrySize) % c.offRange
      dynSize := iter.dynSize - c.entrySize }

def getTag (iter : DynamicIterator) : Nat := reader.getOffAt c iter.dynOffset

def getValue (iter : DynamicIterator) : Nat :=
  reader.getOffAt c ((iter.dynOffset + c.offBytes) % c.offRange)

/-- The iterators that a loop `while (iter.GetNext())` runs with. -/
def visits : Nat → DynamicIterator → Option (List DynamicIterator)
  | 0, _ => none
  | fuel + 1, iter =>
    match getNext c iter with
    | none => some []
    | some iter => (visits fuel iter).map (iter :: ·)

/-- The body of the loop in `GetNeededLibsT`: what it appends. -/
def neededLib (strTableIndex : Int) (iter : DynamicIterator) : Option String :=
  if reader.getTag c iter = dtNeeded then
    let libName := reader.getStringByIndex c (reader.getValue c iter) strTableIndex
    if libName ≠ [] then some (String.ofList libName) else none
  else none

/-- `GetNeededLibsT`, with what it appends to `*result`. -/
def getNeededLibs (fuel : Nat) : Option (List String) :=
  (visits c fuel (reader.dynamicIterator c)).map fun iters =>
    iters.filterMap (reader.neededLib c (reader.getDynamicStringTableIndex c))

/-- `GetLibNameT`, which answers at the first entry with the tag. -/
def getLibName (fuel : Nat) : Option String :=
  (visits c fuel (reader.dynamicIterator c)).map fun iters =>
    ((iters.find? fun iter => reader.getTag c iter = dtSoname).map fun iter =>
      String.ofList (reader.getStringByIndex c (reader.getValue c iter)
        (reader.getDynamicStringTableIndex c))).getD ""

end Reader

/-!
## Building the graph

`ElfFile`, `FindLibraryPath`, `UpdateDependencies` and `BuildDependencyGraph`, in the variant for
hosts other than Windows. What the program asks the system for is a `FileSystem`, which does not
change while it runs. What goes to `stderr` is kept with the graph; the verbose log is left out.

`scan` bounds the loops over a dynamic section and `fuel` the one over the work queue. The outer
answer is `none` when that is used up, and the inner one is an error with the message when the
program panics.
-/

/-- The files of the host, finitely many of them, under any number of paths. -/
structure FileSystem where
  /-- `stat` succeeds and finds a regular file. -/
  isRegular : String → Bool
  /-- What `fopen` gives access to. A directory, which cannot be read, has no bytes. -/
  fopen : String → Option (List UInt8)
  /-- `strerror(errno)` after `fopen` or `fread` failed. -/
  strerror : String → String
  finite : {bytes | ∃ path, fopen path = some bytes}.Finite

/-! ### ELF files -/

structure ElfFile where
  is64bits : Bool
  reader : Reader

namespace ElfFile

def identIsElf (ident : List UInt8) : Bool := ident.take 4 = [0x7f, 69, 76, 70]

/-- `Open`, on the bytes of a file. -/
def ofBytes (strerror : String) (bytes : List UInt8) : Except String ElfFile :=
  if bytes.length < 16 then .error strerror
  else if !identIsElf bytes then .error "Not an ELF binary file"
  else
    .ok {
      is64bits := bytes[4]? = some 2
      reader := { file := bytes, bigEndian := bytes[5]? = some 2 } }

def «open» (fs : FileSystem) (path : String) : Except String ElfFile :=
  match fs.fopen path with
  | none => .error (fs.strerror path)
  | some bytes => ofBytes (fs.strerror path) bytes

def elfClass (libfile : ElfFile) : ElfClass := if libfile.is64bits then .elf64 else .elf32

def getLibName (libfile : ElfFile) (scan : Nat) : Option String :=
  libfile.reader.getLibName libfile.elfClass scan

def getNeededLibs (libfile : ElfFile) (scan : Nat) : Option (List String) :=
  libfile.reader.getNeededLibs libfile.elfClass scan

end ElfFile

/-! ### Finding libraries -/

/-- `path_basename`: what follows the last separator. -/
def pathBasename (filepath : String) : String :=
  String.ofList (filepath.toList.rtakeWhile (· ≠ '/'))

def androidSystemLibs : List String :=
  ["libc.so", "libdl.so", "liblog.so", "libm.so", "libstdc++.so", "libz.so", "libandroid.so",
    "libjnigraphics.so", "libEGL.so", "libGLESv1_CM.so", "libGLESv2.so", "libOpenSLES.so",
    "libOpenMAXAL.so"]

def isAndroidSystemLib (libname : String) : Bool := libname ∈ androidSystemLibs

/-- The path of a library in one of the search paths. -/
def libraryFilePath (libname searchPath : String) : String :=
  if searchPath.toList.getLast? = some '/' ∨ searchPath.toList.getLast? = some '\\' then
    searchPath ++ libname
  else searchPath ++ "/" ++ libname

def findLibraryPath (fs : FileSystem) (libname : String) (searchPaths : List String) :
    Option String :=
  ((searchPaths.filter (· ≠ "")).map (libraryFilePath libname)).find? fs.isRegular

/-! ### The graph -/

structure GraphState where
  deps : DependencyGraph
  queue : List String
  warnings : List String

def sonameWarning (soname libpath : String) : String :=
  "WARNING: Library has invalid soname ('" ++ soname ++ "'): " ++ libpath ++ "\n"

/-- `UpdateDependencies`. The `soname` that was read is only good for the warning: the variable that
    the node is stored under is another one, and still the `libname`. -/
def updateDependencies (fs : FileSystem) (scan : Nat) (libname libpath : String) (st : GraphState) :
    Option (Except String GraphState) :=
  if libname ≠ "" ∧ libname ∈ st.deps then
    some (.error ("INTERNAL: Library already in graph: " ++ libname))
  else
    match ElfFile.open fs libpath with
    | .error error =>
      some (.ok { st with
        deps := st.deps.insert libname { type := .error, value := error, neededLibs := [] } })
    | .ok libfile => do
      let soname ← libfile.getLibName scan
      let needed ← libfile.getNeededLibs scan
      some (.ok {
        deps := st.deps.insert libname { type := .path, value := libpath, neededLibs := needed }
        queue := st.queue ++ needed
        warnings :=
          if soname ≠ "" ∧ soname ≠ libname then st.warnings ++ [sonameWarning soname libpath]
          else st.warnings })

/-- The body of the loop, with the name taken from the queue. -/
def buildRound (fs : FileSystem) (searchPaths : List String) (scan : Nat) (libname : String)
    (st : GraphState) : Option (Except String GraphState) :=
  if libname ∈ st.deps then some (.ok st)
  else
    match findLibraryPath fs libname searchPaths with
    | some libpath => updateDependencies fs scan libname libpath st
    | none =>
      if isAndroidSystemLib libname then
        some (.ok { st with
          deps := st.deps.insert libname { type := .system, value := libname, neededLibs := [] } })
      else
        some (.ok { st with
          deps := st.deps.insert libname
            { type := .error, value := "Could not find library", neededLibs := [] }
          warnings := st.warnings ++ ["WARNING: Could not find library: " ++ libname ++ "\n"] })

def buildLoop (fs : FileSystem) (searchPaths : List String) (scan : Nat) :
    Nat → GraphState → Option (Except String GraphState)
  | 0, _ => none
  | fuel + 1, st =>
    match st.queue with
    | [] => some (.ok st)
    | libname :: queue =>
      match buildRound fs searchPaths scan libname { st with queue } with
      | some (.ok st) => buildLoop fs searchPaths scan fuel st
      | stopped => stopped

def buildDependencyGraph (fs : FileSystem) (scan fuel : Nat) (rootLibpath : String)
    (libSearchPath : List String) : Option (Except String GraphState) :=
  match updateDependencies fs scan (pathBasename rootLibpath) rootLibpath
      { deps := ∅, queue := [], warnings := [] } with
  | some (.ok st) => buildLoop fs libSearchPath scan fuel st
  | stopped => stopped

end CrystaxNdk.NdkDepends
