import CrystaxNdk.CrazyLinker.Names
import CrystaxNdk.Lib.Digits
import CrystaxNdk.Lib.Keyed
import CrystaxNdk.Lib.Linked

/-!
# `LibraryList` — the list of loaded libraries

`crazy_linker_library_list.cpp`, `crazy_linker_library_view.h` and the entry points of
`crazy_linker_api.cpp` over them. The state is what the class holds: the vector of views with
their reference counts, and the intrusive list of crazy libraries through `list_next_` and
`list_prev_`, one function from addresses per pointer field. What the linker does to the rest
of the process (constructors, `dlclose`, the debugger's list) is recorded in `log`, in order.

`LoadLibrary` is recursive over `DT_NEEDED` and nothing in it bounds the recursion, so the model
takes the depth it may reach as `fuel` and answers `none` when the fuel is used up; that is the
only way `loadLibrary` answers `none`. `unloadLibrary` answers `none` also at the address of a
view that is gone, where the source would read freed memory.

What lies outside the class is the structure `System`: the files, the system linker, and how
mapping and relocating one library ends.
-/

namespace CrystaxNdk.CrazyLinker

open Lib

/-- Addresses of `LibraryView` objects, the handles clients hold. -/
abbrev ViewPtr := Nat

abbrev LibPtr := Nat

/-! ## The objects -/

/-- `SharedLibrary`, as far as the list looks into it. `needed` is the sequence its
    `DependencyIterator` yields, the `DT_NEEDED` names in the order of the dynamic table. -/
structure SharedLibrary where
  fullPath : CString
  loadAddress : Nat
  needed : List CString
deriving DecidableEq, Repr

def SharedLibrary.baseName (lib : SharedLibrary) : CString := getBaseNamePtr lib.fullPath

/-- `type_` together with the pointer it selects. -/
inductive ViewType where
  | none
  | system (handle : Nat)
  | crazy (ptr : LibPtr) (lib : SharedLibrary)
deriving DecidableEq, Repr

/-- `LibraryView`. The count is the `int` of the source; a run that overflows it has no defined
    meaning there and none here. -/
structure LibraryView where
  ptr : ViewPtr
  type : ViewType
  name : CString
  refCount : Int
deriving DecidableEq, Repr

namespace LibraryView

def isCrazy (v : LibraryView) : Bool :=
  match v.type with
  | .crazy _ _ => true
  | _ => false

def getCrazy (v : LibraryView) : Option SharedLibrary :=
  match v.type with
  | .crazy _ lib => some lib
  | _ => none

/-- The `DT_NEEDED` names behind a view; a system library's are the system's business. -/
def needed (v : LibraryView) : List CString :=
  match v.type with
  | .crazy _ lib => lib.needed
  | _ => []

end LibraryView

/-- What the linker does to the process around it. -/
inductive Event where
  | dlopen (handle : Nat)
  | dlclose (handle : Nat)
  | addEntry (lib : LibPtr)
  | delEntry (lib : LibPtr)
  | callConstructors (lib : LibPtr)
  | callJniOnUnload (lib : LibPtr)
  | callDestructors (lib : LibPtr)
  | deleteLibrary (lib : LibPtr)
deriving DecidableEq, Repr

/-- `LibraryList`. `nextPtr` is the allocator: the next view and the next library live there. -/
structure LibraryList where
  knownLibraries : List LibraryView
  head : Option LibPtr
  listNext : LibPtr → Option LibPtr
  listPrev : LibPtr → Option LibPtr
  nextPtr : Nat
  log : List Event

/-! ## Errors -/

/-- The ways `LoadLibrary` fails, with what goes into the message. -/
inductive LoadError where
  | systemAtFixedAddress (loadAddress : Nat)
  | alreadyLoaded (actualAddress loadAddress : Nat)
  | systemLibrary (libName dlerror : CString)
  | cantFind (libName : CString)
  | doesntExist (fullPath : CString)
  | pathTooLong (fullPath : CString)
  | load (message : CString)
  | dependency (baseName : CString) (depError : LoadError)
  | relocate (message : CString)
deriving DecidableEq, Repr

/-- The text `Error::Format` leaves, `buff_` having room for 511 characters. -/
def LoadError.text : LoadError → CString
  | .systemAtFixedAddress loadAddress =>
    ("System library can't be loaded at fixed address ".toList ++
      Lib.hexPadded 8 loadAddress).take 511
  | .alreadyLoaded actualAddress loadAddress =>
    ("Library already loaded at @".toList ++ Lib.hexPadded 8 actualAddress ++
      ", can't load it at @".toList ++ Lib.hexPadded 8 loadAddress).take 511
  | .systemLibrary libName dlerror =>
    ("Can't load system library ".toList ++ libName ++ ": ".toList ++ dlerror).take 511
  | .cantFind libName => ("Can't find library file ".toList ++ libName).take 511
  | .doesntExist fullPath => ("Library file doesn't exist: ".toList ++ fullPath).take 511
  | .pathTooLong fullPath => ("Path too long: ".toList ++ fullPath).take 511
  | .load message => message.take 511
  | .dependency baseName depError =>
    ("When loading ".toList ++ baseName ++ ": ".toList ++ depError.text).take 511
  | .relocate message => message.take 511

/-! ## The system around the linker -/

/-- A file that may hold libraries. `elf` is what the ELF code of the linker makes of it at a
    file offset: the `DT_NEEDED` names of a library that maps and parses, or the message of the
    check it fails. -/
structure LibFile where
  path : CString
  elf : Nat → Except CString (List CString)

/-- Everything `LoadLibrary` asks about. The kernel and the system linker may answer
    differently from one moment to the next, so their answers also depend on `nextPtr`, which
    every library that gets added moves on. -/
structure System where
  files : List LibFile
  cwd : CString
  /-- `getcwd` writes a C string … -/
  cwd_noNul : '\x00' ∉ cwd
  /-- … that names a directory. -/
  cwd_dir : ∀ f ∈ files, f.path ≠ cwd
  dlopen : Nat → CString → Int → Except CString Nat
  loadAt : Nat → CString → Nat → Nat → Except CString Nat
  relocate : SharedLibrary → List LibraryView → Except CString Unit

namespace System

def pathIsFile (sys : System) (path : CString) : Bool := sys.files.any (·.path = path)

/-- The path `LoadLibrary` loads `lib_name` from. A relative path is appended to the directory
    buffer *behind* its `'\0'`, so what `PathIsFile` gets to see is the directory alone. -/
def fullPath (sys : System) (search : SearchPathList) (libName : CString) :
    Except LoadError CString :=
  if '/' ∉ libName then
    match search.findFile sys.pathIsFile libName with
    | none => .error (.cantFind libName)
    | some path => .ok path
  else
    let buffer :=
      if libName.head? ≠ some '/' then
        let dir := getCurrentDirectory sys.cwd
        (if dir ≠ [] ∧ dir.getLast? ≠ some '/' then dir ++ ['/'] else dir) ++ libName
      else libName
    if sys.pathIsFile (cStr buffer) then .ok (cStr buffer)
    else .error (.doesntExist (cStr buffer))

/-- `SharedLibrary::Load`. `full_path_` has room for 511 characters. -/
def load (sys : System) (now : Nat) (fullPath : CString) (loadAddress fileOffset : Nat) :
    Except LoadError SharedLibrary :=
  if 512 ≤ fullPath.length then .error (.pathTooLong fullPath)
  else
    match sys.files.find? (·.path = fullPath) with
    | none => .error (.load "Can't open file".toList)
    | some file =>
      match file.elf fileOffset with
      | .error message => .error (.load message)
      | .ok needed =>
        match sys.loadAt now fullPath loadAddress fileOffset with
        | .error message => .error (.load message)
        | .ok address => .ok { fullPath, loadAddress := address, needed }

end System

/-! ## Elementary operations -/

namespace LibraryList

def empty : LibraryList where
  knownLibraries := []
  head := none
  listNext := fun _ => none
  listPrev := fun _ => none
  nextPtr := 1
  log := []

/-- `FindKnownLibrary`: the first view whose *name* is the base name of `name`. -/
def findKnownLibrary (st : LibraryList) (name : CString) : Option LibraryView :=
  st.knownLibraries.find? fun wrap => getBaseNamePtr name = wrap.name

def findLibraryByName (st : LibraryList) (baseName : CString) : Option LibraryView :=
  if '/' ∈ baseName then none
  else st.knownLibraries.find? fun wrap => baseName = wrap.name

def view? (st : LibraryList) (wrap : ViewPtr) : Option LibraryView :=
  st.knownLibraries.find? (·.ptr = wrap)

def bumpRef (st : LibraryList) (wrap : ViewPtr) (n : Int) : LibraryList :=
  { st with
    knownLibraries := modifyKey LibraryView.ptr wrap
      (fun v => { v with refCount := v.refCount + n }) st.knownLibraries }

def addRef (st : LibraryList) (wrap : ViewPtr) : LibraryList := st.bumpRef wrap 1

def emit (st : LibraryList) (events : List Event) : LibraryList :=
  { st with log := st.log ++ events }

/-- `new LibraryView()`, `SetSystem` or `SetCrazy`, and `PushBack`. -/
def pushView (st : LibraryList) (type : ViewType) (name : CString) : LibraryList :=
  { st with
    knownLibraries :=
      st.knownLibraries ++ [{ ptr := st.nextPtr, type, name, refCount := 1 }]
    nextPtr := st.nextPtr + 1 }

/-- The crazy library at `lib` becomes the head of the intrusive list. -/
def linkLibrary (st : LibraryList) (lib : LibPtr) : LibraryList :=
  { st with
    listNext := Function.update st.listNext lib st.head
    listPrev := assign (Function.update st.listPrev lib none) st.head (some lib)
    head := some lib }

/-- The crazy library at `lib` leaves the intrusive list. -/
def unlinkLibrary (st : LibraryList) (lib : LibPtr) : LibraryList :=
  let listPrev := assign st.listPrev (st.listNext lib) (st.listPrev lib)
  let listNext := assign st.listNext (listPrev lib) (st.listNext lib)
  { st with
    listPrev, listNext
    head := if st.head = some lib then listNext lib else st.head }

def removeView (st : LibraryList) (wrap : LibraryView) : LibraryList :=
  let st := { st with knownLibraries := removeKey LibraryView.ptr wrap.ptr st.knownLibraries }
  match wrap.type with
  | .none => st
  | .system handle => st.emit [.dlclose handle]
  | .crazy ptr _ => st.emit [.deleteLibrary ptr]

/-! ## `LoadLibrary` -/

/-- The loop over the dependencies: load one after the other, stop at the first that fails. -/
def loadDependencies
    (load : LibraryList → CString → Option (LibraryList × Except LoadError ViewPtr)) :
    LibraryList → List CString → Option (LibraryList × Except LoadError (List ViewPtr))
  | st, [] => some (st, .ok [])
  | st, name :: names =>
    match load st name with
    | none => none
    | some (st, .error e) => some (st, .error e)
    | some (st, .ok dependency) =>
      match loadDependencies load st names with
      | none => none
      | some (st, .error e) => some (st, .error e)
      | some (st, .ok dependencies) => some (st, .ok (dependency :: dependencies))

/-- A library of this base name is known: hand it out once more, unless an address was asked
    for that it is not at. -/
def openKnown (st : LibraryList) (wrap : LibraryView) (loadAddress : Nat) :
    LibraryList × Except LoadError ViewPtr :=
  if loadAddress ≠ 0 then
    match wrap.getCrazy with
    | none => (st, .error (.systemAtFixedAddress loadAddress))
    | some lib =>
      if lib.loadAddress ≠ loadAddress then
        (st, .error (.alreadyLoaded lib.loadAddress loadAddress))
      else (st.addRef wrap.ptr, .ok wrap.ptr)
  else (st.addRef wrap.ptr, .ok wrap.ptr)

/-- A system library, through the system's `dlopen`. The view is named `lib_name`, directory
    and all. -/
def openSystem (sys : System) (st : LibraryList) (libName : CString) (dlopenMode : Int) :
    LibraryList × Except LoadError ViewPtr :=
  match sys.dlopen st.nextPtr libName dlopenMode with
  | .error dlerror => (st, .error (.systemLibrary libName dlerror))
  | .ok handle => ((st.emit [.dlopen handle]).pushView (.system handle) libName, .ok st.nextPtr)

/-- `SharedLibrary::Load` and what precedes it: find the file and map it. -/
def openFile (sys : System) (st : LibraryList) (search : SearchPathList) (libName : CString)
    (loadAddress fileOffset : Nat) : Except LoadError SharedLibrary :=
  match sys.fullPath search libName with
  | .error e => .error e
  | .ok path => sys.load st.nextPtr path loadAddress fileOffset

/-- From the relocation on: the debugger is told, the library enters the intrusive list and the
    vector, and its constructors run. The view is named `lib_name`, directory and all. -/
def finishLoad (sys : System) (st : LibraryList) (lib : SharedLibrary)
    (dependencies : List ViewPtr) (libName : CString) :
    LibraryList × Except LoadError ViewPtr :=
  match sys.relocate lib (dependencies.filterMap st.view?) with
  | .error message => (st, .error (.relocate message))
  | .ok () =>
    let ptr := st.nextPtr
    let st := (st.emit [.addEntry ptr]).linkLibrary ptr
    let st := st.pushView (.crazy ptr lib) libName
    (st.emit [.callConstructors ptr], .ok ptr)

/-- `LoadLibrary`. Dependencies are loaded at any address, from offset `0`, with the mode and
    the search path of the library that needs them. -/
def loadLibrary (sys : System) (dlopenMode : Int) (search : SearchPathList) :
    Nat → LibraryList → CString → Nat → Nat → Option (LibraryList × Except LoadError ViewPtr)
  | 0, _, _, _, _ => none
  | fuel + 1, st, libName, loadAddress, fileOffset =>
    match st.findKnownLibrary libName with
    | some wrap => some (st.openKnown wrap loadAddress)
    | none =>
      if isSystemLibrary libName then some (openSystem sys st libName dlopenMode)
      else
        match openFile sys st search libName loadAddress fileOffset with
        | .error e => some (st, .error e)
        | .ok lib =>
          match loadDependencies
              (fun st name => loadLibrary sys dlopenMode search fuel st name 0 0)
              st lib.needed with
          | none => none
          | some (st, .error e) =>
            some (st, .error (.dependency (getBaseNamePtr libName) e))
          | some (st, .ok dependencies) => some (finishLoad sys st lib dependencies libName)

/-! ## `UnloadLibrary` -/

/-- The loop over the dependencies of a library that goes away. A name that is not known is
    passed over. -/
def unloadDependencies (unload : LibraryList → ViewPtr → Option LibraryList) :
    LibraryList → List CString → Option LibraryList
  | st, [] => some st
  | st, name :: names =>
    match st.findKnownLibrary name with
    | none => unloadDependencies unload st names
    | some dependency =>
      match unload st dependency.ptr with
      | none => none
      | some st => unloadDependencies unload st names

/-- `UnloadLibrary`. The view leaves the vector only after its dependencies were unloaded. -/
def unloadLibrary : Nat → LibraryList → ViewPtr → Option LibraryList
  | 0, _, _ => none
  | fuel + 1, st, wrap =>
    match st.view? wrap with
    | none => none
    | some v =>
      match v.type with
      | .none => some st
      | .system _ =>
        let st := st.bumpRef wrap (-1)
        if v.refCount - 1 ≠ 0 then some st else some (st.removeView v)
      | .crazy ptr lib =>
        let st := st.bumpRef wrap (-1)
        if v.refCount - 1 ≠ 0 then some st
        else
          let st := (st.unlinkLibrary ptr).emit [.callJniOnUnload ptr, .callDestructors ptr]
          match unloadDependencies (unloadLibrary fuel) st lib.needed with
          | none => none
          | some st => some ((st.emit [.delEntry ptr]).removeView v)

end LibraryList

/-! ## The API over it -/

/-- `crazy_library_find_by_name`; `none` is `CRAZY_STATUS_FAILURE`. -/
def crazyLibraryFindByName (st : LibraryList) (libraryName : CString) :
    Option (LibraryList × ViewPtr) :=
  match st.findLibraryByName libraryName with
  | none => none
  | some wrap => some (st.addRef wrap.ptr, wrap.ptr)

/-- `crazy_library_open`. `setJavaVM` is `SharedLibrary::SetJavaVM` at the context's VM, the
    constant `true` for a context without one; a library that refuses the VM is closed again. -/
def crazyLibraryOpen (sys : System) (search : SearchPathList)
    (setJavaVM : SharedLibrary → Bool) (fuel : Nat) (st : LibraryList) (libName : CString)
    (loadAddress fileOffset : Nat) : Option (LibraryList × Option ViewPtr) :=
  -- `RTLD_NOW` is `2`
  match st.loadLibrary sys 2 search fuel libName loadAddress fileOffset with
  | none => none
  | some (st, .error _) => some (st, none)
  | some (st, .ok wrap) =>
    match (st.view? wrap).bind LibraryView.getCrazy with
    | none => some (st, some wrap)
    | some lib =>
      if setJavaVM lib then some (st, some wrap)
      else (st.unloadLibrary fuel wrap).map fun st => (st, none)

end CrystaxNdk.CrazyLinker
