import CrystaxNdk.CrazyLinker.ElfSymbols
import CrystaxNdk.CrazyLinker.LibraryList
import CrystaxNdk.Lib.Reach
import CrystaxNdk.CrazyLinker.ElfView

/-!
# Lookups in the list of libraries

`FindSymbolFrom` of `crazy_linker_library_list.cpp`, with its `SymbolLookupState`, looks for a
symbol in a library and its dependencies. The work queue and the visited set hold pointers to views;
here they hold the views, which have their addresses in them. `from` itself is queued without being
put into the set. The other lookups are by address, for `dladdr` and for the unwinder.
-/

namespace CrystaxNdk.CrazyLinker

open Lib

/-- What the libraries of the list answer when they are asked for a symbol: `LookupSymbolEntry` and
    `load_bias` of the crazy ones, `dlsym` of the handles of the others. -/
structure SymbolSource (a : Arch) where
  lookupSymbolEntry : LibPtr → SymbolName → Option (Sym a)
  loadBias : LibPtr → Addr a
  dlsym : Nat → SymbolName → Addr a
  -- `LookupByName` skips everything else.
  bound : ∀ lib name sym, lookupSymbolEntry lib name = some sym →
    sym.bind = STB_GLOBAL ∨ sym.bind = STB_WEAK

/-- `SymbolLookupState`. `foundAddr` is also where the address from a system library is kept. -/
structure SymbolLookupState (a : Arch) where
  foundAddr : Option (Addr a)
  weakAddr : Addr a
  weakCount : Nat
deriving DecidableEq

namespace SymbolLookupState

variable {a : Arch}

def init : SymbolLookupState a := ⟨none, 0, 0⟩

def checkSymbol (source : SymbolSource a) (symbol : SymbolName) (state : SymbolLookupState a)
    (lib : LibPtr) : SymbolLookupState a × Bool :=
  match source.lookupSymbolEntry lib symbol with
  | none => (state, false)
  | some entry =>
    let address := source.loadBias lib + entry.stValue
    if entry.bind = STB_GLOBAL then ({ state with foundAddr := some address }, true)
    else
      let state := { state with weakCount := state.weakCount + 1 }
      if state.weakCount = 1 then ({ state with weakAddr := address }, false) else (state, false)

/-- What the loop does with the library at the front of the queue; `true` to return. -/
def visit (source : SymbolSource a) (symbol : SymbolName) (state : SymbolLookupState a)
    (lib : LibraryView) : SymbolLookupState a × Bool :=
  match lib.type with
  | .crazy ptr _ => state.checkSymbol source symbol ptr
  | .system handle =>
    let addr := source.dlsym handle symbol
    if addr ≠ 0 then ({ state with foundAddr := some addr }, true) else (state, false)
  | .none => (state, false)

def result (state : SymbolLookupState a) : Addr a :=
  match state.foundAddr with
  | some addr => addr
  | none => if 1 ≤ state.weakCount then state.weakAddr else 0

end SymbolLookupState

namespace LibraryList

variable {a : Arch}

/-- What the `DependencyIterator` of a view yields that is a known library. -/
def dependencies (st : LibraryList) (lib : LibraryView) : List LibraryView :=
  lib.needed.filterMap st.findKnownLibrary

def findSymbolFrom (st : LibraryList) (source : SymbolSource a) (symbol : SymbolName)
    (from? : Option LibraryView) (fuel : Nat) : Option (Addr a) :=
  match from? with
  | none => some 0
  | some lib =>
    (workQueue st.dependencies (SymbolLookupState.visit source symbol) fuel .init [lib] []).map
      SymbolLookupState.result

end LibraryList

/-!
## Lookups by address, and the loops over the crazy libraries

`FindLibraryForAddress` goes through the vector of views. `FindArmExIdx` and `IteratePhdr`, which
the unwinder calls, follow `list_next_` from `head_`; the first is compiled for ARM and the second
for the others. What they read of a `SharedLibrary` is given for each pointer: its view, its
`link_map_`, its exception table. As in `LibraryList`, the loops along `list_next_` take fuel.
-/

variable {a : Arch}

/-! ### Addresses -/

/-- `ContainsAddress`. The end counts as inside. -/
def ElfView.containsAddress (view : ElfView a) (address : Addr a) : Bool :=
  decide (view.loadAddress ≤ address) && decide (address ≤ view.loadAddress + view.loadSize)

structure ArmExidx (a : Arch) where
  table : Addr a
  count : Addr a

/-- What `FindArmExIdx` returns and stores for a library; `*count` is an `int`. -/
def exidxResult (exidx : LibPtr → ArmExidx a) (lib : LibPtr) : Addr a × Int :=
  ((exidx lib).table, ((exidx lib).count.setWidth 32).toInt)

namespace LibraryList

def findLibraryForAddress (st : LibraryList) (view : LibPtr → ElfView a) (address : Addr a) :
    Option LibraryView :=
  st.knownLibraries.find? fun wrap =>
    match wrap.type with
    | .crazy ptr _ => (view ptr).containsAddress address
    | _ => false

def findArmExIdx (st : LibraryList) (view : LibPtr → ElfView a) (exidx : LibPtr → ArmExidx a)
    (pc : Addr a) (fuel : Nat) : Option (Addr a × Int) :=
  (follow st.listNext
    (fun found lib =>
      if (view lib).containsAddress pc then (some (exidxResult exidx lib), true)
      else (found, false))
    fuel none st.head).map fun found => found.getD (0, 0)

end LibraryList

/-! ### What the unwinder is told -/

structure LinkMapData (a : Arch) where
  lAddr : Addr a
  lName : CString
  lLd : Addr a
deriving DecidableEq

def ElfView.linkMap (view : ElfView a) (baseName : CString) : LinkMapData a where
  lAddr := view.loadAddress
  lName := baseName
  lLd := view.dynamic

structure DlPhdrInfo (a : Arch) where
  dlpiAddr : Addr a
  dlpiName : CString
  dlpiPhdr : Addr a
  dlpiPhnum : Nat
deriving DecidableEq

/-- What `IteratePhdr` says about one library. -/
def phdrInfo (linkMap : LinkMapData a) (view : ElfView a) : DlPhdrInfo a where
  dlpiAddr := linkMap.lAddr
  dlpiName := linkMap.lName
  dlpiPhdr := view.phdr
  dlpiPhnum := view.phdrCount

/-- `IteratePhdr`: what was passed to the callback, and the result. The callback has `data`, so its
    answer may depend on what it was passed before. -/
def LibraryList.iteratePhdr (st : LibraryList) (linkMap : LibPtr → LinkMapData a)
    (view : LibPtr → ElfView a) (callback : List (DlPhdrInfo a) → DlPhdrInfo a → Int)
    (fuel : Nat) : Option (List (DlPhdrInfo a) × Int) :=
  follow st.listNext
    (fun s lib =>
      let info := phdrInfo (linkMap lib) (view lib)
      let result := callback s.1 info
      ((s.1 ++ [info], result), decide (result ≠ 0)))
    fuel ([], 0) st.head

end CrystaxNdk.CrazyLinker
