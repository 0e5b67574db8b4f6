import CrystaxNdk.Lib.Runs
import CrystaxNdk.CrazyLinker.LibraryList

/-!
# `RDebug` — the debugger's list of libraries

`crazy_linker_rdebug.cpp` and the part of `crazy_linker_api.cpp` that registers a callback poster.
A debugger finds the loaded libraries in a list that the system linker keeps, one `link_map` for
each of them, and the linker enters its own libraries there: the `link_map` is a field of the
`SharedLibrary`. With a poster registered, a change of the list is not made at once but posted for
another thread. The poster may refuse.

`LibraryList` has logged, in order, what the linker does. `Debugger` goes through such a log event
by event, while the other thread executes what was posted, in the order it was posted, whenever it
likes.
-/

namespace CrystaxNdk.CrazyLinker

open Lib

/-- Where a `link_map` is: with the system linker, or in one of our libraries. -/
inductive LinkMap
  | system (entry : Nat)
  | library (lib : LibPtr)
deriving DecidableEq

inductive RState
  | consistent
  | add
  | delete
deriving DecidableEq

/-- `RDebugRunnable`: a call of `AddEntryImpl` or `DelEntryImpl`. -/
inductive Callback
  | addEntry (lib : LibPtr)
  | delEntry (lib : LibPtr)
deriving DecidableEq

def Callback.lib : Callback → LibPtr
  | .addEntry lib => lib
  | .delEntry lib => lib

/-- `RDebug`, the `struct r_debug` it may find, and the links of the `link_map`s. `found` says
    whether `Init` finds one, `rDebug` whether `r_debug_` is not `NULL`. -/
structure RDebug where
  init : Bool
  found : Bool
  rDebug : Bool
  rMap : Option LinkMap
  rState : RState
  lNext : LinkMap → Option LinkMap
  lPrev : LinkMap → Option LinkMap

namespace RDebug

/-- `RDebug()`, over the list of the system. -/
def create (found : Bool) (rMap : Option LinkMap) (rState : RState)
    (lNext lPrev : LinkMap → Option LinkMap) : RDebug where
  init := false
  found := found
  rDebug := false
  rMap := rMap
  rState := rState
  lNext := lNext
  lPrev := lPrev

def ensureInit (r : RDebug) : RDebug :=
  if r.init then r else { r with init := true, rDebug := r.found }

def addEntryImpl (r : RDebug) (entry : LinkMap) : RDebug :=
  let r := r.ensureInit
  if r.rDebug then
    let r := { r with rState := .add }
    match r.rMap.bind r.lNext with
    | none => { r with rDebug := false }
    | some before =>
      match r.lNext before with
      | none => { r with rDebug := false }
      | some after =>
        { r with
          lPrev := Function.update (Function.update r.lPrev entry (some before)) after (some entry)
          lNext := Function.update (Function.update r.lNext entry (some after)) before (some entry)
          rState := .consistent }
  else r

/-- `DelEntryImpl`. It does not `Init`. -/
def delEntryImpl (r : RDebug) (entry : LinkMap) : RDebug :=
  if r.rDebug then
    let r := { r with rState := .delete }
    let lNext := assign r.lNext (r.lPrev entry) (r.lNext entry)
    let lPrev := assign r.lPrev (lNext entry) (r.lPrev entry)
    { r with
      rMap := if r.rMap = some entry then lNext entry else r.rMap
      lPrev := Function.update lPrev entry none
      lNext := Function.update lNext entry none
      rState := .consistent }
  else r

def run (r : RDebug) : Callback → RDebug
  | .addEntry lib => r.addEntryImpl (.library lib)
  | .delEntry lib => r.delEntryImpl (.library lib)

def IsEntry (r : RDebug) (entry : LinkMap) : Prop :=
  ∃ first, r.rMap = some first ∧
    Relation.ReflTransGen (fun a b => r.lNext a = some b) first entry

end RDebug

/-- The list, the callbacks that were posted, what the linker will do, and the libraries it has
    deleted. -/
structure Debugger where
  rdebug : RDebug
  pending : List Callback
  todo : List Event
  deleted : List LibPtr

/-- One event of the log, with whether a callback for it is posted, or the next callback. -/
inductive Action
  | linker (posted : Bool)
  | callback
deriving DecidableEq

inductive Report
  | ran (callback : Callback)
  | posted (callback : Callback)
  | other
deriving DecidableEq

namespace Debugger

def initial (rdebug : RDebug) (log : List Event) : Debugger := ⟨rdebug, [], log, []⟩

def runOrDelay (d : Debugger) (posted : Bool) (callback : Callback) : Debugger × Report :=
  if posted then ({ d with pending := d.pending ++ [callback] }, .posted callback)
  else ({ d with rdebug := d.rdebug.run callback }, .ran callback)

def step (d : Debugger) : Action → Option (Debugger × Report)
  | .linker posted =>
    match d.todo with
    | [] => none
    | .addEntry lib :: todo => some ({ d with todo }.runOrDelay posted (.addEntry lib))
    | .delEntry lib :: todo => some ({ d with todo }.runOrDelay posted (.delEntry lib))
    | .deleteLibrary lib :: todo => some ({ d with todo, deleted := lib :: d.deleted }, .other)
    | _ :: todo => some ({ d with todo }, .other)
  | .callback =>
    match d.pending with
    | [] => none
    | callback :: pending =>
      some ({ d with pending, rdebug := d.rdebug.run callback }, .ran callback)

end Debugger

/-! ## The calls that the linker gets -/

/-- One call of a client, with any context: `crazy_library_open`, `crazy_library_find_by_name`,
    `crazy_library_find_from_address`, which hands out some known view like the one before it, or
    `crazy_library_close_with_context`. -/
inductive ApiCall (sys : System) (st : LibraryList) : LibraryList → Prop
  | opens {search : SearchPathList} {setJavaVM : SharedLibrary → Bool} {fuel : Nat}
      {libName : CString} {loadAddress fileOffset : Nat} {st' : LibraryList} {wrap : Option ViewPtr}
      (h : crazyLibraryOpen sys search setJavaVM fuel st libName loadAddress fileOffset =
        some (st', wrap)) : ApiCall sys st st'
  | finds {libraryName : CString} {st' : LibraryList} {wrap : ViewPtr}
      (h : crazyLibraryFindByName st libraryName = some (st', wrap)) : ApiCall sys st st'
  | findsFromAddress {wrap : LibraryView} (h : wrap ∈ st.knownLibraries) :
      ApiCall sys st (st.addRef wrap.ptr)
  | closes {fuel : Nat} {wrap : ViewPtr} {st' : LibraryList}
      (h : st.unloadLibrary fuel wrap = some st') : ApiCall sys st st'

end CrystaxNdk.CrazyLinker
