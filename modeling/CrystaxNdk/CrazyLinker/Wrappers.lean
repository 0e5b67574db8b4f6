import CrystaxNdk.CrazyLinker.LibraryLookup

/-!
# `dlopen` and its like for wrapped libraries

`crazy_linker_wrappers.cpp`, with the error messages of a thread from `crazy_linker_thread.cpp`. A
call passes at most one message to `SetError`, and does it at its end, so the wrappers return the
message and `ThreadData.record` stores it. What a call asks the system and the rest of the process
is a `WrapEnv`, one for each call. A wrapper has no result (`none`) where it would read a view that
is not there any more, or the fuel of the linker is used up.
-/

namespace CrystaxNdk.CrazyLinker

open Lib

variable {a : Arch}

/-! ## `ThreadData` -/

/-- The two buffers, each with the characters before its NUL, and the one `dlerror_` points to. -/
structure ThreadData where
  buffers : Bool → CString
  current : Bool

namespace ThreadData

def init : ThreadData := ⟨fun _ => [], false⟩

/-- What `vsnprintf` leaves of a text; `kBufferSize` is 512. -/
def store (t : ThreadData) (text : CString) : ThreadData :=
  { t with buffers := Function.update t.buffers t.current (text.take 511) }

def getError (t : ThreadData) : Option Bool := some t.current

def swapErrorBuffers (t : ThreadData) : ThreadData where
  buffers := Function.update t.buffers (!t.current) []
  current := !t.current

end ThreadData

/-- What `vsnprintf` makes of a format that comes without arguments. One without conversions stays
    as it is. -/
structure Printf where
  expand : CString → CString
  expand_plain : ∀ fmt, '%' ∉ fmt → expand fmt = fmt

/-- What `SetErrorArgs` gets: a format of the linker with its arguments put in, or the answer of the
    system's `dlerror` as the format. -/
inductive Message where
  | formatted (text : CString)
  | system (dlerror : Option CString)

def ThreadData.record (t : ThreadData) (printf : Printf) : Message → ThreadData
  | .formatted text => t.store text
  | .system none => t.store []
  | .system (some fmt) => t.store (printf.expand fmt)

/-! ## The system -/

/-- `Dl_info`. The name of a symbol is a pointer: for a crazy library, into its string table. -/
structure DlInfo (a : Arch) where
  dliFname : CString
  dliFbase : Addr a
  dliSname : Option Nat
  dliSaddr : Addr a

/-- What a call finds around it. -/
structure WrapEnv (a : Arch) where
  sys : System
  search : SearchPathList
  source : SymbolSource a
  view : LibPtr → ElfView a
  symbols : LibPtr → SymbolTables a
  /-- The system's `dlopen`, for `NULL` too, and what `dlerror` says when it fails. -/
  dlopen : Option CString → Int → Except (Option CString) Nat
  dlsymError : Option CString
  dladdr : Addr a → Int × DlInfo a
  dladdrError : Option CString
  printf : Printf
  fuel : Nat

/-- A handle. `other` is the address of something that is no `LibraryView`; where `RTLD_DEFAULT` is
    defined as `NULL`, it is `null`. -/
inductive Handle where
  | null
  | rtldDefault
  | rtldNext
  | view (ptr : ViewPtr)
  | other (address : Nat)
deriving DecidableEq

/-! ## The wrappers -/

def SymbolName.text (name : SymbolName) : CString := name.bytes.map fun b => Char.ofNat b.toNat

/-- `WrapDlerror`, which returns one of the buffers. -/
def wrapDlerror (t : ThreadData) : Option Bool × ThreadData := (t.getError, t.swapErrorBuffers)

/-- The part of `WrapDlopen` that asks the system. -/
def systemDlopen (env : WrapEnv a) (st : LibraryList) (path : Option CString) (mode : Int) :
    LibraryList × Option ViewPtr × Option Message :=
  match env.dlopen path mode with
  | .error dlerror => (st, none, some (.system dlerror))
  | .ok systemLib =>
    ((st.emit [.dlopen systemLib]).pushView (.system systemLib) (path.getD "<executable>".toList),
      some st.nextPtr, none)

/-- `WrapDlopen`. The error of the crazy linker is dropped. -/
def wrapDlopen (env : WrapEnv a) (st : LibraryList) (path : Option CString) (mode : Int) :
    Option (LibraryList × Option ViewPtr × Option Message) :=
  match path with
  | none => some (systemDlopen env st none mode)
  | some name =>
    match st.loadLibrary env.sys mode env.search env.fuel name 0 0 with
    | none => none
    | some (st, .ok wrap) => some (st, some wrap, none)
    | some (st, .error _) => some (systemDlopen env st (some name) mode)

def wrapDlsym (env : WrapEnv a) (st : LibraryList) (libHandle : Handle)
    (symbolName : Option SymbolName) : Option (Addr a × Option Message) :=
  match symbolName with
  | none => some (0, some (.formatted "dlsym: NULL symbol name".toList))
  | some name =>
    match libHandle with
    | .null => some (0, some (.formatted "dlsym: NULL library handle".toList))
    | .rtldDefault | .rtldNext =>
      some (0, some (.formatted "dlsym: RTLD_DEFAULT/RTLD_NEXT are not implemented!".toList))
    | .other address =>
      some (0, some (.formatted ("dlsym: Invalid library handle ".toList ++ pointerText address ++
        " looking for '".toList ++ name.text ++ "'".toList)))
    | .view ptr =>
      match st.view? ptr with
      | none => none
      | some wrap =>
        match wrap.type with
        | .none =>
          some (0, some (.formatted ("dlsym: Invalid library handle ".toList ++ pointerText ptr ++
            " looking for '".toList ++ name.text ++ "'".toList)))
        | .system handle =>
          let result := env.source.dlsym handle name
          some (result, if result = 0 then some (.system env.dlsymError) else none)
        | .crazy _ _ =>
          (st.findSymbolFrom env.source name (some wrap) env.fuel).map fun addr =>
            (addr, if addr = 0 then
              some (.formatted ("dlsym: Could not find '".toList ++ name.text ++
                "' from library '".toList ++ wrap.name ++ "'".toList))
            else none)

def wrapDlclose (env : WrapEnv a) (st : LibraryList) (libHandle : Handle) :
    Option (LibraryList × Int × Option Message) :=
  let invalid (address : Nat) : Option (LibraryList × Int × Option Message) :=
    some (st, -1, some (.formatted ("Invalid library handle ".toList ++ pointerText address)))
  match libHandle with
  | .null => some (st, -1, some (.formatted "NULL library handle".toList))
  -- no test keeps these two from being read as views
  | .rtldDefault | .rtldNext => none
  | .other address => invalid address
  | .view ptr =>
    match st.view? ptr with
    | none => none
    | some wrap =>
      match wrap.type with
      | .none => invalid ptr
      | .system _ | .crazy _ _ => (st.unloadLibrary env.fuel ptr).map fun st => (st, 0, none)

/-- What `WrapDladdr` says about an address in a crazy library. -/
def crazyInfo (env : WrapEnv a) (ptr : LibPtr) (lib : SharedLibrary) (address : Addr a) :
    DlInfo a :=
  let report := (env.symbols ptr).lookupNearestByAddress address (env.view ptr).loadBias
  { dliFname := lib.baseName
    dliFbase := (env.view ptr).loadAddress
    dliSname := report.map (·.symName)
    dliSaddr := (report.map (·.symAddr)).getD 0 }

def wrapDladdr (env : WrapEnv a) (st : LibraryList) (address : Addr a) :
    Int × DlInfo a × Option Message :=
  match (st.findLibraryForAddress env.view address).map LibraryView.type with
  | some (.crazy ptr lib) => (0, crazyInfo env ptr lib address, none)
  | _ =>
    let (ret, info) := env.dladdr address
    (ret, info, if ret ≠ 0 then some (.system env.dladdrError) else none)

/-! ## The calls of a thread -/

inductive DlCall where
  | dlopen (path : Option CString) (mode : Int)
  | dlsym (libHandle : Handle) (symbolName : Option SymbolName)
  | dlclose (libHandle : Handle)
  | dlerror

/-- A call of the thread, or whatever other threads do to the list before its next call. -/
inductive ThreadStep (a : Arch) where
  | call (env : WrapEnv a) (c : DlCall)
  | others (libs : LibraryList)

structure WrapState where
  libs : LibraryList
  thread : ThreadData

/-- What happens to the error of the thread. -/
inductive ErrorEvent where
  | recorded (message : Message)
  | asked

/-- What a call does to the list, and its message. -/
def DlCall.perform (env : WrapEnv a) (st : LibraryList) :
    DlCall → Option (LibraryList × Option Message)
  | .dlopen path mode =>
    (wrapDlopen env st path mode).map fun result => (result.1, result.2.2)
  | .dlsym libHandle symbolName =>
    (wrapDlsym env st libHandle symbolName).map fun result => (st, result.2)
  | .dlclose libHandle => (wrapDlclose env st libHandle).map fun result => (result.1, result.2.2)
  | .dlerror => some (st, none)

namespace WrapState

/-- The state when a wrapper returns with a message or without. -/
def returned (s : WrapState) (env : WrapEnv a) (libs : LibraryList) :
    Option Message → WrapState × Option ErrorEvent
  | none => ({ s with libs := libs }, none)
  | some message => (⟨libs, s.thread.record env.printf message⟩, some (.recorded message))

/-- The state after a step, and what happened to the error. -/
def step (s : WrapState) : ThreadStep a → Option (WrapState × Option ErrorEvent)
  | .others libs => some ({ s with libs := libs }, none)
  | .call _ .dlerror => some ({ s with thread := (wrapDlerror s.thread).2 }, some .asked)
  | .call env c => (c.perform env s.libs).map fun result => s.returned env result.1 result.2

/-- The steps one after the other, with everything that happened to the error. -/
def run (s : WrapState) : List (ThreadStep a) → Option (WrapState × List ErrorEvent)
  | [] => some (s, [])
  | c :: cs =>
    (s.step c).bind fun first =>
      (run first.1 cs).map fun rest => (rest.1, first.2.toList ++ rest.2)

end WrapState

end CrystaxNdk.CrazyLinker
