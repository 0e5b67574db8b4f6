import CrystaxNdk.Vfs.AssetDriver
import CrystaxNdk.Vfs.FdTable

/-!
# Calls of the client

`open`, `dup`, `socket` and the others: each finds a driver, has it do the work, and keeps the
descriptor that the driver answers in the table. An assets driver has a table of its own, with a
stream for a file that is read from the assets, or a descriptor of the driver below it for one that
has been copied there.

What the system and Java answer comes with the call. A new descriptor of the system is one that is
not open; a call with an answer that cannot be has no outcome, as one that C leaves undefined.
-/

namespace CrystaxNdk.Vfs

open Lib

/-- Why a call has no outcome. -/
inductive Stop
  | undefined (fault : IoFault)
  | impossible
deriving DecidableEq

def checkIo {α : Type} (x : Except IoFault α) : Except Stop α := x.mapError .undefined

def checkPath {α : Type} (x : Except Fault α) : Except Stop α :=
  x.mapError fun fault => .undefined (.path fault)

/-! ## Drivers -/

/-- What an `fd_entry_t` holds open: a stream, if `obj` is set, and a descriptor of the driver. -/
structure EntryHandles where
  obj : Bool
  extfd : Int
deriving DecidableEq

def EntryHandles.free : EntryHandles := ⟨false, -1⟩

def AssetEntry.handles {w : Width} (e : AssetEntry w) : EntryHandles := ⟨e.obj.isSome, e.extfd⟩

/-- The descriptors the system has open, and the tables of the assets drivers. -/
structure Descriptors (n : Nat) where
  kernel : Finset Nat
  assets : Nat → Fin n → EntryHandles

/-- What comes of `open` in a driver: it fails, or there is a stream, or the driver below is asked,
    or, if this is the system, what it answers. -/
inductive Route
  | fails
  | stream
  | underlying
  | system (fd : Option Nat)
deriving DecidableEq

namespace Descriptors

variable {n : Nat}

/-- The loop of `alloc_fd` in an assets driver. -/
def freeEntry (s : Descriptors n) (addr : Nat) : Option (Fin n) :=
  Fin.find? fun fd => !(s.assets addr fd).obj && (s.assets addr fd).extfd = -1

def setEntry (s : Descriptors n) (addr : Nat) (fd : Fin n) (e : EntryHandles) : Descriptors n :=
  ⟨s.kernel, Function.update s.assets addr (Function.update (s.assets addr) fd e)⟩

/-- Which entry is free can be told from what the entries hold open. -/
theorem freeEntry_handles {w : Width} (t : AssetTable w n) (kernel : Finset Nat) (addr : Nat) :
    freeEntry ⟨kernel, fun _ fd => (t fd).handles⟩ addr = t.freeSlot := by
  unfold freeEntry AssetTable.freeSlot AssetEntry.handles
  congr 1
  funext fd
  cases hobj : (t fd).obj <;> simp [hobj]

def initEntries (s : Descriptors n) (addr : Nat) : Descriptors n :=
  ⟨s.kernel, Function.update s.assets addr fun _ => .free⟩

/-- A system call that answers a new descriptor. -/
def newFd (s : Descriptors n) : Option Nat → Except Stop (Descriptors n × Int)
  | none => .ok (s, -1)
  | some fd =>
    if fd ∈ s.kernel then .error .impossible else .ok (⟨insert fd s.kernel, s.assets⟩, fd)

def closeSystem (s : Descriptors n) (fd : Int) : Descriptors n × Int :=
  if 0 ≤ fd ∧ fd.toNat ∈ s.kernel then (⟨s.kernel.erase fd.toNat, s.assets⟩, 0) else (s, -1)

/-- `driver->close(fd)`, with the drivers from the last to the first. -/
def closeFile : List Driver → Descriptors n → DriverPtr → Int → Except Stop (Descriptors n × Int)
  | _, s, .system, fd => .ok (s.closeSystem fd)
  | [], _, .loaded _, _ => .error (.undefined .unloadedDriver)
  | d :: below, s, .loaded addr, fd =>
    if d.addr = addr then
      if h : 0 ≤ fd ∧ fd.toNat < n then
        let e := s.assets addr ⟨fd.toNat, h.2⟩
        let s := s.setEntry addr ⟨fd.toNat, h.2⟩ .free
        if 0 ≤ e.extfd then do
          let closed ← closeFile below s d.underlying e.extfd
          return (closed.1, 0)
        else .ok (s, 0)
      else .ok (s, -1)
    else closeFile below s (.loaded addr) fd

def openFile : List Driver → Descriptors n → DriverPtr → List Route →
    Except Stop (Descriptors n × Int)
  | _, s, .system, [.system fd] => s.newFd fd
  | _, _, .system, _ => .error .impossible
  | [], _, .loaded _, _ => .error (.undefined .unloadedDriver)
  | d :: below, s, .loaded addr, routes =>
    if d.addr = addr then
      match routes with
      | [.fails] => .ok (s, -1)
      | [.stream] =>
        match s.freeEntry addr with
        | none => .ok (s, -1)
        | some fd => .ok (s.setEntry addr fd ⟨true, -1⟩, fd)
      | .underlying :: routes => do
        let opened ← openFile below s d.underlying routes
        match if opened.2 < 0 then none else opened.1.freeEntry addr with
        | none =>
          let closed ← closeFile below opened.1 d.underlying opened.2
          return (closed.1, -1)
        | some fd => return (opened.1.setEntry addr fd ⟨false, opened.2⟩, fd)
      | _ => .error .impossible
    else openFile below s (.loaded addr) routes

/-- `driver->dup(extfd)` and `driver->fcntl(extfd, F_DUPFD, …)`, which assets do not have. -/
def dupFile (s : Descriptors n) (driver : DriverPtr) (extfd : Int) (answer : Option Nat) :
    Except Stop (Descriptors n × Int) :=
  match driver with
  | .system => if 0 ≤ extfd ∧ extfd.toNat ∈ s.kernel then s.newFd answer else .ok (s, -1)
  | .loaded _ => .ok (s, -1)

/-- `driver->dup2(fd, fd2)`; the system may refuse. -/
def dup2File (s : Descriptors n) (driver : DriverPtr) (fd fd2 : Int) (granted : Bool) :
    Descriptors n × Int :=
  match driver with
  | .system =>
    if 0 ≤ fd ∧ fd.toNat ∈ s.kernel ∧ 0 ≤ fd2 ∧ granted then
      (⟨insert fd2.toNat s.kernel, s.assets⟩, fd2)
    else (s, -1)
  | .loaded _ => (s, -1)

end Descriptors

/-- What `opendir` or `fdopendir` of the system answers, and `dirfd` for it. -/
structure DirAnswer where
  extdirp : DirPtr
  extfd : Int
deriving DecidableEq

def fdopendirAnswer (answer : DirAnswer) : DriverPtr → DirPtr
  | .system => answer.extdirp
  | .loaded _ => 0

def dirfdAnswer (answer : DirAnswer) : DriverPtr → Int
  | .system => answer.extfd
  | .loaded _ => -1

/-! ## The library -/

structure World (n : Nat) where
  mounts : MountTable
  fds : FdTable n
  drivers : Descriptors n

inductive FileCall
  | open (cwd : Option Cwd) (path : Option CString) (routes : List Route)
  | close (fd : Int)
  | dup (fd : Int) (answer : Option Nat)
  | dup2 (fd fd2 : Int) (granted : Bool)
  | fcntlDup (fd : Int) (answer : Option Nat)
  | pipe (answer : Option (Nat × Nat))
  | socket (answer : Option Nat)
  | accept (sockfd : Int) (answer : Option Nat)
  | connect (sockfd : Int) (succeeds : Bool)
  | opendir (cwd : Option Cwd) (path : Option CString) (answer : DirAnswer)
  | fdopendir (cwd : Option Cwd) (fd : Int) (answer : DirAnswer)
  | closedir (dirp : DirPtr) (result : Int)
  | mount (cwd : Option Cwd) (jvm : Bool) (source target : Option CString)
  | umount (cwd : Option Cwd) (target : Option CString)
deriving DecidableEq

inductive Returned
  | int (value : Int)
  | dirp (dirp : DirPtr)
  | mounted (result : MountResult)
deriving DecidableEq

/-- A descriptor that is handed to the client, with the driver and the descriptor the call made
    there. -/
structure Created where
  fd : Int
  driver : DriverPtr
  extfd : Int
deriving DecidableEq

/-- What comes of a call: the world after it, what it returns, and the descriptors it hands out. -/
structure Outcome (n : Nat) where
  world : World n
  returned : Returned
  created : List Created

namespace World

variable {n : Nat}

/-- The drivers, from the last to the first. -/
def stack (w : World n) : List Driver := w.mounts.drivers.reverse

def returns (w : World n) (value : Int) : Outcome n := ⟨w, .int value, []⟩

/-- The driver of a record, for a call of one of its methods. -/
def callable (w : World n) : Option DriverPtr → Except Stop DriverPtr
  | none => .error (.undefined .nullDriver)
  | some .system => .ok .system
  | some (.loaded addr) =>
    if w.mounts.drivers.any (·.addr = addr) then .ok (.loaded addr)
    else .error (.undefined .unloadedDriver)

/-- What `alloc_fd` and `alloc_dirp` store for a path. -/
def storedPath (w : World n) (cwd : Option Cwd) (path : Option CString) :
    Except Stop (Option CString) :=
  if w.fds.freeSlot = none then .ok none else checkPath (absolutize (cwd.map Cwd.path) path)

/-- `alloc_fd`, and if it fails, `driver->close(extfd)`. -/
def allocOrClose (w : World n) (path : Option CString) (extfd : Int) (driver : DriverPtr) :
    Except Stop (Outcome n) :=
  let allocated := w.fds.allocFd path extfd driver
  if allocated.2 < 0 then do
    let closed ← w.drivers.closeFile w.stack driver extfd
    return returns { w with drivers := closed.1 } (-1)
  else
    .ok ⟨{ w with fds := allocated.1 }, .int allocated.2, [⟨allocated.2, driver, extfd⟩]⟩

def openCall (w : World n) (cwd : Option Cwd) (path : Option CString) (routes : List Route) :
    Except Stop (Outcome n) := do
  match ← checkPath (findDriver (cwd.map Cwd.path) w.mounts.drivers path) with
  | none => return w.returns (-1)
  | some driver =>
    let opened ← w.drivers.openFile w.stack driver routes
    let w : World n := { w with drivers := opened.1 }
    if opened.2 = -1 then return w.returns (-1)
    else w.allocOrClose (← w.storedPath cwd path) opened.2 driver

def closeCall (w : World n) (bits : Nat) (fd : Int) : Except Stop (Outcome n) := do
  let closed ← checkIo (w.fds.close bits fd)
  match closed.2 with
  | none => return w.returns (-1)
  | some r =>
    let driver ← w.callable r.driver
    let done ← w.drivers.closeFile w.stack driver r.extfd
    return returns { w with fds := closed.1, drivers := done.1 } done.2

def dupCall (w : World n) (fd : Int) (answer : Option Nat) : Except Stop (Outcome n) := do
  match ← checkIo (w.fds.resolve fd) with
  | none => return w.returns (-1)
  | some r =>
    let driver ← w.callable r.driver
    let duplicate ← w.drivers.dupFile driver r.extfd answer
    return ⟨{ w with drivers := duplicate.1 }, .int duplicate.2,
      if duplicate.2 < 0 then [] else [⟨duplicate.2, driver, duplicate.2⟩]⟩

def dup2Call (w : World n) (fd fd2 : Int) (granted : Bool) : Except Stop (Outcome n) := do
  match ← checkIo (w.fds.resolve fd) with
  | none => return w.returns (-1)
  | some r =>
    match ← checkIo (w.fds.resolve fd2) with
    | none => return w.returns (-1)
    | some r2 =>
      if r.driver ≠ r2.driver then return w.returns (-1)
      else
        let driver ← w.callable r.driver
        let duplicate := w.drivers.dup2File driver fd fd2 granted
        return ⟨{ w with drivers := duplicate.1 }, .int duplicate.2,
          if duplicate.2 < 0 then [] else [⟨duplicate.2, driver, duplicate.2⟩]⟩

def pipeCall (w : World n) (bits : Nat) : Option (Nat × Nat) → Except Stop (Outcome n)
  | none => .ok (w.returns (-1))
  | some (a, b) => do
    if a = b then throw .impossible
    let first ← w.drivers.newFd (some a)
    let second ← first.1.newFd (some b)
    let closed : Descriptors n := ((second.1.closeSystem a).1.closeSystem b).1
    let readEnd := w.fds.allocFd none a .system
    if readEnd.2 = -1 then return returns { w with drivers := closed } (-1)
    let writeEnd := readEnd.1.allocFd none b .system
    if writeEnd.2 = -1 then
      let freed ← checkIo (writeEnd.1.freeFd bits readEnd.2)
      return returns { w with fds := freed, drivers := closed } (-1)
    return ⟨{ w with fds := writeEnd.1, drivers := second.1 }, .int 0,
      [⟨readEnd.2, .system, a⟩, ⟨writeEnd.2, .system, b⟩]⟩

def socketCall (w : World n) (answer : Option Nat) : Except Stop (Outcome n) := do
  let made ← w.drivers.newFd answer
  let w : World n := { w with drivers := made.1 }
  if made.2 = -1 then return w.returns (-1) else w.allocOrClose none made.2 .system

def acceptCall (w : World n) (sockfd : Int) (answer : Option Nat) : Except Stop (Outcome n) := do
  match ← checkIo (w.fds.resolve sockfd) with
  | none => return w.returns (-1)
  | some r => if r.extfd = -1 then return w.returns (-1) else w.socketCall answer

/-- `connect`: what `system_connect` returns is taken for a descriptor. -/
def connectCall (w : World n) (sockfd : Int) (succeeds : Bool) : Except Stop (Outcome n) := do
  match ← checkIo (w.fds.resolve sockfd) with
  | none => return w.returns (-1)
  | some r =>
    if r.extfd = -1 then return w.returns (-1)
    else if succeeds then w.allocOrClose none 0 .system
    else return w.returns (-1)

/-- `alloc_dirp`, with the number that `driver->dirfd` answers. -/
def allocDir (w : World n) (path : Option CString) (extdirp : DirPtr) (extfd : Int)
    (driver : DriverPtr) : Outcome n :=
  let allocated := w.fds.allocDirp path extdirp extfd driver
  ⟨{ w with fds := allocated.1 }, .dirp allocated.2, []⟩

/-- `opendir`; assets have the driver below them open directories. -/
def opendirCall (w : World n) (cwd : Option Cwd) (path : Option CString) (answer : DirAnswer) :
    Except Stop (Outcome n) := do
  match ← checkPath (findDriver (cwd.map Cwd.path) w.mounts.drivers path) with
  | none => return ⟨w, .dirp 0, []⟩
  | some driver =>
    if answer.extdirp = 0 then return ⟨w, .dirp 0, []⟩
    else
      return w.allocDir (← w.storedPath cwd path) answer.extdirp (dirfdAnswer answer driver) driver

def fdopendirCall (w : World n) (cwd : Option Cwd) (fd : Int) (answer : DirAnswer) :
    Except Stop (Outcome n) := do
  match ← checkIo (w.fds.resolve fd) with
  | none => return ⟨w, .dirp 0, []⟩
  | some r =>
    let path ← checkPath (absolutize (cwd.map Cwd.path) r.path)
    let path ← checkPath (normalize path)
    let driver ← w.callable r.driver
    return w.allocDir (← w.storedPath cwd path) (fdopendirAnswer answer driver)
      (dirfdAnswer answer driver) driver

/-- `closedir`, where the system answers `result` in the end. -/
def closedirCall (w : World n) (bits : Nat) (dirp : DirPtr) (result : Int) :
    Except Stop (Outcome n) := do
  let closed ← checkIo (w.fds.closedir bits dirp)
  match closed.2 with
  | none => return w.returns (-1)
  | some r =>
    let _ ← w.callable r.driver
    return returns { w with fds := closed.1 } result

def mountCall (w : World n) (cwd : Option Cwd) (jvm : Bool) (source target : Option CString) :
    Except Stop (Outcome n) := do
  let mounted ← checkPath (mount (cwd.map Cwd.path) w.mounts jvm source target)
  let drivers :=
    if mounted.2 = .done then w.drivers.initEntries w.mounts.nextAddr else w.drivers
  return ⟨{ w with mounts := mounted.1, drivers := drivers }, .mounted mounted.2, []⟩

def umountCall (w : World n) (cwd : Option Cwd) (target : Option CString) :
    Except Stop (Outcome n) := do
  let left ← checkPath (umount (cwd.map Cwd.path) w.mounts target)
  return ⟨{ w with mounts := left.1 }, .mounted left.2, []⟩

def call (bits : Nat) (w : World n) : FileCall → Except Stop (Outcome n)
  | .open cwd path routes => w.openCall cwd path routes
  | .close fd => w.closeCall bits fd
  | .dup fd answer => w.dupCall fd answer
  | .dup2 fd fd2 granted => w.dup2Call fd fd2 granted
  | .fcntlDup fd answer => w.dupCall fd answer
  | .pipe answer => w.pipeCall bits answer
  | .socket answer => w.socketCall answer
  | .accept sockfd answer => w.acceptCall sockfd answer
  | .connect sockfd succeeds => w.connectCall sockfd succeeds
  | .opendir cwd path answer => w.opendirCall cwd path answer
  | .fdopendir cwd fd answer => w.fdopendirCall cwd fd answer
  | .closedir dirp result => w.closedirCall bits dirp result
  | .mount cwd jvm source target => w.mountCall cwd jvm source target
  | .umount cwd target => w.umountCall cwd target

structure Event where
  call : FileCall
  returned : Returned
  created : List Created

def step (bits : Nat) (w : World n) (c : FileCall) : Option (World n × Event) :=
  (w.call bits c).toOption.map fun outcome =>
    (outcome.world, ⟨c, outcome.returned, outcome.created⟩)

/-- After `init_fd`, with these drivers mounted and the descriptors of `kernel` open. -/
def started (mounts : MountTable) (kernel : Finset Nat) : World n :=
  ⟨mounts, .started, ⟨kernel, fun _ _ => .free⟩⟩

end World

end CrystaxNdk.Vfs
