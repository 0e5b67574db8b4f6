import CrystaxNdk.Vfs.Mount
import Mathlib.Data.Finset.Insert

/-!
# `vfs/fileio.cpp` and `vfs/select.cpp` — the table of descriptors

A descriptor that the library hands out is an index into `fd_table`; the record there has the
driver it belongs to and the descriptor that this driver knows it by. Directory handles have
records in the same table. A record is free if its `extfd` is negative. `fd_table_top` is meant to
be the greatest index in use. `select` reads the table to put the descriptors of its sets into those
of a driver.

`FD_TABLE_SIZE` is `n`, and an access past the end of the table is a fault. `fd_table_top` is an
unsigned integer of `bits` bits. What `absolutize` makes of a path, and what the `dirfd` of a driver
returns, come from outside.
-/

namespace CrystaxNdk.Vfs

/-- `DIR *`: an address, and zero is the null pointer. -/
abbrev DirPtr := Int

inductive IoFault
  | outOfRange
  | nullDriver
  | unloadedDriver
  | path (fault : Fault)
deriving DecidableEq

structure FdRecord where
  dirp : DirPtr
  extfd : Int
  extdirp : DirPtr
  driver : Option DriverPtr
  path : Option CString
deriving DecidableEq

namespace FdRecord

/-- As `free_fd` and `init_fd` leave a record. -/
def free : FdRecord := ⟨0, -1, 0, none, none⟩

def zero : FdRecord := ⟨0, 0, 0, none, none⟩

def standard (fd : Nat) : FdRecord := ⟨0, fd, 0, some .system, none⟩

end FdRecord

structure FdTable (n : Nat) where
  record : Fin n → FdRecord
  top : Nat

/-- The handle of the directory whose record has this index. -/
def dirpOf (fd : Nat) : DirPtr := -(fd : Int) - 1

namespace FdTable

variable {n : Nat}

def zero : FdTable n := ⟨fun _ => .zero, 0⟩

def started : FdTable n := ⟨fun fd => if fd.val < 3 then .standard fd else .free, 2⟩

def initFd (t : FdTable n) : Except IoFault (FdTable n) :=
  if n < 3 then .error .outOfRange
  else .ok ⟨fun fd => if fd.val < 3 then .standard fd else .free, max t.top 2⟩

/-! ## `alloc_fd` and `alloc_dirp` -/

def freeSlot (t : FdTable n) : Option (Fin n) := Fin.find? fun fd => (t.record fd).extfd < 0

def store (t : FdTable n) (fd : Fin n) (r : FdRecord) : FdTable n :=
  ⟨Function.update t.record fd r, max t.top fd⟩

/-- `alloc_fd`, with the path as `absolutize` makes it. -/
def allocFd (t : FdTable n) (path : Option CString) (extfd : Int) (driver : DriverPtr) :
    FdTable n × Int :=
  match t.freeSlot with
  | none => (t, -1)
  | some fd => (t.store fd ⟨0, extfd, 0, some driver, path⟩, fd)

/-- `alloc_dirp`, where `extfd` is what `driver->dirfd(extdirp)` returns. -/
def allocDirp (t : FdTable n) (path : Option CString) (extdirp : DirPtr) (extfd : Int)
    (driver : DriverPtr) : FdTable n × DirPtr :=
  match t.freeSlot with
  | none => (t, 0)
  | some fd => (t.store fd ⟨dirpOf fd, extfd, extdirp, some driver, path⟩, dirpOf fd)

/-! ## `free_fd` and `free_dirp` -/

def decrement (bits x : Nat) : Nat := (x + 2 ^ bits - 1) % 2 ^ bits

def lowerTop (t : FdTable n) (bits : Nat) : (i top : Nat) → Except IoFault Nat
  | 0, top => .ok top
  | i + 1, top =>
    if h : i < n then
      if 0 ≤ (t.record ⟨i, h⟩).extfd then .ok top else t.lowerTop bits i (decrement bits top)
    else .error .outOfRange

/-- The end of `free_fd` and of `free_dirp`. -/
def release (t : FdTable n) (bits : Nat) (fd : Fin n) : Except IoFault (FdTable n) :=
  let t : FdTable n := ⟨Function.update t.record fd .free, t.top⟩
  if t.top = fd then do
    let top ← t.lowerTop bits (t.top + 1) t.top
    return ⟨t.record, top⟩
  else .ok t

def freeFd (t : FdTable n) (bits : Nat) (fd : Int) : Except IoFault (FdTable n) :=
  if fd < 0 ∨ n < fd then .ok t
  else if h : fd.toNat < n then
    if (t.record ⟨fd.toNat, h⟩).extfd < 0 then .ok t else t.release bits ⟨fd.toNat, h⟩
  else .error .outOfRange

/-- The loop of `free_dirp`, up to the first record of the handle. -/
def searchDirp (t : FdTable n) (dirp : DirPtr) : (left fd : Nat) → Except IoFault (Option (Fin n))
  | 0, _ => .ok none
  | left + 1, fd =>
    if h : fd < n then
      if (t.record ⟨fd, h⟩).dirp = dirp then .ok (some ⟨fd, h⟩)
      else t.searchDirp dirp left (fd + 1)
    else .error .outOfRange

def freeDirp (t : FdTable n) (bits : Nat) (dirp : DirPtr) : Except IoFault (FdTable n) := do
  match ← t.searchDirp dirp t.top 0 with
  | none => return t
  | some fd => if (t.record fd).extfd < 0 then return t else t.release bits fd

/-! ## `resolve` -/

def resolve (t : FdTable n) (fd : Int) : Except IoFault (Option FdRecord) :=
  if fd < 0 ∨ n < fd then .ok none
  else if h : fd.toNat < n then .ok (some (t.record ⟨fd.toNat, h⟩))
  else .error .outOfRange

/-- `resolve` for a directory handle: the index of its record. -/
def resolveDirp (t : FdTable n) (dirp : DirPtr) : Option (Fin n) :=
  Fin.find? fun fd => (t.record fd).dirp = dirp

/-! ## `close` and `closedir` -/

/-- `close`, up to the call of `driver->close(extfd)`: the record that this call is made from. -/
def close (t : FdTable n) (bits : Nat) (fd : Int) :
    Except IoFault (FdTable n × Option FdRecord) := do
  match ← t.resolve fd with
  | none => return (t, none)
  | some r => return (← t.freeFd bits fd, some r)

/-- `closedir`, up to the call of `driver->closedir(extdirp)`. -/
def closedir (t : FdTable n) (bits : Nat) (dirp : DirPtr) :
    Except IoFault (FdTable n × Option FdRecord) :=
  match t.resolveDirp dirp with
  | none => .ok (t, none)
  | some fd => do return (← t.freeDirp bits dirp, some (t.record fd))

end FdTable

/-! ## Calls -/

/-- A call, with arguments of any kind. -/
inductive FdCall
  | initFd
  | allocFd (path : Option CString) (extfd : Int) (driver : DriverPtr)
  | freeFd (fd : Int)
  | allocDirp (path : Option CString) (extdirp : DirPtr) (extfd : Int) (driver : DriverPtr)
  | freeDirp (dirp : DirPtr)
  | resolve (fd : Int)
  | resolveDirp (dirp : DirPtr)
deriving DecidableEq

inductive FdAnswer
  | done
  | fd (fd : Int)
  | dirp (dirp : DirPtr)
  | found (yes : Bool)
deriving DecidableEq

namespace FdTable

variable {n : Nat}

def call (bits : Nat) (t : FdTable n) : FdCall → Except IoFault (FdTable n × FdAnswer)
  | .initFd => do return (← t.initFd, .done)
  | .allocFd path extfd driver => .ok ((t.allocFd path extfd driver).map id .fd)
  | .freeFd fd => do return (← t.freeFd bits fd, .done)
  | .allocDirp path extdirp extfd driver =>
    .ok ((t.allocDirp path extdirp extfd driver).map id .dirp)
  | .freeDirp dirp => do return (← t.freeDirp bits dirp, .done)
  | .resolve fd => do return (t, .found (← t.resolve fd).isSome)
  | .resolveDirp dirp => .ok (t, .found (t.resolveDirp dirp).isSome)

def step (bits : Nat) (t : FdTable n) (c : FdCall) : Option (FdTable n × FdAnswer) :=
  (t.call bits c).toOption

end FdTable

/-!
## `select`

The descriptors of a call have to belong to one driver. `select` makes sets of what this driver
calls them and asks it. An `fd_set` has room for `m` descriptors, which is `FD_SETSIZE`, and
`FD_ISSET` or `FD_SET` of another one is a fault. What the `select` of a driver answers comes from
outside.
-/

inductive SelectKind
  | read
  | write
  | except
deriving DecidableEq

abbrev FdSet (m : Nat) := Finset (Fin m)

/-- `rfd`, `wfd` and `efd`; a set that is `NULL` is `none`. -/
abbrev FdSets (m : Nat) := SelectKind → Option (FdSet m)

structure Timeval where
  sec : Int
  usec : Int
deriving DecidableEq

/-- The `errno` of `select`: its own, that of `resolve`, or one of the driver. -/
inductive SelectErrno
  | exdev
  | ebadfd
  | driver (code : Nat)
deriving DecidableEq

structure SelectCall (m : Nat) where
  maxfd : Int
  sets : FdSets m
  tv : Option Timeval

/-- What the `select` of a driver returns and leaves in its arguments. -/
structure DriverAnswer (m : Nat) where
  count : Int
  errno : Option SelectErrno
  sets : FdSets m
  tv : Option Timeval

/-- What `select` returns and leaves in its arguments, and what is then in `extrfd`, `extwfd` and
    `extefd`. -/
structure Selected (m : Nat) where
  count : Int
  errno : Option SelectErrno
  sets : FdSets m
  tv : Option Timeval
  ext : FdSets m

inductive SelectStop
  | fault (fault : IoFault)
  | failed (errno : SelectErrno)
deriving DecidableEq

/-- The variables of the loop. A set of the driver whose client set is `NULL` is never touched. -/
structure Gathered (m : Nat) where
  driver : Option DriverPtr
  extmaxfd : Int
  ext : SelectKind → FdSet m

namespace Gathered

variable {m : Nat}

def start : Gathered m := ⟨none, 0, fun _ => ∅⟩

/-- `CRYSTAX_SELECT_SET`, once `fd` is resolved. -/
def add (g : Gathered m) (kind : SelectKind) (r : FdRecord) : Except SelectStop (Gathered m) :=
  if g.driver.isSome ∧ g.driver ≠ r.driver then .error (.failed .exdev)
  else if h : 0 ≤ r.extfd ∧ r.extfd < m then
    .ok { driver := r.driver
          extmaxfd := if g.extmaxfd ≤ r.extfd then r.extfd + 1 else g.extmaxfd
          ext := Function.update g.ext kind (insert ⟨r.extfd.toNat, by omega⟩ (g.ext kind)) }
  else .error (.fault .outOfRange)

end Gathered

section

variable {n m : Nat} (t : FdTable n) (sets : FdSets m)

def selectSet (fd : Nat) (kind : SelectKind) (g : Gathered m) : Except SelectStop (Gathered m) :=
  match sets kind with
  | none => .ok g
  | some fds =>
    if h : fd < m then
      if ⟨fd, h⟩ ∈ fds then
        match t.resolve fd with
        | .error fault => .error (.fault fault)
        | .ok none => .error (.failed .ebadfd)
        | .ok (some r) => g.add kind r
      else .ok g
    else .error (.fault .outOfRange)

def selectFd (fd : Nat) (g : Gathered m) : Except SelectStop (Gathered m) := do
  let g ← selectSet t sets fd .read g
  let g ← selectSet t sets fd .write g
  selectSet t sets fd .except g

def gather : Nat → Except SelectStop (Gathered m)
  | 0 => .ok .start
  | fd + 1 => do selectFd t sets fd (← gather fd)

end

/-- The sets that are not `NULL`, as the driver is given them. -/
def Gathered.given {m : Nat} (g : Gathered m) (sets : FdSets m) : FdSets m :=
  fun kind => (sets kind).map fun _ => g.ext kind

/-- `select`, where `drivers` is what the drivers answer. -/
def select {n m : Nat} (t : FdTable n)
    (drivers : DriverPtr → Int → FdSets m → Option Timeval → DriverAnswer m) (c : SelectCall m) :
    Except IoFault (Selected m) :=
  match gather t c.sets c.maxfd.toNat with
  | .error (.fault fault) => .error fault
  | .error (.failed errno) => .ok ⟨-1, some errno, c.sets, c.tv, fun _ => none⟩
  | .ok g =>
    match g.driver with
    | none => .ok ⟨0, none, c.sets, c.tv, g.given c.sets⟩
    | some d =>
      let answer := drivers d g.extmaxfd (g.given c.sets) c.tv
      .ok ⟨answer.count, answer.errno, c.sets, answer.tv, answer.sets⟩

end CrystaxNdk.Vfs
