import CrystaxNdk.Lib.Runs
import CrystaxNdk.Vfs.Futils

/-!
# `vfs/mount.cpp` — the mount table and the calls that ask it

Drivers other than that of the system are kept in a table in the order they were mounted, each with
the directory it is responsible for. `find_driver` answers which driver a path belongs to, and
`mount` gives each new driver the one below it. A driver is known by its address, and no two have
the same. `chdir` and `getcwd` keep the working directory, which `find_driver` makes paths absolute
with, and `rename` is the one call that is about two paths, and so about two drivers.

What `getcwd` returns, whether there is a Java machine, and what the system makes of a call that is
passed on to it come from outside.
-/

namespace CrystaxNdk.Vfs

open Lib

def mountTableSize : Nat := 256

/-- `driver_t *`: the driver of the system, or one that was loaded. -/
inductive DriverPtr
  | system
  | loaded (addr : Nat)
deriving DecidableEq

/-- `driver_t`, as far as the table goes. -/
structure Driver where
  addr : Nat
  root : Option CString
  underlying : DriverPtr
deriving DecidableEq

/-- The driver below the one at an address. -/
def underlyingOf (ds : List Driver) (addr : Nat) : Option DriverPtr :=
  (ds.find? (·.addr = addr)).map Driver.underlying

theorem find?_addr {ds : List Driver} {d : Driver} (hnodup : (ds.map Driver.addr).Nodup)
    (hd : d ∈ ds) : ds.find? (·.addr = d.addr) = some d := by
  cases hfind : ds.find? (·.addr = d.addr) with
  | none => exact absurd (decide_eq_true rfl) (List.find?_eq_none.mp hfind d hd)
  | some d' =>
    have haddr : d'.addr = d.addr := by simpa using List.find?_some hfind
    rw [List.inj_on_of_nodup_map hnodup (List.mem_of_find?_eq_some hfind) hd haddr]

theorem underlyingOf_of_mem {ds : List Driver} {d : Driver} (hnodup : (ds.map Driver.addr).Nodup)
    (hd : d ∈ ds) : underlyingOf ds d.addr = some d.underlying := by
  rw [underlyingOf, find?_addr hnodup hd, Option.map_some]

/-- `mount_table` up to `mount_table_pos`, and the next address. -/
structure MountTable where
  drivers : List Driver
  nextAddr : Nat
deriving DecidableEq

/-- A result of `getcwd` that is not `NULL`. -/
structure Cwd where
  path : CString
  absolute : path[0]? = some '/'
deriving DecidableEq

inductive MountError
  | enfile
  | einval
  | ebusy
deriving DecidableEq

/-- What `mount` and `umount` return, or that they leave it to the system. -/
inductive MountResult
  | done
  | failed (error : MountError)
  | passedOn
deriving DecidableEq

section Search

variable (cwd : Option CString)

/-! ## `find_driver` -/

/-- The loop of `find_driver`, from the driver mounted last. -/
def searchDriver (abspath : CString) : List Driver → Except Fault DriverPtr
  | [] => .ok .system
  | d :: below =>
    match d.root with
    | none => .error .nullPointer
    | some root =>
      if root.isPrefixOf abspath then .ok (.loaded d.addr) else searchDriver abspath below

def findDriver (drivers : List Driver) : Option CString → Except Fault (Option DriverPtr)
  | none => .ok none
  | some [] => .ok none
  | some path =>
    if drivers = [] then .ok (some .system)
    else do
      match ← absolutize cwd (some path) with
      | none => .error .nullPointer
      | some abspath => some <$> searchDriver abspath drivers.reverse

/-! ## `mount` -/

def searchUnderlying (abspath : Option CString) : List Driver → Except Fault DriverPtr
  | [] => .ok .system
  | prev :: below => do
    if ← isSubpath cwd prev.root abspath then return .loaded prev.addr
    else searchUnderlying abspath below

/-- `load_driver`: only assets can be mounted, and only with a Java machine. -/
def loadDriver (jvm : Bool) (source target : Option CString) (addr : Nat) (underlying : DriverPtr) :
    Except Fault (Option Driver) :=
  if source = some "/dev/assets".toList ∧ jvm then do
    let root ← normalize target
    return some ⟨addr, root, underlying⟩
  else .ok none

def mount (t : MountTable) (jvm : Bool) (source target : Option CString) :
    Except Fault (MountTable × MountResult) :=
  if mountTableSize ≤ t.drivers.length then .ok (t, .failed .enfile)
  else do
    let abspath ← absolutize cwd target
    let underlying ← searchUnderlying cwd abspath t.drivers.reverse
    match ← loadDriver jvm source abspath t.nextAddr underlying with
    | none => return (t, .passedOn)
    | some driver => return (⟨t.drivers ++ [driver], t.nextAddr + 1⟩, .done)

/-! ## `umount` -/

def pathLength : Option CString → Nat
  | none => 0
  | some path => path.length

/-- Something is mounted below `abspath`. -/
def busy (d : Driver) (abspath : Option CString) : Except Fault Bool :=
  if pathLength abspath < pathLength d.root then isSubpath cwd abspath d.root else .ok false

/-- The loop of `umount`, with the drivers it leaves in the table. -/
def removeDriver (abspath : Option CString) : List Driver → Except Fault (List Driver × MountResult)
  | [] => .ok ([], .passedOn)
  | d :: below => do
    if ← busy cwd d abspath then return (d :: below, .failed .ebusy)
    else if d.root = abspath then return (below, .done)
    else
      let (rest, result) ← removeDriver abspath below
      return (d :: rest, result)

def umount (t : MountTable) : Option CString → Except Fault (MountTable × MountResult)
  | none => .ok (t, .failed .einval)
  | some [] => .ok (t, .failed .einval)
  | some target => do
    let abspath ← absolutize cwd (some target)
    let (drivers, result) ← removeDriver cwd abspath t.drivers.reverse
    return (⟨drivers.reverse, t.nextAddr⟩, result)

end Search

/-! ## Calls -/

/-- A call, with the working directory and the Java machine of the moment. -/
inductive Call
  | mount (cwd : Option Cwd) (jvm : Bool) (source target : Option CString)
  | umount (cwd : Option Cwd) (target : Option CString)
deriving DecidableEq

namespace MountTable

def empty : MountTable := ⟨[], 0⟩

def step (t : MountTable) : Call → Option (MountTable × MountResult)
  | .mount cwd jvm source target => (mount (cwd.map Cwd.path) t jvm source target).toOption
  | .umount cwd target => (umount (cwd.map Cwd.path) t target).toOption

def Reachable (t : MountTable) : Prop := ∃ results, Run step empty results t

end MountTable

/-!
## `chdir` and `getcwd`

The working directory is kept in `cpath`. As long as that is `NULL` it is the one of the system.
What the `stat` of the driver reports, and what becomes of `system_chdir`, come from outside.
-/

/-- `cpath`, and the working directory of the system. -/
structure WorkingDir where
  cpath : Option CString
  systemCwd : CString

def getcwd (s : WorkingDir) (size : Nat) : Option CString :=
  match s.cpath with
  | none => if size < s.systemCwd.length + 1 then none else some s.systemCwd
  | some cpath => if size < cpath.length + 1 then none else some cpath

def sIfDir : Nat := 0x4000

/-- A call of `chdir`, with the drivers that are mounted and what they and the system answer. -/
structure ChdirCall where
  path : CString
  drivers : List Driver
  /-- The `st_mode` that the driver's `stat` reports, unless it returns `-1`. -/
  stat : Option Nat
  systemChdir : Bool
  nonempty : path ≠ []
  rooted : ∀ d ∈ drivers, d.root.isSome

/-- The `stat` of the driver lets the call succeed. Only the bit `S_IFDIR` of the mode is tested,
    and sockets and block devices have it as well as directories. -/
def ChdirCall.succeeds (c : ChdirCall) : Bool :=
  match c.stat with
  | none => false
  | some mode => mode &&& sIfDir ≠ 0

/-- `chdir`, with whether it returned 0. -/
def chdir (s : WorkingDir) (c : ChdirCall) : Except Fault (Bool × WorkingDir) := do
  let cwd := getcwd s (pathMax + 1)
  let abspath ← absolutize cwd (some c.path)
  match ← findDriver cwd c.drivers abspath, abspath with
  | some _, some abspath =>
    match c.stat with
    | none => return (false, s)
    | some mode =>
      if mode &&& sIfDir = 0 then return (false, s)
      else
        return (true, { cpath := some abspath,
                        systemCwd := if c.systemChdir then abspath else s.systemCwd })
  -- the driver is `NULL`
  | _, _ => .error .nullPointer

def chdirs (s : WorkingDir) (calls : List ChdirCall) : Except Fault WorkingDir :=
  calls.foldlM (fun s c => Prod.snd <$> chdir s c) s

/-!
## `rename`

`vfs/rename.cpp` asks the driver of the new path, whatever the old one is. The driver of the system
leaves it to the system; a driver of assets looks for the driver of the old path and passes the call
on to the one it stands on. The calls go down from driver to driver, so they take fuel; a driver
that is not in the table any more has no answer.
-/

/-- How `rename` ends: in the system's `rename` of both paths, or with `-1`, with `EXDEV` or with
    whatever `errno` was. -/
inductive RenameResult
  | systemRename
  | exdev
  | failed
deriving DecidableEq

variable (cwd : Option CString) (drivers : List Driver) (oldpath newpath : Option CString)

/-- `driver_t::rename` of both kinds of drivers. -/
def driverRename : Nat → DriverPtr → Option (Except Fault RenameResult)
  | 0, _ => none
  | _ + 1, .system => some (.ok .systemRename)
  | fuel + 1, .loaded addr =>
    match drivers.find? (·.addr = addr) with
    | none => none
    | some driver =>
      match findDriver cwd drivers oldpath with
      | .error fault => some (.error fault)
      | .ok none => some (.ok .failed)
      | .ok (some d) =>
        if d ≠ driver.underlying then some (.ok .exdev) else driverRename fuel driver.underlying

def rename (fuel : Nat) : Option (Except Fault RenameResult) :=
  match findDriver cwd drivers newpath with
  | .error fault => some (.error fault)
  | .ok none => some (.ok .failed)
  | .ok (some driver) => driverRename cwd drivers oldpath fuel driver

end CrystaxNdk.Vfs
