import CrystaxNdk.Lib.Digits
import CrystaxNdk.Vfs.Futils
import CrystaxNdk.Lib.Disk
import CrystaxNdk.Lib.Fields
import CrystaxNdk.Lib.Runs

/-!
# `vfs/assets/adriver.cpp` — the assets driver

A driver that gives out the assets of an application as files. An asset can only be read, by a
stream of Java; what is opened for writing is first copied to the driver below (`copy_from_assets`)
and is a file of that driver from then on. The model follows the source: the table of descriptors,
`lseek64`, the copy, then `open`, `read`, `write` and `close` over a disk, the position of one
descriptor, and the file in which the driver remembers what was copied and what was removed.

The table is the driver's own. A record has either a stream, with a position in it and its size, or
the descriptor of a file in the driver below. The size of the table is `n`, and `size_t` has the
width `w`. What Java and the driver below answer comes from outside.
-/

namespace CrystaxNdk.Vfs

open Lib

/-- `jobject`: a stream, by the number of its reference. -/
abbrev Jobject := Nat

structure AssetEntry (w : Width) where
  obj : Option Jobject
  pos : Unsigned w
  size : Unsigned w
  extfd : Int
  path : Option CString
deriving DecidableEq

/-- As `init_fd` and `free_fd` leave a record. -/
def AssetEntry.free {w : Width} : AssetEntry w := ⟨none, .wrap w 0, .wrap w 0, -1, none⟩

abbrev AssetTable (w : Width) (n : Nat) := Fin n → AssetEntry w

namespace AssetTable

variable {w : Width} {n : Nat}

def freeSlot (t : AssetTable w n) : Option (Fin n) :=
  Fin.find? fun fd => (t fd).obj = none ∧ (t fd).extfd = -1

def store (t : AssetTable w n) (e : AssetEntry w) : AssetTable w n × Int :=
  match t.freeSlot with
  | none => (t, -1)
  | some fd => (Function.update t fd e, fd)

def allocObj (t : AssetTable w n) (obj : Jobject) (size : Unsigned w) (abspath : CString) :
    AssetTable w n × Int :=
  t.store ⟨some obj, .wrap w 0, size, -1, some abspath⟩

/-- `alloc_fd` for a descriptor of the driver below. -/
def allocExt (t : AssetTable w n) (extfd : Int) (abspath : CString) : AssetTable w n × Int :=
  if extfd < 0 then (t, -1) else t.store ⟨none, .wrap w 0, .wrap w 0, extfd, some abspath⟩

def slot (fd : Int) : Option (Fin n) :=
  if h : 0 ≤ fd ∧ fd < n then some ⟨fd.toNat, by omega⟩ else none

def freeFd (t : AssetTable w n) (fd : Int) : AssetTable w n :=
  match slot fd with
  | none => t
  | some i => Function.update t i .free

def resolve (t : AssetTable w n) (fd : Int) : Option (AssetEntry w) := (slot fd).map t

def update (t : AssetTable w n) (fd : Int) (pos : Unsigned w) : AssetTable w n :=
  match slot fd with
  | none => t
  | some i => Function.update t i { t i with pos := pos }

variable {t : AssetTable w n} {fd : Int} {i : Fin n} {e : AssetEntry w}

theorem slot_of_resolve (h : t.resolve fd = some e) : ∃ i, slot fd = some i ∧ t i = e :=
  Option.map_eq_some_iff.mp h

theorem freeFd_of_slot (h : slot fd = some i) : t.freeFd fd = Function.update t i .free := by
  unfold freeFd
  rw [h]

theorem update_of_slot (h : slot fd = some i) (pos : Unsigned w) :
    t.update fd pos = Function.update t i { t i with pos := pos } := by
  unfold update
  rw [h]

end AssetTable

/-!
## `lseek64`

Offsets are signed and have 64 bits, and positions are of the type `size_t`.
-/

inductive Whence
  | seekSet
  | seekCur
  | seekEnd
  | other (whence : Int)
deriving DecidableEq

inductive AssetFault
  /-- A result that a signed type does not have. -/
  | overflow
  /-- A method is called of no object. -/
  | nullObject
deriving DecidableEq

/-- The `errno` of the call: its own, or one of the driver below. -/
inductive AssetErrno
  | einval
  | efault
  | underlying (code : Nat)
deriving DecidableEq

structure SeekWorld where
  reset : Bool
  /-- What `skip` returns, unless it throws. -/
  skip : Int → Option Int
  underlying : Int → Int → Whence → Int × Option AssetErrno

section

variable {w : Width} (pos size : Unsigned w) (offset : Signed)

def seekSet : Option (Unsigned w) := do
  let offset := if offset.val < 0 then .wrap 0 else offset
  let offset := if size < (← common w offset) then .wrap size else offset
  return .wrap w offset

/-- `SEEK_CUR`. The type of `-pos` and of `size - pos` is `size_t`. -/
def seekCur : Option (Unsigned w) := do
  let offset := if (← common w (pos + offset)) < 0 then .wrap (Unsigned.wrap w (-pos)) else offset
  let offset :=
    if size < (← common w (pos + offset)) then .wrap (Unsigned.wrap w (size - pos)) else offset
  return .wrap w (← common w (pos + offset))

/-- `SEEK_END`. The type of `-offset` is `loff_t`, and that of `-size` is `size_t`. -/
def seekEnd : Option (Unsigned w) := do
  let offset := if 0 < offset.val then .wrap 0 else offset
  let offset :=
    if size < (← common w (← signed (-offset))) then .wrap (Unsigned.wrap w (-size)) else offset
  return .wrap w (← common w (size + offset))

def seekTo : Whence → Option (Unsigned w)
  | .seekSet => seekSet size offset
  | .seekCur => seekCur pos size offset
  | .seekEnd => seekEnd size offset
  | .other _ => some pos

end

structure Sought (w : Width) (n : Nat) where
  table : AssetTable w n
  result : Signed
  errno : Option AssetErrno

def lseek64 {w : Width} {n : Nat} (world : SeekWorld) (t : AssetTable w n) (fd : Int)
    (offset : Signed) (whence : Whence) : Except AssetFault (Sought w n) :=
  match t.resolve fd with
  | none => .ok ⟨t, .wrap (-1), some .einval⟩
  | some e =>
    if e.extfd ≠ -1 then
      let (result, errno) := world.underlying e.extfd offset whence
      .ok ⟨t, .wrap result, errno⟩
    else
      match seekTo e.pos e.size offset whence with
      | none => .error .overflow
      | some pos =>
        if e.obj = none then .error .nullObject
        else if world.reset = false then .ok ⟨t, .wrap (-1), some .efault⟩
        else if world.skip (Signed.wrap pos) = none then .ok ⟨t, .wrap (-1), some .efault⟩
        else .ok ⟨t.update fd pos, .wrap pos, none⟩

/-!
## `copy_from_assets`

The loop that copies calls `reset` of the stream, with the array, where `read` would be called. As a
method of Java `reset` takes nothing and returns nothing: the array keeps the zeros it was made
with, and what `CallIntMethod` returns for it is not specified, so it may be any `jint`.

The rounds of the loop are given by what they return. They may end while the loop goes on.
-/

structure CopySetting where
  /-- The bytes of the asset, if there is one at `rpath`. -/
  asset : Option (List UInt8)
  /-- The bytes of the file, if there is one at `abspath` in the driver below. -/
  file : Option (List UInt8)
  /-- The directories of `abspath` can be made. -/
  mkdirP : Bool
  /-- The file can be opened for writing. -/
  opens : Bool
  /-- How often `reset` returns before it throws, if it ever does. -/
  resets : Option Nat

/-- What a round gets back, in `call_method<jint>` and in `write` if it comes to that; `none` is
    `-1`. -/
structure CopyRound where
  n : Int
  written : Option Nat
  jint : -2 ^ 31 ≤ n ∧ n < 2 ^ 31
  short : ∀ count ∈ written, (count : Int) ≤ n

/-- The `errno` with which it returns `false`: one that the driver below has set, or its own. -/
inductive CopyErrno
  | underlying
  | enoent
  | efault
deriving DecidableEq

/-- The file afterwards; without an `errno` the result is `true`. -/
structure Copied where
  file : Option (List UInt8)
  errno : Option CopyErrno
deriving DecidableEq

def bufSize : Nat := 4096

/-- `write` at an offset within the file. -/
def writeAt (file : List UInt8) (offset : Nat) (bytes : List UInt8) : List UInt8 :=
  file.take offset ++ bytes ++ file.drop (offset + bytes.length)

def objArray : List UInt8 := List.replicate bufSize 0

/-- The loop, with the contents of the file and the offset of the descriptor. -/
def copyLoop : Option Nat → List CopyRound → List UInt8 → Nat → Except Fault (Option Copied)
  | _, [], _, _ => .ok none
  | resets, round :: rounds, file, offset =>
    if resets = some 0 then .ok (some ⟨some file, some .efault⟩)
    else if round.n < 0 then .ok (some ⟨some file, none⟩)
    -- `GetByteArrayRegion` throws and copies nothing, and `write` reads past the end of `buf`
    else if (bufSize : Int) < round.n then .error .overrun
    else
      match round.written with
      | none => .ok (some ⟨some file, some .underlying⟩)
      | some count =>
        let buf := objArray.take round.n.toNat
        copyLoop (resets.map (· - 1)) rounds (writeAt file offset (buf.take count))
          (offset + count)

def copyFromAssets (s : CopySetting) (rounds : List CopyRound) : Except Fault (Option Copied) :=
  if s.mkdirP = false then .ok (some ⟨s.file, some .underlying⟩)
  else if s.asset = none then .ok (some ⟨s.file, some .enoent⟩)
  else if s.opens = false then .ok (some ⟨s.file, some .underlying⟩)
  -- without `O_TRUNC`
  else copyLoop s.resets rounds (s.file.getD []) 0

/-!
## `open`, `read`, `write` and `close`

What is opened for reading is a file of the driver below if there is one. Each time that a path is
opened for writing, `copy_from_assets` is called first.

Paths are absolute and normalised, so that `path` and `abspath` are the same, and an asset is known
by the path it has in the mount. The driver below is a disk. The methods of a stream that `open` and
`read` call do not throw, and `read` of a stream returns at least one byte before the end.
-/

structure AssetWorld where
  subpath : CString → Bool
  assets : CString → Option (List UInt8)

structure Stream where
  bytes : List UInt8
  pos : Nat
deriving DecidableEq

/-- The driver, the streams by the numbers of their references, and the driver below. -/
structure Overlay (w : Width) (n : Nat) where
  table : AssetTable w n
  streams : List Stream
  disk : Disk CString

/-- What an `open` gets back from what it calls. -/
structure OpenAnswers where
  mkdirP : Bool
  opens : Bool
  resets : Option Nat
  rounds : List CopyRound
  /-- An error of the driver below in `copy_from_assets` is `ENOENT`. -/
  enoent : Bool
  /-- What the `open` of the driver below returns. -/
  extfd : Option Nat

namespace Overlay

variable {w : Width} {n : Nat}

def started (disk : Disk CString) : Overlay w n := ⟨fun _ => .free, [], disk⟩

/-! ### `open` -/

def openBelow (s : Overlay w n) (path : CString) (flags : OpenFlags) (extfd : Option Nat) :
    Overlay w n × Int :=
  match s.disk.openFile path flags extfd with
  | (disk, none) => ({ s with disk := disk }, -1)
  | (disk, some extfd) =>
    let (table, fd) := s.table.allocExt extfd path
    if fd < 0 then ({ s with disk := disk.close extfd }, -1)
    else ({ s with table := table, disk := disk }, fd)

/-- `size`: as many bytes as `skip(INT_MAX)` skips. -/
def skipped (w : Width) (bytes : List UInt8) : Unsigned w := .wrap w (min bytes.length (2 ^ 31 - 1))

def openStream (s : Overlay w n) (path : CString) : Option (List UInt8) → Overlay w n × Int
  | none => (s, -1)
  | some bytes =>
    let (table, fd) := s.table.allocObj s.streams.length (skipped w bytes) path
    if fd < 0 then (s, -1)
    else ({ s with table := table, streams := s.streams ++ [⟨bytes, 0⟩] }, fd)

/-- `copy_from_assets`, unless it never returns or has no defined result. -/
def copied (s : Overlay w n) (world : AssetWorld) (path : CString) (a : OpenAnswers) :
    Option Copied :=
  (copyFromAssets ⟨world.assets path, s.disk.files path, a.mkdirP, a.opens, a.resets⟩
    a.rounds).toOption.join

def goesOn (a : OpenAnswers) : Option CopyErrno → Bool
  | none => true
  | some .enoent => true
  | some .underlying => a.enoent
  | some .efault => false

def openPath (s : Overlay w n) (world : AssetWorld) (path : CString) (flags : OpenFlags)
    (a : OpenAnswers) : Option (Overlay w n × Int) :=
  if world.subpath path = false then some (s, -1)
  else if flags.access = .rdonly then
    -- `stat_ul`
    if (s.disk.files path).isSome then some (s.openBelow path flags a.extfd)
    else some (s.openStream path (world.assets path))
  else
    (s.copied world path a).map fun copy =>
      let s := { s with disk.files := Function.update s.disk.files path copy.file }
      if goesOn a copy.errno then s.openBelow path flags a.extfd else (s, -1)

/-! ### `read`, `write` and `close` -/

/-- `read` from a stream, of which the method returns `taken` bytes if it can. -/
def readStream (s : Overlay w n) (fd : Int) (e : AssetEntry w) (obj : Jobject) (st : Stream)
    (count taken : Nat) : Overlay w n × List UInt8 :=
  let bytes := (st.bytes.drop st.pos).take (min count (max 1 taken))
  ({ s with
      table := s.table.update fd (.wrap w (e.pos + bytes.length))
      streams := s.streams.set obj { st with pos := st.pos + bytes.length } }, bytes)

def write (s : Overlay w n) (e : AssetEntry w) (bytes : List UInt8) (answer : Option Nat) :
    Overlay w n × Option Nat :=
  if e.extfd < 0 then (s, none)
  else ((s.disk.write e.extfd.toNat bytes answer).map (fun disk => { s with disk := disk }) id)

def close (s : Overlay w n) (fd : Int) (e : AssetEntry w) : Overlay w n :=
  { s with
    table := s.table.freeFd fd
    disk := if 0 ≤ e.extfd then s.disk.close e.extfd.toNat else s.disk }

end Overlay

/-! ### Calls -/

/-- A call, with what it gets back from what it calls. -/
inductive OverlayCall
  | openPath (path : CString) (flags : OpenFlags) (a : OpenAnswers)
  | read (fd : Int) (count taken : Nat)
  | write (fd : Int) (bytes : List UInt8) (answer : Option Nat)
  | close (fd : Int)

/-- What a call has done: a descriptor is open, bytes were read or written at a position of what it
    was opened for, it is closed, or nothing. -/
inductive OverlayEvent
  | opened (path : CString) (fd : Int)
  | got (path : CString) (pos count : Nat) (bytes : List UInt8)
  | wrote (fd : Int) (path : CString) (pos : Nat) (bytes : List UInt8)
  | closed (fd : Int)
  | nothing
deriving DecidableEq

namespace Overlay

variable {w : Width} {n : Nat}

/-- `read` from a file of the driver below. -/
def readBelow (s : Overlay w n) (e : AssetEntry w) (count : Nat) : Overlay w n × OverlayEvent :=
  match s.disk.opened e.extfd.toNat, s.disk.read e.extfd.toNat count with
  | some f, (disk, some bytes) =>
    ({ s with disk := disk }, .got (e.path.getD []) f.offset count bytes)
  | _, _ => (s, .nothing)

def step (world : AssetWorld) (s : Overlay w n) : OverlayCall → Option (Overlay w n × OverlayEvent)
  | .openPath path flags a =>
    (s.openPath world path flags a).map fun res =>
      (res.1, if res.2 < 0 then .nothing else .opened path res.2)
  | .read fd count taken =>
    if count = 0 then some (s, .nothing)
    else
      match s.table.resolve fd with
      | none => some (s, .nothing)
      | some e =>
        if e.extfd ≠ -1 then some (s.readBelow e count)
        else do
          let obj ← e.obj
          let st ← s.streams[obj]?
          let (s', bytes) := s.readStream fd e obj st count taken
          some (s', .got (e.path.getD []) st.pos count bytes)
  | .write fd bytes answer =>
    match s.table.resolve fd with
    | none => some (s, .nothing)
    | some e =>
      match s.disk.opened e.extfd.toNat, s.write e bytes answer with
      | some f, (s', some count) =>
        some (s', .wrote fd (e.path.getD []) (s.disk.writePos f) (bytes.take count))
      | _, _ => some (s, .nothing)
  | .close fd =>
    match s.table.resolve fd with
    | none => some (s, .nothing)
    | some e => some (s.close fd e, .closed fd)

end Overlay

/-!
## The position of one descriptor

`read` and `lseek64` move the position of an asset, and the methods they call that of the stream.
The mark is at the beginning, where `reset` goes back to; `skip` goes on by the number it is given,
or to the end. None of them throws an exception of its own: an array of a negative length cannot be
made, and that ends `read` before it comes to the stream.
-/

/-- The length of the array that `NewByteArray` is asked for: `count` as a `jsize`. -/
def arrayLength {w : Width} (count : Unsigned w) : Int :=
  ((count.val : Int) + 2 ^ 31) % 2 ^ 32 - 2 ^ 31

def Stream.moveTo (st : Stream) (pos : Int) : Stream :=
  { st with pos := min pos.toNat st.bytes.length }

inductive PositionCall (w : Width)
  /-- The method of the stream returns `taken` bytes if it can. -/
  | read (count : Unsigned w) (taken : Nat)
  | lseek64 (offset : Signed) (whence : Whence)

namespace Overlay

variable {w : Width} {n : Nat}

/-- `read`, and the bytes it returns. -/
def read (s : Overlay w n) (fd : Int) (count : Unsigned w) (taken : Nat) :
    Option (Overlay w n × List UInt8) :=
  if count.val = 0 then some (s, [])
  else
    match s.table.resolve fd with
    | none => some (s, [])
    | some e =>
      if e.extfd ≠ -1 then none
      else if arrayLength count < 0 then some (s, [])
      else do
        let obj ← e.obj
        let st ← s.streams[obj]?
        some (s.readStream fd e obj st (arrayLength count).toNat taken)

def lseek64 (s : Overlay w n) (fd : Int) (offset : Signed) (whence : Whence) :
    Option (Overlay w n) :=
  match s.table.resolve fd with
  | none => some s
  | some e =>
    if e.extfd ≠ -1 then none
    else do
      let obj ← e.obj
      let st ← s.streams[obj]?
      let world : SeekWorld :=
        { reset := true
          skip := fun k => some (min k st.bytes.length)
          underlying := fun _ _ _ => (-1, none) }
      let sought ← (Vfs.lseek64 world s.table fd offset whence).toOption
      let e' ← sought.table.resolve fd
      some { s with table := sought.table, streams := s.streams.set obj (st.moveTo e'.pos) }

/-- A call of a descriptor that has a stream, and the bytes it returns. -/
def position (s : Overlay w n) (fd : Int) : PositionCall w → Option (Overlay w n × List UInt8)
  | .read count taken => s.read fd count taken
  | .lseek64 offset whence => (s.lseek64 fd offset whence).map fun s => (s, [])

end Overlay

/-!
## The metadata

The file has one record for each path that was copied or removed: the version of the format, the
length of the path, the path without its `'\0'`, and a flag. Here all of a field is read or written
at once, as far as the file goes.
-/

/-- `metadata_entry_t`; the path is what `absolutize` returned. -/
structure MetadataEntry where
  path : Option CString
  removed : Bool
deriving DecidableEq

def metadataV1 : UInt8 := 1

def bytesOf (path : CString) : List UInt8 := path.map fun c => UInt8.ofNat c.toNat

def stringOf (bytes : List UInt8) : CString :=
  (bytes.takeWhile (· ≠ 0)).map fun b => Char.ofNat b.toNat

/-! ### Writing -/

/-- `write_metadata_entry`: what is written to the file. -/
def writeMetadataEntry (entry : MetadataEntry) : List UInt8 :=
  let path := bytesOf (entry.path.getD [])
  [metadataV1] ++ (littleEndian 4 path.length ++ (path ++ [if entry.removed then 1 else 0]))

/-- `save_metadata`: the file that it leaves. -/
def saveMetadata (metadata : List MetadataEntry) : List UInt8 := metadata.flatMap writeMetadataEntry

/-! ### Reading -/

/-- `read_metadata_entry`, with the rest of the file. -/
def readMetadataEntry (cwd : Option CString) (file : List UInt8) :
    Except Fault (Option (MetadataEntry × List UInt8)) :=
  match takeField 1 file with
  | none => .ok none
  | some (version, file) =>
    if version ≠ [metadataV1] then .ok none
    else
      match takeField 4 file with
      | none => .ok none
      | some (length, file) =>
        -- the array has `length + 1` characters, a sum of 32 bits
        if ofLittleEndian length + 1 = 2 ^ 32 ∧ file ≠ [] then .error .overrun
        else
          match takeField (ofLittleEndian length) file with
          | none => .ok none
          | some (path, file) =>
            match takeField 1 file with
            | none => .ok none
            | some (flag, file) => do
              let abspath ← absolutize cwd (some (stringOf path))
              return some (⟨abspath, flag ≠ [0]⟩, file)

theorem length_of_readMetadataEntry {cwd : Option CString} {file rest : List UInt8}
    {entry : MetadataEntry} (h : readMetadataEntry cwd file = .ok (some (entry, rest))) :
    rest.length < file.length := by
  unfold readMetadataEntry at h
  split at h
  · cases h
  · rename_i version file₁ hversion
    split_ifs at h
    · cases h
    · split at h
      · cases h
      · rename_i length file₂ hlength
        split_ifs at h
        split at h
        · cases h
        · rename_i path file₃ hpath
          split at h
          · cases h
          · rename_i flag file₄ hflag
            obtain ⟨abspath, -, heq⟩ := bind_eq_ok.mp h
            cases heq
            have h₁ := length_of_takeField hversion
            have h₂ := length_of_takeField hlength
            have h₃ := length_of_takeField hpath
            have h₄ := length_of_takeField hflag
            omega

def loadEntries (cwd : Option CString) (file : List UInt8) (metadata : List MetadataEntry) :
    Except Fault (List MetadataEntry) :=
  match h : readMetadataEntry cwd file with
  | .error fault => .error fault
  | .ok none => .ok metadata
  | .ok (some (entry, rest)) => do
    let path ← absolutize cwd entry.path
    loadEntries cwd rest (metadata ++ [⟨path, entry.removed⟩])
termination_by file.length
decreasing_by exact length_of_readMetadataEntry h

/-- `load_metadata`, if the file can be opened. -/
def loadMetadata (cwd : Option CString) (file : Option (List UInt8))
    (metadata : List MetadataEntry) : Except Fault (List MetadataEntry) :=
  match file with
  | none => .ok metadata
  | some file => loadEntries cwd file metadata

end CrystaxNdk.Vfs
