import Mathlib.Data.List.Basic
import Mathlib.Logic.Function.Basic

/-!
# Files as POSIX has them

A disk has files, and files that are open, each under a descriptor with an offset of its own. Which
descriptor an `open` returns, and how many bytes a `write` takes, is left to the disk: `none` is a
call that fails, and `open` does not return a descriptor that is in use.
-/

namespace CrystaxNdk.Lib

open List Function

inductive Access
  | rdonly
  | wronly
  | rdwr
deriving DecidableEq

structure OpenFlags where
  access : Access
  creat : Bool
  excl : Bool
  trunc : Bool
  append : Bool
deriving DecidableEq

structure OpenFile (P : Type) where
  path : P
  offset : Nat
  flags : OpenFlags
deriving DecidableEq

structure Disk (P : Type) where
  files : P → Option (List UInt8)
  opened : Nat → Option (OpenFile P)

/-- Bytes at a position of a file, with zeros before them if it ends before that. -/
def overwrite (file : List UInt8) (pos : Nat) (bytes : List UInt8) : List UInt8 :=
  if bytes = [] then file
  else
    (file ++ List.replicate (pos - file.length) 0).take pos ++ bytes ++
      file.drop (pos + bytes.length)

namespace Disk

variable {P : Type} [DecidableEq P]

def contents (d : Disk P) (path : P) : List UInt8 := (d.files path).getD []

def openFile (d : Disk P) (path : P) (flags : OpenFlags) (answer : Option Nat) :
    Disk P × Option Nat :=
  match answer with
  | none => (d, none)
  | some fd =>
    if (d.opened fd).isSome ∨ d.files path = none ∧ flags.creat = false ∨
        d.files path ≠ none ∧ flags.creat = true ∧ flags.excl = true then (d, none)
    else
      let file := if flags.trunc ∧ flags.access ≠ .rdonly then [] else d.contents path
      (⟨update d.files path (some file),
        update d.opened fd (some ⟨path, 0, flags⟩)⟩, some fd)

def close (d : Disk P) (fd : Nat) : Disk P := ⟨d.files, update d.opened fd none⟩

def writePos (d : Disk P) (f : OpenFile P) : Nat :=
  if f.flags.append then (d.contents f.path).length else f.offset

/-- `write`, with the number of bytes that it takes. -/
def write (d : Disk P) (fd : Nat) (bytes : List UInt8) (answer : Option Nat) :
    Disk P × Option Nat :=
  match d.opened fd, answer with
  | some f, some count =>
    if f.flags.access = .rdonly then (d, none)
    else
      let taken := bytes.take count
      let pos := d.writePos f
      (⟨update d.files f.path (some (overwrite (d.contents f.path) pos taken)),
        update d.opened fd (some { f with offset := pos + taken.length })⟩,
        some taken.length)
  | _, _ => (d, none)

def read (d : Disk P) (fd : Nat) (count : Nat) : Disk P × Option (List UInt8) :=
  match d.opened fd with
  | none => (d, none)
  | some f =>
    if f.flags.access = .wronly then (d, none)
    else
      let bytes := ((d.contents f.path).drop f.offset).take count
      (⟨d.files, update d.opened fd (some { f with offset := f.offset + bytes.length })⟩,
        some bytes)

end Disk

/-! ## What a write leaves -/

section Overwrite

variable {file bytes : List UInt8} {pos i : Nat} {b : UInt8}

theorem overwrite_nil (file : List UInt8) (pos : Nat) : overwrite file pos [] = file := if_pos rfl

theorem length_before (file : List UInt8) (pos : Nat) :
    ((file ++ List.replicate (pos - file.length) 0).take pos).length = pos := by
  simp
  omega

theorem getElem?_overwrite_of_mem (h : bytes[i]? = some b) :
    (overwrite file pos bytes)[pos + i]? = some b := by
  have hlt := (List.getElem?_eq_some_iff.mp h).1
  have hne : bytes ≠ [] := ne_nil_of_length_pos (by omega)
  have hlen := length_before file pos
  rw [overwrite, if_neg hne, getElem?_append_left (by rw [length_append, hlen]; omega),
    getElem?_append_right (by omega), hlen, Nat.add_sub_cancel_left, h]

theorem getElem?_overwrite_of_not_mem (hi : i < pos ∨ pos + bytes.length ≤ i)
    (h : file[i]? = some b) : (overwrite file pos bytes)[i]? = some b := by
  have hlt := (List.getElem?_eq_some_iff.mp h).1
  have hlen := length_before file pos
  by_cases hne : bytes = []
  · rw [hne, overwrite_nil, h]
  rw [overwrite, if_neg hne]
  rcases hi with hi | hi
  · rw [getElem?_append_left (by rw [length_append, hlen]; omega),
      getElem?_append_left (by omega), getElem?_take_of_lt hi,
      getElem?_append_left hlt, h]
  · rw [getElem?_append_right (by rw [length_append, hlen]; omega), length_append,
      hlen, getElem?_drop, Nat.add_sub_of_le hi, h]

end Overwrite

/-! ## What the calls do -/

namespace Disk

variable {P : Type} [DecidableEq P] {d d' : Disk P} {path : P} {flags : OpenFlags}
  {answer : Option Nat} {fd count : Nat} {bytes : List UInt8}

theorem openFile_eq_some (h : d.openFile path flags answer = (d', some fd))
    (htrunc : flags.trunc = false) :
    d.opened fd = none ∧ d'.files = update d.files path (some (d.contents path)) ∧
      d'.opened = update d.opened fd (some ⟨path, 0, flags⟩) := by
  unfold openFile at h
  split at h
  · cases h
  case h_2 fd' =>
    split at h
    · cases h
    case isFalse hcond =>
      cases h
      rw [not_or, Option.not_isSome_iff_eq_none] at hcond
      exact ⟨hcond.1, by simp [htrunc], rfl⟩

theorem openFile_eq_none (h : d.openFile path flags answer = (d', none)) : d' = d := by
  unfold openFile at h
  split at h
  · cases h
    rfl
  · split at h
    · cases h
      rfl
    · cases h

theorem write_eq_some (h : d.write fd bytes answer = (d', some count)) :
    ∃ f, d.opened fd = some f ∧ count = (bytes.take count).length ∧
      d'.files = update d.files f.path
        (some (overwrite (d.contents f.path) (d.writePos f) (bytes.take count))) ∧
      d'.opened = update d.opened fd
        (some { f with offset := d.writePos f + (bytes.take count).length }) := by
  unfold write at h
  split at h
  case h_1 f taken hf =>
    split at h
    · cases h
    · cases h
      have htake : bytes.take (bytes.take taken).length = bytes.take taken := by
        rw [length_take, take_eq_take_iff]
        omega
      refine ⟨f, hf, ?_, ?_, ?_⟩
      · rw [htake]
      · rw [htake]
      · rw [htake]
  · cases h

omit [DecidableEq P] in
theorem read_eq_some (h : d.read fd count = (d', some bytes)) :
    ∃ f, d.opened fd = some f ∧ bytes = ((d.contents f.path).drop f.offset).take count ∧
      d'.files = d.files ∧
      d'.opened =
        update d.opened fd (some { f with offset := f.offset + bytes.length }) := by
  unfold read at h
  split at h
  · cases h
  case h_2 f hf =>
    split at h
    · cases h
    · cases h
      exact ⟨f, hf, rfl, rfl, rfl⟩

end Disk

end CrystaxNdk.Lib
