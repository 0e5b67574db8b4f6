import Mathlib

/-!
# Names, paths and the search path list

`crazy_linker_util.cpp` (`GetBaseNamePtr`), `crazy_linker_system.cpp` (`IsSystemLibrary`,
`GetCurrentDirectory`) and `crazy_linker_search_path_list.cpp`. A C string is the list of its
characters before the terminating `'\0'`; the class `String` of `crazy_linker_util.h` keeps a
size beside its buffer and can hold a `'\0'` in the middle, which is why `cStr` is a function
and not the identity.
-/

namespace CrystaxNdk.CrazyLinker

/-- The characters of a C string, or of the buffer of a `String`. -/
abbrev CString := List Char

/-- `String::c_str()` as its readers see it: the buffer up to the first `'\0'`. -/
def cStr (s : CString) : CString := s.takeWhile (· ≠ '\x00')

def pointerText (address : Nat) : CString := "0x".toList ++ Nat.toDigits 16 address

/-- `strrchr(s, c)`: the suffix of `s` that starts at the last `c`. -/
def strrchr (c : Char) : CString → Option CString
  | [] => none
  | x :: xs =>
    match strrchr c xs with
    | some p => some p
    | none => if x = c then some (x :: xs) else none

/-- `GetBaseNamePtr`: what follows the last `'/'`, or the whole path. -/
def getBaseNamePtr (path : CString) : CString :=
  match strrchr '/' path with
  | none => path
  | some p => p.tail

theorem strrchr_eq_none {c : Char} {s : CString} : strrchr c s = none ↔ c ∉ s := by
  induction s with
  | nil => simp [strrchr]
  | cons x xs ih =>
    simp only [strrchr, List.mem_cons, not_or]
    cases hx : strrchr c xs with
    | some p =>
      have hc : c ∈ xs := by
        by_contra hc
        rw [ih.mpr hc] at hx
        exact absurd hx (by simp)
      simp [hc]
    | none =>
      have hc : c ∉ xs := ih.mp hx
      by_cases hxc : x = c
      · simp [hxc]
      · simp [hxc, hc, Ne.symm hxc]

@[simp] theorem getBaseNamePtr_of_not_mem {n : CString} (h : '/' ∉ n) : getBaseNamePtr n = n := by
  rw [getBaseNamePtr, strrchr_eq_none.mpr h]

/-- `kSystemLibs`: the libraries the NDK exposes, always left to the system linker. -/
def kSystemLibs : List CString :=
  ["libandroid.so".toList, "libc.so".toList, "libdl.so".toList, "libjnigraphics.so".toList,
   "liblog.so".toList, "libm.so".toList, "libstdc++.so".toList, "libz.so".toList,
   "libEGL.so".toList, "libGLESv1_CM.so".toList, "libGLESv2.so".toList, "libGLESv3.so".toList,
   "libOpenMAXAL.so".toList, "libOpenSLES.so".toList]

/-- `IsSystemLibrary`: the base name decides, whatever the directory. -/
def isSystemLibrary (libName : CString) : Bool :=
  kSystemLibs.contains (getBaseNamePtr libName)

/-- The capacity `GetCurrentDirectory` settles on: it doubles until `getcwd` has room for the
    path and its `'\0'`. -/
def cwdCapacity (length : Nat) : Nat → Nat → Nat
  | 0, capacity => capacity
  | fuel + 1, capacity =>
    if length < capacity then capacity else cwdCapacity length fuel (capacity * 2)

/-- `GetCurrentDirectory`: the buffer was resized to its capacity before `getcwd` wrote the path
    into it, and nothing shrinks it afterwards, so the path is followed by `'\0'`s. -/
def getCurrentDirectory (cwd : CString) : CString :=
  cwd ++ List.replicate (cwdCapacity cwd.length cwd.length 128 - cwd.length) '\x00'

/-! ## `SearchPathList` -/

/-- `SearchPathList`: the paths added by the client and those of the environment, both as
    `':'`-separated text. -/
structure SearchPathList where
  list : CString
  envList : CString
deriving DecidableEq, Repr

namespace SearchPathList

def reset : SearchPathList := { list := [], envList := [] }

/-- `ResetFromEnv`, with the answer of `GetEnv`. -/
def resetFromEnv (env : Option CString) : SearchPathList :=
  match env with
  | none => reset
  | some text => { reset with envList := text }

/-- A `':'` after a list that is not empty and does not end in one. -/
def withSeparator (list : CString) : CString :=
  if list ≠ [] ∧ list.getLast? ≠ some ':' then list ++ [':'] else list

def addPaths (s : SearchPathList) (paths : CString) : SearchPathList :=
  { s with list := withSeparator s.list ++ paths }

/-- The list `FindFile` walks: the environment's after the client's. -/
def fullList (s : SearchPathList) : CString :=
  if s.envList ≠ [] then withSeparator s.list ++ s.envList else s.list

/-- The items of a list, from the one `cur` was read of on. A `':'` at the very end opens no
    further item. -/
def itemsFrom (cur : CString) : CString → List CString
  | [] => [cur]
  | c :: cs =>
    if c = ':' then cur :: (if cs = [] then [] else itemsFrom [] cs)
    else itemsFrom (cur ++ [c]) cs

/-- The items `FindFile` looks at, in order. -/
def items (list : CString) : List CString :=
  if list = [] then [] else itemsFrom [] list

def candidate (fileName item : CString) : CString :=
  (if item ≠ [] ∧ item.getLast? ≠ some '/' then item ++ ['/'] else item) ++ fileName

def findFile (pathIsFile : CString → Bool) (s : SearchPathList) (fileName : CString) :
    Option CString :=
  if fileName = [] then none
  else ((items s.fullList).map (candidate fileName)).find? pathIsFile

end SearchPathList

end CrystaxNdk.CrazyLinker
