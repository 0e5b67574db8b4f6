import CrystaxNdk.Lib.Digits

/-!
# `cpu-features.c` — lists of CPUs and fields of `/proc/cpuinfo`

`cpulist_parse` reads the lists that Linux gives in sysfs; `extract_cpuinfo_field` and
`has_list_item` look for a field of `/proc/cpuinfo` and for a word in it. The characters between two
pointers are a list, and what is left of it stands for the pointer. An `int` is never negative here,
so it is a `Nat` up to `INT_MAX`; an operation with a larger result has undefined behaviour, which
is an error of its own. The loops that nothing bounds in the source take the number of rounds they
may make, and give `none` when that is used up.
-/

namespace CrystaxNdk.CpuFeatures

open Lib

inductive Undefined where
  | signedOverflow
deriving DecidableEq, Repr

def intMax : Nat := 2147483647

/-! ## Numbers -/

/-- The loop in `parse_number`: the value, and where it stops. -/
def parseDigits (base : Nat) : Nat → List Char → Except Undefined (Nat × List Char)
  | val, [] => .ok (val, [])
  | val, c :: cs =>
    match hexValue c with
    | none => .ok (val, c :: cs)
    | some d =>
      if d ≥ base then .ok (val, c :: cs)
      else if val * base + d > intMax then .error .signedOverflow
      else parseDigits base (val * base + d) cs

/-- `parse_number`, which gives no number if it has not moved. -/
def parseNumber (base : Nat) (input : List Char) : Except Undefined (Option (Nat × List Char)) :=
  match parseDigits base 0 input with
  | .error undefined => .error undefined
  | .ok (val, rest) => .ok (if rest.length = input.length then none else some (val, rest))

def parseDecimal : List Char → Except Undefined (Option (Nat × List Char)) := parseNumber 10

/-! ## Masks -/

abbrev CpuMask := BitVec 32

def cpulistInit : CpuMask := 0

def cpulistSet (mask : CpuMask) (index : Nat) : CpuMask :=
  if index < 32 then mask ||| (1#32 <<< index) else mask

def setLoop (endValue : Nat) : (fuel val : Nat) → CpuMask → Option (Except Undefined CpuMask)
  | 0, _, _ => none
  | fuel + 1, val, mask =>
    if val ≤ endValue then
      -- `val++`
      if val = intMax then some (.error .signedOverflow)
      else setLoop endValue fuel (val + 1) (cpulistSet mask val)
    else some (.ok mask)

/-! ## Lists -/

/-- `start_value` and `end_value` of an item, or none if its format is bad. -/
def parseItem (item : List Char) : Except Undefined (Option (Nat × Nat)) :=
  match parseDecimal item with
  | .error undefined => .error undefined
  | .ok none => .ok none
  | .ok (some (startValue, p)) =>
    if p.head? = some '-' then
      match parseDecimal p.tail with
      | .error undefined => .error undefined
      | .ok none => .ok none
      | .ok (some (endValue, _)) => .ok (some (startValue, endValue))
    else .ok (some (startValue, startValue))

/-- The loop in `cpulist_parse`; `rounds` are for the loop inside of it. -/
def parseLoop (rounds : Nat) : Nat → List Char → CpuMask → Option (Except Undefined CpuMask)
  | 0, _, _ => none
  | fuel + 1, p, mask =>
    if p = [] ∨ p.head? = some '\n' then some (.ok mask)
    else
      -- an item ends at `q`, the next comma
      match parseItem (p.takeWhile (· ≠ ',')) with
      | .error undefined => some (.error undefined)
      | .ok none => some (.ok mask)
      | .ok (some (startValue, endValue)) =>
        match setLoop endValue rounds startValue mask with
        | some (.ok mask) => parseLoop rounds fuel ((p.dropWhile (· ≠ ',')).drop 1) mask
        | stopped => stopped

def cpulistParse (fuel : Nat) (mask : CpuMask) (line : List Char) :
    Option (Except Undefined CpuMask) :=
  parseLoop fuel fuel line mask

def cpulistAnd (list1 list2 : CpuMask) : CpuMask := list1 &&& list2

def cpulistCount (mask : CpuMask) : Nat := (List.range 32).countP mask.getLsbD

/-- `cpulist_read_from`, of a file that may be missing. The buffer has 64 bytes. -/
def cpulistReadFrom (fuel : Nat) (file : Option (List Char)) : ExceptT Undefined Option CpuMask :=
  match file with
  | none => return cpulistInit
  | some text => cpulistParse fuel cpulistInit (text.take 64)

def getCpuCount (fuel : Nat) (present possible : Option (List Char)) :
    ExceptT Undefined Option Nat := do
  let cpusPresent ← cpulistReadFrom fuel present
  let cpusPossible ← cpulistReadFrom fuel possible
  return cpulistCount (cpulistAnd cpusPresent cpusPossible)

/-!
## Fields of `/proc/cpuinfo`

A pointer into the buffer splits it into what is before it and what is left, and a string is the
characters before its NUL. `memmem` finds an empty string where it starts to look, as POSIX has it,
and there is memory for the result. Inside of the answer that the fuel sufficed, `none` is `NULL`.
-/

/-! ### Fields -/

def memmem (needle : List Char) : (before rest : List Char) → Option (List Char × List Char)
  | before, [] => if needle = [] then some (before, []) else none
  | before, c :: rest =>
    if needle.isPrefixOf (c :: rest) then some (before, c :: rest)
    else memmem needle (before ++ [c]) rest

/-- `p == buffer || p[-1] == '\n'`. -/
def StartsLine (before : List Char) : Prop := before = [] ∨ before.getLast? = some '\n'

instance (before : List Char) : Decidable (StartsLine before) :=
  inferInstanceAs (Decidable (_ ∨ _))

/-- The loop that looks for the field, with what is left behind it. -/
def findField (field : List Char) :
    (fuel : Nat) → (before rest : List Char) → Option (Option (List Char))
  | 0, _, _ => none
  | fuel + 1, before, rest =>
    match memmem field before rest with
    | none => some none
    | some (before, rest) =>
      if StartsLine before then some (some (rest.drop field.length))
      else findField field fuel (before ++ rest.take field.length) (rest.drop field.length)

/-- What follows the loop: the first colon, if a space comes after it, and the text up to the end of
    that line. -/
def copyValue (rest : List Char) : Option (List Char) :=
  let p := rest.dropWhile (· ≠ ':')
  if p = [] ∨ p.tail.head? ≠ some ' ' then none
  else some ((p.drop 2).takeWhile (· ≠ '\n'))

def extractCpuinfoField (fuel : Nat) (buffer field : List Char) : Option (Option (List Char)) :=
  (findField field fuel [] buffer).map fun found => found.bind copyValue

/-! ### Lists of items -/

def isItemBlank (c : Char) : Bool := c = ' ' || c = '\t'

def listLoop (item : List Char) : Nat → List Char → Option Bool
  | 0, _ => none
  | fuel + 1, p =>
    if p = [] then some false
    else
      let p := p.dropWhile isItemBlank
      let word := p.takeWhile (!isItemBlank ·)
      if item.length = word.length ∧ word = item then some true
      else listLoop item fuel (p.dropWhile (!isItemBlank ·))

/-- `has_list_item`; the list may be `NULL`. -/
def hasListItem (fuel : Nat) (list : Option (List Char)) (item : List Char) : Option Bool :=
  match list with
  | none => some false
  | some list => listLoop item fuel list

end CrystaxNdk.CpuFeatures
