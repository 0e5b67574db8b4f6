import CrystaxNdk.CrazyLinker.Names
import CrystaxNdk.Lib.Blocks
import CrystaxNdk.CrazyLinker.Elf
import CrystaxNdk.Lib.Digits

/-!
# Reading `/proc/self/maps`

`crazy_linker_line_reader.cpp`, which gives a file line by line, and `crazy_linker_proc_maps.cpp`,
which reads the fields of a line. The file can be read to its end. The buffer is kept with all its
cells, in `buff0_` or in a block of the heap. What the reader cannot decide is how many bytes a
`read` gives and whether `realloc` moves a block. Sizes are numbers without a bound: a line of 2^31
characters is out of the reach of the `int` that `read` returns to.
-/

namespace CrystaxNdk.CrazyLinker

open Lib

def buff0Size : Nat := 128

/-- What `read` and `realloc` do. No two calls of `read` find the same number of bytes left, and no
    two calls of `realloc` a block of the same size, so these are functions of the two. -/
structure ReaderWorld where
  /-- How much `read` gives when so much is left, if there is room for it. -/
  chunk : Nat → Nat
  /-- Whether the block of this size is moved when it grows. -/
  moves : Nat → Bool
  /-- What stands in the cells that were added to the block of this size; `buff0_` was added to
      nothing. -/
  stale : Nat → Nat → Char

structure LineReader where
  /-- What is still to be read from `fd_`. -/
  input : CString
  eof : Bool
  lineStart : Nat
  lineLen : Nat
  buffSize : Nat
  buffCapacity : Nat
  buff0 : CString
  /-- The block that `buff_` points to, unless that is `buff0_`. -/
  heap : Option CString

namespace LineReader

def buff (r : LineReader) : CString := r.heap.getD r.buff0

def setBuff (r : LineReader) (cells : CString) : LineReader :=
  if r.heap.isNone then { r with buff0 := cells } else { r with heap := some cells }

/-- `Open`, with `Reset`; a file that cannot be opened is `none`. -/
def opened (w : ReaderWorld) (file : Option CString) : LineReader :=
  { input := file.getD [], eof := file.isNone, lineStart := 0, lineLen := 0, buffSize := 0,
    buffCapacity := buff0Size, buff0 := (List.range buff0Size).map (w.stale 0), heap := none }

/-- Finds the end of the current line in the buffer. -/
def findLine (r : LineReader) : Option LineReader :=
  (((r.buff.take r.buffSize).drop r.lineStart).idxOf? '\n').map
    fun lineEnd => { r with lineLen := lineEnd + 1 }

def eatStart (r : LineReader) : LineReader :=
  if 0 < r.lineStart then
    { r.setBuff (blit r.buff 0 ((r.buff.take r.buffSize).drop r.lineStart)) with
      buffSize := r.buffSize - r.lineStart, lineStart := 0 }
  else r

/-- The last line gets a newline if there is room for it. -/
def lastLine (r : LineReader) : Bool × LineReader :=
  if 0 < r.buffSize ∧ r.buffSize < r.buffCapacity then
    (true, { r.setBuff (blit r.buff r.buffSize ['\n']) with
      buffSize := r.buffSize + 1, lineLen := r.buffSize + 1 })
  else (false, r)

/-- Grows a full buffer. `none` is the `memcpy` that reads past the end of `buff0_`. -/
def grow (w : ReaderWorld) (r : LineReader) : Option LineReader :=
  if r.buffSize = r.buffCapacity then
    let newCapacity := r.buffCapacity * 2
    let oldCells := r.heap.getD []
    let cells := oldCells ++
      (List.range (newCapacity - oldCells.length)).map (w.stale r.buffCapacity)
    -- a block that was `NULL` is not where it was either
    if r.heap = none ∨ w.moves r.buffCapacity = true then
      if buff0Size < r.buffCapacity then none
      else some { r with heap := some (blit cells 0 (r.buff0.take r.buffCapacity)),
                         buffCapacity := newCapacity }
    else some { r with heap := some cells, buffCapacity := newCapacity }
  else some r

/-- Fills the rest of the buffer; `read` gives nothing at the end of the file only. -/
def fill (w : ReaderWorld) (r : LineReader) : LineReader :=
  let avail := r.buffCapacity - r.buffSize
  let ret := min (max 1 (w.chunk r.input.length)) (min avail r.input.length)
  if ret = 0 then { r with eof := true }
  else
    { r.setBuff (blit r.buff r.buffSize (r.input.take ret)) with
      input := r.input.drop ret, buffSize := r.buffSize + ret }

theorem setBuff_input (r : LineReader) (cells : CString) : (r.setBuff cells).input = r.input := by
  unfold setBuff
  split <;> rfl

theorem setBuff_eof (r : LineReader) (cells : CString) : (r.setBuff cells).eof = r.eof := by
  unfold setBuff
  split <;> rfl

theorem eatStart_input (r : LineReader) : r.eatStart.input = r.input := by
  unfold eatStart
  split
  · exact setBuff_input r _
  · rfl

theorem eatStart_eof (r : LineReader) : r.eatStart.eof = r.eof := by
  unfold eatStart
  split
  · exact setBuff_eof r _
  · rfl

theorem grow_input {w : ReaderWorld} {r r' : LineReader} (h : r.grow w = some r') :
    r'.input = r.input ∧ r'.eof = r.eof := by
  unfold grow at h
  split_ifs at h <;> cases h <;> exact ⟨rfl, rfl⟩

/-- What the loop comes nearer to its end by: there is less to read, or the end was seen. -/
def ahead (r : LineReader) : Nat := r.input.length + (!r.eof).toNat

theorem fill_ahead (w : ReaderWorld) {r : LineReader} (h : r.eof = false) :
    (r.fill w).ahead < r.ahead := by
  unfold fill
  simp only
  split
  · simp [ahead, h]
  · simp only [ahead, setBuff_eof, List.length_drop]
    omega

theorem pass_ahead {w : ReaderWorld} {r grown : LineReader} (heof : r.eof = false)
    (hgrow : r.eatStart.grow w = some grown) : (grown.fill w).ahead < r.ahead := by
  have hsame := grow_input hgrow
  rw [eatStart_input, eatStart_eof] at hsame
  have hless := fill_ahead w (hsame.2.trans heof)
  have hahead : grown.ahead = r.ahead := by rw [ahead, ahead, hsame.1, hsame.2]
  exact hahead ▸ hless

def nextLine (w : ReaderWorld) (r : LineReader) : Option (Bool × LineReader) :=
  match r.findLine with
  | some r => some (true, r)
  | none =>
    if _ : r.eof = true then some r.eatStart.lastLine
    else
      match _ : r.eatStart.grow w with
      | none => none
      | some grown => nextLine w (grown.fill w)
termination_by r.ahead
decreasing_by exact pass_ahead (Bool.not_eq_true _ ▸ ‹¬ r.eof = true›) ‹_›

def getNextLine (w : ReaderWorld) (r : LineReader) : Option (Bool × LineReader) :=
  nextLine w { r with lineStart := r.lineStart + r.lineLen, lineLen := 0 }

def line (r : LineReader) : CString := (r.buff.drop r.lineStart).take r.lineLen

/-- The lines of at most so many calls of `GetNextLine`, up to the one that returns `false`. -/
def linesRead (w : ReaderWorld) : Nat → LineReader → Option (List CString)
  | 0, _ => some []
  | calls + 1, r =>
    match r.getNextLine w with
    | none => none
    | some (false, _) => some []
    | some (true, r) => (linesRead w calls r).map (r.line :: ·)

end LineReader

/-!
## `ParseProcMapsLine`

The seven tokens of a line. The numbers are read from where their token starts on, and `strtoumax`
itself finds where they end. `MapsLine` is a line as the kernel prints it.
-/

variable {a : Arch}

def isSpace (c : Char) : Bool := c = ' ' || ('\x09' ≤ c && c ≤ '\x0d')

def strtoumax (s : CString) : Nat :=
  let s := s.dropWhile isSpace
  let negative := s.head? = some '-'
  let s := if negative ∨ s.head? = some '+' then s.tail else s
  let s := if s.take 2 = ['0', 'x'] ∨ s.take 2 = ['0', 'X'] then s.drop 2 else s
  let n := readHex 0 s
  if 2 ^ 64 ≤ n then 2 ^ 64 - 1 else if negative then (2 ^ 64 - n) % 2 ^ 64 else n

/-- `ProcMaps::Entry`. The path is `NULL` or `path_len` characters. -/
structure MapsEntry (a : Arch) where
  vmaStart : Addr a
  vmaEnd : Addr a
  protFlags : Prot
  loadOffset : Addr a
  path : Option CString

/-- What stands at the places of the tokens. -/
inductive MapsField where
  | vmaStart
  | vmaEnd
  | protection
  | pageOffset
  | device
  | inode
  | path
deriving DecidableEq, Repr

namespace MapsField

def separator : MapsField → Char
  | .vmaStart => '-'
  | _ => ' '

end MapsField

/-- The text from the start of a token on, the token, and where the next search starts. -/
structure MapsToken where
  start : CString
  token : CString
  next : CString

/-- Skips leading separators and finds the end of the token. -/
def mapsToken (separator : Char) (p : CString) : MapsToken :=
  let start := p.dropWhile (· = separator)
  match start.idxOf? separator with
  | none => { start := start, token := start, next := [] }
  | some n => { start := start, token := start.take n, next := start.drop (n + 1) }

def protectionFlags (token : CString) : Prot :=
  token.foldl (fun flags c =>
    { read := flags.read || c = 'r', write := flags.write || c = 'w',
      exec := flags.exec || c = 'x' }) Prot.none

def storeField (entry : MapsEntry a) (t : MapsToken) : MapsField → MapsEntry a
  | .vmaStart => { entry with vmaStart := BitVec.ofNat _ (strtoumax t.start) }
  | .vmaEnd => { entry with vmaEnd := BitVec.ofNat _ (strtoumax t.start) }
  | .protection => { entry with protFlags := protectionFlags t.token }
  | .pageOffset => { entry with loadOffset := BitVec.ofNat _ (strtoumax t.start) * 4096#_ }
  | .path => { entry with path := some (t.token.rdropWhile (· = '\n')) }
  | .device | .inode => entry

def parseFields : List MapsField → CString → MapsEntry a → Bool × MapsEntry a
  | [], _, entry => (true, entry)
  | field :: fields, p, entry =>
    let t := mapsToken field.separator p
    if t.token = [] then
      if field = .path then (true, { entry with path := none }) else (false, entry)
    else parseFields fields t.next (storeField entry t field)

def parseProcMapsLine (line : CString) (entry : MapsEntry a) : Bool × MapsEntry a :=
  parseFields [.vmaStart, .vmaEnd, .protection, .pageOffset, .device, .inode, .path] line entry

/-! ### The lines of the kernel -/

/-- A mapping, and what the kernel prints beside it. An anonymous one has the empty path. -/
structure MapsLine (a : Arch) where
  start : Addr a
  stop : Addr a
  prot : Prot
  shared : Bool
  offset : BitVec 64
  major : Nat
  minor : Nat
  inode : Nat
  padding : Nat
  path : CString
  newline : Bool
  padded : path ≠ [] → 1 ≤ padding
  oneLine : '\n' ∉ path

namespace MapsLine

def permissions (l : MapsLine a) : CString :=
  [if l.prot.read then 'r' else '-', if l.prot.write then 'w' else '-',
   if l.prot.exec then 'x' else '-', if l.shared then 's' else 'p']

def ending (l : MapsLine a) : CString := l.path ++ if l.newline then ['\n'] else []

/-- `"%08lx-%08lx %c%c%c%c %08llx %02x:%02x %lu"`, and the path. -/
def print (l : MapsLine a) : CString :=
  Lib.hexPadded 8 l.start.toNat ++ '-' :: (Lib.hexPadded 8 l.stop.toNat ++ ' ' :: (l.permissions ++
    ' ' :: (Lib.hexPadded 8 l.offset.toNat ++ ' ' :: (Lib.hexPadded 2 l.major ++
    ':' :: Lib.hexPadded 2 l.minor ++
    ' ' :: (Nat.toDigits 10 l.inode ++ (List.replicate l.padding ' ' ++ l.ending))))))

def expectedPath (l : MapsLine a) : Option CString := if l.path = [] then none else some l.path

end MapsLine

end CrystaxNdk.CrazyLinker
