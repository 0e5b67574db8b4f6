import Mathlib

/-!
# `ndk-stack` — the parser of crash dumps

`ParseLine` of `ndk-stack-parser.c` and what it calls. A string is the characters before its NUL,
and a pointer into it is an offset. What the parser prints is kept as a list, and the call of
`addr2line_main` with the locals `ParseFrame` has at that point. Reading a buffer that was never
written, or through `NULL`, has no result.

The expressions are the ones `CreateNdkCrashParser` compiles. `regexec` answers with the leftmost
place where one of them matches, and it is only that place the parser looks at.
-/

namespace CrystaxNdk.NdkStack

/-! ## Regular expressions -/

open RegularExpression in
def oneOf (chars : String) : RegularExpression Char :=
  chars.toList.foldr (fun c re => char c + re) 0

open RegularExpression in
def literal (chars : String) : RegularExpression Char :=
  chars.toList.foldr (fun c re => char c * re) 1

def oneOrMore (re : RegularExpression Char) : RegularExpression Char := re * re.star

/-- The expression matches a text that begins here. -/
def matchesHere : RegularExpression Char → List Char → Bool
  | re, [] => re.matchEpsilon
  | re, c :: text => re.matchEpsilon || matchesHere (re.deriv c) text

/-- `MatchRegex`, with `rm_so` of the match. -/
def matchRegex (line : List Char) (re : RegularExpression Char) : Option Nat :=
  line.tails.findIdx? (matchesHere re)

def digits : String := "0123456789"

/-- `_pid_header`. Its `.*` matches the empty text, and what it matches is not looked at. -/
def pidHeader : RegularExpression Char :=
  literal "pid: " * oneOrMore (oneOf digits) * literal ", tid: " * oneOrMore (oneOf digits)

def sigHeader : RegularExpression Char :=
  literal "signa" * (literal "l").star * oneOf " \t" * oneOrMore (oneOf digits)

def frameHeader : RegularExpression Char :=
  literal "#" * oneOrMore (oneOf digits) * oneOrMore (oneOf " |\t") * oneOrMore (oneOf "pc|eip") *
    (literal ":").star * oneOrMore (oneOf " |\t") * (oneOf "0123456789abcdef" ^ 8).star

/-! ## Tokens -/

def isSeparator (c : Char) : Bool := c = ' ' ∨ c = '\t'

def nextSeparator (str : List Char) : List Char := str.dropWhile (!isSeparator ·)

def nextToken (str : List Char) : List Char := (nextSeparator str).dropWhile isSeparator

/-- `get_next_token`: where the token starts, and what is copied of it. -/
def getNextToken (str : List Char) (size : Nat) : Option (List Char × List Char) :=
  let start := nextToken str
  let token := start.takeWhile (!isSeparator ·)
  if token = [] then none else some (start, token.take (size - 1))

def strstr (text needle : List Char) : Option Nat := text.tails.findIdx? (needle.isPrefixOf ·)

def separatorAt (text : List Char) (pos : Nat) : Bool := text[pos]?.any isSeparator

def pcstrs : List (List Char) := [['p', 'c'], ['e', 'i', 'p'], ['i', 'p']]

/-- `p` is a word of this length, not part of a file name or something. -/
def isWord (frame : List Char) (p length : Nat) : Bool :=
  p ≠ 0 && separatorAt frame (p - 1) && separatorAt frame (p + length)

def findPc (frame : List Char) : Option Nat :=
  pcstrs.findSome? fun word => (strstr frame word).filter (isWord frame · word.length)

/-! ## Frames -/

/-- What the parser asks its host: the error of `fopen`, if it fails, the text of an error, and what
    `addr2line_main` prints and returns, or that it ends the process instead, as it does for a file
    that is no object. It answers alike whenever it is asked. In fact a `-` at the start of the
    address makes it an option, which `addr2line_main` keeps for its next calls, and the files are
    never closed, so that one day `fopen` fails; that is left out. -/
structure Host where
  fopen : List Char → Option Nat
  strerror : Nat → List Char
  addr2lineMain : (symFile pcAddress : List Char) → List Char × Option Int

def ENOENT : Nat := 2

inductive Stream
  | outHandle
  | stdout
deriving DecidableEq

abbrev Output := List (Stream × List Char)

/-- The locals of `ParseFrame` that it calls `addr2line_main` with, and where in the frame it found
    the instruction pointer token. -/
structure Symbolized where
  wrk : Nat
  pcAddress : List Char
  symFile : List Char
deriving DecidableEq

inductive State
  | expectsCrashDump
  | expectsBuildFingerprintOrPid
  | expectsPid
  | expectsSignalOrFrame
  | expectsFrame
deriving DecidableEq

/-- Without a `ret` the process has ended. -/
structure Result where
  state : State
  printed : Output
  symbolized : Option Symbolized
  ret : Option Int
deriving DecidableEq

structure NdkCrashParser where
  symRoot : List Char
  state : State

/-- Everything after the last slash of a path. -/
def afterSlash (path : List Char) : List Char := path.rtakeWhile (· ≠ '/')

/-- `module_name`: a path that ends in a slash is its own name. -/
def moduleName (modulePath : List Char) : List Char :=
  if afterSlash modulePath = [] then modulePath else afterSlash modulePath

def pathSize : Nat := 2048

def pcSize : Nat := 17

def symFileOf (symRoot modulePath : List Char) : List Char :=
  (symRoot ++ '/' :: moduleName modulePath).take (pathSize - 1)

/-- The end of `ParseFrame`, with the file's name complete. -/
def openSymbols (host : Host) (frame : List Char) (call : Symbolized) : Result :=
  let head := (Stream.outHandle, "Stack frame ".toList ++ frame)
  match host.fopen call.symFile with
  | none =>
    let answer := host.addr2lineMain call.symFile call.pcAddress
    ⟨.expectsFrame, [head, (.stdout, ": Routine ".toList), (.stdout, answer.1)], some call,
      answer.2⟩
  | some errno =>
    let message := if errno = ENOENT then "\n".toList else
      ": Unable to open symbol file ".toList ++ call.symFile ++ ". Error (".toList ++
        Nat.toDigits 10 errno ++ "): ".toList ++ host.strerror errno ++ "\n".toList
    ⟨.expectsFrame, [head, (.stdout, message)], none, some (-1)⟩

/-- `ParseFrame`, with the state its caller has set. -/
def parseFrame (host : Host) (symRoot frame : List Char) : Option Result :=
  match findPc frame with
  | none =>
    some ⟨.expectsFrame, [(.outHandle, "Stack frame ".toList ++ frame),
      (.outHandle, "Parser is unable to locate instruction pointer token.\n".toList)], none,
      some (-1)⟩
  | some wrk =>
    -- without a token the buffers are read as the stack left them, and `NULL` is followed
    match getNextToken (frame.drop wrk) pcSize with
    | none => none
    | some (start, pcAddress) =>
      match getNextToken start pathSize with
      | none => none
      | some (_, modulePath) =>
        some (openSymbols host frame ⟨wrk, pcAddress, symFileOf symRoot modulePath⟩)

/-! ## Lines -/

def crashDumpHeader : List Char :=
  "*** *** *** *** *** *** *** *** *** *** *** *** *** *** *** ***".toList

def buildFingerprintHeader : List Char := "Build fingerprint:".toList

def printFrom (line : List Char) (pos : Nat) : Stream × List Char :=
  (.outHandle, line.drop pos ++ ['\n'])

def notFound (state : State) (printed : Output) : Result :=
  ⟨state, printed, none, some (if printed = [] then 1 else 0)⟩

/-- `case EXPECTS_PID`, with what was printed when something was found before. -/
def parsePid (state : State) (printed : Output) (line : List Char) : Result :=
  match matchRegex line pidHeader with
  | some so => ⟨.expectsSignalOrFrame, printed ++ [printFrom line so], none, some 0⟩
  | none => notFound state printed

def parseFrameLine (host : Host) (symRoot : List Char) (state : State)
    (printed : Output) (line : List Char) : Option Result :=
  match matchRegex line frameHeader with
  | none => some (notFound state printed)
  | some so =>
    if findPc line = none then some (notFound state printed)
    else (parseFrame host symRoot (line.drop so)).map fun r =>
      { r with printed := printed ++ r.printed }

def parseLine (host : Host) (parser : NdkCrashParser) (line : List Char) : Option Result :=
  if line = [] then some ⟨parser.state, [], none, some 1⟩
  else if (strstr line crashDumpHeader).isSome then
    let completed := if parser.state = .expectsCrashDump then []
      else [(Stream.outHandle, "Crash dump is completed\n\n".toList)]
    some ⟨.expectsBuildFingerprintOrPid,
      completed ++ [(.outHandle, "********** Crash dump: **********\n".toList)], none,
      some 0⟩
  else match parser.state with
    | .expectsBuildFingerprintOrPid =>
      match strstr line buildFingerprintHeader with
      | some pos => some (parsePid .expectsPid [printFrom line pos] line)
      | none => some (parsePid parser.state [] line)
    | .expectsPid => some (parsePid parser.state [] line)
    | .expectsSignalOrFrame =>
      match matchRegex line sigHeader with
      | some so => parseFrameLine host parser.symRoot .expectsFrame [printFrom line so] line
      | none => parseFrameLine host parser.symRoot parser.state [] line
    | .expectsFrame => parseFrameLine host parser.symRoot parser.state [] line
    | .expectsCrashDump => some ⟨parser.state, [], none, some 1⟩

/-! ## `main` -/

def lineSize : Nat := 2048

/-- The calls of `fgets`, of which one has read `str` so far: it stops behind a newline, and when
    the buffer is full. -/
def fgetsLoop (str : List Char) : List Char → List (List Char)
  | [] => if str = [] then [] else [str]
  | c :: text =>
    if c = '\n' ∨ str.length + 2 = lineSize then (str ++ [c]) :: fgetsLoop [] text
    else fgetsLoop (str ++ [c]) text

def cutLineEnd (str : List Char) : List Char :=
  str.takeWhile fun c => c ∉ ['\r', '\n', '\x00']

/-- What is printed for these lines, and whether the last one is got to. -/
def parseLines (host : Host) (symRoot : List Char) (state : State) :
    List (List Char) → Option (Output × Bool)
  | [] => some ([], true)
  | line :: lines => do
    let r ← parseLine host ⟨symRoot, state⟩ line
    if r.ret = none then return (r.printed, false)
    let rest ← parseLines host symRoot r.state lines
    return (r.printed ++ rest.1, rest.2)

def readLines (text : List Char) : List (List Char) := (fgetsLoop [] text).map cutLineEnd

/-- `main`, once the dump is open: what is printed, and whether `main` returns. -/
def ndkStack (host : Host) (symRoot text : List Char) : Option (Output × Bool) :=
  parseLines host symRoot .expectsCrashDump (readLines text)

end CrystaxNdk.NdkStack
