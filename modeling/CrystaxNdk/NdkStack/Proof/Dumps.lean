import CrystaxNdk.NdkStack.Parser

/-!
# One crash dump after the other

A log may hold several crash dumps, between lines of other programs. What `ndk-stack` makes of one
of them does not depend on what is before it: not on the state the parser was in, nor on a dump that
broke off. It prints what it would print for the rest of the log alone, after a mark, unless the
symbolizer has ended the process before.

The parser keeps nothing but its state from one line to the next, and a header leads to the same
state from each of them. So the only trace of the lines before it is the mark, and that depends on
whether the parser was outside of a dump, which it is exactly as long as there was no header
(`parseLine_outside_iff`).
-/

namespace CrystaxNdk.NdkStack

variable {host : Host} {symRoot line : List Char} {state : State}

def isHeader (line : List Char) : Bool := (strstr line crashDumpHeader).isSome

def completed : Stream × List Char := (.outHandle, "Crash dump is completed\n\n".toList)

/-- What a header does, apart from ending a dump. -/
def begun : Result :=
  ⟨.expectsBuildFingerprintOrPid, [(.outHandle, "********** Crash dump: **********\n".toList)],
    none, some 0⟩

theorem parseLine_header (h : isHeader line = true) :
    parseLine host ⟨symRoot, state⟩ line =
      some { begun with
        printed := (if state = .expectsCrashDump then [] else [completed]) ++ begun.printed } := by
  have hne : line ≠ [] := by
    rintro rfl
    exact absurd h (by decide +kernel)
  unfold isHeader at h
  rw [parseLine, if_neg hne, if_pos h]
  rfl

theorem parseLine_outside (h : isHeader line = false) :
    parseLine host ⟨symRoot, .expectsCrashDump⟩ line = 
      some ⟨.expectsCrashDump, [], none, some 1⟩ := by
  unfold isHeader at h
  rw [parseLine, h, if_neg Bool.false_ne_true, ite_self]

theorem parseFrame_state {r : Result} (h : parseFrame host symRoot line = some r) :
    r.state = .expectsFrame := by
  unfold parseFrame openSymbols at h
  split at h
  · cases h
    rfl
  · split at h
    · cases h
    · split at h
      · cases h
      · split at h <;> cases h <;> rfl

theorem parsePid_state (h : state ≠ .expectsCrashDump) (printed : Output) :
    (parsePid state printed line).state ≠ .expectsCrashDump := by
  unfold parsePid notFound
  split <;> simp [h]

theorem parseFrameLine_state {printed : Output} {r : Result}
    (h : state ≠ .expectsCrashDump)
    (hr : parseFrameLine host symRoot state printed line = some r) :
    r.state ≠ .expectsCrashDump := by
  unfold parseFrameLine at hr
  split at hr
  · cases hr
    exact h
  · split at hr
    · cases hr
      exact h
    · obtain ⟨r', hframe, rfl⟩ := Option.map_eq_some_iff.mp hr
      simp [parseFrame_state hframe]

/-- A dump only ends with the log, or where the next one begins. -/
theorem parseLine_state {r : Result} (h : state ≠ .expectsCrashDump)
    (hr : parseLine host ⟨symRoot, state⟩ line = some r) : r.state ≠ .expectsCrashDump := by
  unfold parseLine at hr
  split at hr
  · cases hr
    exact h
  · split at hr
    · cases hr
      simp
    · cases state with
      | expectsCrashDump => exact absurd rfl h
      | expectsBuildFingerprintOrPid =>
        simp only at hr
        split at hr <;> cases hr <;> exact parsePid_state (by simp) _
      | expectsPid =>
        cases hr
        exact parsePid_state h _
      | expectsSignalOrFrame =>
        simp only at hr
        split at hr <;> exact parseFrameLine_state (by simp) hr
      | expectsFrame => exact parseFrameLine_state h hr

/-- The parser is outside of a dump as long as there was none. -/
theorem parseLine_outside_iff {r : Result} {lines : List (List Char)}
    (hr : parseLine host ⟨symRoot, state⟩ line = some r) :
    (r.state = .expectsCrashDump ∧ lines.any isHeader = false) ↔
      (state = .expectsCrashDump ∧ (line :: lines).any isHeader = false) := by
  by_cases hstate : state = .expectsCrashDump
  · subst hstate
    cases hheader : isHeader line with
    | true =>
      rw [parseLine_header hheader] at hr
      cases hr
      simp [begun, hheader]
    | false =>
      rw [parseLine_outside hheader] at hr
      cases hr
      simp [hheader]
  · simp [hstate, parseLine_state hstate hr]

/-- What comes of a log, given what comes of its two parts: if the process gets to the end of the
    first one, it prints the mark, and does what it does for the second one. -/
def continued (mark : Output) (second : Option (Output × Bool)) (first : Output × Bool) :
    Option (Output × Bool) :=
  if first.2 then second.map fun second => (first.1 ++ mark ++ second.1, second.2) else some first

/-- The lines before a header and those from it on are decoded apart. -/
theorem parseLines_append (h : isHeader line = true) (before after : List (List Char)) :
    parseLines host symRoot state (before ++ line :: after) =
      (parseLines host symRoot state before).bind
        (continued (if state = .expectsCrashDump ∧ before.any isHeader = false then []
          else [completed]) (parseLines host symRoot .expectsCrashDump (line :: after))) := by
  induction before generalizing state with
  | nil =>
    simp only [List.nil_append, parseLines, parseLine_header h]
    cases parseLines host symRoot begun.state after <;> simp [continued, begun]
  | cons line' before ih =>
    rw [List.cons_append, parseLines, parseLines]
    cases hr : parseLine host ⟨symRoot, state⟩ line' with
    | none => rfl
    | some r =>
      simp only [Option.bind_eq_bind, Option.bind_some, ih, parseLine_outside_iff hr]
      -- the process may end with this line
      by_cases hret : r.ret = none
      · simp [hret, continued]
      · simp only [if_neg hret]
        cases parseLines host symRoot r.state before with
        | none => rfl
        | some first =>
          cases hfirst : first.2 <;>
            cases parseLines host symRoot .expectsCrashDump (line :: after) <;>
            simp [continued, hfirst]

theorem fgetsLoop_append (str before text : List Char) :
    fgetsLoop str (before ++ '\n' :: text) =
      fgetsLoop str (before ++ ['\n']) ++ fgetsLoop [] text := by
  induction before generalizing str with
  | nil => simp [fgetsLoop]
  | cons c before ih =>
    simp only [List.cons_append, fgetsLoop]
    split <;> simp [ih]

/-- A dump is decoded as if the log began with it, if the process gets there. -/
theorem ndkStack_append (host : Host) (symRoot before dump : List Char)
    (h : (readLines dump).head?.any isHeader = true) :
    ndkStack host symRoot (before ++ '\n' :: dump) =
      (ndkStack host symRoot (before ++ ['\n'])).bind
        (continued (if (readLines (before ++ ['\n'])).any isHeader then [completed] else [])
          (ndkStack host symRoot dump)) := by
  have hlines : readLines (before ++ '\n' :: dump) =
      readLines (before ++ ['\n']) ++ readLines dump := by
    rw [readLines, fgetsLoop_append, List.map_append]
    rfl
  unfold ndkStack
  rw [hlines]
  cases hdump : readLines dump with
  | nil => simp [hdump] at h
  | cons line lines =>
    rw [parseLines_append (by simpa [hdump] using h)]
    cases (readLines (before ++ ['\n'])).any isHeader <;> rfl

/-- A log that begins with a dump, and holds another one. -/
theorem ndkStack_append_two :
    ndkStack ⟨fun _ => none, fun _ => [], fun _ _ => ([], some 0)⟩ []
      (crashDumpHeader ++ '\n' :: crashDumpHeader) =
        some (begun.printed ++ [completed] ++ begun.printed, true) := by
  rw [ndkStack_append _ _ _ _ (by decide +kernel)]
  decide +kernel

end CrystaxNdk.NdkStack
