import CrystaxNdk.Lib.Walk

/-!
# `vfs/futils.cpp` — paths as text, and what they mean

The functions of libcrystax that take paths apart and put them together. A C string is the list of
its characters, one for each byte before the terminating `'\0'`, and `none` is the null pointer.

`normalize` writes into an array of `PATH_MAX + 1` characters and never asks whether there is room,
so it may end in a fault. It keeps the length of what it has written in a variable, beside the
`'\0'` that ends it; `Buf` has both. The second half of the module has the meaning of paths, with
which the functions are compared: a walk through directories, and the text that writes down where
it leads.
-/

namespace CrystaxNdk.Vfs

abbrev CString := List Char

inductive Fault
  | overrun
  | nullPointer
deriving DecidableEq, Repr

def nameMax : Nat := 255

def pathMax : Nat := 4096

def strrchr (c : Char) : CString → Option Nat
  | [] => none
  | x :: xs =>
    match strrchr c xs with
    | some i => some (i + 1)
    | none => if x = c then some 0 else none

/-! ## `normalize` -/

/-- The array `buf` up to its `'\0'`, and `buflen`. -/
structure Buf where
  buf : CString
  buflen : Nat
deriving DecidableEq

namespace Buf

def empty : Buf := ⟨[], 0⟩

/-- `strcat(buf, s)`, and `buflen` with it. -/
def strcat (b : Buf) (s : CString) : Except Fault Buf :=
  if (b.buf ++ s).length ≤ pathMax then .ok ⟨b.buf ++ s, b.buflen + s.length⟩
  else .error .overrun

def dotDot (b : Buf) : Except Fault Buf :=
  if b.buflen = 0 then b.strcat ['.', '.']
  else
    match strrchr '/' b.buf with
    | none =>
      if b.buflen = 1 ∧ b.buf[0]? = some '.' then .ok ⟨['.', '.'], b.buflen + 2⟩
      else if b.buflen = 2 ∧ b.buf[0]? = some '.' ∧ b.buf[1]? = some '.' then
        b.strcat ['/', '.', '.']
      else .ok ⟨['.'], 1⟩
    | some i =>
      let v := if i = 0 ∧ b.buf[0]? = some '/' then i + 1 else i
      if b.buflen = v + 3 ∧ b.buf[v]? = some '/' ∧ b.buf[v + 1]? = some '.' ∧
          b.buf[v + 2]? = some '.' then
        b.strcat ['/', '.', '.']
      else .ok ⟨b.buf.take v, v⟩

def name (b : Buf) (part : CString) : Except Fault Buf := do
  let b := if b.buflen = 1 ∧ b.buf[0]? = some '.' then ⟨[], 0⟩ else b
  let b ← if 0 < b.buflen ∧ b.buf[b.buflen - 1]? ≠ some '/' then b.strcat ['/'] else pure b
  b.strcat part

/-- One round of the loop, with what stands between two slashes of `path`. -/
def part (path : CString) (b : Buf) (s : CString) : Except Fault Buf :=
  let part := s.take nameMax
  if part = [] then
    if b.buflen = 0 ∧ path[0]? = some '/' then b.strcat ['/'] else .ok b
  else if part = ['.'] then
    if b.buflen = 0 then b.strcat ['.'] else .ok b
  else if part = ['.', '.'] then b.dotDot
  else b.name part

end Buf

/-- What stands between the slashes of a path. -/
def parts (path : CString) : List CString := path.splitOn '/'

def normalize : Option CString → Except Fault (Option CString)
  | none => .ok none
  | some path => do
    let b ← (parts path).foldlM (Buf.part path) .empty
    return some b.buf

/-! ## The other functions -/

def isNormalized : Option CString → Bool
  | none => true
  | some path =>
    if path = [] ∨ path = ['/'] then true
    else
      let s := if path[0]? = some '/' then path.tail else path
      (parts s).all fun part => part ≠ [] ∧ part ≠ ['.'] ∧ part ≠ ['.', '.']

def absolutize (cwd : Option CString) : Option CString → Except Fault (Option CString)
  | none => .ok none
  | some [] => .ok none
  | some path =>
    if path[0]? = some '/' then normalize (some path)
    else
      match cwd with
      | none => .ok none
      | some cwd =>
        if pathMax + 1 - cwd.length - 1 < path.length + 1 then .ok none
        else normalize (some (cwd ++ ['/'] ++ path))

def isAbsolute : Option CString → Bool
  | none => false
  | some path => path[0]? = some '/'

/-- The path as it is, if it is absolute and normalized, or as `absolutize` makes it. -/
def absolutePath (cwd path : Option CString) : Except Fault (Option CString) :=
  if isAbsolute path ∧ isNormalized path then .ok path else absolutize cwd path

def isSubpath (cwd root path : Option CString) : Except Fault Bool := do
  let r ← absolutePath cwd root
  let p ← absolutePath cwd path
  match r, p with
  | none, _ => return false
  | _, none => return false
  | some r, some p =>
    if r = ['/'] then return true
    else return r.isPrefixOf p ∧ (p[r.length]? = none ∨ p[r.length]? = some '/')

def relpath (cwd root path : Option CString) : Except Fault (Option CString) := do
  let r ← absolutePath cwd root
  let p ← absolutePath cwd path
  match r, p with
  | none, _ => return none
  | _, none => return none
  | some r, some p =>
    if r = ['/'] then return some p.tail
    else if r.isPrefixOf p ∧ (p[r.length]? = none ∨ p[r.length]? = some '/') then
      let s := p.drop r.length
      return some (if s[0]? = some '/' then s.tail else s)
    else return none

/-- The path as it is, if it is normalized, or as `normalize` makes it. -/
def normalizedPath (path : CString) : Except Fault (Option CString) :=
  if isNormalized (some path) then .ok (some path) else normalize (some path)

/-- Copies a name to the array `buf` of `basename`. -/
def copyName (name : CString) : Except Fault (Option CString) :=
  if name.length ≤ nameMax then .ok (some name) else .error .overrun

def basename : Option CString → Except Fault (Option CString)
  | none => .ok none
  | some [] => .ok (some [])
  | some path => do
    match ← normalizedPath path with
    | none => .error .nullPointer
    | some p =>
      if p.length = 0 then .ok (some [])
      else
        match strrchr '/' p with
        | none => copyName p
        | some s =>
          let partlen := p.length - s - 1
          if partlen = 0 then .ok (some ['.']) else copyName (p.drop (s + 1))

def dirname : Option CString → Except Fault (Option CString)
  | none => .ok none
  | some path => do
    match ← normalizedPath path with
    | none => .error .nullPointer
    | some p =>
      if p.length = 0 then .ok (some ['.'])
      else
        match strrchr '/' p with
        | none => .ok (some ['.'])
        | some s =>
          if pathMax < s then .error .overrun
          else
            let buf := p.take s
            .ok (some (if buf = [] then ['/'] else buf))

/-!
## What a path means

Read component by component, a path is a walk: an empty component and `.` stay, `..` goes up, and
any other component is a name to go down to. `relative` and `absolute` are the paths that write
down a course and a directory with nothing superfluous in them.
-/

open Lib List

/-- What a component of a path says. -/
def component (part : CString) : Move CString :=
  if part = [] ∨ part = ['.'] then .stay
  else if part = ['.', '.'] then .up
  else .down part

def moves (path : CString) : List (Move CString) := (parts path).map component

/-- The directory that a path leads to from `dir`. -/
def resolve (dir : List CString) (path : CString) : List CString :=
  if isAbsolute (some path) then walk [] (moves path) else walk dir (moves path)

/-- The directory of an absolute path. -/
def directory (path : CString) : List CString := walk [] (moves path)

/-- The components of a path, none longer than `NAME_MAX`. -/
def clipped (path : CString) : List CString := (parts path).map (List.take nameMax)

/-- The directory of an absolute path whose components may be cut. -/
def located (path : CString) : List CString := walk [] ((clipped path).map component)

def join (names : List CString) : CString := ['/'].intercalate names

def comps (c : Course CString) : List CString := List.replicate c.ups ['.', '.'] ++ c.downs

def relative (c : Course CString) : CString := if c = .start then ['.'] else join (comps c)

def absolute (names : List CString) : CString := '/' :: join names

/-- The name of a file or a directory. -/
structure Plain (name : CString) : Prop where
  slash : '/' ∉ name
  component : component name = .down name

section Components

variable {part name : CString}

theorem component_of_plain (hnil : part ≠ []) (hdot : part ≠ ['.']) (hdots : part ≠ ['.', '.']) :
    component part = .down part := by
  simp [component, hnil, hdot, hdots]

@[simp]
theorem component_nil : component [] = .stay := by
  simp [component]

@[simp]
theorem component_dots : component ['.', '.'] = .up := by
  simp [component]

theorem Plain.ne (h : Plain name) : name ≠ [] ∧ name ≠ ['.'] ∧ name ≠ ['.', '.'] := by
  refine ⟨?_, ?_, ?_⟩ <;> rintro rfl <;> simpa [Vfs.component] using h.component

/-- The names of the directory that components lead to are among them. -/
theorem mem_of_mem_walk {ps : List CString} (h : name ∈ walk [] (ps.map component)) :
    name ∈ ps ∧ component name = .down name := by
  rcases mem_walk h with hnil | hdown
  · cases hnil
  · obtain ⟨part, hpart, hcomponent⟩ := mem_map.mp hdown
    have hself := hcomponent
    unfold component at hself
    split_ifs at hself
    cases hself
    exact ⟨hpart, hcomponent⟩

end Components

/-! ### Splitting and joining -/

section Joins

variable {names names' : List CString} {name path : CString}

theorem slash_not_mem_of_mem_parts (h : name ∈ parts path) : '/' ∉ name := by
  induction path generalizing name with
  | nil =>
    obtain rfl : name = [] := by simpa [parts] using h
    exact not_mem_nil
  | cons c path ih =>
    rw [parts, splitOn_cons_eq_if_modifyHead] at h
    split_ifs at h with hslash
    · rcases mem_cons.mp h with rfl | h
      · exact not_mem_nil
      · exact ih h
    · obtain ⟨first, rest, hcons⟩ := exists_cons_of_ne_nil (List.splitOn_ne_nil '/' path)
      rw [hcons, modifyHead_cons] at h
      have hparts : ∀ part ∈ first :: rest, '/' ∉ part := by
        intro part hpart
        exact ih (by rw [parts, hcons]; exact hpart)
      rcases mem_cons.mp h with rfl | h
      · have hne : '/' ≠ c := fun heq => hslash (by simpa using heq.symm)
        simp [hne, hparts first mem_cons_self]
      · exact hparts name (mem_cons_of_mem _ h)

@[simp]
theorem join_nil : join [] = [] := rfl

@[simp]
theorem join_singleton : join [name] = name := intercalate_singleton

theorem join_cons (h : names ≠ []) : join (name :: names) = name ++ '/' :: join names := by
  simp [join, intercalate_cons_of_ne_nil h]

theorem join_append (h : names ≠ []) (h' : names' ≠ []) :
    join (names ++ names') = join names ++ '/' :: join names' := by
  induction names with
  | nil => exact absurd rfl h
  | cons name names ih =>
    rcases eq_or_ne names [] with rfl | hne
    · simp [join_cons h']
    · rw [cons_append, join_cons (by simp [hne]), join_cons hne, ih hne]
      simp

theorem join_concat (h : names ≠ []) : join (names ++ [name]) = join names ++ '/' :: name := by
  simp [join_append h]

theorem parts_join (hslash : ∀ name ∈ names, '/' ∉ name) (h : names ≠ []) :
    parts (join names) = names :=
  splitOn_intercalate '/' hslash h

@[simp]
theorem join_parts : join (parts path) = path := intercalate_splitOn '/'

theorem parts_append (path path' : CString) :
    parts (path ++ '/' :: path') = parts path ++ parts path' :=
  splitOn_append_cons_self path path'

@[simp]
theorem parts_cons_slash : parts ('/' :: path) = [] :: parts path := by
  simpa [parts] using parts_append [] path

theorem parts_ne_nil : parts path ≠ [] := List.splitOn_ne_nil '/' path

theorem join_ne_nil (hnames : ∀ name ∈ names, name ≠ []) (h : names ≠ []) : join names ≠ [] := by
  obtain ⟨name, names, rfl⟩ := exists_cons_of_ne_nil h
  have hname := hnames name mem_cons_self
  rcases eq_or_ne names [] with rfl | hne
  · simpa using hname
  · simp [join_cons hne]

end Joins

/-! ### Paths that say no more than they have to -/

section Shortest

variable {c : Course CString} {names : List CString}

theorem map_component_names (h : ∀ name ∈ names, Plain name) :
    names.map component = names.map .down := by
  refine map_congr_left fun name hname => ?_
  exact (h name hname).component

theorem comps_eq_nil : comps c = [] ↔ c = .start := by
  simp [comps, Course.start, Course.ext_iff]

theorem relative_of_ne (h : comps c ≠ []) : relative c = join (comps c) := by
  rw [relative, if_neg fun hstart => h (comps_eq_nil.mpr hstart)]

theorem mem_comps (h : ∀ name ∈ c.downs, Plain name) {name : CString} (hname : name ∈ comps c) :
    name ≠ [] ∧ name ≠ ['.'] ∧ '/' ∉ name := by
  rcases mem_append.mp hname with hdots | hdown
  · rw [eq_of_mem_replicate hdots]
    decide
  · exact ⟨(h name hdown).ne.1, (h name hdown).ne.2.1, (h name hdown).slash⟩

theorem parts_relative (h : ∀ name ∈ c.downs, Plain name) (hne : comps c ≠ []) :
    parts (relative c) = comps c := by
  rw [relative_of_ne hne]
  exact parts_join (fun _ hname => (mem_comps h hname).2.2) hne

theorem course_relative (h : ∀ name ∈ c.downs, Plain name) : course (moves (relative c)) = c := by
  by_cases hcomps : comps c = []
  · rw [comps_eq_nil.mp hcomps]
    decide
  · have hmoves : moves (relative c) = c.moves := by
      rw [moves, parts_relative h hcomps, comps, map_append, map_replicate,
        map_component_names h, component_dots]
      rfl
    rw [hmoves, course_moves]

theorem directory_absolute (h : ∀ name ∈ names, Plain name) :
    directory (absolute names) = names := by
  rcases eq_or_ne names [] with rfl | hne
  · decide
  · have hcourse : course (names.map Move.down) = ⟨0, names⟩ := by
      simpa [Course.moves] using course_moves (c := ⟨0, names⟩)
    rw [directory, moves, absolute, parts_cons_slash, parts_join (fun n hn => (h n hn).slash) hne,
      map_cons, map_component_names h, component_nil, walk_cons, Move.apply, walk_eq_apply,
      hcourse, Course.apply_nil]

end Shortest

end CrystaxNdk.Vfs
