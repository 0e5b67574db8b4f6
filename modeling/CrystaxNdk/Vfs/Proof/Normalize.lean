import CrystaxNdk.Vfs.Proof.Absolute

/-!
# What `normalize` makes of a path

A relative path that comes back to where it started and then goes up twice is the one that
`normalize` gets wrong: from `./../..` it makes `.`. From then on what it has written goes up less
often than the path, and nothing that follows makes up for it.
-/

namespace CrystaxNdk.Vfs

open Lib List

/-! ## The paths it gets wrong -/

/-- The walk has come back to where it started, and its last move was up from there. -/
def StepsOut (moves : List (Move CString)) : Prop :=
  ∃ front dots, moves = front ++ .up :: dots ∧ front ≠ [] ∧ course front = .start ∧
    ∀ m ∈ dots, m = .stay

/-- And the next move is up again. -/
def ClimbsOut (moves : List (Move CString)) : Prop :=
  ∃ front back, moves = front ++ .up :: back ∧ StepsOut front

section Walks

variable {moves : List (Move CString)} {m : Move CString}

theorem course_append_stays {c : Course CString} {dots : List (Move CString)}
    (h : ∀ m ∈ dots, m = .stay) : dots.foldl Course.move c = c := by
  induction dots with
  | nil => rfl
  | cons m dots ih =>
    simp only [mem_cons, forall_eq_or_imp] at h
    obtain ⟨rfl, hdots⟩ := h
    exact ih hdots

theorem StepsOut.course (h : StepsOut moves) : course moves = ⟨1, []⟩ := by
  obtain ⟨front, dots, rfl, -, hfront, hdots⟩ := h
  have hup : Lib.course (front ++ [.up]) = ⟨1, []⟩ := by simp [hfront, Course.start, Course.move]
  rw [append_cons, Lib.course, foldl_append, course_append_stays hdots]
  exact hup

theorem stepsOut_concat : StepsOut (moves ++ [m]) ↔
    (m = .stay ∧ StepsOut moves) ∨ (m = .up ∧ moves ≠ [] ∧ course moves = .start) := by
  constructor
  · rintro ⟨front, dots, heq, hne, hfront, hdots⟩
    rcases eq_nil_or_concat' dots with rfl | ⟨dots, last, rfl⟩
    · obtain ⟨rfl, hm⟩ := append_inj' heq rfl
      exact Or.inr ⟨by simpa using hm, hne, hfront⟩
    · have heq' : moves ++ [m] = (front ++ .up :: dots) ++ [last] := by simpa using heq
      obtain ⟨rfl, hm⟩ := append_inj' heq' rfl
      obtain rfl : m = last := by simpa using hm
      exact Or.inl ⟨hdots m (by simp), front, dots, rfl, hne, hfront,
        fun m hm => hdots m (by simp [hm])⟩
  · rintro (⟨rfl, front, dots, rfl, hne, hfront, hdots⟩ | ⟨rfl, hne, hstart⟩)
    · refine ⟨front, dots ++ [.stay], by simp, hne, hfront, ?_⟩
      intro m hm
      rcases mem_append.mp hm with hm | hm
      · exact hdots m hm
      · simpa using hm
    · exact ⟨moves, [], rfl, hne, hstart, by simp⟩

theorem climbsOut_concat : ClimbsOut (moves ++ [m]) ↔
    ClimbsOut moves ∨ (m = .up ∧ StepsOut moves) := by
  constructor
  · rintro ⟨front, back, heq, hfront⟩
    rcases eq_nil_or_concat' back with rfl | ⟨back, last, rfl⟩
    · obtain ⟨rfl, hm⟩ := append_inj' heq rfl
      exact Or.inr ⟨by simpa using hm, hfront⟩
    · have heq' : moves ++ [m] = (front ++ .up :: back) ++ [last] := by simpa using heq
      exact Or.inl ⟨front, back, (append_inj' heq' rfl).1, hfront⟩
  · rintro (⟨front, back, rfl, hfront⟩ | ⟨rfl, hsteps⟩)
    · exact ⟨front, back ++ [m], by simp, hfront⟩
    · exact ⟨moves, [], rfl, hsteps⟩

end Walks

/-- The scanner against the walk that it reads. -/
inductive Follows (s : Scan) (moves : List (Move CString)) : Prop
  | right (hclimbs : ¬ClimbsOut moves) (hcourse : s.course = course moves)
      (hloose : s.loose = true ↔ StepsOut moves)
  | wrong (hclimbs : ClimbsOut moves) (hdowns : s.course.downs = (course moves).downs)
      (hups : s.course.ups < (course moves).ups)

theorem Follows.step {s : Scan} {moves : List (Move CString)} (h : Follows s moves)
    (hne : moves ≠ []) (m : Move CString) : Follows (s.step m) (moves ++ [m]) := by
  cases h with
  | right hclimbs hcourse hloose =>
    cases m with
    | stay =>
      refine .right ?_ (by simpa [Scan.step, Course.move] using hcourse) ?_
      · simpa [climbsOut_concat] using hclimbs
      · simpa [stepsOut_concat, Scan.step] using hloose
    | down name =>
      refine .right ?_ (by simp [Scan.step, hcourse]) ?_
      · simpa [climbsOut_concat] using hclimbs
      · simp [stepsOut_concat, Scan.step]
    -- only a step up can go wrong, behind one that has stepped out of the start
    | up =>
      by_cases hdowns : s.course.downs = []
      · by_cases htrue : s.loose = true
        · have hsteps := hloose.mp htrue
          refine .wrong ?_ ?_ ?_
          · exact climbsOut_concat.mpr (Or.inr ⟨rfl, hsteps⟩)
          · simp [Scan.step, hdowns, htrue, hsteps.course, Course.move, Course.start]
          · simp [Scan.step, hdowns, htrue, hsteps.course, Course.move, Course.start]
        · refine .right ?_ ?_ ?_
          · simp only [climbsOut_concat, true_and, not_or]
            exact ⟨hclimbs, fun hsteps => htrue (hloose.mpr hsteps)⟩
          · simp [Scan.step, hdowns, htrue, ← hcourse]
          · have hstart : s.course = .start ↔ s.course.ups = 0 := by
              simp [Course.ext_iff, Course.start, hdowns]
            simp [Scan.step, hdowns, htrue, stepsOut_concat, hne, ← hcourse, hstart]
      · have hsteps : ¬StepsOut moves := by
          intro hsteps
          rw [hcourse, hsteps.course] at hdowns
          exact hdowns rfl
        refine .right ?_ ?_ ?_
        · simp only [climbsOut_concat, true_and, not_or]
          exact ⟨hclimbs, hsteps⟩
        · simp [Scan.step, hdowns, ← hcourse]
        · have hstart : s.course ≠ .start := fun heq => hdowns (by simp [heq, Course.start])
          simp [Scan.step, hdowns, stepsOut_concat, ← hcourse, hstart]
  -- once it has gone wrong, one step up is missing for good
  | wrong hclimbs hdowns hups =>
    have hclimbs' : ClimbsOut (moves ++ [m]) := climbsOut_concat.mpr (Or.inl hclimbs)
    cases m with
    | stay =>
      refine .wrong hclimbs' ?_ ?_ <;> rw [course_concat]
      · exact hdowns
      · exact hups
    | down name =>
      refine .wrong hclimbs' ?_ ?_ <;> rw [course_concat]
      · simp [Scan.step, Course.move, hdowns]
      · exact hups
    | up =>
      by_cases hnil : s.course.downs = []
      · have hnil' : (course moves).downs = [] := hdowns ▸ hnil
        by_cases htrue : s.loose = true
        · refine .wrong hclimbs' ?_ ?_ <;>
            simp [Scan.step, Course.move, Course.start, hnil, hnil', htrue]
        · refine .wrong hclimbs' ?_ ?_ <;> simp [Scan.step, Course.move, hnil, hnil', htrue, hups]
      · have hnil' : (course moves).downs ≠ [] := hdowns ▸ hnil
        refine .wrong hclimbs' ?_ ?_ <;> simp [Scan.step, Course.move, hnil', hdowns, hups]

theorem ClimbsOut.append {moves : List (Move CString)} (h : ClimbsOut moves)
    (moves' : List (Move CString)) : ClimbsOut (moves ++ moves') := by
  obtain ⟨front, back, rfl, hfront⟩ := h
  exact ⟨front, back ++ moves', by simp, hfront⟩

theorem not_climbsOut {moves : List (Move CString)} (h : .up ∉ moves) : ¬ClimbsOut moves := by
  rintro ⟨front, back, rfl, -⟩
  simp at h

theorem follows_start (m : Move CString) : Follows ⟨course [m], false⟩ [m] := by
  have hsteps : ¬StepsOut [] := by
    rintro ⟨front, dots, heq, -⟩
    simp at heq
  have hclimbs : ¬ClimbsOut [] := by
    rintro ⟨front, back, heq, -⟩
    simp at heq
  refine .right ?_ rfl ?_
  · rw [← nil_append [m], climbsOut_concat]
    simp [hsteps, hclimbs]
  · rw [← nil_append [m], stepsOut_concat]
    simp [hsteps]

theorem Follows.foldl {s : Scan} {moves : List (Move CString)} (h : Follows s moves)
    (hne : moves ≠ []) (moves' : List (Move CString)) :
    Follows (moves'.foldl Scan.step s) (moves ++ moves') := by
  induction moves' generalizing s moves with
  | nil => simpa using h
  | cons m moves' ih => simpa using ih (h.step hne m) (by simp)

/-! ## The result -/

section Result

variable {path part : CString}

/-- The path with nothing superfluous. -/
def shortest (isabs : Bool) (moves : List (Move CString)) : CString :=
  if isabs then absolute (walk [] moves) else relative (course moves)

/-- However far one reads the path, what it says so far can be written down in `PATH_MAX`
    characters. -/
def Fits (path : CString) : Prop :=
  ∀ n, (shortest (isAbsolute (some path)) ((moves path).take n)).length ≤ pathMax

theorem weight_course_le (c : Course CString) (ps : List CString) :
    weight (comps ((ps.map component).foldl Course.move c)) ≤ weight (comps c) + weight ps := by
  induction ps generalizing c with
  | nil => simp
  | cons part ps ih =>
    have hstep : weight (comps (c.move (component part))) ≤
        weight (comps c) + (part.length + 1) := by
      unfold component
      split_ifs with hstay hdots
      · simp [Course.move]
      · by_cases hdowns : c.downs = []
        · simp [Course.move, hdowns, hdots, comps, weight, Nat.add_mul]
        · have hle := weight_dropLast_le c.downs
          simp only [Course.move, if_neg hdowns, comps, weight_append]
          omega
      · simp [Course.move, comps, weight, Nat.add_assoc]
    rw [map_cons, foldl_cons]
    refine (ih _).trans ?_
    simp only [weight, map_cons, sum_cons] at hstep ⊢
    omega

theorem fits_iff_hasRoom (habs : isAbsolute (some path) = true)
    (hlen : ∀ part ∈ parts path, part.length ≤ nameMax) : Fits path ↔ HasRoom path := by
  simp only [Fits, HasRoom, shortest, habs, if_true, clipped_of_le hlen, moves, map_take]

/-- There is always room for a path of at most `PATH_MAX` characters. -/
theorem fits_of_length (hlen : ∀ part ∈ parts path, part.length ≤ nameMax)
    (h : path.length ≤ pathMax) : Fits path := by
  by_cases habs : isAbsolute (some path) = true
  · rw [fits_iff_hasRoom habs hlen]
    exact hasRoom_of_length (by simpa [isAbsolute] using habs) h
  · intro n
    rw [shortest, if_neg habs]
    by_cases hcomps : comps (course ((moves path).take n)) = []
    · have hstart : course ((moves path).take n) = .start := comps_eq_nil.mp hcomps
      simp [relative, hstart, pathMax]
    · have hle := weight_course_le .start ((parts path).take n)
      have htake := weight_take_le (parts path) n
      have hparts := weight_parts path
      have hnil : weight (comps .start) = 0 := rfl
      rw [relative_of_ne hcomps, length_join]
      rw [map_take, ← moves, ← course] at hle
      omega

theorem part_first (path : CString) (hne : part ≠ []) (hslash : '/' ∉ part)
    (hlen : part.length ≤ nameMax) :
    ∃ b, Buf.empty.part path part = .ok b ∧ b.buf.length ≤ pathMax ∧
      Scan.Shows ⟨course [component part], false⟩ b := by
  have hroom : part.length ≤ pathMax := hlen.trans (by decide)
  unfold Buf.part
  rw [take_of_length_le hlen, if_neg hne]
  split_ifs with hdot hzero hdots
  · subst hdot
    exact ⟨⟨['.'], 1⟩, rfl, by decide, rfl, fun _ => rfl, Or.inl rfl, by simp,
      fun _ => False.elim ∘ not_mem_nil⟩
  · exact absurd rfl hzero
  · subst hdots
    exact ⟨⟨['.', '.'], 2⟩, rfl, by decide, rfl, fun _ => rfl, Or.inl rfl, by simp,
      fun _ => False.elim ∘ not_mem_nil⟩
  · have hplain : Plain part := ⟨hslash, component_of_plain hne hdot hdots⟩
    refine ⟨⟨part, part.length⟩, ?_, hroom, ?_, ?_, Or.inl rfl, by simp, ?_⟩
    · simp [Buf.name, Buf.empty, Buf.strcat, hroom]
    all_goals simp [hplain.component, course, Course.move, Course.start, relative, comps, hplain]

/-- The parts of a relative path begin with one that is not empty. -/
theorem parts_of_relative (hne : path ≠ []) (hrel : path[0]? ≠ some '/')
    (hlen : ∀ part ∈ parts path, part.length ≤ nameMax) :
    ∃ first ps, parts path = first :: ps ∧ first ≠ [] ∧
      ('/' ∉ first ∧ ∀ part ∈ ps, '/' ∉ part) ∧
      (first.length ≤ nameMax ∧ ∀ part ∈ ps, part.length ≤ nameMax) := by
  have hslash : ∀ part ∈ parts path, '/' ∉ part := fun _ hpart => slash_not_mem_of_mem_parts hpart
  obtain ⟨c, rest, rfl⟩ := exists_cons_of_ne_nil hne
  obtain ⟨first, ps, hcons⟩ := exists_cons_of_ne_nil (List.splitOn_ne_nil '/' rest)
  have hc : (c == '/') = false := by simpa using hrel
  have hparts : parts (c :: rest) = (c :: first) :: ps := by
    simp [parts, splitOn_cons_eq_if_modifyHead, hc, hcons]
  rw [hparts, forall_mem_cons] at hslash hlen
  exact ⟨c :: first, ps, hparts, by simp, hslash, hlen⟩

/-- The scanner after the first part of a relative path and some of the others. -/
theorem follows_parts (first : CString) (ps : List CString) :
    Follows ((ps.map component).foldl Scan.step ⟨course [component first], false⟩)
      ((first :: ps).map component) := by
  simpa using (follows_start (component first)).foldl (by simp) (ps.map component)

theorem Follows.course_eq {s : Scan} {moves : List (Move CString)} (h : Follows s moves)
    (hclimbs : ¬ClimbsOut moves) : s.course = course moves := by
  cases h with
  | right _ hcourse _ => exact hcourse
  | wrong hwrong _ _ => exact absurd hwrong hclimbs

/-- What the scanner has written before the `n`th part is the shortest path, if the path does not
    climb out. -/
theorem relative_scan_eq {first : CString} {ps : List CString} (hparts : parts path = first :: ps)
    (hrel : path[0]? ≠ some '/') (hclimbs : ¬ClimbsOut (moves path)) (n : Nat) :
    relative (((ps.take n).map component).foldl Scan.step
      ⟨course [component first], false⟩).course =
      shortest (isAbsolute (some path)) ((moves path).take (n + 1)) := by
  have htake : (moves path).take (n + 1) = (first :: ps.take n).map component := by
    simp [moves, hparts, map_take]
  have hnot : ¬ClimbsOut ((moves path).take (n + 1)) := by
    intro h
    have happend := h.append ((moves path).drop (n + 1))
    rw [take_append_drop] at happend
    exact hclimbs happend
  rw [htake] at hnot ⊢
  rw [(follows_parts first (ps.take n)).course_eq hnot]
  simp [shortest, isAbsolute, hrel]

/-- A relative path that does not climb out becomes the shortest path of its course. -/
theorem normalize_relative (hne : path ≠ []) (hrel : path[0]? ≠ some '/')
    (hlen : ∀ part ∈ parts path, part.length ≤ nameMax) (hclimbs : ¬ClimbsOut (moves path))
    (hfits : Fits path) :
    normalize (some path) = .ok (some (relative (course (moves path)))) ∧
      ∀ name ∈ (course (moves path)).downs, Plain name := by
  obtain ⟨first, ps, hparts, hfirst, hslash, hlen⟩ := parts_of_relative hne hrel hlen
  obtain ⟨b₁, hrun₁, -, hshows₁⟩ := part_first path hfirst hslash.1 hlen.1
  obtain ⟨b, hrun, hshows⟩ := (Scan.scanned path).foldlM_part hshows₁ hslash.2 hlen.2 fun n => by
    rw [relative_scan_eq hparts hrel hclimbs n]
    exact hfits (n + 1)
  have hcourse := (follows_parts first ps).course_eq (by simpa [moves, hparts] using hclimbs)
  rw [← hparts, ← moves] at hcourse
  refine ⟨normalize_eq_ok.mpr ⟨b, ?_, by rw [hshows.buf, hcourse]⟩, hcourse ▸ hshows.plain⟩
  rw [hparts, foldlM_cons, hrun₁]
  exact hrun

theorem normalize_relative_cases (hne : path ≠ []) (hrel : path[0]? ≠ some '/')
    (hlen : ∀ part ∈ parts path, part.length ≤ nameMax) {res : Option CString}
    (h : normalize (some path) = .ok res) :
    ∃ s, Follows s (moves path) ∧ res = some (relative s.course) ∧
      (∀ name ∈ s.course.downs, Plain name) ∧ (¬ClimbsOut (moves path) → Fits path) := by
  obtain ⟨first, ps, hparts, hfirst, hslash, hlen⟩ := parts_of_relative hne hrel hlen
  obtain ⟨b₁, hrun₁, hroom₁, hshows₁⟩ := part_first path hfirst hslash.1 hlen.1
  obtain ⟨b, hrun, rfl⟩ := normalize_eq_ok.mp h
  rw [hparts, foldlM_cons, hrun₁] at hrun
  have hroom := (Scan.scanned path).fits_of_foldlM hshows₁ hroom₁ hslash.2 hlen.2 hrun
  obtain ⟨b', hrun', hshows⟩ := (Scan.scanned path).foldlM_part hshows₁ hslash.2 hlen.2 hroom
  obtain rfl : b' = b := by
    have heq : Except.ok (ε := Fault) b' = .ok b := hrun'.symm.trans hrun
    simpa using heq
  have hfollows := follows_parts first ps
  rw [← hparts, ← moves] at hfollows
  refine ⟨_, hfollows, by rw [hshows.buf], hshows.plain, ?_⟩
  intro hclimbs n
  cases n with
  | zero => simp [shortest, isAbsolute, hrel, relative, pathMax]
  | succ n =>
    rw [← relative_scan_eq hparts hrel hclimbs n]
    exact hroom n

theorem isAbsolute_relative {c : Course CString} (hplain : ∀ name ∈ c.downs, Plain name) :
    isAbsolute (some (relative c)) = false := by
  by_cases hcomps : comps c = []
  · rw [comps_eq_nil.mp hcomps]
    rfl
  · by_contra habs
    have hparts := parts_relative hplain hcomps
    obtain ⟨rest, hrest⟩ : ∃ rest, relative c = '/' :: rest := by
      cases hrelative : relative c <;> simp_all [isAbsolute]
    rw [hrest, parts_cons_slash] at hparts
    exact (mem_comps hplain (by rw [← hparts]; simp : [] ∈ comps c)).1 rfl

theorem resolve_relative {c : Course CString} (hplain : ∀ name ∈ c.downs, Plain name)
    (dir : List CString) : resolve dir (relative c) = c.apply dir := by
  simp [resolve, isAbsolute_relative hplain, walk_eq_apply, course_relative hplain]

theorem resolve_of_relative (hrel : path[0]? ≠ some '/') (dir : List CString) :
    resolve dir path = (course (moves path)).apply dir := by
  simp [resolve, isAbsolute, hrel, walk_eq_apply]

theorem resolve_absolute {names : List CString} (hplain : ∀ name ∈ names, Plain name)
    (dir : List CString) : resolve dir (absolute names) = names := by
  have hdir := directory_absolute hplain
  simpa [resolve, directory, isAbsolute, absolute] using hdir

theorem exists_directory_length (n : Nat) :
    ∃ base, isAbsolute (some base) = true ∧ (directory base).length = n := by
  refine ⟨absolute (List.replicate n ['a']), rfl, ?_⟩
  rw [directory_absolute, length_replicate]
  intro name hname
  rw [eq_of_mem_replicate hname]
  exact ⟨by decide, by decide⟩

/-- From any directory, the result leads where the path does. -/
def KeepsMeaning (path : CString) : Prop :=
  ∃ r, normalize (some path) = .ok (some r) ∧
    ∀ base, isAbsolute (some base) = true →
      resolve (directory base) r = resolve (directory base) path

/-- `normalize` keeps the meaning of exactly those paths that it has room for, and that are absolute
    or do not climb out. -/
theorem normalize_keepsMeaning_iff (path : CString)
    (hlen : ∀ part ∈ parts path, part.length ≤ nameMax) :
    KeepsMeaning path ↔
      Fits path ∧ (isAbsolute (some path) = true ∨ ¬ClimbsOut (moves path)) := by
  by_cases hslash : path[0]? = some '/'
  · have habs : isAbsolute (some path) = true := by simpa [isAbsolute] using hslash
    constructor
    · rintro ⟨r, hr, -⟩
      exact ⟨(fits_iff_hasRoom habs hlen).mpr (hasRoom_of_normalize hslash hr), Or.inl habs⟩
    · rintro ⟨hfits, -⟩
      obtain ⟨hr, hplain⟩ := normalize_absolute hslash ((fits_iff_hasRoom habs hlen).mp hfits)
      refine ⟨_, hr, fun base _ => ?_⟩
      rw [resolve_absolute hplain, resolve, if_pos habs, located, clipped_of_le hlen, moves]
  · have habs : isAbsolute (some path) = false := by simpa [isAbsolute] using hslash
    simp only [habs, Bool.false_eq_true, false_or]
    rcases eq_or_ne path [] with rfl | hne
    · have hclimbs : ¬ClimbsOut (moves []) := not_climbsOut (by decide)
      exact iff_of_true ⟨[], rfl, fun _ _ => rfl⟩ ⟨fits_of_length hlen (by decide), hclimbs⟩
    · constructor
      · rintro ⟨r, hr, hsame⟩
        obtain ⟨s, hfollows, heq, hplain, hfits⟩ := normalize_relative_cases hne hslash hlen hr
        have hclimbs : ¬ClimbsOut (moves path) := by
          cases hfollows with
          | right hclimbs _ _ => exact hclimbs
          | wrong _ hdowns hups =>
            obtain ⟨base, hbase, hdeep⟩ := exists_directory_length (course (moves path)).ups
            have hbase' := hsame base hbase
            rw [Option.some.inj heq, resolve_relative hplain, resolve_of_relative hslash] at hbase'
            exact absurd hbase' (Course.apply_ne hdowns hups hdeep.ge)
        exact ⟨hfits hclimbs, hclimbs⟩
      · rintro ⟨hfits, hclimbs⟩
        obtain ⟨hr, hplain⟩ := normalize_relative hne hslash hlen hclimbs hfits
        refine ⟨_, hr, fun base _ => ?_⟩
        rw [resolve_relative hplain, resolve_of_relative hslash]

theorem normalize_keepsMeaning_ab :
    (∀ part ∈ parts "./a//b".toList, part.length ≤ nameMax) ∧ KeepsMeaning "./a//b".toList := by
  have hlen : ∀ part ∈ parts "./a//b".toList, part.length ≤ nameMax := by decide +kernel
  refine ⟨hlen,
    (normalize_keepsMeaning_iff _ hlen).mpr ⟨fits_of_length hlen (by decide +kernel), ?_⟩⟩
  exact Or.inr (not_climbsOut (by decide +kernel))

/-- `./../..` becomes `.`. -/
theorem normalize_climbs_out :
    (∀ part ∈ parts "./../..".toList, part.length ≤ nameMax) ∧
      normalize (some "./../..".toList) = .ok (some ['.']) ∧
      resolve (directory "/a/b".toList) ['.'] = [['a'], ['b']] ∧
      resolve (directory "/a/b".toList) "./../..".toList = [] := by
  decide +kernel

end Result

end CrystaxNdk.Vfs
