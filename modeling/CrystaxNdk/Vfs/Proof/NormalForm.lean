import CrystaxNdk.Vfs.Proof.Dispatch
import CrystaxNdk.Vfs.Proof.Normalize

/-!
# The normal form of a path

What `normalize` writes is the path of a directory or of a course, also where it is not the course
that the path describes. So there is a normal form whenever there is room for it, and normalizing it
once more changes nothing. `is_normalized` is true of those normal forms that have no `..` and are
not `.`.
-/

namespace CrystaxNdk.Vfs

open Lib List

/-! ## What is written -/

/-- What the scanner has read after some moves. -/
def Scan.of : List (Move CString) → Scan
  | [] => ⟨.start, false⟩
  | m :: moves => moves.foldl Scan.step ⟨Lib.course [m], false⟩

/-- What `normalize` makes of a beginning of a path. -/
def written (isabs : Bool) (moves : List (Move CString)) : CString :=
  if isabs then absolute (walk [] moves) else relative (Scan.of moves).course

/-- There is room for what `normalize` makes of every beginning of the path. -/
def ScanFits (path : CString) : Prop :=
  ∀ n, (written (isAbsolute (some path)) ((moves path).take n)).length ≤ pathMax

section Written

variable {path : CString} {moves : List (Move CString)}

theorem Scan.mem_step {s : Scan} {m : Move CString} {name : CString}
    (h : name ∈ (s.step m).course.downs) : name ∈ s.course.downs ∨ m = .down name := by
  cases m with
  | stay => exact Or.inl h
  | up =>
    unfold Scan.step at h
    split_ifs at h with hdowns hloose
    · simp only [Course.move, if_neg hdowns] at h
      exact Or.inl (dropLast_subset _ h)
    · simp [Course.start] at h
    · rw [not_not] at hdowns
      simp [Course.move, hdowns] at h
  | down last =>
    rcases mem_append.mp h with h | h
    · exact Or.inl h
    · rw [mem_singleton.mp h]
      exact Or.inr rfl

theorem Scan.mem_foldl {s : Scan} {name : CString}
    (h : name ∈ (moves.foldl Scan.step s).course.downs) :
    name ∈ s.course.downs ∨ .down name ∈ moves := by
  induction moves generalizing s with
  | nil => exact Or.inl h
  | cons m moves ih =>
    rcases ih h with h | h
    · rcases Scan.mem_step h with h | rfl
      · exact Or.inl h
      · exact Or.inr mem_cons_self
    · exact Or.inr (mem_cons_of_mem m h)

theorem Scan.mem_of {name : CString} (h : name ∈ (Scan.of moves).course.downs) :
    .down name ∈ moves := by
  cases moves with
  | nil => simp [Scan.of, Course.start] at h
  | cons m moves =>
    rcases Scan.mem_foldl h with h | h
    · cases m with
      | stay => simp [Lib.course, Course.move, Course.start] at h
      | up => simp [Lib.course, Course.move, Course.start] at h
      | down last =>
        obtain rfl : name = last := by simpa [Lib.course, Course.move, Course.start] using h
        exact mem_cons_self
    · exact mem_cons_of_mem m h

theorem follows_of (hne : moves ≠ []) : Follows (Scan.of moves) moves := by
  obtain ⟨m, moves, rfl⟩ := exists_cons_of_ne_nil hne
  exact (follows_start m).foldl (cons_ne_nil m []) moves

theorem scanFits_iff_hasRoom (habs : isAbsolute (some path) = true)
    (hlen : ∀ part ∈ parts path, part.length ≤ nameMax) : ScanFits path ↔ HasRoom path := by
  rw [← fits_iff_hasRoom habs hlen]
  simp only [ScanFits, Fits, written, shortest, habs, if_true]

theorem length_relative {c : Course CString} (h : comps c ≠ []) :
    (relative c).length = 3 * c.ups + weight c.downs - 1 := by
  rw [relative_of_ne h, length_join, comps, weight_append, weight, map_replicate,
    sum_replicate]
  simp [Nat.mul_comm]

theorem length_written_le (hne : moves ≠ []) :
    (written false moves).length ≤ (shortest false moves).length := by
  show (relative (Scan.of moves).course).length ≤ (relative (course moves)).length
  cases follows_of hne with
  | right _ hcourse _ => rw [hcourse]
  | wrong _ hdowns hups =>
    have hcomps : comps (course moves) ≠ [] := by
      rw [Ne, comps_eq_nil, Course.ext_iff]
      exact fun heq => absurd heq.1 (Nat.ne_of_gt (Nat.zero_lt_of_lt hups))
    rw [length_relative hcomps]
    by_cases hstart : comps (Scan.of moves).course = []
    · rw [comps_eq_nil.mp hstart]
      show 1 ≤ _
      omega
    · rw [length_relative hstart, hdowns]
      omega

theorem scanFits_of_fits (h : Fits path) : ScanFits path := by
  intro n
  have hfits := h n
  cases habs : isAbsolute (some path) with
  | true =>
    rw [habs] at hfits
    exact hfits
  | false =>
    rw [habs] at hfits
    by_cases hnil : (Vfs.moves path).take n = []
    · rw [hnil]
      decide
    · exact (length_written_le hnil).trans hfits

/-- There is always room for a path of at most `PATH_MAX` characters. -/
theorem scanFits_of_length (hlen : ∀ part ∈ parts path, part.length ≤ nameMax)
    (h : path.length ≤ pathMax) : ScanFits path :=
  scanFits_of_fits (fits_of_length hlen h)

theorem written_take {first : CString} {ps : List CString} (hparts : parts path = first :: ps)
    (n : Nat) :
    relative (((ps.take n).map component).foldl Scan.step
      ⟨course [component first], false⟩).course =
      written false ((Vfs.moves path).take (n + 1)) := by
  rw [Vfs.moves, hparts, map_cons, take_succ_cons, ← map_take]
  rfl

theorem normalize_of_relative (hne : path ≠ []) (hrel : path[0]? ≠ some '/')
    (hlen : ∀ part ∈ parts path, part.length ≤ nameMax) :
    (ScanFits path →
      normalize (some path) = .ok (some (relative (Scan.of (Vfs.moves path)).course)) ∧
      ∀ name ∈ (Scan.of (Vfs.moves path)).course.downs, Plain name) ∧
    ∀ {res}, normalize (some path) = .ok res → ScanFits path := by
  have habs : isAbsolute (some path) = false := by simpa [isAbsolute] using hrel
  obtain ⟨first, ps, hparts, hfirst, hslash, hlen⟩ := parts_of_relative hne hrel hlen
  obtain ⟨b₁, hrun₁, hroom₁, hshows₁⟩ := part_first path hfirst hslash.1 hlen.1
  have hof : (ps.map component).foldl Scan.step ⟨course [component first], false⟩ =
      Scan.of (Vfs.moves path) := by
    rw [Vfs.moves, hparts]
    rfl
  constructor
  · intro hfits
    obtain ⟨b, hrun, hshows⟩ := (Scan.scanned path).foldlM_part hshows₁ hslash.2 hlen.2 fun n => by
      rw [written_take hparts, ← habs]
      exact hfits (n + 1)
    rw [hof] at hshows
    refine ⟨normalize_eq_ok.mpr ⟨b, ?_, by rw [hshows.buf]⟩, hshows.plain⟩
    rw [hparts, foldlM_cons, hrun₁]
    exact hrun
  · intro res h n
    obtain ⟨b, hrun, rfl⟩ := normalize_eq_ok.mp h
    rw [hparts, foldlM_cons, hrun₁] at hrun
    have hroom := (Scan.scanned path).fits_of_foldlM hshows₁ hroom₁ hslash.2 hlen.2 hrun
    rw [habs]
    cases n with
    | zero =>
      show (written false []).length ≤ pathMax
      decide
    | succ n =>
      rw [← written_take hparts]
      exact hroom n

end Written

/-! ## Normal forms -/

section NormalForms

variable {path : CString} {c : Course CString} {names : List CString}

/-- An empty path, or the path of a directory or of a course. -/
inductive NormalForm : CString → Prop
  | empty : NormalForm []
  | absolute (names : List CString) (plain : ∀ name ∈ names, Plain name) :
      NormalForm (absolute names)
  | relative (c : Course CString) (plain : ∀ name ∈ c.downs, Plain name) :
      NormalForm (relative c)

theorem ups_le_foldl (moves : List (Move CString)) (c : Course CString) :
    c.ups ≤ (moves.foldl Course.move c).ups := by
  induction moves generalizing c with
  | nil => exact Nat.le_refl _
  | cons m moves ih =>
    refine Nat.le_trans ?_ (ih (c.move m))
    cases m with
    | stay => exact Nat.le_refl _
    | down name => exact Nat.le_refl _
    | up =>
      by_cases hdowns : c.downs = []
      · simp [Course.move, hdowns]
      · simp [Course.move, hdowns]

theorem not_climbsOut_moves (c : Course CString) : ¬ClimbsOut c.moves := by
  rcases Nat.eq_zero_or_pos c.ups with hzero | hpos
  · refine not_climbsOut ?_
    simp [Course.moves, hzero]
  · rintro ⟨front', back, heq, front, dots, rfl, hne, hcourse, -⟩
    obtain ⟨n, hn⟩ := Nat.exists_eq_succ_of_ne_zero (Nat.ne_of_gt hpos)
    obtain ⟨m, front, rfl⟩ := exists_cons_of_ne_nil hne
    rw [Course.moves, hn, replicate_succ] at heq
    simp only [cons_append, List.cons.injEq] at heq
    obtain ⟨rfl, -⟩ := heq
    have hups := ups_le_foldl front ⟨1, []⟩
    have hstart : front.foldl Course.move ⟨1, []⟩ = .start := hcourse
    rw [hstart] at hups
    exact absurd hups (by decide)

theorem moves_relative (h : ∀ name ∈ c.downs, Plain name) (hne : comps c ≠ []) :
    moves (relative c) = c.moves := by
  rw [moves, parts_relative h hne, comps, map_append, map_replicate,
    map_component_names h, component_dots]
  rfl

theorem relative_ne_nil (h : ∀ name ∈ c.downs, Plain name) : relative c ≠ [] := by
  by_cases hcomps : comps c = []
  · simp [relative, comps_eq_nil.mp hcomps]
  · rw [relative_of_ne hcomps]
    exact join_ne_nil (fun _ hname => (mem_comps h hname).1) hcomps

theorem length_le_of_mem_parts_relative (h : ∀ name ∈ c.downs, Plain name)
    (hlen : ∀ name ∈ c.downs, name.length ≤ nameMax) :
    ∀ part ∈ parts (relative c), part.length ≤ nameMax := by
  by_cases hcomps : comps c = []
  · rw [comps_eq_nil.mp hcomps]
    decide
  · intro part hpart
    rw [parts_relative h hcomps] at hpart
    rcases mem_append.mp hpart with hpart | hpart
    · rw [eq_of_mem_replicate hpart]
      decide
    · exact hlen part hpart

theorem normalize_relative_self (h : ∀ name ∈ c.downs, Plain name)
    (hlen : ∀ name ∈ c.downs, name.length ≤ nameMax) (hroom : (relative c).length ≤ pathMax) :
    normalize (some (relative c)) = .ok (some (relative c)) := by
  have hrel : (relative c)[0]? ≠ some '/' := by
    have habs := isAbsolute_relative h
    simpa [isAbsolute] using habs
  have hparts := length_le_of_mem_parts_relative h hlen
  have hmoves : moves (relative c) ≠ [] := by
    rw [moves, Ne, map_eq_nil_iff]
    exact parts_ne_nil
  have hclimbs : ¬ClimbsOut (moves (relative c)) := by
    by_cases hcomps : comps c = []
    · rw [comps_eq_nil.mp hcomps]
      exact not_climbsOut (by decide)
    · rw [moves_relative h hcomps]
      exact not_climbsOut_moves c
  obtain ⟨hresult, -⟩ := (normalize_of_relative (relative_ne_nil h) hrel hparts).1
    (scanFits_of_length hparts hroom)
  rw [hresult, (follows_of hmoves).course_eq hclimbs, course_relative h]

/-! ## `is_normalized` -/

theorem plain_of_not {part : CString} (hslash : '/' ∉ part)
    (h : part ≠ [] ∧ part ≠ ['.'] ∧ part ≠ ['.', '.']) : Plain part :=
  ⟨hslash, component_of_plain h.1 h.2.1 h.2.2⟩

theorem relative_names (h : names ≠ []) : relative ⟨0, names⟩ = join names := by
  have hcomps : comps ⟨0, names⟩ = names := by simp [comps]
  rw [relative_of_ne (hcomps ▸ h), hcomps]

theorem isNormalized_iff : isNormalized (some path) = true ↔
    path = [] ∨ (∃ names, (∀ name ∈ names, Plain name) ∧ path = absolute names) ∨
      ∃ names, names ≠ [] ∧ (∀ name ∈ names, Plain name) ∧ path = join names := by
  have hall : ∀ s : CString,
      (parts s).all (fun part => part ≠ [] ∧ part ≠ ['.'] ∧ part ≠ ['.', '.'])
      = true ↔ ∀ name ∈ parts s, Plain name := by
    intro s
    rw [all_eq_true]
    constructor
    · exact fun h name hname =>
        plain_of_not (slash_not_mem_of_mem_parts hname) (of_decide_eq_true (h name hname))
    · exact fun h name hname => decide_eq_true (h name hname).ne
  rw [isNormalized]
  constructor
  · intro h
    split_ifs at h with hroot hslash
    · rcases hroot with rfl | rfl
      · exact Or.inl rfl
      · exact Or.inr (Or.inl ⟨[], by simp, rfl⟩)
    · obtain ⟨s, rfl⟩ : ∃ s, path = '/' :: s := by
        cases path <;> simp_all
      refine Or.inr (Or.inl ⟨parts s, (hall s).mp h, ?_⟩)
      rw [absolute, join_parts]
    · exact Or.inr (Or.inr ⟨parts path, parts_ne_nil, (hall path).mp h, join_parts.symm⟩)
  · rintro (rfl | ⟨names, hplain, rfl⟩ | ⟨names, hne, hplain, rfl⟩)
    · rfl
    · rcases eq_or_ne names [] with rfl | hne
      · rfl
      · have htail : ((absolute names)[0]? = some '/') := rfl
        split_ifs
        · rfl
        · rw [hall, absolute, tail_cons, parts_join (fun n hn => (hplain n hn).slash) hne]
          exact hplain
    · have hrel : (join names)[0]? ≠ some '/' := by
        have habs := isAbsolute_relative (c := ⟨0, names⟩) hplain
        rw [relative_names hne] at habs
        simpa [isAbsolute] using habs
      split_ifs
      · rfl
      · rw [hall, parts_join (fun n hn => (hplain n hn).slash) hne]
        exact hplain

/-! ## The result -/

/-- The result is a normal form, stays as it is when it is normalized again, is the path if that is
    normalized already and, for an absolute path, only then. -/
def NormalizesTo (path r : CString) : Prop :=
  normalize (some path) = .ok (some r) ∧ NormalForm r ∧ normalize (some r) = .ok (some r) ∧
    (isNormalized (some path) = true → r = path) ∧
    (isAbsolute (some path) = true → (r = path ↔ isNormalized (some path) = true))

/-- What comes out, if there is room: the path of a directory or of a course. -/
inductive Result (path : CString) : CString → Prop
  | absolute (names : List CString) (habs : isAbsolute (some path) = true)
      (names_eq : names = located path) (plain : ∀ name ∈ names, Plain name)
      (short : ∀ name ∈ names, name.length ≤ nameMax) : Result path (absolute names)
  | relative (c : Course CString) (habs : isAbsolute (some path) = false)
      (course_eq : c = (Scan.of (moves path)).course) (plain : ∀ name ∈ c.downs, Plain name)
      (short : ∀ name ∈ c.downs, name.length ≤ nameMax) : Result path (relative c)

theorem exists_result (hne : path ≠ []) (hlen : ∀ part ∈ parts path, part.length ≤ nameMax)
    (hfits : ScanFits path) :
    ∃ r, normalize (some path) = .ok (some r) ∧ r.length ≤ pathMax ∧ Result path r := by
  cases habs : isAbsolute (some path) with
  | true =>
    have hroom := (scanFits_iff_hasRoom habs hlen).mp hfits
    obtain ⟨hresult, hplain⟩ := normalize_absolute (by simpa [isAbsolute] using habs) hroom
    have hend := hroom (clipped path).length
    rw [take_length] at hend
    exact ⟨_, hresult, hend, .absolute _ habs rfl hplain fun _ hname =>
      length_le_of_mem_located hname⟩
  | false =>
    have hrel : path[0]? ≠ some '/' := by simpa [isAbsolute] using habs
    obtain ⟨hresult, hplain⟩ := (normalize_of_relative hne hrel hlen).1 hfits
    have hend := hfits (moves path).length
    rw [take_length, habs] at hend
    refine ⟨_, hresult, hend, .relative _ habs rfl hplain fun name hname => ?_⟩
    obtain ⟨part, hpart, hcomponent⟩ := mem_map.mp (Scan.mem_of hname)
    have hself := hcomponent
    unfold component at hself
    split_ifs at hself
    cases hself
    exact hlen _ hpart

variable {r : CString}

theorem Result.normalForm (h : Result path r) : NormalForm r := by
  cases h with
  | absolute names _ _ plain _ => exact .absolute names plain
  | relative c _ _ plain _ => exact .relative c plain

theorem Result.normalize_self (h : Result path r) (hroom : r.length ≤ pathMax) :
    normalize (some r) = .ok (some r) := by
  cases h with
  | absolute names _ _ plain short => exact normalize_absolute_self plain short hroom
  | relative c _ _ plain short => exact normalize_relative_self plain short hroom

theorem Result.eq_of_isNormalized (h : Result path r) (hne : path ≠ [])
    (hlen : ∀ part ∈ parts path, part.length ≤ nameMax)
    (hnormalized : isNormalized (some path) = true) : r = path := by
  rcases isNormalized_iff.mp hnormalized with
    rfl | ⟨names, hnames, rfl⟩ | ⟨names, hne', hnames, rfl⟩
  · exact absurd rfl hne
  · cases h with
    | absolute names' _ names_eq _ _ =>
      rw [names_eq, located, clipped_of_le hlen]
      exact congrArg Vfs.absolute (directory_absolute hnames)
    | relative c habs _ _ _ => cases habs
  · have hrel := isAbsolute_relative (c := ⟨0, names⟩) hnames
    rw [relative_names hne'] at hrel
    cases h with
    | absolute names' habs _ _ _ =>
      rw [habs] at hrel
      cases hrel
    | relative c _ course_eq _ _ =>
      have hmoves := moves_relative (c := ⟨0, names⟩) hnames (by simpa [comps] using hne')
      rw [relative_names hne'] at hmoves
      have hnil : moves (join names) ≠ [] := by
        rw [hmoves]
        simpa [Course.moves] using hne'
      rw [course_eq, (follows_of hnil).course_eq (hmoves ▸ not_climbsOut_moves _), hmoves,
        course_moves, relative_names hne']

theorem Result.isNormalized_of_eq (h : Result path r) (habs : isAbsolute (some path) = true)
    (heq : r = path) : isNormalized (some path) = true := by
  rw [← heq]
  cases h with
  | absolute names _ _ plain _ => exact isNormalized_absolute plain
  | relative c hrel _ _ _ =>
    rw [habs] at hrel
    cases hrel

theorem exists_normalizesTo (hne : path ≠ []) (hlen : ∀ part ∈ parts path, part.length ≤ nameMax)
    (hfits : ScanFits path) : ∃ r, NormalizesTo path r ∧ r.length ≤ pathMax := by
  obtain ⟨r, hnormalize, hroom, hresult⟩ := exists_result hne hlen hfits
  have hself := hresult.eq_of_isNormalized hne hlen
  exact ⟨r, ⟨hnormalize, hresult.normalForm, hresult.normalize_self hroom, hself, fun habs =>
    ⟨hresult.isNormalized_of_eq habs, hself⟩⟩, hroom⟩

theorem normalizesTo_of_scanFits (hlen : ∀ part ∈ parts path, part.length ≤ nameMax)
    (hfits : ScanFits path) : ∃ r, NormalizesTo path r := by
  rcases eq_or_ne path [] with rfl | hne
  · exact ⟨[], rfl, .empty, rfl, fun _ => rfl, fun _ => iff_of_true rfl rfl⟩
  · obtain ⟨r, hr, -⟩ := exists_normalizesTo hne hlen hfits
    exact ⟨r, hr⟩

theorem scanFits_of_normalize (hlen : ∀ part ∈ parts path, part.length ≤ nameMax)
    {res : Option CString} (h : normalize (some path) = .ok res) : ScanFits path := by
  cases habs : isAbsolute (some path) with
  | true =>
    rw [scanFits_iff_hasRoom habs hlen]
    exact hasRoom_of_normalize (by simpa [isAbsolute] using habs) h
  | false =>
    rcases eq_or_ne path [] with rfl | hne
    · exact scanFits_of_length hlen (by decide)
    · exact (normalize_of_relative hne (by simpa [isAbsolute] using habs) hlen).2 h

/-- A path that is normalized already has to fit as it is. -/
theorem length_le_of_isNormalized (hlen : ∀ part ∈ parts path, part.length ≤ nameMax)
    (h : isNormalized (some path) = true) (hfits : ScanFits path) : path.length ≤ pathMax := by
  rcases eq_or_ne path [] with rfl | hne
  · exact Nat.zero_le _
  · obtain ⟨r, ⟨-, -, -, hself, -⟩, hroom⟩ := exists_normalizesTo hne hlen hfits
    exact hself h ▸ hroom

/-- `normalize` gives normal forms of exactly those paths that it has room for. -/
theorem normalizesTo_iff (path : CString) (hlen : ∀ part ∈ parts path, part.length ≤ nameMax) :
    (∃ r, NormalizesTo path r) ↔ ScanFits path := by
  constructor
  · rintro ⟨r, hresult, -⟩
    exact scanFits_of_normalize hlen hresult
  · exact normalizesTo_of_scanFits hlen

theorem normalizesTo_dots :
    (∀ part ∈ parts "../a/./b".toList, part.length ≤ nameMax) ∧
      ∃ r, NormalizesTo "../a/./b".toList r := by
  have hlen : ∀ part ∈ parts "../a/./b".toList, part.length ≤ nameMax := by decide +kernel
  exact ⟨hlen, (normalizesTo_iff _ hlen).mpr (scanFits_of_length hlen (by decide +kernel))⟩

/-- A path of 2049 components `a`, which has 4097 characters. -/
def longPath : CString := join (List.replicate 2049 ['a'])

theorem mem_longPath {name : CString} (h : name ∈ List.replicate 2049 ['a']) :
    Plain name ∧ name.length ≤ nameMax := by
  rw [eq_of_mem_replicate h]
  exact ⟨⟨by decide, by decide⟩, by decide⟩

theorem parts_longPath : parts longPath = List.replicate 2049 ['a'] := by
  refine parts_join (fun name hname => (mem_longPath hname).1.slash) ?_
  exact ne_nil_of_length_pos (by rw [length_replicate]; decide)

theorem length_parts_longPath : ∀ part ∈ parts longPath, part.length ≤ nameMax := by
  intro part hpart
  rw [parts_longPath] at hpart
  exact (mem_longPath hpart).2

theorem isNormalized_longPath : isNormalized (some longPath) = true := by
  refine isNormalized_iff.mpr
    (Or.inr (Or.inr ⟨_, ?_, fun name hname => (mem_longPath hname).1, rfl⟩))
  exact ne_nil_of_length_pos (by rw [length_replicate]; decide)

theorem pathMax_lt_longPath : pathMax < longPath.length := by
  rw [longPath, length_join, weight, map_replicate, sum_replicate]
  decide

theorem not_scanFits_longPath : ¬ScanFits longPath := fun hfits =>
  absurd (length_le_of_isNormalized length_parts_longPath isNormalized_longPath hfits)
    (Nat.not_le.mpr pathMax_lt_longPath)

/-- It is normalized, but `normalize` has no result for it. -/
theorem not_normalizesTo_longPath :
    (∀ part ∈ parts longPath, part.length ≤ nameMax) ∧ isNormalized (some longPath) = true ∧
      ¬∃ r, NormalizesTo longPath r := by
  refine ⟨length_parts_longPath, isNormalized_longPath, fun hresult => ?_⟩
  obtain ⟨r, hresult⟩ := hresult
  exact not_scanFits_longPath (scanFits_of_normalize length_parts_longPath hresult.1)

end NormalForms

end CrystaxNdk.Vfs
