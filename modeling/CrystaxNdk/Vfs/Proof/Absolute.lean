import CrystaxNdk.Vfs.Proof.Scanner

/-!
# Absolute paths

On an absolute path `normalize` does what it says, as long as there is room: the result is the
shortest path of the directory. Components longer than `NAME_MAX` are cut.
-/

namespace CrystaxNdk.Vfs

open Lib List

variable {path : CString}

/-! ## Room -/

/-- However far one reads an absolute path, what it says so far can be written down in `PATH_MAX`
    characters. -/
def HasRoom (path : CString) : Prop :=
  ∀ n, (absolute (walk [] (((clipped path).take n).map component))).length ≤ pathMax

/-- The length of names with a slash after each of them. -/
def weight (names : List CString) : Nat := (names.map fun name => name.length + 1).sum

theorem length_join (names : List CString) : (join names).length = weight names - 1 := by
  induction names with
  | nil => rfl
  | cons name names ih =>
    rcases eq_or_ne names [] with rfl | hne
    · simp [weight]
    · obtain ⟨next, others, rfl⟩ := exists_cons_of_ne_nil hne
      rw [join_cons hne, length_append, length_cons, ih]
      simp only [weight, map_cons, sum_cons]
      omega

theorem weight_append (names names' : List CString) :
    weight (names ++ names') = weight names + weight names' := by
  simp [weight]

theorem weight_dropLast_le (names : List CString) : weight names.dropLast ≤ weight names := by
  rcases eq_nil_or_concat' names with rfl | ⟨front, last, rfl⟩
  · rfl
  · simp [weight_append]

theorem weight_parts (path : CString) : weight (parts path) = path.length + 1 := by
  have hjoin := length_join (parts path)
  have hpos : 0 < weight (parts path) := by
    obtain ⟨first, ps, hparts⟩ := exists_cons_of_ne_nil (parts_ne_nil : parts path ≠ [])
    simp [hparts, weight]
  rw [join_parts] at hjoin
  omega

theorem weight_walk_le (names ps : List CString) :
    weight (walk names (ps.map component)) ≤ weight names + weight ps := by
  induction ps generalizing names with
  | nil => simp
  | cons part ps ih =>
    have hstep : weight ((component part).apply names) ≤ weight names + (part.length + 1) := by
      unfold component
      split_ifs
      · simp [Move.apply]
      · exact (weight_dropLast_le names).trans (Nat.le_add_right _ _)
      · simp [Move.apply, weight]
    rw [map_cons, walk_cons]
    refine (ih _).trans ?_
    simp only [weight, map_cons, sum_cons] at hstep ⊢
    omega

theorem weight_take_le (ps : List CString) (n : Nat) : weight (ps.take n) ≤ weight ps := by
  conv_rhs => rw [← take_append_drop n ps, weight_append]
  exact Nat.le_add_right _ _

theorem weight_clipped_le (path : CString) : weight (clipped path) ≤ weight (parts path) := by
  unfold weight clipped
  rw [map_map]
  refine sum_le_sum fun part _ => ?_
  simp

theorem clipped_of_le (hlen : ∀ part ∈ parts path, part.length ≤ nameMax) :
    clipped path = parts path := by
  refine (map_congr_left fun part hpart => ?_).trans (map_id _)
  exact take_of_length_le (hlen part hpart)

@[simp]
theorem clipped_cons_slash : clipped ('/' :: path) = [] :: clipped path := by
  simp [clipped]

/-- There is always room for a path of at most `PATH_MAX` characters. -/
theorem hasRoom_of_length (habs : path[0]? = some '/') (h : path.length ≤ pathMax) :
    HasRoom path := by
  obtain ⟨rest, rfl⟩ : ∃ rest, path = '/' :: rest := by
    cases path <;> simp_all
  intro n
  have hone : 1 ≤ pathMax := by decide
  have hweight : weight (walk [] (((clipped ('/' :: rest)).take n).map component)) ≤ pathMax := by
    cases n with
    | zero => simp [weight]
    | succ n =>
      have hle := weight_walk_le [] ((clipped rest).take n)
      have htake := weight_take_le (clipped rest) n
      have hclip := weight_clipped_le rest
      have hparts := weight_parts rest
      have hnil : weight [] = 0 := rfl
      rw [length_cons] at h
      rw [clipped_cons_slash, take_succ_cons, map_cons, walk_cons, component_nil,
        Move.apply]
      omega
  rw [absolute, length_cons, length_join]
  omega

/-! ## The result -/

theorem normalize_eq_ok {res : Option CString} : normalize (some path) = .ok res ↔
    ∃ b, (parts path).foldlM (Buf.part path) .empty = .ok b ∧ res = some b.buf := by
  constructor
  · intro h
    rw [normalize] at h
    cases hrun : (parts path).foldlM (Buf.part path) .empty with
    | error fault =>
      rw [hrun] at h
      cases h
    | ok b =>
      rw [hrun] at h
      cases h
      exact ⟨b, rfl, rfl⟩
  · rintro ⟨b, hrun, rfl⟩
    rw [normalize, hrun]
    rfl

theorem part_first_slash (hslash : path[0]? = some '/') :
    Buf.empty.part path [] = .ok ⟨['/'], 1⟩ ∧ ShowsDir [] ⟨['/'], 1⟩ := by
  refine ⟨?_, rfl, rfl, by simp⟩
  simp only [Buf.part, take_nil, if_true, hslash, Buf.empty, and_self]
  rfl

theorem foldlM_clipped (path : CString) (ps : List CString) (b : Buf) :
    (ps.map (List.take nameMax)).foldlM (Buf.part path) b = ps.foldlM (Buf.part path) b := by
  have hpart : (fun (b : Buf) s => b.part path (List.take nameMax s)) = Buf.part path := by
    funext b s
    simp [Buf.part, take_take]
  rw [foldlM_map, hpart]

theorem mem_clipped {part : CString} (h : part ∈ clipped path) :
    '/' ∉ part ∧ part.length ≤ nameMax := by
  obtain ⟨whole, hmem, rfl⟩ := mem_map.mp h
  exact ⟨fun hslash => slash_not_mem_of_mem_parts hmem (mem_of_mem_take hslash), by simp⟩

theorem length_le_of_mem_located {name : CString} (h : name ∈ located path) :
    name.length ≤ nameMax :=
  (mem_clipped (mem_of_mem_walk h).1).2

theorem located_absolute {names : List CString} (h : ∀ name ∈ names, Plain name)
    (hlen : ∀ name ∈ names, name.length ≤ nameMax) : located (absolute names) = names := by
  have hparts : ∀ part ∈ parts (absolute names), part.length ≤ nameMax := by
    intro part hpart
    rw [absolute, parts_cons_slash] at hpart
    rcases mem_cons.mp hpart with rfl | hpart
    · exact Nat.zero_le _
    · rcases eq_or_ne names [] with rfl | hne
      · obtain rfl : part = [] := by simpa [parts] using hpart
        exact Nat.zero_le _
      · rw [parts_join (fun name hname => (h name hname).slash) hne] at hpart
        exact hlen part hpart
  have hdirectory := directory_absolute h
  rwa [directory, moves, ← clipped_of_le hparts] at hdirectory

/-- An absolute path becomes the shortest path of its directory. -/
theorem normalize_absolute (habs : path[0]? = some '/') (hroom : HasRoom path) :
    normalize (some path) = .ok (some (absolute (located path))) ∧
      ∀ name ∈ located path, Plain name := by
  obtain ⟨rest, rfl⟩ : ∃ rest, path = '/' :: rest := by
    cases path <;> simp_all
  obtain ⟨hfirst, hshows⟩ := part_first_slash habs
  obtain ⟨b, hrun, hshows'⟩ := (ShowsDir.scanned ('/' :: rest)).foldlM_part hshows
    (fun _ hpart => (mem_clipped hpart).1) (fun _ hpart => (mem_clipped hpart).2) fun n => by
      simpa [walk, Move.apply] using hroom (n + 1)
  have hdir : ((clipped rest).map component).foldl Move.apply [] = located ('/' :: rest) := by
    simp [located, walk, Move.apply]
  rw [hdir] at hshows'
  refine ⟨normalize_eq_ok.mpr ⟨b, ?_, by rw [hshows'.buf]⟩, hshows'.plain⟩
  rw [parts_cons_slash, foldlM_cons, hfirst]
  rw [clipped, foldlM_clipped] at hrun
  exact hrun

theorem hasRoom_of_normalize (habs : path[0]? = some '/') {res : Option CString}
    (h : normalize (some path) = .ok res) : HasRoom path := by
  obtain ⟨rest, rfl⟩ : ∃ rest, path = '/' :: rest := by
    cases path <;> simp_all
  obtain ⟨hfirst, hshows⟩ := part_first_slash habs
  obtain ⟨b, hrun, -⟩ := normalize_eq_ok.mp h
  rw [parts_cons_slash, foldlM_cons, hfirst] at hrun
  have hrun' : (clipped rest).foldlM (Buf.part ('/' :: rest)) ⟨['/'], 1⟩ = .ok b := by
    rw [clipped, foldlM_clipped]
    exact hrun
  have hfits := (ShowsDir.scanned ('/' :: rest)).fits_of_foldlM hshows (by decide)
    (fun _ hpart => (mem_clipped hpart).1) (fun _ hpart => (mem_clipped hpart).2) hrun'
  intro n
  cases n with
  | zero => simp [absolute, pathMax]
  | succ n => simpa [walk, Move.apply] using hfits n

end CrystaxNdk.Vfs
