import CrystaxNdk.Lib.Topo
import CrystaxNdk.CrazyLinker.Proof.LoadSteps

/-!
# The dependency graph

`System.Needs` is the graph `LoadLibrary` walks. Its nodes are library names, because that is
what a `DT_NEEDED` entry holds; which file a name stands for depends on the search path, and
what is in the file on the offset, which is `0` for everything but the library asked for.

Two facts about the walk are used everywhere: it leaves the names that were known alone, and a
name it adds is the one asked for or reachable from it. The last part is about when the walk ends.
-/

namespace CrystaxNdk.CrazyLinker

open Lib Relation List

variable {lib : SharedLibrary} {b : CString}

namespace System

/-- The `DT_NEEDED` names of the library in the file `path` at `fileOffset`. -/
def neededAt (sys : System) (path : CString) (fileOffset : Nat) : List CString :=
  match sys.files.find? (·.path = path) with
  | none => []
  | some file =>
    match file.elf fileOffset with
    | .error _ => []
    | .ok needed => needed

/-- The file found for `a` needs `b`. -/
def Needs (sys : System) (search : SearchPathList) (fileOffset : Nat) (a b : CString) : Prop :=
  ∃ path, sys.fullPath search a = .ok path ∧ b ∈ sys.neededAt path fileOffset

variable {sys : System} {search : SearchPathList}

variable {path : CString}

theorem load_needed {now addr off : Nat} (h : sys.load now path addr off = .ok lib) :
    lib.needed = sys.neededAt path off := by
  unfold load at h
  unfold neededAt
  by_cases hlen : 512 ≤ path.length
  · rw [if_pos hlen] at h
    cases h
  · rw [if_neg hlen] at h
    cases hf : sys.files.find? (·.path = path) with
    | none => rw [hf] at h; cases h
    | some file =>
      rw [hf] at h
      dsimp only at h ⊢
      cases he : file.elf off with
      | error e => rw [he] at h; cases h
      | ok needed =>
        rw [he] at h
        dsimp only at h ⊢
        cases hat : sys.loadAt now path addr off with
        | error e => rw [hat] at h; cases h
        | ok address =>
          rw [hat] at h
          rw [← Except.ok.inj h]

theorem exists_file_of_mem_neededAt {off : Nat} (h : b ∈ sys.neededAt path off) :
    ∃ file ∈ sys.files, b ∈ sys.neededAt file.path off := by
  cases hf : sys.files.find? (·.path = path) with
  | none => rw [neededAt, hf] at h; exact absurd h (by simp)
  | some file =>
    have hpath : file.path = path := by simpa using find?_some hf
    exact ⟨file, mem_of_find?_eq_some hf, by rw [hpath]; exact h⟩

/-! ## A directory of libraries -/

/-- A system with the given libraries in `/lib`, where mapping, relocating and `dlopen`
    succeed. -/
def directory (libs : List (CString × List CString)) : System where
  files := libs.map fun lib =>
    { path := "/lib/".toList ++ lib.1
      elf := fun off => if off = 0 then .ok lib.2 else .error "Not an ELF file".toList }
  cwd := "/".toList
  cwd_noNul := by decide
  cwd_dir := by
    intro f hf
    obtain ⟨lib, -, rfl⟩ := mem_map.mp hf
    simp
  dlopen := fun now _ _ => .ok now
  loadAt := fun _ path _ _ => .ok (4096 * (path.map Char.toNat).sum)
  relocate := fun _ _ => .ok ()

def libPath : SearchPathList := SearchPathList.reset.addPaths "/lib".toList

theorem neededAt_directory {libs : List (CString × List CString)} {off : Nat}
    (h : b ∈ (directory libs).neededAt path off) :
    ∃ lib ∈ libs, path = "/lib/".toList ++ lib.1 ∧ b ∈ lib.2 := by
  unfold neededAt at h
  cases hf : (directory libs).files.find? (·.path = path) with
  | none => rw [hf] at h; exact absurd h (by simp)
  | some file =>
    obtain ⟨lib, hlib, rfl⟩ := mem_map.mp (mem_of_find?_eq_some hf)
    have hfound := find?_some hf
    have hpath : "/lib/".toList ++ lib.1 = path := of_decide_eq_true hfound
    refine ⟨lib, hlib, hpath.symm, ?_⟩
    rw [hf] at h
    dsimp only at h
    by_cases hoff : off = 0
    · rw [if_pos hoff] at h
      exact h
    · rw [if_neg hoff] at h
      exact absurd h not_mem_nil

/-- The rank of a name is that of the file it stands for. -/
def nameRank (sys : System) (search : SearchPathList) (rank : CString → Nat) (name : CString) :
    Nat :=
  match sys.fullPath search name with
  | .error _ => 0
  | .ok path => rank path + 1

/-- A directory whose libraries only need lower ones has no dependency cycle. -/
theorem acyclic_directory (libs : List (CString × List CString)) (search : SearchPathList)
    (rank : CString → Nat)
    (h : ∀ lib ∈ libs, ∀ m ∈ lib.2,
      (directory libs).nameRank search rank m ≤ rank ("/lib/".toList ++ lib.1)) :
    Acyclic fun a b => ∃ off, (directory libs).Needs search off a b := by
  apply Acyclic.of_rank ((directory libs).nameRank search rank)
  rintro a b ⟨off, path, hpath, hb⟩
  obtain ⟨lib, hlib, rfl, hmem⟩ := neededAt_directory hb
  have ha : (directory libs).nameRank search rank a = rank ("/lib/".toList ++ lib.1) + 1 := by
    rw [nameRank, hpath]
  rw [ha]
  exact Nat.lt_succ_of_le (h lib hlib b hmem)

end System

namespace LibraryList

variable {sys : System} {st st' : LibraryList} {mode : Int} {search : SearchPathList}
  {n : CString} {addr off : Nat} {r : Except LoadError ViewPtr}

variable {m : CString}

theorem mem_needed_iff (h : openFile sys st search n addr off = .ok lib) :
    m ∈ lib.needed ↔ sys.Needs search off n m := by
  unfold openFile at h
  cases hp : sys.fullPath search n with
  | error e => rw [hp] at h; cases h
  | ok path =>
    rw [hp] at h
    rw [System.load_needed h, System.Needs, hp]
    constructor
    · exact fun hm => ⟨path, rfl, hm⟩
    · rintro ⟨path', hpath, hm⟩
      cases hpath
      exact hm

theorem openFile_needs (h : openFile sys st search n addr off = .ok lib) :
    ∀ m ∈ lib.needed, sys.Needs search off n m :=
  fun _ hm => (mem_needed_iff h).mp hm

/-! ## Names -/

def Known (st : LibraryList) (name : CString) : Prop := ∃ v ∈ st.knownLibraries, v.name = name

variable {name : CString}

theorem known_iff_mem :
    st.Known name ↔ name ∈ st.knownLibraries.map LibraryView.name :=
  mem_map.symm

theorem findKnownLibrary_eq_none :
    st.findKnownLibrary n = none ↔ ¬ st.Known (getBaseNamePtr n) := by
  constructor
  · rintro h ⟨v, hv, hname⟩
    exact findKnownLibrary_none h v hv hname
  · intro h
    cases hf : st.findKnownLibrary n with
    | none => rfl
    | some wrap =>
      obtain ⟨hmem, hname⟩ := findKnownLibrary_some hf
      exact absurd ⟨wrap, hmem, hname⟩ h

/-- The views have different names, all of them base names, and different addresses, which the
    allocator has passed. -/
structure Distinct (vs : List LibraryView) (nextPtr : Nat) : Prop where
  names : (vs.map LibraryView.name).Nodup
  bare : ∀ v ∈ vs, '/' ∉ v.name
  ptrs : (vs.map LibraryView.ptr).Nodup
  fresh : ∀ v ∈ vs, v.ptr < nextPtr

section Distinct

variable {vs : List LibraryView} {k : Nat} {v w : LibraryView}

theorem distinct_nil (k : Nat) : Distinct [] k :=
  ⟨nodup_nil, fun _ hv => (by cases hv), nodup_nil, fun _ hv => (by cases hv)⟩

theorem Distinct.eq_of_ptr (h : Distinct vs k) (hv : v ∈ vs) (hw : w ∈ vs)
    (hp : v.ptr = w.ptr) : v = w :=
  inj_on_of_nodup_map h.ptrs hv hw hp

theorem Distinct.eq_of_name (h : Distinct vs k) (hv : v ∈ vs) (hw : w ∈ vs)
    (hn : v.name = w.name) : v = w :=
  inj_on_of_nodup_map h.names hv hw hn

theorem Distinct.bumpRef (h : Distinct st.knownLibraries k) (p : ViewPtr) (n : Int) :
    Distinct (st.bumpRef p n).knownLibraries k where
  names := by rw [map_name_bumpRef]; exact h.names
  ptrs := by rw [map_ptr_bumpRef]; exact h.ptrs
  fresh := by
    intro w hw
    obtain ⟨v, hv, hptr, -⟩ := mem_bumpRef hw
    exact hptr ▸ h.fresh v hv
  bare := by
    intro w hw
    obtain ⟨v, hv, -, hname, -⟩ := mem_bumpRef hw
    exact hname ▸ h.bare v hv

theorem Distinct.sublist (h : Distinct vs k) {ws : List LibraryView} (hsub : ws.Sublist vs) :
    Distinct ws k where
  names := h.names.sublist (hsub.map _)
  ptrs := h.ptrs.sublist (hsub.map _)
  fresh := fun w hw => h.fresh w (hsub.subset hw)
  bare := fun w hw => h.bare w (hsub.subset hw)

theorem Distinct.append (h : Distinct st.knownLibraries st.nextPtr) (hbare : '/' ∉ v.name)
    (hnew : ¬ st.Known v.name) (hptr : v.ptr = st.nextPtr) :
    Distinct (st.knownLibraries ++ [v]) (st.nextPtr + 1) where
  names := by
    rw [map_append, map_singleton, nodup_append]
    refine ⟨h.names, nodup_singleton _, ?_⟩
    intro a ha b hb hab
    rw [mem_singleton] at hb
    exact hnew (known_iff_mem.mpr (hb ▸ hab ▸ ha))
  ptrs := by
    rw [map_append, map_singleton, nodup_append]
    refine ⟨h.ptrs, nodup_singleton _, ?_⟩
    intro a ha b hb hab
    rw [mem_singleton] at hb
    obtain ⟨w, hw, hwa⟩ := mem_map.mp ha
    exact (h.fresh w hw).ne (hwa.trans (hab.trans (hb.trans hptr)))
  fresh := by
    intro w hw
    rw [mem_append, mem_singleton] at hw
    rcases hw with hw | rfl
    · exact Nat.lt_succ_of_lt (h.fresh w hw)
    · exact hptr ▸ Nat.lt_succ_self _
  bare := by
    intro w hw
    rw [mem_append, mem_singleton] at hw
    rcases hw with hw | rfl
    · exact h.bare w hw
    · exact hbare

end Distinct

/-- What of the views does not change while they are known. -/
def entries (st : LibraryList) : List (ViewPtr × ViewType × CString) :=
  st.knownLibraries.map fun v => (v.ptr, v.type, v.name)

theorem known_iff_entries :
    st.Known name ↔ ∃ e ∈ st.entries, e.2.2 = name := by
  simp [Known, entries]

/-- The views are those of `st`, or those and one more that is named `n`. -/
def Adds (st : LibraryList) (n : CString) (st' : LibraryList) : Prop :=
  st'.entries = st.entries ∨ ∃ e, e.2.2 = n ∧ st'.entries = st.entries ++ [e]

theorem Adds.entries_isPrefix (h : Adds st n st') : st.entries <+: st'.entries := by
  rcases h with h | ⟨e, -, h⟩
  · exact h ▸ prefix_rfl
  · exact h ▸ prefix_append _ _

theorem Adds.keeps (h : Adds st n st') : ∀ name, st.Known name → st'.Known name := by
  intro name hname
  rw [known_iff_entries] at hname ⊢
  obtain ⟨e, he, hname⟩ := hname
  exact ⟨e, h.entries_isPrefix.subset he, hname⟩

theorem Adds.known (h : Adds st n st') (hname : st'.Known name) :
    st.Known name ∨ name = n := by
  rw [known_iff_entries] at hname ⊢
  rcases h with h | ⟨e, he, h⟩
  · exact Or.inl (h ▸ hname)
  · obtain ⟨e', he', rfl⟩ := hname
    rw [h, mem_append, mem_singleton] at he'
    rcases he' with he' | rfl
    · exact Or.inl ⟨e', he', rfl⟩
    · exact Or.inr he

theorem entries_bumpRef (wrap : ViewPtr) (k : Int) : (st.bumpRef wrap k).entries = st.entries :=
  map_modifyKey fun _ => rfl

theorem entries_openKnown (st : LibraryList) (wrap : LibraryView) (addr : Nat) :
    (st.openKnown wrap addr).1.entries = st.entries := by
  rcases openKnown_cases st wrap addr with ⟨e, h⟩ | h
  · rw [h]
  · rw [h]
    exact entries_bumpRef _ _

theorem adds_openKnown (st : LibraryList) (wrap : LibraryView) (addr : Nat) :
    Adds st n (st.openKnown wrap addr).1 :=
  Or.inl (entries_openKnown st wrap addr)

theorem adds_openSystem (sys : System) (st : LibraryList) (n : CString) (mode : Int) :
    Adds st n (openSystem sys st n mode).1 := by
  rcases openSystem_cases sys st n mode with ⟨e, h⟩ | ⟨handle, h⟩
  · exact Or.inl (by rw [h])
  · exact Or.inr ⟨(st.nextPtr, .system handle, n), rfl, by rw [h]; simp [entries]⟩

theorem adds_finishLoad (sys : System) (st : LibraryList) (lib : SharedLibrary)
    (deps : List ViewPtr) (n : CString) : Adds st n (finishLoad sys st lib deps n).1 := by
  rcases finishLoad_cases sys st lib deps n with ⟨e, h⟩ | h
  · exact Or.inl (by rw [h])
  · exact Or.inr ⟨(st.nextPtr, .crazy st.nextPtr lib, n), rfl, by rw [h]; simp [entries]⟩

variable {fuel : Nat}

/-- **Loading only adds**, whether it succeeds or not. -/
theorem loadLibrary_entries (h : loadLibrary sys mode search fuel st n addr off = some (st', r)) :
    st.entries <+: st'.entries := by
  refine (loadLibrary_induct
    (P := fun st _ _ _ st' _ => st.entries <+: st'.entries)
    (Q := fun st _ st' _ => st.entries <+: st'.entries)
    ?known ?system ?unopened ?dependency ?finish ?nil ?stop ?goOn fuel).1 st n addr off st' r h
  case known =>
    intro st n addr off wrap _
    exact (adds_openKnown (n := n) st wrap addr).entries_isPrefix
  case system =>
    intro st n addr off _ _
    exact (adds_openSystem sys st n mode).entries_isPrefix
  case unopened => intro st n addr off e _ _ _; exact prefix_rfl
  case dependency => intro st n addr off lib st' e _ _ _ hQ; exact hQ
  case finish =>
    intro st n addr off lib st₁ deps _ _ _ _ hQ
    exact hQ.trans (adds_finishLoad sys st₁ lib deps n).entries_isPrefix
  case nil => intro st; exact prefix_rfl
  case stop => intro st n ns st' e hP; exact hP
  case goOn => intro st n ns st₁ d st' r hP hQ; exact hP.trans hQ

theorem loadLibrary_known (h : loadLibrary sys mode search fuel st n addr off = some (st', r))
    (hname : st.Known name) : st'.Known name := by
  rw [known_iff_entries] at hname ⊢
  obtain ⟨e, he, hname⟩ := hname
  exact ⟨e, (loadLibrary_entries h).subset he, hname⟩

/-! ## The walk -/

/-- Loading `a` as a dependency goes on to load `b`: `a` is neither known nor a system library,
    and its file needs `b`. -/
def Pulls (sys : System) (search : SearchPathList) (st : LibraryList) (a b : CString) : Prop :=
  st.findKnownLibrary a = none ∧ isSystemLibrary a = false ∧ sys.Needs search 0 a b

/-- Loading `n` from `fileOffset` goes on to load `m`, at once or later. -/
def Pursues (sys : System) (search : SearchPathList) (st : LibraryList) (n : CString)
    (fileOffset : Nat) (m : CString) : Prop :=
  st.findKnownLibrary n = none ∧ isSystemLibrary n = false ∧
    ∃ first, sys.Needs search fileOffset n first ∧ ReflTransGen (Pulls sys search st) first m

theorem Pulls.mono {st₁ : LibraryList} (h : ∀ name, st.Known name → st₁.Known name) {a : CString}
    (hpull : Pulls sys search st₁ a b) : Pulls sys search st a b := by
  obtain ⟨hk, hsys, hneeds⟩ := hpull
  rw [findKnownLibrary_eq_none] at hk
  exact ⟨findKnownLibrary_eq_none.mpr fun hknown => hk (h _ hknown), hsys, hneeds⟩

/-- From a library itself, or from what it pursues at offset `0`, the walk goes on. -/
theorem reach_of_pursues (h : m = n ∨ Pursues sys search st n 0 m) :
    ReflTransGen (Pulls sys search st) n m := by
  rcases h with rfl | ⟨hk, hsys, first, hfirst, hreach⟩
  · exact ReflTransGen.refl
  · exact ReflTransGen.head ⟨hk, hsys, hfirst⟩ hreach

theorem pursues_of_opened {x : CString} (hk : st.findKnownLibrary n = none)
    (hsys : isSystemLibrary n = false) (hopen : openFile sys st search n addr off = .ok lib)
    (hm : m ∈ lib.needed) (hreach : ReflTransGen (Pulls sys search st) m x) :
    Pursues sys search st n off x :=
  ⟨hk, hsys, m, openFile_needs hopen m hm, hreach⟩

/-- What is known after the dependencies `ns` were loaded: what was known, and what is reached
    from them. -/
structure Walks (sys : System) (search : SearchPathList) (st : LibraryList)
    (ns : List CString) (st' : LibraryList) : Prop where
  keeps : ∀ name, st.Known name → st'.Known name
  reaches : ∀ name, st'.Known name → st.Known name ∨
    ∃ m ∈ ns, ReflTransGen (Pulls sys search st) m name

variable {ns : List CString}

theorem Walks.cons {st₁ : LibraryList} (h : Walks sys search st [n] st₁)
    (hrest : Walks sys search st₁ ns st') : Walks sys search st (n :: ns) st' where
  keeps := fun name hname => hrest.keeps name (h.keeps name hname)
  reaches := by
    intro name hname
    rcases hrest.reaches name hname with hname | ⟨m, hm, hreach⟩
    · rcases h.reaches name hname with hname | ⟨m, hm, hreach⟩
      · exact Or.inl hname
      · exact Or.inr ⟨m, by simp [mem_singleton.mp hm], hreach⟩
    · exact Or.inr ⟨m, by simp [hm],
        ReflTransGen.mono (fun a b hab => Pulls.mono h.keeps hab) _ _ hreach⟩

theorem Walks.of_subset {ms : List CString} (h : Walks sys search st ns st') (hsub : ns ⊆ ms) :
    Walks sys search st ms st' where
  keeps := h.keeps
  reaches := by
    intro name hname
    rcases h.reaches name hname with hname | ⟨m, hm, hreach⟩
    · exact Or.inl hname
    · exact Or.inr ⟨m, hsub hm, hreach⟩

theorem walks_single (hkeeps : ∀ name, st.Known name → st'.Known name)
    (hnew : ∀ name, st'.Known name → st.Known name ∨ name = n ∨
      Pursues sys search st n 0 name) : Walks sys search st [n] st' where
  keeps := hkeeps
  reaches := fun name hname => (hnew name hname).imp_right
    fun hname => ⟨n, mem_singleton_self n, reach_of_pursues hname⟩

theorem load_walks (sys : System) (mode : Int) (search : SearchPathList) (fuel : Nat) :
    (∀ st n addr off st' r, loadLibrary sys mode search fuel st n addr off = some (st', r) →
      (∀ name, st.Known name → st'.Known name) ∧
      ∀ name, st'.Known name → st.Known name ∨ name = n ∨
        Pursues sys search st n off name) ∧
    ∀ ns st st' r, loadDependencies
        (fun st name => loadLibrary sys mode search fuel st name 0 0) st ns = some (st', r) →
      Walks sys search st ns st' := by
  refine loadLibrary_induct
    (P := fun st n _ off st' _ => (∀ name, st.Known name → st'.Known name) ∧
      ∀ name, st'.Known name → st.Known name ∨ name = n ∨ Pursues sys search st n off name)
    (Q := fun st ns st' _ => Walks sys search st ns st')
    ?known ?system ?unopened ?dependency ?finish ?nil ?stop ?goOn fuel
  case known =>
    intro st n addr off wrap _
    have hadds : Adds st n (st.openKnown wrap addr).1 := adds_openKnown st wrap addr
    exact ⟨hadds.keeps, fun name hname => (hadds.known hname).imp_right Or.inl⟩
  case system =>
    intro st n addr off _ _
    have hadds := adds_openSystem sys st n mode
    exact ⟨hadds.keeps, fun name hname => (hadds.known hname).imp_right Or.inl⟩
  case unopened =>
    intro st n addr off e _ _ _
    exact ⟨fun _ => id, fun name hname => Or.inl hname⟩
  case dependency =>
    intro st n addr off lib st' e hk hsys hopen hQ
    refine ⟨hQ.keeps, fun name hname => (hQ.reaches name hname).imp_right ?_⟩
    rintro ⟨m, hm, hreach⟩
    exact Or.inr (pursues_of_opened hk hsys hopen hm hreach)
  case finish =>
    intro st n addr off lib st₁ deps hk hsys hopen _ hQ
    have hadds := adds_finishLoad sys st₁ lib deps n
    refine ⟨fun name hname => hadds.keeps name (hQ.keeps name hname), fun name hname => ?_⟩
    rcases hadds.known hname with hname | hname
    · refine (hQ.reaches name hname).imp_right ?_
      rintro ⟨m, hm, hreach⟩
      exact Or.inr (pursues_of_opened hk hsys hopen hm hreach)
    · exact Or.inr (Or.inl hname)
  case nil => exact fun st => ⟨fun _ => id, fun name hname => Or.inl hname⟩
  case stop =>
    intro st n ns st' e hP
    exact (walks_single hP.1 hP.2).of_subset (by simp)
  case goOn => exact fun st n ns st₁ d st' r hP hQ => (walks_single hP.1 hP.2).cons hQ

theorem loadDependencies_walks {r : Except LoadError (List ViewPtr)}
    (h : loadDependencies (fun st name => loadLibrary sys mode search fuel st name 0 0) st ns =
      some (st', r)) : Walks sys search st ns st' :=
  (load_walks sys mode search fuel).2 ns st st' r h

end LibraryList

/-!
## When `LoadLibrary` returns

A library enters `known_libraries_` after its dependencies were loaded, so on a cycle of
libraries that are not known yet the recursion finds nothing known and never ends
(`loadLibrary_selfNeeding`). The header says as much, "circular dependencies are forbidden". Off
such cycles the recursion is bounded by a rank of the dependency graph.
-/

namespace LibraryList

variable {sys : System} {st : LibraryList} {mode : Int} {search : SearchPathList}
  {n : CString} {addr off : Nat}

theorem Pursues.mem_names {m : CString} (h : Pursues sys search st n off m) :
    m ∈ sys.files.flatMap fun file =>
      sys.neededAt file.path off ++ sys.neededAt file.path 0 := by
  obtain ⟨-, -, first, ⟨path, -, hfirst⟩, hreach⟩ := h
  rw [List.mem_flatMap]
  rcases ReflTransGen.cases_tail hreach with rfl | ⟨k, -, -, -, path', -, hm⟩
  · obtain ⟨file, hfile, hm⟩ := System.exists_file_of_mem_neededAt hfirst
    exact ⟨file, hfile, List.mem_append_left _ hm⟩
  · obtain ⟨file, hfile, hm⟩ := System.exists_file_of_mem_neededAt hm
    exact ⟨file, hfile, List.mem_append_right _ hm⟩

theorem loadDependencies_returns {I : LibraryList → Prop} {ns : List CString}
    {load : LibraryList → CString → Option (LibraryList × Except LoadError ViewPtr)}
    (hload : ∀ st, I st → ∀ n ∈ ns, ∃ st' r, load st n = some (st', r) ∧ I st') :
    ∀ st, I st → ∃ res, loadDependencies load st ns = some res := by
  induction ns with
  | nil => intro st _; exact ⟨_, rfl⟩
  | cons n ns ih =>
    intro st hst
    obtain ⟨st₁, r, hn, hst₁⟩ := hload st hst n (by simp)
    rw [loadDependencies, hn]
    cases r with
    | error e => exact ⟨_, rfl⟩
    | ok d =>
      obtain ⟨⟨st₂, r₂⟩, hns⟩ := ih (fun st hst m hm => hload st hst m (by simp [hm])) st₁ hst₁
      dsimp only
      rw [hns]
      cases r₂ with
      | error e => exact ⟨_, rfl⟩
      | ok ds => exact ⟨_, rfl⟩

/-- A call returns when the loop over the dependencies of the library it opens does. -/
theorem loadLibrary_succ_returns {fuel : Nat}
    (hdeps : ∀ lib, st.findKnownLibrary n = none → isSystemLibrary n = false →
      openFile sys st search n addr off = .ok lib →
      ∃ res, loadDependencies (fun st name => loadLibrary sys mode search fuel st name 0 0)
        st lib.needed = some res) :
    ∃ res, loadLibrary sys mode search (fuel + 1) st n addr off = some res := by
  cases hk : st.findKnownLibrary n with
  | some wrap => exact ⟨_, loadLibrary_known_eq hk⟩
  | none =>
    cases hsys : isSystemLibrary n with
    | true => exact ⟨_, loadLibrary_system_eq hk hsys⟩
    | false =>
      cases hf : openFile sys st search n addr off with
      | error e => exact ⟨_, loadLibrary_unopened_eq hk hsys hf⟩
      | ok lib =>
        obtain ⟨⟨st₁, r₁⟩, hd⟩ := hdeps lib hk hsys hf
        cases r₁ with
        | error e => exact ⟨_, loadLibrary_opened_error hk hsys hf hd⟩
        | ok deps => exact ⟨_, loadLibrary_opened_ok hk hsys hf hd⟩

/-- Along a rank of the pursued graph the fuel suffices, in every state the walk comes to. -/
theorem loadLibrary_returns_of_rank {rank : CString → Nat}
    (hrank : ∀ a b, Pulls sys search st a b ∧ Pursues sys search st n off a → rank b < rank a) :
    ∀ fuel st₁, (∀ name, st.Known name → st₁.Known name) →
      ∀ m, Pursues sys search st n off m → rank m < fuel →
      ∃ res, loadLibrary sys mode search fuel st₁ m 0 0 = some res := by
  intro fuel
  induction fuel with
  | zero => intro st₁ _ m _ hlt; omega
  | succ fuel ih =>
    intro st₁ hst₁ m hm hlt
    apply loadLibrary_succ_returns
    intro lib hk hsys hopen
    -- what is unknown now was unknown at the start, so the step is one of the ranked graph
    have hk₀ : st.findKnownLibrary m = none := by
      rw [findKnownLibrary_eq_none] at hk ⊢
      exact fun hknown => hk (hst₁ _ hknown)
    apply loadDependencies_returns (I := fun st₂ => ∀ name, st.Known name → st₂.Known name)
    · intro st₂ hst₂ d hd
      have hpull : Pulls sys search st m d := ⟨hk₀, hsys, openFile_needs hopen d hd⟩
      have hd' : Pursues sys search st n off d := by
        obtain ⟨hkn, hsysn, first, hfirst, hreach⟩ := hm
        exact ⟨hkn, hsysn, first, hfirst, hreach.tail hpull⟩
      have hless : rank d < rank m := hrank m d ⟨hpull, hm⟩
      obtain ⟨⟨st₃, r₃⟩, hres⟩ := ih st₂ hst₂ d hd' (by omega)
      exact ⟨st₃, r₃, hres, fun name hname => loadLibrary_known hres (hst₂ name hname)⟩
    · exact hst₁

/-- **`LoadLibrary` returns**, with a library or an error, whenever none of the libraries it
    gets to load lies on a dependency cycle of libraries that are not known. -/
theorem loadLibrary_returns (sys : System) (mode : Int) (search : SearchPathList)
    (st : LibraryList) (n : CString) (addr off : Nat)
    (hcycle : ∀ m, Pursues sys search st n off m → ¬ TransGen (Pulls sys search st) m m) :
    ∃ fuel res, loadLibrary sys mode search fuel st n addr off = some res := by
  obtain ⟨rank, hrank⟩ := (acyclic_restrict hcycle).exists_rank
    (sys.files.flatMap fun file =>
      sys.neededAt file.path off ++ sys.neededAt file.path 0).toFinset
    (fun a b hab => List.mem_toFinset.mpr hab.2.mem_names)
  -- one more than the rank of every first dependency
  obtain ⟨bound, hbound⟩ : ∃ bound, ∀ m, Pursues sys search st n off m → rank m < bound := by
    refine ⟨((sys.files.flatMap fun file =>
      sys.neededAt file.path off ++ sys.neededAt file.path 0).map rank).sum + 1, ?_⟩
    intro m hm
    exact Nat.lt_succ_of_le (List.le_sum_of_mem (List.mem_map_of_mem hm.mem_names))
  refine ⟨bound + 1, loadLibrary_succ_returns fun lib hk hsys hopen => ?_⟩
  apply loadDependencies_returns (I := fun st₁ => ∀ name, st.Known name → st₁.Known name)
  · intro st₁ hst₁ d hd
    have hd' : Pursues sys search st n off d := pursues_of_opened hk hsys hopen hd .refl
    obtain ⟨⟨st₂, r₂⟩, hres⟩ :=
      loadLibrary_returns_of_rank hrank bound st₁ hst₁ d hd' (hbound d hd')
    exact ⟨st₂, r₂, hres, fun name hname => loadLibrary_known hres (hst₁ name hname)⟩
  · exact fun name hname => hname

/-- A library that needs another one and the system's `libc.so`. -/
theorem loadLibrary_returns_directory :
    ∃ fuel res, loadLibrary (System.directory
      [("liba.so".toList, ["libb.so".toList, "libc.so".toList]),
       ("libb.so".toList, ["libc.so".toList])]) 2 System.libPath fuel empty
      "liba.so".toList 0 0 = some res := by
  refine loadLibrary_returns _ _ _ _ _ _ _ fun m _ hm => ?_
  have hacyclic := System.acyclic_directory
    [("liba.so".toList, ["libb.so".toList, "libc.so".toList]),
     ("libb.so".toList, ["libc.so".toList])] System.libPath
    (fun path => if path = "/lib/liba.so".toList then 1 else 0) (by decide)
  exact hacyclic m (TransGen.mono (fun _ _ h => ⟨0, h.2.2⟩) _ _ hm)

/-- A library that needs itself is never entered, so every call opens the file once more. -/
theorem loadLibrary_selfNeeding :
    ¬ ∃ fuel res, loadLibrary (System.directory [("liba.so".toList, ["liba.so".toList])]) 2
      System.libPath fuel empty "liba.so".toList 0 0 = some res := by
  rintro ⟨fuel, res, hres⟩
  have hnone : ∀ fuel, loadLibrary (System.directory [("liba.so".toList, ["liba.so".toList])]) 2
      System.libPath fuel empty "liba.so".toList 0 0 = none := by
    intro fuel
    induction fuel with
    | zero => rfl
    | succ fuel ih =>
      have hknown : empty.findKnownLibrary "liba.so".toList = none := rfl
      have hsystem : isSystemLibrary "liba.so".toList = false := by decide
      obtain ⟨lib, hopen, hneeded⟩ : ∃ lib, openFile
          (System.directory [("liba.so".toList, ["liba.so".toList])]) empty System.libPath
          "liba.so".toList 0 0 = .ok lib ∧ lib.needed = ["liba.so".toList] := ⟨_, rfl, rfl⟩
      apply loadLibrary_opened_none hknown hsystem hopen
      simp only [hneeded, loadDependencies, ih]
  rw [hnone fuel] at hres
  cases hres

end LibraryList

end CrystaxNdk.CrazyLinker
