import CrystaxNdk.Lib.Reach
import CrystaxNdk.NdkDepends.Proof.DynamicScan

/-!
# What the dependency graph holds

The node of a library only depends on its name: the root has its path, every other library is looked
for, and the file found says what is needed. So the graph of needed libraries is there before the
program starts, and the loop over the work queue explores it from the base name of the root. There
are finitely many files, so finitely many names are ever needed, and the loop ends although a name
may wait in the queue many times. A name is only looked for when it is not in the graph, which is
what the panic in `UpdateDependencies` is about.
-/

namespace CrystaxNdk.NdkDepends

open Lib Reader

/-! ## The libraries of a file system -/

def ElfFile.libName (libfile : ElfFile) : String :=
  (((libfile.reader.visited libfile.elfClass).find? fun iter =>
    libfile.reader.getTag libfile.elfClass iter = dtSoname).map fun iter =>
      String.ofList (libfile.reader.getStringByIndex libfile.elfClass
        (libfile.reader.getValue libfile.elfClass iter)
        (libfile.reader.getDynamicStringTableIndex libfile.elfClass))).getD ""

def ElfFile.neededLibs (libfile : ElfFile) : List String :=
  (libfile.reader.visited libfile.elfClass).filterMap
    (libfile.reader.neededLib libfile.elfClass
      (libfile.reader.getDynamicStringTableIndex libfile.elfClass))

def fileNode (fs : FileSystem) (libpath : String) : LibNode :=
  match ElfFile.open fs libpath with
  | .error error => { type := .error, value := error, neededLibs := [] }
  | .ok libfile => { type := .path, value := libpath, neededLibs := libfile.neededLibs }

section Names

variable (fs : FileSystem) (rootLibpath : String) (libSearchPath : List String)

def nameNode (libname : String) : LibNode :=
  if libname = pathBasename rootLibpath then fileNode fs rootLibpath
  else
    match findLibraryPath fs libname libSearchPath with
    | some libpath => fileNode fs libpath
    | none =>
      if isAndroidSystemLib libname then { type := .system, value := libname, neededLibs := [] }
      else { type := .error, value := "Could not find library", neededLibs := [] }

def needs (libname : String) : List String :=
  (nameNode fs rootLibpath libSearchPath libname).neededLibs

end Names

/-! ## Reading a file -/

/-- The rounds that a loop over a dynamic section makes, at most: a size is less than `2 ^ 64`. -/
def scanRounds : Nat := 2 ^ 64

theorem entryCount_lt (reader : Reader) (c : ElfClass) : reader.entryCount c + 1 < scanRounds := by
  have hsize : (reader.dynamicSection c).2 < c.offRange := dynamicSection_lt.2
  have hrange : c.offRange ≤ 2 ^ 64 := by cases c <;> decide
  have hentry : 8 ≤ c.entrySize := by cases c <;> decide
  have hcount : reader.entryCount c ≤ (reader.dynamicSection c).2 / 8 :=
    Nat.div_le_div_left hentry (by decide)
  unfold scanRounds
  omega

variable {fs : FileSystem}

variable {scan : Nat}

theorem visits_eq (libfile : ElfFile) (hscan : scanRounds ≤ scan) :
    visits libfile.elfClass scan (libfile.reader.dynamicIterator libfile.elfClass) =
      some (libfile.reader.visited libfile.elfClass) :=
  visits_dynamicIterator ((entryCount_lt libfile.reader libfile.elfClass).trans_le hscan)

theorem getLibName_eq (libfile : ElfFile) (hscan : scanRounds ≤ scan) :
    libfile.getLibName scan = some libfile.libName := by
  rw [ElfFile.getLibName, getLibName, visits_eq libfile hscan, Option.map_some]
  rfl

theorem getNeededLibs_eq (libfile : ElfFile) (hscan : scanRounds ≤ scan) :
    libfile.getNeededLibs scan = some libfile.neededLibs := by
  rw [ElfFile.getNeededLibs, getNeededLibs, visits_eq libfile hscan, Option.map_some]
  rfl

theorem eq_of_ofBytes {strerror : String} {bytes : List UInt8} {libfile : ElfFile}
    (h : ElfFile.ofBytes strerror bytes = .ok libfile) :
    libfile = ⟨bytes[4]? = some 2, bytes, bytes[5]? = some 2⟩ := by
  unfold ElfFile.ofBytes at h
  split_ifs at h
  exact (Except.ok.inj h).symm

theorem finite_neededLibs (fs : FileSystem) :
    {lib | ∃ libpath, lib ∈ (fileNode fs libpath).neededLibs}.Finite := by
  refine Set.Finite.subset (fs.finite.biUnion fun bytes _ => List.finite_toSet
    (ElfFile.neededLibs ⟨bytes[4]? = some 2, bytes, bytes[5]? = some 2⟩)) ?_
  rintro lib ⟨libpath, hlib⟩
  unfold fileNode ElfFile.open at hlib
  cases hbytes : fs.fopen libpath with
  | none => simp [hbytes] at hlib
  | some bytes =>
    rw [hbytes] at hlib
    dsimp only at hlib
    cases hopen : ElfFile.ofBytes (fs.strerror libpath) bytes with
    | error error => simp [hopen] at hlib
    | ok libfile =>
      rw [hopen, eq_of_ofBytes hopen] at hlib
      exact Set.mem_biUnion (x := bytes) ⟨libpath, hbytes⟩ hlib

theorem finite_needs (fs : FileSystem) (rootLibpath : String) (libSearchPath : List String) :
    {lib | ∃ libname, lib ∈ needs fs rootLibpath libSearchPath libname}.Finite := by
  refine Set.Finite.subset (finite_neededLibs fs) ?_
  rintro lib ⟨libname, hlib⟩
  unfold needs nameNode at hlib
  by_cases hroot : libname = pathBasename rootLibpath
  · rw [if_pos hroot] at hlib
    exact ⟨rootLibpath, hlib⟩
  · rw [if_neg hroot] at hlib
    cases hfind : findLibraryPath fs libname libSearchPath with
    | some libpath =>
      rw [hfind] at hlib
      exact ⟨libpath, hlib⟩
    | none =>
      rw [hfind] at hlib
      dsimp only at hlib
      split_ifs at hlib
      · exact absurd hlib List.not_mem_nil
      · exact absurd hlib List.not_mem_nil

/-! ## The loop -/

/-- The graph holds the nodes of some names. -/
structure Describes (node : String → LibNode) (names : Set String) (deps : DependencyGraph) :
    Prop where
  keys : ∀ libname, libname ∈ deps ↔ libname ∈ names
  nodes : ∀ libname found, deps[libname]? = some found → found = node libname

theorem describes_empty (node : String → LibNode) : Describes node ∅ ∅ where
  keys := by simp
  nodes := by simp

theorem Describes.insert {node : String → LibNode} {names : Set String} {deps : DependencyGraph}
    (h : Describes node names deps) (libname : String) :
    Describes node (insert libname names) (deps.insert libname (node libname)) where
  keys := by
    intro other
    rw [Std.TreeMap.mem_insert, compare_eq_iff_eq, h.keys, Set.mem_insert_iff, eq_comm]
  nodes := by
    intro other found hfound
    rw [Std.TreeMap.getElem?_insert] at hfound
    split_ifs at hfound with heq
    · rw [← compare_eq_iff_eq.mp heq]
      exact (Option.some.inj hfound).symm
    · exact h.nodes other found hfound

variable {libname : String}

/-- A library that is not in the graph yet gets its node, and the queue what it needs. -/
theorem updateDependencies_spec (fs : FileSystem) (libpath : String) (st : GraphState)
    (hnew : libname ∉ st.deps) :
    ∃ st' : GraphState, st'.deps = st.deps.insert libname (fileNode fs libpath) ∧
      st'.queue = st.queue ++ (fileNode fs libpath).neededLibs ∧
      ∀ scan ≥ scanRounds, updateDependencies fs scan libname libpath st = some (.ok st') := by
  unfold updateDependencies fileNode
  cases ElfFile.open fs libpath with
  | error error =>
    refine ⟨{ st with deps := st.deps.insert libname ⟨.error, error, []⟩ }, rfl,
      (List.append_nil _).symm, fun scan _ => ?_⟩
    rw [if_neg fun h => hnew h.2]
  | ok libfile =>
    refine ⟨⟨st.deps.insert libname ⟨.path, libpath, libfile.neededLibs⟩,
      st.queue ++ libfile.neededLibs,
      if libfile.libName ≠ "" ∧ libfile.libName ≠ libname then
        st.warnings ++ [sonameWarning libfile.libName libpath]
      else st.warnings⟩, rfl, rfl, fun scan hscan => ?_⟩
    rw [if_neg fun h => hnew h.2]
    dsimp only
    rw [getLibName_eq libfile hscan, getNeededLibs_eq libfile hscan]
    rfl

section Loop

variable {rootLibpath : String} {libSearchPath : List String}

theorem buildRound_spec (libSearchPath : List String) (st : GraphState)
    (hroot : libname ≠ pathBasename rootLibpath) (hnew : libname ∉ st.deps) :
    ∃ st' : GraphState,
      st'.deps = st.deps.insert libname (nameNode fs rootLibpath libSearchPath libname) ∧
      st'.queue = st.queue ++ needs fs rootLibpath libSearchPath libname ∧
      ∀ scan ≥ scanRounds, buildRound fs libSearchPath scan libname st = some (.ok st') := by
  unfold buildRound needs nameNode
  rw [if_neg hroot]
  simp only [if_neg hnew]
  cases findLibraryPath fs libname libSearchPath with
  | some libpath => exact updateDependencies_spec fs libpath st hnew
  | none =>
    dsimp only
    split_ifs with hsystem
    · exact ⟨{ st with deps := st.deps.insert libname ⟨.system, libname, []⟩ }, rfl,
        (List.append_nil _).symm, fun _ _ => rfl⟩
    · exact ⟨⟨st.deps.insert libname ⟨.error, "Could not find library", []⟩, st.queue,
        st.warnings ++ ["WARNING: Could not find library: " ++ libname ++ "\n"]⟩, rfl,
        (List.append_nil _).symm, fun _ _ => rfl⟩

variable (fs rootLibpath libSearchPath) in
/-- From here the loop comes to an end, with the nodes of all that can be reached. -/
def Completes (st : GraphState) : Prop :=
  ∃ (st' : GraphState) (rounds : Nat),
    Describes (nameNode fs rootLibpath libSearchPath)
      {libname | Reached (needs fs rootLibpath libSearchPath) [pathBasename rootLibpath] libname}
      st'.deps ∧
    ∀ scan ≥ scanRounds, ∀ fuel ≥ rounds,
      buildLoop fs libSearchPath scan fuel st = some (.ok st')

variable {st : GraphState}

theorem Completes.round {queue : List String} {st' : GraphState}
    (h : Completes fs rootLibpath libSearchPath st') (hqueue : st.queue = libname :: queue)
    (hround : ∀ scan ≥ scanRounds,
      buildRound fs libSearchPath scan libname { st with queue } = some (.ok st')) :
    Completes fs rootLibpath libSearchPath st := by
  obtain ⟨last, rounds, hlast, hrounds⟩ := h
  refine ⟨last, rounds + 1, hlast, fun scan hscan fuel hfuel => ?_⟩
  obtain ⟨fuel, rfl⟩ := Nat.exists_eq_succ_of_ne_zero (Nat.ne_zero_of_lt hfuel)
  rw [buildLoop, hqueue]
  dsimp only
  rw [hround scan hscan]
  exact hrounds scan hscan fuel (Nat.le_of_succ_le_succ hfuel)

/-- By the rule for loops that queue everything: a name in the graph is dropped, and any other one
    gets its node. -/
theorem completes_of_pending {names : Set String} {queue : List String}
    (hpending : Pending (needs fs rootLibpath libSearchPath) [pathBasename rootLibpath] names queue)
    (hqueue : st.queue = queue) (hroot : pathBasename rootLibpath ∈ names)
    (hst : Describes (nameNode fs rootLibpath libSearchPath) names st.deps) :
    Completes fs rootLibpath libSearchPath st := by
  have hfinite := finite_reached_of_finite_range (finite_needs fs rootLibpath libSearchPath)
    [pathBasename rootLibpath]
  refine Pending.rule (motive := fun names queue => ∀ st : GraphState, st.queue = queue →
    pathBasename rootLibpath ∈ names →
    Describes (nameNode fs rootLibpath libSearchPath) names st.deps →
    Completes fs rootLibpath libSearchPath st) hfinite ?_ ?_ ?_ hpending st hqueue hroot hst
  · intro names hdone st hqueue _ hst
    refine ⟨st, 1, ⟨fun libname => ?_, hst.nodes⟩, fun scan _ fuel hfuel => ?_⟩
    · rw [hst.keys]
      exact hdone.mem_iff
    · obtain ⟨fuel, rfl⟩ := Nat.exists_eq_succ_of_ne_zero (Nat.ne_zero_of_lt hfuel)
      rw [buildLoop, hqueue]
  · intro names libname queue hmem ih st hqueue hroot hst
    refine (ih { st with queue } rfl hroot hst).round hqueue fun scan _ => ?_
    exact if_pos ((hst.keys libname).mpr hmem)
  · intro names libname queue hmem ih st hqueue hroot hst
    have hname : libname ≠ pathBasename rootLibpath := by
      rintro rfl
      exact hmem hroot
    have hnew : libname ∉ st.deps := fun h => hmem ((hst.keys libname).mp h)
    obtain ⟨st', hdeps, hqueue', hround⟩ :=
      buildRound_spec libSearchPath { st with queue } hname hnew
    refine (ih st' hqueue' (Set.mem_insert_of_mem libname hroot) ?_).round hqueue hround
    rw [hdeps]
    exact hst.insert libname

/-! ## The panic -/

variable {message : String}

theorem updateDependencies_ne_error {libpath : String} (hnew : libname ∉ st.deps) :
    updateDependencies fs scan libname libpath st ≠ some (.error message) := by
  unfold updateDependencies
  rw [if_neg fun h => hnew h.2]
  cases ElfFile.open fs libpath with
  | error error => simp
  | ok libfile =>
    cases hsoname : libfile.getLibName scan with
    | none => simp [hsoname]
    | some soname =>
      cases hneeded : libfile.getNeededLibs scan with
      | none => simp [hsoname, hneeded]
      | some needed => simp [hsoname, hneeded]

theorem buildRound_ne_error :
    buildRound fs libSearchPath scan libname st ≠ some (.error message) := by
  unfold buildRound
  by_cases hmem : libname ∈ st.deps
  · simp [hmem]
  · rw [if_neg hmem]
    cases findLibraryPath fs libname libSearchPath with
    | some libpath => exact updateDependencies_ne_error hmem
    | none =>
      dsimp only
      split_ifs <;> simp

theorem buildLoop_ne_error {fuel : Nat} :
    buildLoop fs libSearchPath scan fuel st ≠ some (.error message) := by
  induction fuel generalizing st with
  | zero => simp [buildLoop]
  | succ fuel ih =>
    rw [buildLoop]
    cases st.queue with
    | nil => simp
    | cons libname queue =>
      dsimp only
      cases hround : buildRound fs libSearchPath scan libname { st with queue } with
      | none => simp
      | some result =>
        cases result with
        | error message' => exact absurd hround buildRound_ne_error
        | ok st' => exact ih

end Loop

/-! ## The graph -/

section Graph

variable (fs : FileSystem) (rootLibpath : String) (libSearchPath : List String)

theorem buildDependencyGraph_completes :
    ∃ (st : GraphState) (rounds : Nat),
      Describes (nameNode fs rootLibpath libSearchPath)
        {libname | Reached (needs fs rootLibpath libSearchPath) [pathBasename rootLibpath] libname}
        st.deps ∧
      ∀ scan ≥ scanRounds, ∀ fuel ≥ rounds,
        buildDependencyGraph fs scan fuel rootLibpath libSearchPath = some (.ok st) := by
  obtain ⟨first, hdeps, hqueue, hfirst⟩ := updateDependencies_spec fs rootLibpath ⟨∅, [], []⟩
    (show pathBasename rootLibpath ∉ (∅ : DependencyGraph) from Std.TreeMap.not_mem_emptyc)
  have hnode : nameNode fs rootLibpath libSearchPath (pathBasename rootLibpath) =
      fileNode fs rootLibpath := if_pos rfl
  have hdescribes : Describes (nameNode fs rootLibpath libSearchPath) {pathBasename rootLibpath}
      first.deps := by
    rw [hdeps, ← hnode, ← insert_empty_eq]
    exact (describes_empty _).insert _
  have hpending : Pending (needs fs rootLibpath libSearchPath) [pathBasename rootLibpath]
      {pathBasename rootLibpath} first.queue := by
    rw [hqueue, ← hnode, ← insert_empty_eq]
    exact Pending.start.take
  obtain ⟨st, rounds, hst, hrounds⟩ :=
    completes_of_pending hpending rfl (Set.mem_singleton _) hdescribes
  refine ⟨st, rounds, hst, fun scan hscan fuel hfuel => ?_⟩
  rw [buildDependencyGraph, hfirst scan hscan]
  exact hrounds scan hscan fuel hfuel

theorem buildDependencyGraph_ne_error (scan fuel : Nat) (message : String) :
    buildDependencyGraph fs scan fuel rootLibpath libSearchPath ≠ some (.error message) := by
  unfold buildDependencyGraph
  cases hfirst : updateDependencies fs scan (pathBasename rootLibpath) rootLibpath ⟨∅, [], []⟩ with
  | none => simp
  | some result =>
    cases result with
    | error message' =>
      exact absurd hfirst (updateDependencies_ne_error Std.TreeMap.not_mem_emptyc)
    | ok st => exact buildLoop_ne_error

/-- Building the graph ends. Its names are those reached from the base name of the root, each with
    the node of its library, so that it is closed; and no run panics. -/
theorem buildDependencyGraph_reached :
    (∃ (st : GraphState) (rounds : Nat),
      (∀ scan ≥ rounds, ∀ fuel ≥ rounds,
        buildDependencyGraph fs scan fuel rootLibpath libSearchPath = some (.ok st)) ∧
      (∀ libname, libname ∈ st.deps ↔
        Reached (needs fs rootLibpath libSearchPath) [pathBasename rootLibpath] libname) ∧
      (∀ (libname : String) (node : LibNode), st.deps[libname]? = some node →
        node = nameNode fs rootLibpath libSearchPath libname) ∧
      (∀ (libname : String) (node : LibNode), st.deps[libname]? = some node → node.type = .path →
        ∀ lib ∈ node.neededLibs, lib ∈ st.deps)) ∧
    ∀ scan fuel message,
      buildDependencyGraph fs scan fuel rootLibpath libSearchPath ≠ some (.error message) := by
  refine ⟨?_, buildDependencyGraph_ne_error fs rootLibpath libSearchPath⟩
  obtain ⟨st, rounds, hst, hrounds⟩ :=
    buildDependencyGraph_completes fs rootLibpath libSearchPath
  refine ⟨st, max scanRounds rounds, fun scan hscan fuel hfuel => ?_, hst.keys, hst.nodes, ?_⟩
  · exact hrounds scan ((le_max_left _ _).trans hscan) fuel ((le_max_right _ _).trans hfuel)
  · intro libname node hnode _ lib hlib
    have hname : libname ∈ st.deps := Std.TreeMap.mem_iff_isSome_getElem?.mpr (by rw [hnode]; rfl)
    rw [hst.nodes libname node hnode] at hlib
    exact (hst.keys lib).mpr (((hst.keys libname).mp hname).tail hlib)

end Graph

/-- One file, `b`, that needs a library `a`. -/
def sampleFiles : FileSystem where
  isRegular path := path = "b"
  fopen path := if path = "b" then some (sample 8).file else none
  strerror _ := ""
  finite := by
    refine (Set.finite_singleton (sample 8).file).subset ?_
    rintro bytes ⟨path, hpath⟩
    split at hpath
    · exact (Option.some.inj hpath).symm
    · cases hpath

theorem buildDependencyGraph_reached_sample : ∃ (st : GraphState) (rounds : Nat),
    (∀ scan ≥ rounds, ∀ fuel ≥ rounds,
      buildDependencyGraph sampleFiles scan fuel "b" [] = some (.ok st)) ∧ "a" ∈ st.deps := by
  obtain ⟨⟨st, rounds, hrun, hnames, -⟩, -⟩ := buildDependencyGraph_reached sampleFiles "b" []
  have hneeds : "a" ∈ needs sampleFiles "b" [] "b" := by decide +kernel
  exact ⟨st, rounds, hrun, (hnames "a").mpr ⟨"b", by decide +kernel, .single hneeds⟩⟩

end CrystaxNdk.NdkDepends
