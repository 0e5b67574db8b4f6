import CrystaxNdk.Build.Proof.LinkLibs

/-!
# What a module imports

The value of `LOCAL_EXPORT_<varname>` gets from an `Android.mk` to the modules that depend on it in
three stages: `module-add` records it, if `modules-LOCALS` names it, `modules-compute-dependencies`
collects the dependencies, and `import-locals.mk` concatenates what the closure of these exports.
Each function of the database only assigns to a few fields, so for a field one has to look at few of
them.
-/

namespace CrystaxNdk.Build

open Lib Relation List

namespace Modules

variable {db db' : Modules} {eval : Eval} {name n : Word} {f g : String}

/-! ## Fields -/

theorem field_setField (value : List Word) : (db.setField name g value).field n f =
    if n = name ∧ f = g then value else db.field n f := by
  unfold field setField
  by_cases h : n = name ∧ f = g
  · simp [h]
  · have hne : ((n, f) == (name, g)) = false := by simpa using h
    simp [lookup_cons, hne, h]

theorem field_foldl_setField (value : Modules → String → List Word) (fields : List String)
    (hf : f ∉ fields ∨ n ≠ name) :
    (fields.foldl (fun db g => db.setField name g (value db g)) db).field n f =
      db.field n f := by
  induction fields generalizing db with
  | nil => rfl
  | cons g fields ih =>
    rw [foldl_cons, ih, field_setField, if_neg]
    · rintro ⟨rfl, rfl⟩
      simp at hf
    · simp only [mem_cons, not_or] at hf
      tauto

theorem modules_foldl_setField (value : Modules → String → List Word) (fields : List String) :
    (fields.foldl (fun db g => db.setField name g (value db g)) db).modules = db.modules := by
  induction fields generalizing db with
  | nil => rfl
  | cons g fields ih =>
    rw [foldl_cons, ih]
    rfl

theorem field_recordLocals (locals : Locals) : (db.recordLocals eval name locals).field n f =
    if n = name ∧ f ∈ modulesLocals then eval.assigned (locals f) else db.field n f := by
  unfold recordLocals
  generalize modulesLocals = fields
  induction fields generalizing db with
  | nil => simp
  | cons g fields ih =>
    rw [foldl_cons, ih, field_setField]
    by_cases hn : n = name
    · by_cases hg : f = g
      · simp [hn, hg]
      · simp [hn, hg]
    · simp [hn]

def cppFields : List String :=
  ["CPP_FEATURES", "CFLAGS", "CONLYFLAGS", "CPPFLAGS", "CXXFLAGS", "ASMFLAGS"]

theorem field_moduleHandleCppFeatures (hf : f ∉ cppFields) :
    (db.moduleHandleCppFeatures name).field n f = db.field n f := by
  have hset : ∀ value, (db.setField name "CPP_FEATURES" value).field n f = db.field n f := by
    intro value
    rw [field_setField, if_neg]
    rintro ⟨-, rfl⟩
    exact hf (by decide)
  have hflags : f ∉ ["CFLAGS", "CONLYFLAGS", "CPPFLAGS", "CXXFLAGS", "ASMFLAGS"] :=
    fun h => hf (mem_cons_of_mem _ h)
  unfold moduleHandleCppFeatures moduleFilterOutCompilerFlags
  rw [field_foldl_setField _ _ (Or.inl hflags)]
  split_ifs <;> first | rfl | exact hset _

theorem modules_moduleHandleCppFeatures :
    (db.moduleHandleCppFeatures name).modules = db.modules := by
  unfold moduleHandleCppFeatures moduleFilterOutCompilerFlags
  rw [modules_foldl_setField]
  split_ifs <;> rfl

/-! ## Recording -/

theorem setIsMember_of_mem {set : List Word} (h : name ∈ set) : setIsMember set name = true := by
  unfold setIsMember Word.filter
  simp only [ne_eq, decide_eq_true_eq, filter_eq_nil_iff, not_forall]
  refine ⟨name, by simp, ?_⟩
  simp only [any_eq_true, not_not]
  exact ⟨name, h, Word.patternMatches_self name⟩

theorem mem_setInsert {set : List Word} : n ∈ setInsert set name ↔ n ∈ set ∨ n = name := by
  simp [setInsert]

theorem moduleAdd_eq_some {locals : Locals} (h : db.moduleAdd eval name locals = some db') :
    setIsMember db.modules name = false ∧ db' =
      (({ db with modules := setInsert db.modules name } : Modules).recordLocals eval
        name (stripLibraries eval locals)).moduleHandleCppFeatures name := by
  unfold moduleAdd at h
  split_ifs at h with hdefined hmember
  exact ⟨by simpa using hmember, by simpa using h.symm⟩

theorem mem_modules_moduleAdd {locals : Locals} (h : db.moduleAdd eval name locals = some db') :
    n ∈ db'.modules ↔ n ∈ db.modules ∨ n = name := by
  obtain ⟨-, rfl⟩ := moduleAdd_eq_some h
  rw [modules_moduleHandleCppFeatures, recordLocals, modules_foldl_setField, mem_setInsert]

theorem field_moduleAdd {locals : Locals} (h : db.moduleAdd eval name locals = some db')
    (hf : f ∉ cppFields) : db'.field n f =
      if n = name ∧ f ∈ modulesLocals then eval.assigned (stripLibraries eval locals f)
      else db.field n f := by
  obtain ⟨-, rfl⟩ := moduleAdd_eq_some h
  rw [field_moduleHandleCppFeatures hf, field_recordLocals]
  rfl

theorem not_mem_of_foldlM {files : List (Word × Locals)}
    (h : files.foldlM (fun (db : Modules) file => db.moduleAdd eval file.1 file.2) db = some db')
    (hn : n ∈ db.modules) : files.lookup n = none := by
  induction files generalizing db with
  | nil => rfl
  | cons file files ih =>
    rw [foldlM_cons] at h
    obtain ⟨mid, hadd, hrest⟩ := Option.bind_eq_some_iff.mp h
    have hne : (n == file.1) = false := by
      rw [beq_eq_false_iff_ne]
      rintro rfl
      exact absurd (moduleAdd_eq_some hadd).1 (by simp [setIsMember_of_mem hn])
    rw [lookup_cons, hne]
    exact ih hrest ((mem_modules_moduleAdd hadd).mpr (Or.inl hn))

theorem field_foldlM {files : List (Word × Locals)}
    (h : files.foldlM (fun (db : Modules) file => db.moduleAdd eval file.1 file.2) db = some db')
    (hf : f ∉ cppFields) : db'.field n f =
      if f ∈ modulesLocals then
        (files.lookup n).elim (db.field n f) fun locals =>
          eval.assigned (stripLibraries eval locals f)
      else db.field n f := by
  induction files generalizing db with
  | nil => cases h; simp
  | cons file files ih =>
    rw [foldlM_cons] at h
    obtain ⟨mid, hadd, hrest⟩ := Option.bind_eq_some_iff.mp h
    have hmid := field_moduleAdd (n := n) hadd hf
    rw [ih hrest, lookup_cons]
    by_cases hn : n = file.1
    · subst hn
      have hagain : files.lookup file.1 = none :=
        not_mem_of_foldlM hrest ((mem_modules_moduleAdd hadd).mpr (Or.inr rfl))
      by_cases hrec : f ∈ modulesLocals
      · simp [hrec, hagain, hmid]
      · simp [hrec, hmid]
    · have hne : (n == file.1) = false := by simpa using hn
      simp [hmid, hn, hne]

/-! ## Runtimes and dependencies -/

def depsFields : List String := ["STATIC_LIBRARIES", "SHARED_LIBRARIES", "LDLIBS"]

theorem field_moduleAddDeps (static shared ldlibs : List Word) (hf : f ∉ depsFields) :
    (db.moduleAddDeps name static shared ldlibs).field n f = db.field n f := by
  simp only [depsFields, mem_cons, not_mem_nil, or_false, not_or] at hf
  simp [moduleAddDeps, field_setField, hf]

theorem field_addRuntime (runtime : Runtime) (hf : f ∉ depsFields) :
    (db.addRuntime runtime).field n f = db.field n f := by
  unfold addRuntime
  generalize db.modules = names
  induction names generalizing db with
  | nil => rfl
  | cons name names ih =>
    rw [foldl_cons, ih]
    split_ifs
    · exact field_moduleAddDeps _ _ _ hf
    · rfl

theorem field_foldl_addRuntime (runtimes : List Runtime) (hf : f ∉ depsFields) :
    (runtimes.foldl addRuntime db).field n f = db.field n f := by
  induction runtimes generalizing db with
  | nil => rfl
  | cons runtime runtimes ih => rw [foldl_cons, ih, field_addRuntime runtime hf]

theorem field_moduleComputeDepends (hf : f ≠ "depends") :
    (db.moduleComputeDepends name).field n f = db.field n f := by
  simp [moduleComputeDepends, moduleAddDependsAny, field_setField, hf]

theorem field_modulesComputeDependencies (hf : f ≠ "depends") :
    db.modulesComputeDependencies.field n f = db.field n f := by
  unfold modulesComputeDependencies
  generalize db.modules = names
  induction names generalizing db with
  | nil => rfl
  | cons name names ih => rw [foldl_cons, ih, field_moduleComputeDepends hf]

theorem moduleGetDirectLibs_moduleComputeDepends :
    (db.moduleComputeDepends name).moduleGetDirectLibs n = db.moduleGetDirectLibs n := by
  simp [moduleGetDirectLibs, field_moduleComputeDepends]

def addDepends (depends libs : List Word) : List Word := depends ++ Word.filterOut depends libs

theorem addDepends_subset {depends libs all : List Word} (hdepends : depends ⊆ all)
    (hlibs : libs ⊆ all) : addDepends depends libs ⊆ all :=
  append_subset.mpr ⟨hdepends, fun _ hx => hlibs (Word.filterOut_subset hx)⟩

theorem mem_addDepends_iff {depends libs : List Word} (h : ∀ p ∈ depends, '%' ∉ p.chars) :
    n ∈ addDepends depends libs ↔ n ∈ depends ∨ n ∈ libs := by
  rw [addDepends, Word.filterOut_eq h]
  by_cases hn : n ∈ depends <;> simp [hn]

theorem moduleGetDepends_moduleComputeDepends :
    (db.moduleComputeDepends name).moduleGetDepends n =
      if n = name then
        addDepends (addDepends (addDepends (db.moduleGetDepends n) (db.field n "STATIC_LIBRARIES"))
          (db.field n "WHOLE_STATIC_LIBRARIES")) (db.field n "SHARED_LIBRARIES")
      else db.moduleGetDepends n := by
  by_cases hn : n = name
  · simp [moduleComputeDepends, moduleAddDependsAny, moduleGetDepends, addDepends, field_setField,
      hn]
  · simp [moduleComputeDepends, moduleAddDependsAny, moduleGetDepends, field_setField, hn]

/-- What is recorded as a dependency is a library of the module. -/
theorem moduleGetDepends_step_subset (h : ∀ n, db.moduleGetDepends n ⊆ db.moduleGetDirectLibs n)
    (name n : Word) : (db.moduleComputeDepends name).moduleGetDepends n ⊆
      (db.moduleComputeDepends name).moduleGetDirectLibs n := by
  rw [moduleGetDirectLibs_moduleComputeDepends, moduleGetDepends_moduleComputeDepends]
  split_ifs
  · refine addDepends_subset (addDepends_subset (addDepends_subset (h n) ?_) ?_) ?_ <;>
      intro x hx <;> simp [moduleGetDirectLibs, hx]
  · exact h n

theorem moduleGetDepends_foldl_subset (names : List Word)
    (h : ∀ n, db.moduleGetDepends n ⊆ db.moduleGetDirectLibs n) (n : Word) :
    (names.foldl moduleComputeDepends db).moduleGetDepends n ⊆
      (names.foldl moduleComputeDepends db).moduleGetDirectLibs n := by
  induction names generalizing db with
  | nil => exact h n
  | cons name names ih => exact ih (moduleGetDepends_step_subset h name)

/-! ## The database that is set up -/

section Setup

variable {files : List (Word × Locals)} {runtimes : List Runtime}

/-- Fields that only `module-add` assigns to have the values of the files. -/
theorem field_setup (h : setup eval files runtimes = some db)
    (hf : f ∉ "depends" :: cppFields ++ depsFields) :
    db.field n f = if f ∈ modulesLocals then
      (files.lookup n).elim [] fun locals => eval.assigned (stripLibraries eval locals f)
      else [] := by
  obtain ⟨mid, hfiles, rfl⟩ := Option.map_eq_some_iff.mp h
  simp only [cons_append, mem_cons, mem_append, not_or] at hf
  rw [field_modulesComputeDependencies hf.1, field_foldl_addRuntime runtimes hf.2.2,
    field_foldlM hfiles hf.2.1]
  rfl

theorem moduleGetDepends_subset_start (runtimes : List Runtime)
    (hfiles : files.foldlM (fun (db : Modules) file => db.moduleAdd eval file.1 file.2) clear =
      some db) (n : Word) : (runtimes.foldl addRuntime db).moduleGetDepends n ⊆
        (runtimes.foldl addRuntime db).moduleGetDirectLibs n := by
  have hnone : (runtimes.foldl addRuntime db).moduleGetDepends n = [] := by
    rw [moduleGetDepends, field_foldl_addRuntime runtimes (by decide),
      field_foldlM hfiles (by decide), if_neg (by decide)]
    rfl
  rw [hnone]
  exact nil_subset _

theorem moduleGetDepends_subset (h : setup eval files runtimes = some db) (n : Word) :
    db.moduleGetDepends n ⊆ db.moduleGetDirectLibs n := by
  obtain ⟨mid, hfiles, rfl⟩ := Option.map_eq_some_iff.mp h
  exact moduleGetDepends_foldl_subset _ (moduleGetDepends_subset_start runtimes hfiles) n

/-- `LOCAL_EXPORT_<varname>` as set in the file of the module. -/
def exported (files : List (Word × Locals)) (varname : String) (n : Word) : List Word :=
  (files.lookup n).elim [] fun locals => locals ("EXPORT_" ++ varname)

theorem moduleGetExport_setup (h : setup eval files runtimes = some db) {x : String}
    (hx : x ∈ importedVars) : db.moduleGetExport n x =
      if "EXPORT_" ++ x ∈ modulesLocals then eval.assigned (exported files x n) else [] := by
  have hfields : ∀ x ∈ importedVars, "EXPORT_" ++ x ∉ "depends" :: cppFields ++ depsFields ∧
      "EXPORT_" ++ x ∉ ["STATIC_LIBRARIES", "WHOLE_STATIC_LIBRARIES", "SHARED_LIBRARIES"] := by
    decide +kernel
  rw [moduleGetExport, field_setup h (hfields x hx).1]
  simp only [stripLibraries, if_neg (hfields x hx).2, exported]
  cases files.lookup n <;> simp

end Setup

/-! ## Names without patterns -/

/-- Only modules have fields. -/
def Owned (db : Modules) : Prop := ∀ n f, db.field n f ≠ [] → n ∈ db.modules

theorem Owned.setField (h : db.Owned) (hname : name ∈ db.modules) (g : String)
    (value : List Word) : (db.setField name g value).Owned := by
  intro n f hn
  rw [field_setField] at hn
  split_ifs at hn with heq
  · exact heq.1 ▸ hname
  · exact h n f hn

theorem Owned.foldl_setField (value : Modules → String → List Word) (fields : List String)
    (h : db.Owned) (hname : name ∈ db.modules) :
    (fields.foldl (fun db g => db.setField name g (value db g)) db).Owned := by
  induction fields generalizing db with
  | nil => exact h
  | cons g fields ih => exact ih (h.setField hname g _) hname

theorem Owned.moduleAdd {locals : Locals} (h : db.Owned)
    (hadd : db.moduleAdd eval name locals = some db') : db'.Owned := by
  have hname := (mem_modules_moduleAdd (n := name) hadd).mpr (Or.inr rfl)
  obtain ⟨-, rfl⟩ := moduleAdd_eq_some hadd
  have hgrown : ({ db with modules := setInsert db.modules name } : Modules).Owned :=
    fun n f hn => mem_setInsert.mpr (Or.inl (h n f hn))
  rw [modules_moduleHandleCppFeatures] at hname
  have hrecorded := hgrown.foldl_setField (fun _ f => eval.assigned (stripLibraries eval locals f))
    modulesLocals
    (mem_setInsert.mpr (Or.inr rfl))
  refine Owned.foldl_setField _ _ ?_ ?_
  · split_ifs <;> first | exact hrecorded | exact hrecorded.setField hname _ _
  · split_ifs <;> exact hname

theorem Owned.foldlM {files : List (Word × Locals)} (h : db.Owned)
    (hfiles : files.foldlM (fun (db : Modules) file => db.moduleAdd eval file.1 file.2) db =
      some db') : db'.Owned := by
  induction files generalizing db with
  | nil => cases hfiles; exact h
  | cons file files ih =>
    rw [foldlM_cons] at hfiles
    obtain ⟨mid, hadd, hrest⟩ := Option.bind_eq_some_iff.mp hfiles
    exact ih (h.moduleAdd hadd) hrest

theorem Owned.foldl_modules {step : Modules → Word → Modules}
    (hstep : ∀ db name, db.Owned → name ∈ db.modules →
      (step db name).Owned ∧ (step db name).modules = db.modules)
    (names : List Word) (h : db.Owned) (hnames : names ⊆ db.modules) :
    (names.foldl step db).Owned := by
  induction names generalizing db with
  | nil => exact h
  | cons name names ih =>
    obtain ⟨howned, hmodules⟩ := hstep db name h (hnames mem_cons_self)
    refine ih howned ?_
    rw [hmodules]
    exact fun n hn => hnames (mem_cons_of_mem name hn)

theorem Owned.foldl_addRuntime (runtimes : List Runtime) (h : db.Owned) :
    (runtimes.foldl addRuntime db).Owned := by
  induction runtimes generalizing db with
  | nil => exact h
  | cons runtime runtimes ih =>
    refine ih (h.foldl_modules ?_ db.modules (List.Subset.refl _))
    intro db name howned hname
    split_ifs
    · exact ⟨((howned.setField hname _ _).setField hname _ _).setField hname _ _, rfl⟩
    · exact ⟨howned, rfl⟩

theorem directLibs_subset_step (h : ∀ n, db.moduleGetDepends n ⊆ db.moduleGetDirectLibs n)
    (hplain : ∀ p ∈ db.moduleGetDirectLibs name, '%' ∉ p.chars) :
    db.moduleGetDirectLibs name ⊆ (db.moduleComputeDepends name).moduleGetDepends name := by
  have hstatic : addDepends (db.moduleGetDepends name) (db.field name "STATIC_LIBRARIES") ⊆
      db.moduleGetDirectLibs name :=
    addDepends_subset (h name) fun x hx => by simp [moduleGetDirectLibs, hx]
  have hwhole : addDepends (addDepends (db.moduleGetDepends name)
      (db.field name "STATIC_LIBRARIES")) (db.field name "WHOLE_STATIC_LIBRARIES") ⊆
      db.moduleGetDirectLibs name :=
    addDepends_subset hstatic fun x hx => by simp [moduleGetDirectLibs, hx]
  intro x hx
  rw [moduleGetDepends_moduleComputeDepends, if_pos rfl,
    mem_addDepends_iff fun p hp => hplain p (hwhole hp),
    mem_addDepends_iff fun p hp => hplain p (hstatic hp),
    mem_addDepends_iff fun p hp => hplain p (h name hp)]
  simp only [moduleGetDirectLibs, mem_append] at hx
  tauto

theorem directLibs_subset_foldl (names : List Word)
    (h : ∀ n, db.moduleGetDepends n ⊆ db.moduleGetDirectLibs n)
    (hplain : ∀ k, ∀ p ∈ db.moduleGetDirectLibs k, '%' ∉ p.chars)
    (hn : n ∈ names ∨ db.moduleGetDirectLibs n ⊆ db.moduleGetDepends n) :
    db.moduleGetDirectLibs n ⊆ (names.foldl moduleComputeDepends db).moduleGetDepends n := by
  induction names generalizing db with
  | nil => exact hn.resolve_left not_mem_nil
  | cons name names ih =>
    have hlibs : ∀ k, (db.moduleComputeDepends name).moduleGetDirectLibs k =
        db.moduleGetDirectLibs k := fun k => moduleGetDirectLibs_moduleComputeDepends
    rw [foldl_cons, ← hlibs]
    refine ih (moduleGetDepends_step_subset h name) (fun k => by rw [hlibs]; exact hplain k) ?_
    rw [hlibs]
    by_cases hname : n = name
    · subst hname
      exact Or.inr (directLibs_subset_step h (hplain n))
    · rw [moduleGetDepends_moduleComputeDepends, if_neg hname]
      exact hn.imp (fun hmem => (mem_cons.mp hmem).resolve_left hname) id

theorem directLibs_subset_depends {files : List (Word × Locals)} {runtimes : List Runtime}
    (hsetup : setup eval files runtimes = some db)
    (hplain : ∀ k, ∀ p ∈ db.moduleGetDirectLibs k, '%' ∉ p.chars) (n : Word) :
    db.moduleGetDirectLibs n ⊆ db.moduleGetDepends n := by
  obtain ⟨mid, hfiles, rfl⟩ := Option.map_eq_some_iff.mp hsetup
  have howned : (runtimes.foldl addRuntime mid).Owned := by
    refine Owned.foldl_addRuntime runtimes (Owned.foldlM ?_ hfiles)
    exact fun n f hn => absurd rfl hn
  have hlibs : ∀ k, (runtimes.foldl addRuntime mid).modulesComputeDependencies.moduleGetDirectLibs k
      = (runtimes.foldl addRuntime mid).moduleGetDirectLibs k := by
    intro k
    simp [moduleGetDirectLibs, field_modulesComputeDependencies]
  simp only [hlibs] at hplain ⊢
  refine directLibs_subset_foldl _ (moduleGetDepends_subset_start runtimes hfiles) hplain ?_
  by_cases hn : n ∈ (runtimes.foldl addRuntime mid).modules
  · exact Or.inl hn
  · have hnone : ∀ f, (runtimes.foldl addRuntime mid).field n f = [] :=
      fun f => by_contra fun hf => hn (howned n f hf)
    exact Or.inr (by simp [moduleGetDirectLibs, hnone])

/-! ## Imports -/

section Imports

variable {files : List (Word × Locals)} {runtimes : List Runtime} {m : Word} {x : String}

/-- What a module imports: the exports of the modules it depends on, each of them once. -/
def Imports (db : Modules) (files : List (Word × Locals)) (m : Word) (varname : String)
    (value : List Word) : Prop :=
  ∃ order : List Word, order.Nodup ∧
    (∀ d, d ∈ order ↔ d ≠ m ∧ ReflTransGen (DependsOn db.moduleGetDirectLibs) m d) ∧
    value = order.flatMap (exported files varname)

/-- Every dependency that exports something is found: the variable is recorded, the name of the
    dependency got into the lists `depends`, and it does not match the one of `m`. -/
def ExportsFound (db : Modules) (files : List (Word × Locals)) (m : Word) (varname : String) :
    Prop :=
  ∀ d, d ≠ m → ReflTransGen (DependsOn db.moduleGetDirectLibs) m d →
    exported files varname d ≠ [] →
    "EXPORT_" ++ varname ∈ modulesLocals ∧
      ReflTransGen (DependsOn db.moduleGetDepends) m d ∧ m.patternMatches d = false

/-- `eval` leaves what the dependencies export as it is; it does for words without `$` and `#`. -/
def KeepsExports (db : Modules) (eval : Eval) (files : List (Word × Locals)) (m : Word)
    (varname : String) : Prop :=
  ∀ d, d ≠ m → ReflTransGen (DependsOn db.moduleGetDirectLibs) m d →
    eval.assigned (exported files varname d) = exported files varname d

/-- `import-locals.mk` always comes to an end, and collects from the modules that are found. -/
theorem importLocals_returns (db : Modules) (m : Word) (st : Vars) :
    ∃ rounds st' found, (∀ fuel, rounds ≤ fuel →
      db.importLocals fuel st m = some (st', fun x => db.moduleGetListedExport found x)) ∧
      found.Nodup ∧ ∀ d, d ∈ found ↔
        ReflTransGen (DependsOn db.moduleGetDepends) m d ∧ m.patternMatches d = false := by
  have hfinite : {n | db.moduleGetDepends n ≠ []}.Finite :=
    Set.Finite.subset (finite_toSet _) fun _ hn => mem_of_field_ne_nil hn
  obtain ⟨rounds, st', nodes, hrun, hnodup, hmem, -⟩ :=
    Vars.getClosure_spec hfinite (nodup_singleton m) (cons_ne_nil m []) st
  refine ⟨rounds, st', Word.filterOut [m] nodes, ?_, hnodup.filter _, fun d => ?_⟩
  · intro fuel hfuel
    simp [importLocals, moduleGetAllDependencies, Vars.getClosure_mono hrun fuel hfuel]
  · simp [Word.filterOut, hmem]

theorem length_flatMap_le {α β : Type*} (e : α → List β) {l l' : List α} (hnodup : l.Nodup)
    (hsub : l ⊆ l') : (l.flatMap e).length ≤ (l'.flatMap e).length := by
  obtain ⟨k, hperm, hk⟩ := subperm_of_subset hnodup hsub
  rw [← (hperm.flatMap_right e).length_eq]
  exact (hk.flatMap e).length_le

section Found

variable {found : List Word} (hsetup : setup eval files runtimes = some db) (hx : x ∈ importedVars)
  (hkeep : db.KeepsExports eval files m x) (hnodup : found.Nodup)
  (hmem : ∀ d, d ∈ found ↔
    ReflTransGen (DependsOn db.moduleGetDepends) m d ∧ m.patternMatches d = false)

include hsetup hmem

/-- What is found is a dependency, and not the module itself. -/
theorem mem_found {d : Word} (hd : d ∈ found) :
    d ≠ m ∧ ReflTransGen (DependsOn db.moduleGetDirectLibs) m d := by
  obtain ⟨hreach, hmatch⟩ := (hmem d).mp hd
  constructor
  · rintro rfl
    rw [Word.patternMatches_self] at hmatch
    cases hmatch
  · exact ReflTransGen.mono (fun n _ hstep => moduleGetDepends_subset hsetup n hstep) _ _ hreach

include hx hkeep

theorem moduleGetListedExport_eq : db.moduleGetListedExport found x =
    if "EXPORT_" ++ x ∈ modulesLocals then found.flatMap (exported files x) else [] := by
  unfold moduleGetListedExport
  simp only [moduleGetExport_setup hsetup hx]
  split_ifs
  · refine flatMap_congr fun d hd => ?_
    obtain ⟨hne, hreach⟩ := mem_found hsetup hmem hd
    exact hkeep d hne hreach
  · simp

include hnodup

theorem Imports.exportsFound (h : db.Imports files m x (db.moduleGetListedExport found x)) :
    db.ExportsFound files m x := by
  intro d hne hreach hexport
  obtain ⟨order, -, horder, hvalue⟩ := h
  have hd : d ∈ order := (horder d).mpr ⟨hne, hreach⟩
  rw [moduleGetListedExport_eq hsetup hx hkeep hmem] at hvalue
  split_ifs at hvalue with hrec
  · refine ⟨hrec, (hmem d).mp ?_⟩
    -- if `d` were not found, the words of `d` would be too many
    by_contra hnot
    have hsub : d :: found ⊆ order := by
      refine cons_subset.mpr ⟨hd, fun k hk => (horder k).mpr ?_⟩
      exact mem_found hsetup hmem hk
    have hle := length_flatMap_le (exported files x) (nodup_cons.mpr ⟨hnot, hnodup⟩) hsub
    rw [← hvalue, flatMap_cons, length_append] at hle
    have hpos := length_pos_iff.mpr hexport
    omega
  · have hall := flatMap_eq_nil_iff.mp hvalue.symm
    exact absurd (hall d hd) hexport

theorem ExportsFound.imports (h : db.ExportsFound files m x) :
    db.Imports files m x (db.moduleGetListedExport found x) := by
  classical
  -- the dependencies that were not found come last, and export nothing
  obtain ⟨all, hall⟩ : ∃ all : Finset Word, ∀ d, d ∈ all ↔
      ReflTransGen (DependsOn db.moduleGetDirectLibs) m d := by
    refine ⟨(finite_reached db.finite_moduleGetDirectLibs [m]).toFinset, fun d => ?_⟩
    simp
  refine ⟨found ++ (all.toList.filter fun d => d ≠ m ∧ d ∉ found), ?_, fun d => ?_, ?_⟩
  · rw [nodup_append]
    refine ⟨hnodup, all.nodup_toList.filter _, ?_⟩
    rintro a ha b hb rfl
    simp_all
  · have hd := mem_found (d := d) hsetup hmem
    simp only [mem_append, mem_filter, Finset.mem_toList, hall, decide_eq_true_eq]
    tauto
  · have hnone : ∀ d ∈ all.toList.filter fun d => d ≠ m ∧ d ∉ found,
        exported files x d = [] := by
      intro d hd
      simp only [mem_filter, Finset.mem_toList, hall, decide_eq_true_eq] at hd
      by_contra hexport
      exact hd.2.2 ((hmem d).mpr (h d hd.2.1 hd.1 hexport).2)
    rw [flatMap_append, flatMap_eq_nil_iff.mpr hnone, append_nil,
      moduleGetListedExport_eq hsetup hx hkeep hmem]
    split_ifs with hrec
    · rfl
    · refine (flatMap_eq_nil_iff.mpr fun d hd => ?_).symm
      by_contra hexport
      obtain ⟨hne, hreach⟩ := mem_found hsetup hmem hd
      exact hrec (h d hne hreach hexport).1

end Found

/-- With names without patterns, all that can be wrong is that the variable is not recorded. -/
theorem exportsFound_iff_recorded (hsetup : setup eval files runtimes = some db)
    (hm : '%' ∉ m.chars) (hplain : ∀ k, ∀ p ∈ db.moduleGetDirectLibs k, '%' ∉ p.chars) :
    db.ExportsFound files m x ↔ ∀ d, d ≠ m →
      ReflTransGen (DependsOn db.moduleGetDirectLibs) m d → exported files x d ≠ [] →
        "EXPORT_" ++ x ∈ modulesLocals := by
  constructor
  · intro h d hne hreach hexport
    exact (h d hne hreach hexport).1
  · intro h d hne hreach hexport
    refine ⟨h d hne hreach hexport, ?_, ?_⟩
    · exact ReflTransGen.mono
        (fun n _ hstep => directLibs_subset_depends hsetup hplain n hstep) _ _ hreach
    · rw [← Bool.not_eq_true, Word.patternMatches_iff hm]
      exact fun heq => hne heq.symm

/-- The variables that `modules-LOCALS` forgets. -/
theorem recorded_iff (hx : x ∈ importedVars) :
    "EXPORT_" ++ x ∈ modulesLocals ↔ x ≠ "OBJCFLAGS" ∧ x ≠ "RENDERSCRIPT_FLAGS" := by
  revert x
  decide +kernel

end Imports

section Files

/-- The variables every file has, and the given ones. -/
def fileLocals (vars : List (String × List Word)) : Locals := fun f =>
  ((vars ++ [("MAKEFILE", [app]), ("BUILT_MODULE", [app]), ("OBJS_DIR", [app])]).lookup f).getD []

/-- A shared library `app` with the static library `foo`, which exports something. -/
def exportFiles (varname : String) : List (Word × Locals) :=
  [(app, fileLocals [("MODULE_CLASS", [sharedLibrary]), ("STATIC_LIBRARIES", [foo])]),
    (foo, fileLocals [("MODULE_CLASS", [staticLibrary]), ("EXPORT_" ++ varname, [bar])])]

def exportModules (varname : String) : Modules :=
  (setup plainEval (exportFiles varname) []).getD clear

end Files

end Modules

end CrystaxNdk.Build
