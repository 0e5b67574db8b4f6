import CrystaxNdk.Build.Proof.Exports

/-!
# C++ features and the runtimes

Two things are found out about a module from what it has recorded. A module without
`LOCAL_CPP_FEATURES` gets them from its compiler flags: of two flags that switch a feature on and
off the last one counts. `module-flags-have-rtti` finds it, and so would
`module-flags-have-exceptions`, if it did not look for `-fno-execeptions`. Then the flags are
removed, from all lists but `OBJCFLAGS`. And from the names of its sources it is found out which
runtimes a module needs.
-/

namespace CrystaxNdk.Build

open Lib List

namespace Modules

variable {db : Modules} {name : Word} {f : String}

/-- The last one of the two flags is `on`. -/
def LastIs (on off : Word) (flags : List Word) : Prop :=
  (flags.filter (· ∈ [on, off])).getLast? = some on

instance (on off : Word) (flags : List Word) : Decidable (LastIs on off flags) :=
  inferInstanceAs (Decidable (_ = _))

/-- The flags of all the compilers, as `definitions.mk` puts them on their command lines. -/
def compilerFlags : List String :=
  ["CFLAGS", "CONLYFLAGS", "CPPFLAGS", "CXXFLAGS", "ASMFLAGS", "OBJCFLAGS"]

def featureFlags : List Word := [frtti, fnoRtti, fexceptions, fnoExceptions]

/-- What `module-handle-c++-features` should make of a module that does not name its features. -/
structure DetectsFeatures (db : Modules) (name : Word) : Prop where
  rtti_iff : rtti ∈ (db.moduleHandleCppFeatures name).field name "CPP_FEATURES" ↔
    LastIs frtti fnoRtti (db.moduleGetCppFlags name)
  exceptions_iff : exceptions ∈ (db.moduleHandleCppFeatures name).field name "CPP_FEATURES" ↔
    LastIs fexceptions fnoExceptions (db.moduleGetCppFlags name)
  removed : ∀ f ∈ compilerFlags, ∀ flag ∈ featureFlags,
    flag ∉ (db.moduleHandleCppFeatures name).field name f

/-! ## The last flag -/

theorem lastIs_iff {on off : Word} {flags : List Word} : LastIs on off flags ↔
    ∃ front back, flags = front ++ on :: back ∧ on ∉ back ∧ off ∉ back := by
  have hnone : ∀ back : List Word,
      back.filter (· ∈ [on, off]) = [] ↔ on ∉ back ∧ off ∉ back := by
    intro back
    rw [filter_eq_nil_iff]
    constructor
    · intro h
      exact ⟨fun hon => h on hon (by simp), fun hoff => h off hoff (by simp)⟩
    · rintro ⟨hon, hoff⟩ flag hflag hmem
      simp only [mem_cons, not_mem_nil, or_false, decide_eq_true_eq] at hmem
      rcases hmem with rfl | rfl
      · exact hon hflag
      · exact hoff hflag
  unfold LastIs
  rw [getLast?_eq_some_iff]
  constructor
  · rintro ⟨init, h⟩
    obtain ⟨front, rest, rfl, -, hrest⟩ := filter_eq_append_iff.mp h
    obtain ⟨skipped, back, rfl, -, -, hback⟩ := filter_eq_cons_iff.mp hrest
    exact ⟨front ++ skipped, back, by simp, (hnone back).mp hback⟩
  · rintro ⟨front, back, rfl, hback⟩
    refine ⟨front.filter (· ∈ [on, off]), ?_⟩
    rw [filter_append, filter_cons_of_pos (by simp), (hnone back).mpr hback]

theorem lastIs_append {on off : Word} {front back : List Word} (hon : on ∉ back) :
    LastIs on off (front ++ on :: back) ↔ off ∉ back := by
  constructor
  · intro hlast hoff
    rw [LastIs, filter_append, filter_cons_of_pos (by simp)] at hlast
    have hmem : off ∈ back.filter (· ∈ [on, off]) := mem_filter.mpr ⟨hoff, by simp⟩
    obtain ⟨init, hinit⟩ := getLast?_eq_some_iff.mp hlast
    obtain ⟨kept, hkept⟩ : ∃ kept, back.filter (· ∈ [on, off]) = kept ++ [on] := by
      rcases eq_nil_or_concat (back.filter (· ∈ [on, off])) with hnil | ⟨kept, last, hlast⟩
      · rw [hnil] at hmem
        cases hmem
      · rw [concat_eq_append] at hlast
        rw [hlast, ← cons_append, ← append_assoc] at hinit
        exact ⟨kept, by rw [hlast, (append_inj' hinit rfl).2]⟩
    have hback : on ∈ back.filter (· ∈ [on, off]) := by
      rw [hkept]
      simp
    exact hon (mem_filter.mp hback).1
  · intro hoff
    exact lastIs_iff.mpr ⟨front, back, rfl, hon, hoff⟩

theorem filter_lastword_iff {on off : Word} (hon : '%' ∉ on.chars) (hoff : '%' ∉ off.chars)
    (flags : List Word) :
    Word.filter [on] ((Word.filter [on, off] flags).getLast?).toList ≠ [] ↔
      LastIs on off flags := by
  have hboth : Word.filter [on, off] flags = flags.filter (· ∈ [on, off]) :=
    Word.filter_eq (by simp [hon, hoff])
  rw [hboth, Word.filter_eq (by simp [hon]), LastIs]
  cases hlast : (flags.filter (· ∈ [on, off])).getLast? with
  | none => simp
  | some flag =>
    by_cases hflag : flag = on
    · simp [hflag]
    · simp [hflag]

theorem moduleFlagsHaveRtti_iff : db.moduleFlagsHaveRtti name = true ↔
    LastIs frtti fnoRtti (db.moduleGetCppFlags name) := by
  rw [moduleFlagsHaveRtti, decide_eq_true_eq]
  exact filter_lastword_iff (by decide) (by decide) _

theorem moduleFlagsHaveExceptions_iff : db.moduleFlagsHaveExceptions name = true ↔
    LastIs fexceptions fnoExeceptions (db.moduleGetCppFlags name) := by
  rw [moduleFlagsHaveExceptions, decide_eq_true_eq]
  exact filter_lastword_iff (by decide) (by decide) _

/-! ## What is recorded -/

theorem field_foldl_filterOut (flags : List Word) {fields : List String} (hnodup : fields.Nodup)
    (hf : f ∈ fields) :
    (fields.foldl (fun db g => db.setField name g (Word.filterOut flags (db.field name g)))
      db).field name f = Word.filterOut flags (db.field name f) := by
  induction fields generalizing db with
  | nil => cases hf
  | cons g fields ih =>
    obtain ⟨hg, hrest⟩ := nodup_cons.mp hnodup
    rw [foldl_cons]
    rcases mem_cons.mp hf with rfl | hmem
    · rw [field_foldl_setField _ _ (Or.inl hg), field_setField, if_pos ⟨rfl, rfl⟩]
    · have hne : ¬(name = name ∧ f = g) := by
        rintro ⟨-, rfl⟩
        exact hg hmem
      rw [ih hrest hmem, field_setField, if_neg hne]

theorem field_cppFeatures (hunset : db.field name "CPP_FEATURES" = []) :
    (db.moduleHandleCppFeatures name).field name "CPP_FEATURES" =
      (if db.moduleFlagsHaveRtti name then [rtti] else []) ++
        if db.moduleFlagsHaveExceptions name then [exceptions] else [] := by
  unfold moduleHandleCppFeatures moduleFilterOutCompilerFlags
  rw [field_foldl_setField _ _ (Or.inl (by decide)), if_neg (by simp [hunset]), field_setField,
    if_pos ⟨rfl, rfl⟩]

theorem field_moduleFilterOutCompilerFlags
    (hf : f ∈ ["CFLAGS", "CONLYFLAGS", "CPPFLAGS", "CXXFLAGS", "ASMFLAGS"]) (flag : Word)
    (hflag : flag ∈ featureFlags) :
    flag ∉ (db.moduleHandleCppFeatures name).field name f := by
  unfold moduleHandleCppFeatures moduleFilterOutCompilerFlags
  rw [field_foldl_filterOut _ (by decide) hf, Word.filterOut_eq (by decide)]
  intro hmem
  have hnot := (mem_filter.mp hmem).2
  exact absurd hflag (of_decide_eq_true hnot)

theorem rtti_mem_iff (hunset : db.field name "CPP_FEATURES" = []) :
    rtti ∈ (db.moduleHandleCppFeatures name).field name "CPP_FEATURES" ↔
      LastIs frtti fnoRtti (db.moduleGetCppFlags name) := by
  have hne : rtti ≠ exceptions := by decide
  rw [field_cppFeatures hunset, ← moduleFlagsHaveRtti_iff]
  cases db.moduleFlagsHaveRtti name <;> cases db.moduleFlagsHaveExceptions name <;> simp [hne]

theorem exceptions_mem_iff (hunset : db.field name "CPP_FEATURES" = []) :
    exceptions ∈ (db.moduleHandleCppFeatures name).field name "CPP_FEATURES" ↔
      LastIs fexceptions fnoExeceptions (db.moduleGetCppFlags name) := by
  have hne : exceptions ≠ rtti := by decide
  rw [field_cppFeatures hunset, ← moduleFlagsHaveExceptions_iff]
  cases db.moduleFlagsHaveRtti name <;> cases db.moduleFlagsHaveExceptions name <;> simp [hne]

/-! ## When the features are detected -/

/-- Behind the last `-fexceptions` the flag that is looked for stands where the flag of the compiler
    does. -/
def ExceptionsSpelt (flags : List Word) : Prop :=
  ∀ front back, flags = front ++ fexceptions :: back → fexceptions ∉ back →
    (fnoExceptions ∈ back ↔ fnoExeceptions ∈ back)

theorem exceptionsSpelt_iff {flags : List Word} : ExceptionsSpelt flags ↔
    (LastIs fexceptions fnoExeceptions flags ↔ LastIs fexceptions fnoExceptions flags) := by
  constructor
  · intro h
    rw [lastIs_iff, lastIs_iff]
    constructor
    · rintro ⟨front, back, heq, hon, hoff⟩
      exact ⟨front, back, heq, hon, fun hno => hoff ((h front back heq hon).mp hno)⟩
    · rintro ⟨front, back, heq, hon, hoff⟩
      exact ⟨front, back, heq, hon, fun hno => hoff ((h front back heq hon).mpr hno)⟩
  · rintro h front back rfl hon
    rw [lastIs_append hon, lastIs_append hon] at h
    exact (not_iff_not.mp h).symm

/-- The features of a module without `LOCAL_CPP_FEATURES` are those its flags switch on if the
    misspelt flag makes no difference, and its flags are then gone if there were none in
    `OBJCFLAGS`. -/
theorem detectsFeatures_iff (db : Modules) (name : Word)
    (hunset : db.field name "CPP_FEATURES" = []) : db.DetectsFeatures name ↔
      ExceptionsSpelt (db.moduleGetCppFlags name) ∧
        ∀ flag ∈ featureFlags, flag ∉ db.field name "OBJCFLAGS" := by
  have hobjc : (db.moduleHandleCppFeatures name).field name "OBJCFLAGS" =
      db.field name "OBJCFLAGS" := field_moduleHandleCppFeatures (by decide)
  constructor
  · intro h
    refine ⟨exceptionsSpelt_iff.mpr ((exceptions_mem_iff hunset).symm.trans h.exceptions_iff), ?_⟩
    rw [← hobjc]
    exact h.removed "OBJCFLAGS" (by decide)
  · rintro ⟨hspelt, hflags⟩
    refine ⟨rtti_mem_iff hunset, (exceptions_mem_iff hunset).trans (exceptionsSpelt_iff.mp hspelt),
      fun f hf flag hflag => ?_⟩
    rcases mem_append.mp (show f ∈ ["CFLAGS", "CONLYFLAGS", "CPPFLAGS", "CXXFLAGS",
      "ASMFLAGS"] ++ ["OBJCFLAGS"] from hf) with hf | hf
    · exact field_moduleFilterOutCompilerFlags hf flag hflag
    · rw [mem_singleton.mp hf, hobjc]
      exact hflags flag hflag

def flagsModule (flags : List Word) : Modules := clear.setField app "CFLAGS" flags

theorem detectsFeatures_on :
    (flagsModule [fnoExceptions, fexceptions, frtti]).DetectsFeatures app :=
  (detectsFeatures_iff _ app (by decide)).mpr
    ⟨exceptionsSpelt_iff.mpr (by decide +kernel), by decide⟩

/-- Exceptions are switched off again by the last flag, and are recorded nevertheless. -/
theorem not_detectsFeatures_off :
    (flagsModule [fexceptions, fnoExceptions]).field app "CPP_FEATURES" = [] ∧
      ¬(flagsModule [fexceptions, fnoExceptions]).DetectsFeatures app := by
  have hrecorded : exceptions ∈ ((flagsModule [fexceptions, fnoExceptions]).moduleHandleCppFeatures
      app).field app "CPP_FEATURES" := by decide +kernel
  refine ⟨by decide, fun h => ?_⟩
  have hlast := h.exceptions_iff.mp hrecorded
  exact absurd hlast (by decide +kernel)

end Modules

/-!
## The modules that get a runtime

`module-get-objc-sources` and `module-get-objc++-sources` ask for the Objective-C++ extension
without the name of the module, and always get `.mm`. For a module with an extension of its own they
find sources that are none and miss those that are. The other extensions are asked for with the
name.
-/

namespace Modules

variable {db db' : Modules} {m n : Word} {f : String}

/-! ### What is asked for -/

/-- A source of the module ends in one of the extensions. -/
def HasSource (db : Modules) (m : Word) (extensions : List Word) : Prop :=
  ∃ file ∈ db.sourceFiles m, ∃ extension ∈ extensions, extension.chars <:+ file.chars

def NeedsStl (db : Modules) (m : Word) : Prop :=
  db.HasSource m (db.moduleGetCppExtensions (some m)) ∨
    db.HasSource m (db.moduleGetObjcppExtension (some m))

def NeedsObjc (db : Modules) (m : Word) : Prop :=
  db.HasSource m (db.moduleGetObjcExtension (some m)) ∨
    db.HasSource m (db.moduleGetObjcppExtension (some m))

def RuntimeLibs.of (libs : RuntimeLibs) (f : String) : List Word :=
  if f = "STATIC_LIBRARIES" then libs.static
  else if f = "SHARED_LIBRARIES" then libs.shared
  else if f = "LDLIBS" then libs.ldlibs
  else []

/-- The libraries get to the modules that want them, and nothing else changes. -/
structure AddsTo (libs : RuntimeLibs) (wanted : Word → Prop) (db db' : Modules) : Prop where
  modules : db'.modules = db.modules
  added : ∀ m ∈ db.modules, wanted m → ∀ f, db'.field m f = db.field m f ++ libs.of f
  kept : ∀ m, ¬(m ∈ db.modules ∧ wanted m) → ∀ f, db'.field m f = db.field m f

inductive Recorded : Modules → Prop
  | clear : Recorded clear
  | moduleAdd {db db' : Modules} {eval : Eval} {name : Word} {locals : Locals}
      (h : Recorded db) (hadd : db.moduleAdd eval name locals = some db') : Recorded db'
  | addRuntime {db : Modules} (runtime : Runtime) (h : Recorded db) :
      Recorded (db.addRuntime runtime)

/-! ### Sources -/

theorem patternMatches_percent {extension file : Word} :
    (percent extension).patternMatches file = true ↔ extension.chars <:+ file.chars := by
  have hsplit : Word.splitPercent (percent extension).chars = some ([], extension.chars) := by
    rw [percent, Word.splitPercent, if_pos rfl]
  unfold Word.patternMatches
  rw [hsplit]
  simp only [isPrefixOf_nil_left, Bool.true_and, length_nil, Nat.zero_add,
    Bool.and_eq_true, isSuffixOf_iff_suffix, decide_eq_true_eq]
  exact ⟨And.left, fun h => ⟨h, h.length_le⟩⟩

theorem filter_ne_nil_iff {patterns files : List Word} : Word.filter patterns files ≠ [] ↔
    ∃ file ∈ files, ∃ p ∈ patterns, p.patternMatches file = true := by
  rw [Word.filter, ne_eq, filter_eq_nil_iff]
  simp

theorem moduleGetCppSources_ne_nil : db.moduleGetCppSources m ≠ [] ↔
    db.HasSource m (db.moduleGetCppExtensions (some m)) := by
  rw [moduleGetCppSources, filter_ne_nil_iff, HasSource]
  simp only [mem_map, exists_exists_and_eq_and, patternMatches_percent]

theorem moduleGetObjcppSources_ne_nil :
    db.moduleGetObjcppSources m ≠ [] ↔ db.HasSource m [dotMm] := by
  have hpatterns : percentValue (db.moduleGetObjcppExtension none) = [percent dotMm] := rfl
  rw [moduleGetObjcppSources, filter_ne_nil_iff, hpatterns, HasSource]
  simp only [mem_singleton, exists_eq_left, patternMatches_percent]

/-- Only the first word of `LOCAL_OBJC_EXTENSION` becomes a pattern for the end of a name. -/
theorem exists_percentValue {extensions : List Word} (hne : extensions ≠ []) :
    (∃ file ∈ db.sourceFiles m, ∃ p ∈ percentValue extensions, p.patternMatches file = true) ↔
      db.HasSource m (extensions.take 1) ∨
        ∃ file ∈ db.sourceFiles m, ∃ p ∈ extensions.drop 1, p.patternMatches file = true := by
  obtain ⟨extension, rest, rfl⟩ := exists_cons_of_ne_nil hne
  simp only [percentValue, HasSource, take_succ_cons, take_zero, drop_succ_cons,
    drop_zero, mem_cons, not_mem_nil, or_false, exists_eq_or_imp, exists_eq_left,
    patternMatches_percent]
  constructor
  · rintro ⟨file, hfile, h | h⟩
    · exact Or.inl ⟨file, hfile, h⟩
    · exact Or.inr ⟨file, hfile, h⟩
  · rintro (⟨file, hfile, h⟩ | ⟨file, hfile, h⟩)
    · exact ⟨file, hfile, Or.inl h⟩
    · exact ⟨file, hfile, Or.inr h⟩

theorem hasSource_append (extensions extensions' : List Word) :
    db.HasSource m (extensions ++ extensions') ↔
      db.HasSource m extensions ∨ db.HasSource m extensions' := by
  unfold HasSource
  constructor
  · rintro ⟨file, hfile, extension, hext, h⟩
    rcases mem_append.mp hext with hext | hext
    · exact Or.inl ⟨file, hfile, extension, hext, h⟩
    · exact Or.inr ⟨file, hfile, extension, hext, h⟩
  · rintro (⟨file, hfile, extension, hext, h⟩ | ⟨file, hfile, extension, hext, h⟩)
    · exact ⟨file, hfile, extension, mem_append_left _ hext, h⟩
    · exact ⟨file, hfile, extension, mem_append_right _ hext, h⟩

theorem moduleGetObjcExtension_ne_nil : db.moduleGetObjcExtension (some m) ≠ [] := by
  unfold moduleGetObjcExtension extensionOr
  dsimp only
  split_ifs with h
  · exact h
  · exact cons_ne_nil _ _

theorem moduleGetObjcSources_ne_nil : db.moduleGetObjcSources m ≠ [] ↔
    (∃ file ∈ db.sourceFiles m, ∃ p ∈ percentValue (db.moduleGetObjcExtension (some m)),
      p.patternMatches file = true) ∨ db.moduleGetObjcppSources m ≠ [] := by
  rw [← filter_ne_nil_iff]
  unfold moduleGetObjcSources
  dsimp only
  split_ifs with h
  · simp [h]
  · rw [← moduleGetObjcppSources]
    exact (or_iff_right h).symm

/-! ### The loop over the modules -/

theorem nodup_setInsert (set : List Word) (name : Word) : (setInsert set name).Nodup :=
  (perm_insertionSort _ _).nodup_iff.mpr (nodup_dedup _)

theorem modules_addRuntime (runtime : Runtime) : (db.addRuntime runtime).modules = db.modules := by
  have hloop : ∀ (names : List Word) (db : Modules), (names.foldl (fun db name =>
      if runtime.needed db name then
        db.moduleAddDeps name runtime.static runtime.shared runtime.ldlibs
      else db) db).modules = db.modules := by
    intro names
    induction names with
    | nil => exact fun db => rfl
    | cons name names ih =>
      intro db
      rw [foldl_cons, ih]
      split_ifs <;> rfl
  exact hloop db.modules db

theorem Recorded.nodup (h : Recorded db) : db.modules.Nodup := by
  induction h with
  | clear => exact nodup_nil
  | @moduleAdd db db' eval name locals _ hadd _ =>
    obtain ⟨-, rfl⟩ := moduleAdd_eq_some hadd
    rw [modules_moduleHandleCppFeatures, recordLocals, modules_foldl_setField]
    exact nodup_setInsert db.modules name
  | addRuntime runtime _ ih => rwa [modules_addRuntime]

/-- The sources and extensions decide, which no runtime changes. -/
def ReadsSources (needed : Modules → Word → Bool) : Prop :=
  ∀ db db' : Modules, (∀ n f, f ∉ depsFields → db'.field n f = db.field n f) →
    ∀ n, needed db' n = needed db n

theorem field_moduleAddDeps_self (libs : RuntimeLibs) :
    (db.moduleAddDeps m libs.static libs.shared libs.ldlibs).field m f =
      db.field m f ++ libs.of f := by
  unfold moduleAddDeps RuntimeLibs.of
  simp only [field_setField]
  split_ifs <;> simp_all

theorem field_moduleAddDeps_other (libs : RuntimeLibs) (hne : n ≠ m) :
    (db.moduleAddDeps m libs.static libs.shared libs.ldlibs).field n f = db.field n f := by
  simp [moduleAddDeps, field_setField, hne]

theorem field_addRuntime_eq {needed : Modules → Word → Bool} (hreads : ReadsSources needed)
    (libs : RuntimeLibs) (hnodup : db.modules.Nodup) :
    (db.addRuntime ⟨needed, libs.static, libs.shared, libs.ldlibs⟩).field m f =
      if m ∈ db.modules ∧ needed db m = true then db.field m f ++ libs.of f
      else db.field m f := by
  unfold addRuntime
  generalize db.modules = names at hnodup
  induction names generalizing db with
  | nil => simp
  | cons name names ih =>
    obtain ⟨hname, hrest⟩ := nodup_cons.mp hnodup
    rw [foldl_cons, ih hrest]
    by_cases hneeded : needed db name = true
    · have hkeeps : needed (db.moduleAddDeps name libs.static libs.shared libs.ldlibs) m =
          needed db m := hreads _ _ (fun n f hf => field_moduleAddDeps _ _ _ hf) m
      simp only [if_pos hneeded, hkeeps]
      by_cases hm : m = name
      · subst hm
        simp [hname, hneeded, field_moduleAddDeps_self]
      · simp [hm, field_moduleAddDeps_other libs hm]
    · simp only [if_neg hneeded]
      by_cases hm : m = name
      · subst hm
        simp [hname, hneeded]
      · simp [hm]

theorem addsTo_addRuntime {needed : Modules → Word → Bool} (hreads : ReadsSources needed)
    (libs : RuntimeLibs) (hnodup : db.modules.Nodup) :
    AddsTo libs (fun m => needed db m = true) db
      (db.addRuntime ⟨needed, libs.static, libs.shared, libs.ldlibs⟩) where
  modules := modules_addRuntime _
  added := by
    intro m hm hneeded f
    rw [field_addRuntime_eq hreads libs hnodup, if_pos ⟨hm, hneeded⟩]
  kept := by
    intro m hnot f
    rw [field_addRuntime_eq hreads libs hnodup, if_neg hnot]

theorem AddsTo.congr_iff {libs : RuntimeLibs} {needed wanted : Word → Prop}
    (h : AddsTo libs needed db db') : AddsTo libs wanted db db' ↔
      (∀ f, libs.of f = []) ∨ ∀ m ∈ db.modules, (needed m ↔ wanted m) := by
  constructor
  · intro hwanted
    by_contra hnot
    rw [not_or] at hnot
    obtain ⟨f, hf⟩ := not_forall.mp hnot.1
    refine hnot.2 fun m hm => ⟨fun hneeded => ?_, fun hwant => ?_⟩
    · by_contra hno
      have hsame := (h.added m hm hneeded f).symm.trans (hwanted.kept m (fun hw => hno hw.2) f)
      exact hf (append_right_eq_self.mp hsame)
    · by_contra hno
      have hsame := (hwanted.added m hm hwant f).symm.trans (h.kept m (fun hn => hno hn.2) f)
      exact hf (append_right_eq_self.mp hsame)
  · rintro (hempty | hsame)
    · have hkept : ∀ m f, db'.field m f = db.field m f := by
        intro m f
        by_cases hm : m ∈ db.modules ∧ needed m
        · rw [h.added m hm.1 hm.2, hempty, append_nil]
        · exact h.kept m hm f
      exact ⟨h.modules, fun m _ _ f => by rw [hkept, hempty, append_nil],
        fun m _ f => hkept m f⟩
    · refine ⟨h.modules, fun m hm hwant f => h.added m hm ((hsame m hm).mpr hwant) f, ?_⟩
      exact fun m hnot f => h.kept m (fun hn => hnot ⟨hn.1, (hsame m hn.1).mp hn.2⟩) f

/-! ### The two runtimes -/

section Sources

variable (h : ∀ n f, f ∉ depsFields → db'.field n f = db.field n f)

include h

theorem sourceFiles_congr : db'.sourceFiles n = db.sourceFiles n := by
  rw [sourceFiles, sourceFiles, h n "SRC_FILES" (by decide)]

theorem extensionOr_congr (default : List Word) (hf : f ∉ depsFields) :
    db'.extensionOr (some n) f default = db.extensionOr (some n) f default := by
  unfold extensionOr
  rw [Option.elim_some, Option.elim_some, h n f hf]

theorem moduleGetCppSources_congr : db'.moduleGetCppSources n = db.moduleGetCppSources n := by
  rw [moduleGetCppSources, moduleGetCppSources, sourceFiles_congr h, moduleGetCppExtensions,
    moduleGetCppExtensions, extensionOr_congr h _ (by decide)]

theorem moduleGetObjcppSources_congr :
    db'.moduleGetObjcppSources n = db.moduleGetObjcppSources n := by
  rw [moduleGetObjcppSources, moduleGetObjcppSources, sourceFiles_congr h]
  rfl

theorem moduleGetObjcSources_congr : db'.moduleGetObjcSources n = db.moduleGetObjcSources n := by
  rw [moduleGetObjcSources, moduleGetObjcSources, sourceFiles_congr h, moduleGetObjcExtension,
    moduleGetObjcExtension, extensionOr_congr h _ (by decide)]
  rfl

end Sources

/-- `.mm` in place of the extension of the module makes no difference for the STL. -/
def StlSelected (db : Modules) (m : Word) : Prop :=
  db.HasSource m (db.moduleGetCppExtensions (some m)) ∨
    (db.HasSource m [dotMm] ↔ db.HasSource m (db.moduleGetObjcppExtension (some m)))

/-- It makes none for the Objective-C runtime. If there are several Objective-C extensions, all but
    the first one are patterns for whole names. -/
def ObjcSelected (db : Modules) (m : Word) : Prop :=
  db.HasSource m ((db.moduleGetObjcExtension (some m)).take 1) ∨
    ((db.HasSource m [dotMm] ∨ ∃ file ∈ db.sourceFiles m,
        ∃ p ∈ (db.moduleGetObjcExtension (some m)).drop 1, p.patternMatches file = true) ↔
      db.HasSource m (db.moduleGetObjcppExtension (some m)) ∨
        db.HasSource m ((db.moduleGetObjcExtension (some m)).drop 1))

theorem stlSelected_iff : (db.moduleGetCppSources m ≠ [] ∨ db.moduleGetObjcppSources m ≠ [] ↔
    db.NeedsStl m) ↔ db.StlSelected m := by
  rw [moduleGetCppSources_ne_nil, moduleGetObjcppSources_ne_nil, NeedsStl, StlSelected]
  tauto

theorem objcSelected_iff : (db.moduleGetObjcSources m ≠ [] ∨ db.moduleGetObjcppSources m ≠ [] ↔
    db.NeedsObjc m) ↔ db.ObjcSelected m := by
  have hsplit : db.HasSource m (db.moduleGetObjcExtension (some m)) ↔
      db.HasSource m ((db.moduleGetObjcExtension (some m)).take 1) ∨
        db.HasSource m ((db.moduleGetObjcExtension (some m)).drop 1) := by
    rw [← hasSource_append, take_append_drop]
  rw [moduleGetObjcSources_ne_nil, exists_percentValue moduleGetObjcExtension_ne_nil,
    moduleGetObjcppSources_ne_nil, NeedsObjc, hsplit, ObjcSelected]
  by_cases hfirst : db.HasSource m ((db.moduleGetObjcExtension (some m)).take 1)
  · simp only [hfirst, true_or]
  · simp only [hfirst, false_or, or_comm, or_self_left]

/-- The runtimes are added to exactly the modules with sources for them if they have no libraries,
    or if for no module the extension `.mm` in place of its own one makes a difference. -/
theorem addDependencies_iff (db : Modules) (h : Recorded db) (stl objc : RuntimeLibs) :
    (AddsTo stl db.NeedsStl db (db.ndkStlAddDependencies stl) ↔
      (∀ f, stl.of f = []) ∨ ∀ m ∈ db.modules, db.StlSelected m) ∧
    (AddsTo objc db.NeedsObjc db (db.ndkObjcAddDependencies objc) ↔
      (∀ f, objc.of f = []) ∨ ∀ m ∈ db.modules, db.ObjcSelected m) := by
  constructor
  · have hreads : ReadsSources fun db name =>
        db.moduleGetCppSources name ≠ [] ∨ db.moduleGetObjcppSources name ≠ [] := by
      intro db db' hsame n
      simp only [moduleGetCppSources_congr hsame, moduleGetObjcppSources_congr hsame]
    have hadds := addsTo_addRuntime hreads stl h.nodup
    simp only [decide_eq_true_eq] at hadds
    rw [ndkStlAddDependencies, hadds.congr_iff]
    simp only [stlSelected_iff]
  · have hreads : ReadsSources fun db name =>
        db.moduleGetObjcSources name ≠ [] ∨ db.moduleGetObjcppSources name ≠ [] := by
      intro db db' hsame n
      simp only [moduleGetObjcSources_congr hsame, moduleGetObjcppSources_congr hsame]
    have hadds := addsTo_addRuntime hreads objc h.nodup
    simp only [decide_eq_true_eq] at hadds
    rw [ndkObjcAddDependencies, hadds.congr_iff]
    simp only [objcSelected_iff]

section OneModule

def mainOx : Word := Word.ofString "main.ox" (by simp [isBlank])

def mainMm : Word := Word.ofString "main.mm" (by simp [isBlank])

def dotOx : Word := Word.ofString ".ox" (by simp [isBlank])

def recordSources (vars : List (String × List Word)) : Option Modules :=
  clear.moduleAdd plainEval app (fileLocals (("MODULE_CLASS", [sharedLibrary]) :: vars))

def sourcesModule (vars : List (String × List Word)) : Modules := (recordSources vars).getD clear

/-- The runtimes of these modules have the shared library `foo`. -/
def fooRuntime : RuntimeLibs := ⟨[], [foo], []⟩

theorem recorded_sourcesModule (vars : List (String × List Word))
    (h : (recordSources vars).isSome) : Recorded (sourcesModule vars) := by
  obtain ⟨db, hdb⟩ := Option.isSome_iff_exists.mp h
  refine Recorded.moduleAdd Recorded.clear (hdb.trans ?_)
  rw [sourcesModule, hdb, Option.getD_some]

theorem addDependencies_mm :
    AddsTo fooRuntime (sourcesModule [("SRC_FILES", [mainMm])]).NeedsStl
      (sourcesModule [("SRC_FILES", [mainMm])])
      ((sourcesModule [("SRC_FILES", [mainMm])]).ndkStlAddDependencies fooRuntime) ∧
    AddsTo fooRuntime (sourcesModule [("SRC_FILES", [mainMm])]).NeedsObjc
      (sourcesModule [("SRC_FILES", [mainMm])])
      ((sourcesModule [("SRC_FILES", [mainMm])]).ndkObjcAddDependencies fooRuntime) := by
  have hmodules : ∀ m ∈ (sourcesModule [("SRC_FILES", [mainMm])]).modules, m = app := by
    decide +kernel
  have hobjcpp : (sourcesModule [("SRC_FILES", [mainMm])]).moduleGetObjcppExtension (some app) =
      [dotMm] := by decide +kernel
  have hobjc : ((sourcesModule [("SRC_FILES", [mainMm])]).moduleGetObjcExtension
      (some app)).drop 1 = [] := by decide +kernel
  obtain ⟨hstl, hobjcIff⟩ := addDependencies_iff (sourcesModule [("SRC_FILES", [mainMm])])
    (recorded_sourcesModule _ (by decide +kernel)) fooRuntime fooRuntime
  refine ⟨hstl.mpr (Or.inr fun m hm => ?_), hobjcIff.mpr (Or.inr fun m hm => ?_)⟩
  · rw [hmodules m hm, StlSelected, hobjcpp]
    exact Or.inr Iff.rfl
  · rw [hmodules m hm, ObjcSelected, hobjcpp, hobjc]
    simp [HasSource]

/-- With `LOCAL_OBJCPP_EXTENSION := .ox` the source `main.ox` is not taken for one of
    Objective-C++. -/
theorem addDependencies_ox :
    Recorded (sourcesModule [("SRC_FILES", [mainOx]), ("OBJCPP_EXTENSION", [dotOx])]) ∧
    ¬AddsTo fooRuntime
      (sourcesModule [("SRC_FILES", [mainOx]), ("OBJCPP_EXTENSION", [dotOx])]).NeedsStl
      (sourcesModule [("SRC_FILES", [mainOx]), ("OBJCPP_EXTENSION", [dotOx])])
      ((sourcesModule [("SRC_FILES", [mainOx]),
        ("OBJCPP_EXTENSION", [dotOx])]).ndkStlAddDependencies fooRuntime) := by
  refine ⟨recorded_sourcesModule _ (by decide +kernel), fun h => ?_⟩
  have hneeds : (sourcesModule [("SRC_FILES", [mainOx]),
      ("OBJCPP_EXTENSION", [dotOx])]).NeedsStl app :=
    Or.inr ⟨mainOx, by decide +kernel, dotOx, by decide +kernel, ['m', 'a', 'i', 'n'], by decide⟩
  have hadded := h.added app (by decide +kernel) hneeds "SHARED_LIBRARIES"
  exact absurd hadded (by decide +kernel)

end OneModule

end Modules

end CrystaxNdk.Build
