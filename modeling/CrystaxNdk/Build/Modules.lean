import CrystaxNdk.Build.Graph
import CrystaxNdk.Build.Utils

/-!
# `definitions.mk` — the module database

Every `Android.mk` sets variables `LOCAL_<field>`, and `module-add` records them under the name of
the module as `__ndk_modules.<name>.<field>`. What modules depend on is computed when all of them
are recorded, and some get the libraries of a runtime then. Two questions are asked of the database
for each module that is built: what it imports from the modules it depends on (`import-locals.mk`),
and what it is linked with. The last part is about how the files are found: `import-module`.

A value is the list of its words. Assignments are made through `eval`, which expands the value a
second time and reads it as a line of a makefile. For the values that a client writes, in
`module-add`, that reading is the parameter `eval` (`Eval.assigned`). The other assignments only
pass on names of modules and values that were recorded. These are taken to be words that `eval`
leaves as they are, without `$` and `#`, and names of modules also without `:` and `=`, as they
stand on the left side of an assignment.
-/

namespace CrystaxNdk.Build

open Lib

/-- The variables `LOCAL_<field>` of an `Android.mk`. -/
abbrev Locals := String → List Word

/-- `__ndk_modules`, and what was assigned to the variables `__ndk_modules.<name>.<field>`, the
    last assignment first. -/
structure Modules where
  modules : List Word
  vars : List ((Word × String) × List Word)

def modulesLocals : List String :=
  ["MODULE", "MODULE_FILENAME", "PATH", "SRC_FILES", "CPP_EXTENSION", "OBJC_EXTENSION",
    "OBJCPP_EXTENSION", "C_INCLUDES", "CFLAGS", "OBJCFLAGS", "CONLYFLAGS", "CXXFLAGS", "CPPFLAGS",
    "ASMFLAGS", "STATIC_LIBRARIES", "WHOLE_STATIC_LIBRARIES", "SHARED_LIBRARIES", "LDLIBS",
    "ALLOW_UNDEFINED_SYMBOLS", "ARM_MODE", "ARM_NEON", "DISABLE_NO_EXECUTE", "DISABLE_RELRO",
    "DISABLE_FORMAT_STRING_CHECKS", "DISABLE_FATAL_LINKER_WARNINGS", "EXPORT_CFLAGS",
    "EXPORT_CONLYFLAGS", "EXPORT_CPPFLAGS", "EXPORT_ASMFLAGS", "EXPORT_LDFLAGS", "EXPORT_LDLIBS",
    "EXPORT_C_INCLUDES", "FILTER_ASM", "CPP_FEATURES", "SHORT_COMMANDS", "BUILT_MODULE_NOT_COPIED",
    "THIN_ARCHIVE", "PCH", "RENDERSCRIPT_INCLUDES", "RENDERSCRIPT_INCLUDES_OVERRIDE",
    "RENDERSCRIPT_FLAGS", "RENDERSCRIPT_TARGET_API",
    "MAKEFILE", "LDFLAGS", "OBJECTS", "BUILT_MODULE", "OBJS_DIR", "INSTALLED", "MODULE_CLASS"]

/-- `set_insert`: `sort` also removes duplicates. -/
def setInsert (set : List Word) (name : Word) : List Word :=
  (set ++ [name]).dedup.insertionSort fun a b => a.chars ≤ b.chars

/-- `set_is_member`, with the elements of the set as patterns. -/
def setIsMember (set : List Word) (name : Word) : Bool := Word.filter set [name] ≠ []

def stripLibPrefix (words : List Word) : List Word :=
  words.filterMap fun w =>
    if ['l', 'i', 'b'].isPrefixOf w.chars then Word.ofChars? (w.chars.drop 3) else some w

namespace Modules

def field (db : Modules) (name : Word) (field : String) : List Word :=
  (db.vars.lookup (name, field)).getD []

def setField (db : Modules) (name : Word) (field : String) (value : List Word) : Modules :=
  { db with vars := ((name, field), value) :: db.vars }

def clear : Modules := ⟨[], []⟩

/-! ## C++ features -/

def rtti : Word := Word.ofString "rtti" (by simp [isBlank])

def exceptions : Word := Word.ofString "exceptions" (by simp [isBlank])

def frtti : Word := Word.ofString "-frtti" (by simp [isBlank])

def fnoRtti : Word := Word.ofString "-fno-rtti" (by simp [isBlank])

def fexceptions : Word := Word.ofString "-fexceptions" (by simp [isBlank])

def fnoExceptions : Word := Word.ofString "-fno-exceptions" (by simp [isBlank])

/-- As `module-flags-have-exceptions` spells it. -/
def fnoExeceptions : Word := Word.ofString "-fno-execeptions" (by simp [isBlank])

def moduleGetCppFlags (db : Modules) (name : Word) : List Word :=
  db.field name "CFLAGS" ++ db.field name "CPPFLAGS" ++ db.field name "CXXFLAGS"

def moduleFlagsHaveRtti (db : Modules) (name : Word) : Bool :=
  Word.filter [frtti] ((Word.filter [frtti, fnoRtti] (db.moduleGetCppFlags name)).getLast?).toList
    ≠ []

def moduleFlagsHaveExceptions (db : Modules) (name : Word) : Bool :=
  Word.filter [fexceptions]
    ((Word.filter [fexceptions, fnoExeceptions] (db.moduleGetCppFlags name)).getLast?).toList ≠ []

def moduleFilterOutCompilerFlags (db : Modules) (name : Word) (flags : List Word) : Modules :=
  ["CFLAGS", "CONLYFLAGS", "CPPFLAGS", "CXXFLAGS", "ASMFLAGS"].foldl
    (fun db f => db.setField name f (Word.filterOut flags (db.field name f))) db

def moduleHandleCppFeatures (db : Modules) (name : Word) : Modules :=
  let features := db.field name "CPP_FEATURES"
  let cxxbad := Word.filterOut [rtti, exceptions] features
  let db :=
    if features ≠ [] then
      if cxxbad ≠ [] then db.setField name "CPP_FEATURES" (Word.filterOut cxxbad features) else db
    else
      db.setField name "CPP_FEATURES"
        ((if db.moduleFlagsHaveRtti name then [rtti] else []) ++
          if db.moduleFlagsHaveExceptions name then [exceptions] else [])
  db.moduleFilterOutCompilerFlags name [frtti, fnoRtti, fexceptions, fnoExceptions]

/-! ## Recording -/

/-- What `module-add` assigns to the library lists before it records them. -/
def stripLibraries (eval : Eval) (locals : Locals) : Locals := fun f =>
  if f ∈ ["STATIC_LIBRARIES", "WHOLE_STATIC_LIBRARIES", "SHARED_LIBRARIES"] then
    eval.assigned (stripLibPrefix (locals f))
  else locals f

/-- The loop over `modules-LOCALS` in `module-add`. -/
def recordLocals (db : Modules) (eval : Eval) (name : Word) (locals : Locals) : Modules :=
  modulesLocals.foldl (fun db f => db.setField name f (eval.assigned (locals f))) db

/-- `module-add`, which aborts with `none`. `LOCAL_INSTALLED` is set by `module-add` itself and
    is taken here from `locals`. -/
def moduleAdd (db : Modules) (eval : Eval) (name : Word) (locals : Locals) : Option Modules :=
  if ∃ f ∈ ["MAKEFILE", "BUILT_MODULE", "OBJS_DIR", "MODULE_CLASS"], locals f = [] then none
  else if setIsMember db.modules name then none
  else
    let db := { db with modules := setInsert db.modules name }
    some ((db.recordLocals eval name (stripLibraries eval locals)).moduleHandleCppFeatures name)

def moduleAddDeps (db : Modules) (name : Word) (static shared ldlibs : List Word) : Modules :=
  let db := db.setField name "STATIC_LIBRARIES" (db.field name "STATIC_LIBRARIES" ++ static)
  let db := db.setField name "SHARED_LIBRARIES" (db.field name "SHARED_LIBRARIES" ++ shared)
  db.setField name "LDLIBS" (db.field name "LDLIBS" ++ ldlibs)

/-- The libraries of a runtime, and the modules that need it. -/
structure Runtime where
  needed : Modules → Word → Bool
  static : List Word
  shared : List Word
  ldlibs : List Word

/-- `modules-add-c++-dependencies` and `ndk-objc-add-dependencies`, which differ in the sources
    they look for. -/
def addRuntime (db : Modules) (runtime : Runtime) : Modules :=
  db.modules.foldl (fun db name =>
    if runtime.needed db name then
      db.moduleAddDeps name runtime.static runtime.shared runtime.ldlibs
    else db) db

/-! ## Dependencies -/

/-- `module-add-depends-any`, whose third argument always is `depends`. -/
def moduleAddDependsAny (db : Modules) (name : Word) (libs : List Word) : Modules :=
  let depends := db.field name "depends"
  db.setField name "depends" (depends ++ Word.filterOut depends libs)

def moduleComputeDepends (db : Modules) (name : Word) : Modules :=
  let db := db.moduleAddDependsAny name (db.field name "STATIC_LIBRARIES")
  let db := db.moduleAddDependsAny name (db.field name "WHOLE_STATIC_LIBRARIES")
  db.moduleAddDependsAny name (db.field name "SHARED_LIBRARIES")

def modulesComputeDependencies (db : Modules) : Modules :=
  db.modules.foldl moduleComputeDepends db

def moduleGetDepends (db : Modules) (name : Word) : List Word := db.field name "depends"

def moduleGetDirectLibs (db : Modules) (name : Word) : List Word :=
  db.field name "STATIC_LIBRARIES" ++ db.field name "WHOLE_STATIC_LIBRARIES" ++
    db.field name "SHARED_LIBRARIES"

def moduleGetAllDependencies (db : Modules) (fuel : Nat) (st : Vars) (name : Word) :
    Option (Vars × List Word) :=
  st.getClosure db.moduleGetDepends fuel [name]

/-- What `setup-toolchain.mk` makes of the `Android.mk` files, each given by the name of its module
    and the variables it sets. -/
def setup (eval : Eval) (files : List (Word × Locals)) (runtimes : List Runtime) :
    Option Modules :=
  (files.foldlM (fun (db : Modules) file => db.moduleAdd eval file.1 file.2) clear).map fun db =>
    (runtimes.foldl addRuntime db).modulesComputeDependencies

/-! ## Imports -/

def moduleGetExport (db : Modules) (name : Word) (varname : String) : List Word :=
  db.field name ("EXPORT_" ++ varname)

def moduleGetListedExport (db : Modules) (names : List Word) (varname : String) : List Word :=
  names.flatMap fun name => db.moduleGetExport name varname

def importedVars : List String :=
  ["CFLAGS", "CONLYFLAGS", "OBJCFLAGS", "CPPFLAGS", "RENDERSCRIPT_FLAGS", "ASMFLAGS", "C_INCLUDES",
    "LDFLAGS", "LDLIBS"]

/-- `import-locals.mk`, with the values of `imported_<varname>`. -/
def importLocals (db : Modules) (fuel : Nat) (st : Vars) (localModule : Word) :
    Option (Vars × (String → List Word)) :=
  (db.moduleGetAllDependencies fuel st localModule).map fun res =>
    let allDepends := Word.filterOut [localModule] res.2
    (res.1, fun varname => db.moduleGetListedExport allDepends varname)

/-! ## Link libraries -/

def staticLibrary : Word := Word.ofString "STATIC_LIBRARY" (by simp [isBlank])

def prebuiltStaticLibrary : Word := Word.ofString "PREBUILT_STATIC_LIBRARY" (by simp [isBlank])

def sharedLibrary : Word := Word.ofString "SHARED_LIBRARY" (by simp [isBlank])

def prebuiltSharedLibrary : Word := Word.ofString "PREBUILT_SHARED_LIBRARY" (by simp [isBlank])

def moduleIsStaticLibrary (db : Modules) (name : Word) : Bool :=
  Word.filter [staticLibrary, prebuiltStaticLibrary] (db.field name "MODULE_CLASS") ≠ []

def moduleIsSharedLibrary (db : Modules) (name : Word) : Bool :=
  Word.filter [sharedLibrary, prebuiltSharedLibrary] (db.field name "MODULE_CLASS") ≠ []

/-- `module-get-shared-libs`. Without an argument it reads `__ndk_modules..SHARED_LIBRARIES`, which
    nothing sets. -/
def moduleGetSharedLibs (db : Modules) (name : Option Word) : List Word :=
  name.elim [] fun name => db.field name "SHARED_LIBRARIES"

/-- `-ndk-mod-link-deps`, when `_ndk_mod_link_module` is `linkModule`. -/
def linkDeps (db : Modules) (linkModule name : Word) : List Word :=
  let direct :=
    if name = linkModule ∨ db.moduleIsStaticLibrary name then db.moduleGetDirectLibs name else []
  if direct ≠ [] then direct
  else if db.moduleIsSharedLibrary name then db.moduleGetSharedLibs none else []

def moduleGetLinkLibs (db : Modules) (fuel : Nat) (st : Vars) (name : Word) :
    Option (Vars × List Word) :=
  st.getTopologicalDepends (db.linkDeps name) fuel name

end Modules

/-!
## Which modules need a runtime

After all modules are recorded, the libraries of the STL are added to those with C++ sources, and
the libraries of the Objective-C runtime to those with Objective-C sources. What a source is written
in is told by its name, without the `.neon` and `.arm` at its end, and by the extensions of its
module. An Objective-C++ source counts for both runtimes.
-/

def dotM : Word := Word.ofString ".m" (by simp [isBlank])

def dotMm : Word := Word.ofString ".mm" (by simp [isBlank])

def defaultCppExtensions : List Word :=
  [Word.ofString ".cc" (by simp [isBlank]), Word.ofString ".cp" (by simp [isBlank]),
    Word.ofString ".cxx" (by simp [isBlank]), Word.ofString ".cpp" (by simp [isBlank]),
    Word.ofString ".CPP" (by simp [isBlank]), Word.ofString ".c++" (by simp [isBlank]),
    Word.ofString ".C" (by simp [isBlank])]

def percent (extension : Word) : Word where
  chars := '%' :: extension.chars
  ne_nil := List.cons_ne_nil _ _
  noBlank := by simpa [isBlank] using extension.noBlank

/-- The patterns `%$(extensions)`, of which only the first one has the `%`. -/
def percentValue : List Word → List Word
  | [] => [Word.ofString "%" (by simp [isBlank])]
  | extension :: extensions => percent extension :: extensions

/-- `$(files:%<suffix>=%)`. A name that is nothing but the suffix is gone. -/
def dropSuffix (suffix : List Char) (files : List Word) : List Word :=
  files.filterMap fun file =>
    if suffix.isSuffixOf file.chars then
      Word.ofChars? (file.chars.take (file.chars.length - suffix.length))
    else some file

namespace Modules

/-- A variable `__ndk_modules.<name>.<field>`, or what is used when it is empty. -/
def extensionOr (db : Modules) (name : Option Word) (field : String) (default : List Word) :
    List Word :=
  let value := name.elim [] fun name => db.field name field
  if value ≠ [] then value else default

def moduleGetObjcExtension (db : Modules) (name : Option Word) : List Word :=
  db.extensionOr name "OBJC_EXTENSION" [dotM]

/-- `module-get-objc++-extension`. Without an argument it reads `__ndk_modules..OBJCPP_EXTENSION`,
    which nothing sets. -/
def moduleGetObjcppExtension (db : Modules) (name : Option Word) : List Word :=
  db.extensionOr name "OBJCPP_EXTENSION" [dotMm]

def moduleGetCppExtensions (db : Modules) (name : Option Word) : List Word :=
  db.extensionOr name "CPP_EXTENSION" defaultCppExtensions

/-- `__files`, before the loops and filters. -/
def sourceFiles (db : Modules) (name : Word) : List Word :=
  dropSuffix ".arm".toList (dropSuffix ".neon".toList (db.field name "SRC_FILES"))

def moduleGetObjcSources (db : Modules) (name : Word) : List Word :=
  let objc := Word.filter (percentValue (db.moduleGetObjcExtension (some name)))
    (db.sourceFiles name)
  if objc ≠ [] then objc
  else Word.filter (percentValue (db.moduleGetObjcppExtension none)) (db.sourceFiles name)

def moduleGetObjcppSources (db : Modules) (name : Word) : List Word :=
  Word.filter (percentValue (db.moduleGetObjcppExtension none)) (db.sourceFiles name)

def moduleGetCppSources (db : Modules) (name : Word) : List Word :=
  Word.filter ((db.moduleGetCppExtensions (some name)).map percent) (db.sourceFiles name)

/-- The libraries of a runtime, as `ndk-stl-register` and `ndk-objc-register` record them. -/
structure RuntimeLibs where
  static : List Word
  shared : List Word
  ldlibs : List Word

/-- `modules-add-c++-dependencies`, as `ndk-stl-add-dependencies` calls it. -/
def ndkStlAddDependencies (db : Modules) (stl : RuntimeLibs) : Modules :=
  db.addRuntime {
    needed := fun db name => db.moduleGetCppSources name ≠ [] ∨ db.moduleGetObjcppSources name ≠ []
    static := stl.static
    shared := stl.shared
    ldlibs := stl.ldlibs }

def ndkObjcAddDependencies (db : Modules) (objc : RuntimeLibs) : Modules :=
  db.addRuntime {
    needed := fun db name => db.moduleGetObjcSources name ≠ [] ∨ db.moduleGetObjcppSources name ≠ []
    static := objc.static
    shared := objc.shared
    ldlibs := objc.ldlibs }

end Modules

/-!
## Module imports

An `Android.mk` defines modules, with `module-add`, and imports others with
`$(call import-module,<tag>)`, which looks for `<dir>/<tag>/Android.mk` in the import directories
and includes it. Files import each other in cycles, so a tag is entered in `__ndk_import_list`
before its file is read. `__ndk_import_depth` is a string of `x`s, one for each import that is being
read; here it is the number of them. Modules that are defined when there are none are the top
modules.

All these variables are global: `__import_tag` and `__imported_path` have other values after the
file was included. Tags are names of directories that `wildcard` and `include` take as they are.
-/

/-- A module, with the variables that `module-add` asserts to be defined. -/
structure Definition where
  name : Word
  locals : Locals
  defined : ∀ f ∈ ["MAKEFILE", "BUILT_MODULE", "OBJS_DIR", "MODULE_CLASS"], locals f ≠ []

/-- What an `Android.mk` does, in this order. -/
inductive Action where
  | define (module : Definition)
  | importModule (tag : Word)

/-- The file system: the directories with an `Android.mk`, and `__ndk_import_dirs`. -/
structure Tree where
  eval : Eval
  files : List (List Char × List Action)
  importDirs : List Word

/-- Why make stops. `fuel` is not one of its reasons: it stands for more nested files than the model
    was to read. -/
inductive Stop where
  | alreadyDefined (name : Word)
  | cannotFind (tag : Word)
  | fuel
deriving DecidableEq

structure ImportVars where
  db : Modules
  topModules : List Word
  importList : List Word
  importDepth : Nat
  importTag : Option Word
  importedPath : Option (List Char)
  /-- The directories whose files were included. -/
  included : List (List Char)

namespace ImportVars

def initial : ImportVars where
  db := Modules.clear
  topModules := []
  importList := []
  importDepth := 0
  importTag := none
  importedPath := none
  included := []

def moduleAdd (st : ImportVars) (eval : Eval) (module : Definition) : Except Stop ImportVars :=
  match st.db.moduleAdd eval module.name module.locals with
  | none => .error (.alreadyDefined module.name)
  | some db =>
    .ok { st with
      db
      topModules :=
        if st.importDepth = 0 then setInsert st.topModules module.name else st.topModules }

end ImportVars

namespace Tree

def androidMk (tree : Tree) (path : List Char) : List Action := (tree.files.lookup path).getD []

def importFindModule (tree : Tree) (tag : Word) : Option (List Char) :=
  (tree.importDirs.map fun dir => dir.chars ++ '/' :: tag.chars).find? fun path =>
    (tree.files.lookup path).isSome

/-- `import-module`, when `read` is what the `include` does. -/
def importModule (tree : Tree) (read : ImportVars → List Action → Except Stop ImportVars)
    (st : ImportVars) (tag : Word) : Except Stop ImportVars :=
  let st := { st with importTag := some tag }
  if setIsMember st.importList tag then .ok st
  else
    let st := { st with importedPath := tree.importFindModule tag }
    match st.importedPath with
    | none => .error (.cannotFind tag)
    | some path => do
      let st := { st with
        importDepth := st.importDepth + 1
        importList := setInsert st.importList tag
        included := st.included ++ [path] }
      let st ← read st (tree.androidMk path)
      return { st with importDepth := st.importDepth - 1 }

def act (tree : Tree) (read : ImportVars → List Action → Except Stop ImportVars)
    (st : ImportVars) : Action → Except Stop ImportVars
  | .define module => st.moduleAdd tree.eval module
  | .importModule tag => tree.importModule read st tag

def readFile (tree : Tree) : Nat → ImportVars → List Action → Except Stop ImportVars
  | 0, _, _ => .error .fuel
  | fuel + 1, st, actions => actions.foldlM (tree.act (tree.readFile fuel)) st

end Tree

end CrystaxNdk.Build
