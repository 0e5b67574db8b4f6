import CrystaxNdk.Build.Modules
import CrystaxNdk.Build.Proof.Exports

/-!
# What an `Android.mk` imports

Reading a file is a depth-first walk through the tags it imports. A tag is in the list of imports
from the moment its file is found, so each file below it is read with one tag less to go, and what
was read is told by the tags that are new in the list when it is done (`Done`). The one thing that
stops the walk is a module that is defined again, and then there are two definitions with its name
in the files that were read so far.

`set_is_member` takes the tags in the list, and the names of the modules, as patterns. All this
holds for names that do not match each other.
-/

namespace CrystaxNdk.Build

open Lib Relation List

/-! ## What is in the files -/

def Action.defines? : Action → Option Word
  | .define module => some module.name
  | .importModule _ => none

def Action.imports? : Action → Option Word
  | .define _ => none
  | .importModule tag => some tag

def definitions (actions : List Action) : List Word := actions.filterMap Action.defines?

def imports (actions : List Action) : List Word := actions.filterMap Action.imports?

namespace Tree

def fileOf (tree : Tree) (tag : Word) : List Action :=
  ((tree.importFindModule tag).map tree.androidMk).getD []

def deps (tree : Tree) (tag : Word) : List Word := imports (tree.fileOf tag)

/-- What reading `actions`, and the files of `tags`, defines. -/
def defined (tree : Tree) (actions : List Action) (tags : List Word) : List Word :=
  definitions actions ++ tags.flatMap fun tag => definitions (tree.fileOf tag)

/-- The tags that are imported from `actions` directly or through other files. -/
def Imported (tree : Tree) (actions : List Action) (tag : Word) : Prop :=
  Reached tree.deps (imports actions) tag

/-- The modules that are defined in `actions` or in a file that is imported from there. -/
def Defines (tree : Tree) (actions : List Action) (name : Word) : Prop :=
  name ∈ definitions actions ∨
    ∃ tag, tree.Imported actions tag ∧ name ∈ definitions (tree.fileOf tag)

def DefinedOnce (tree : Tree) (actions : List Action) : Prop :=
  ∀ tags : List Word, tags.Nodup → (∀ tag ∈ tags, tree.Imported actions tag) →
    (tree.defined actions tags).Nodup

/-- All tags can be found, and neither tags nor names match each other as patterns. -/
structure Importable (tree : Tree) (top : List Action) : Prop where
  found : ∀ tag, tree.Imported top tag → tree.importFindModule tag ≠ none
  tags : ∀ tag tag', tree.Imported top tag → tree.Imported top tag' →
    tag.patternMatches tag' = true → tag = tag'
  names : ∀ name name', tree.Defines top name → tree.Defines top name' →
    name.patternMatches name' = true → name = name'

variable {tree : Tree} {top actions rest : List Action} {st st' st'' : ImportVars}

def allTags (tree : Tree) (top : List Action) : Finset Word :=
  (imports top ++ tree.files.flatMap fun file => imports file.2).toFinset

variable {tag : Word}

theorem mem_allTags (h : tree.Imported top tag) : tag ∈ tree.allTags top := by
  rw [allTags, mem_toFinset, mem_append]
  obtain ⟨root, hroot, hpath⟩ := h
  rcases ReflTransGen.cases_tail hpath with rfl | ⟨parent, -, hstep⟩
  · exact Or.inl hroot
  · refine Or.inr ?_
    change tag ∈ imports (tree.fileOf parent) at hstep
    rw [fileOf] at hstep
    cases hfind : tree.importFindModule parent with
    | none =>
      rw [hfind] at hstep
      cases hstep
    | some path =>
      rw [hfind, Option.map_some, Option.getD_some, androidMk] at hstep
      cases hfile : tree.files.lookup path with
      | none =>
        rw [hfile] at hstep
        cases hstep
      | some file =>
        rw [hfile, Option.getD_some] at hstep
        obtain ⟨before, after, hfiles, -⟩ := lookup_eq_some_iff.mp hfile
        exact mem_flatMap.mpr ⟨(path, file), by simp [hfiles], hstep⟩

theorem Imported.mono (hsub : imports actions ⊆ imports rest) (h : tree.Imported actions tag) :
    tree.Imported rest tag := by
  obtain ⟨root, hroot, hpath⟩ := h
  exact ⟨root, hsub hroot, hpath⟩

theorem Imported.fileOf {tag' : Word} (h : tree.Imported actions tag)
    (h' : tree.Imported (tree.fileOf tag) tag') : tree.Imported actions tag' := by
  obtain ⟨root, hroot, hpath⟩ := h
  obtain ⟨next, hnext, hpath'⟩ := h'
  exact ⟨root, hroot, (hpath.tail hnext).trans hpath'⟩

/-! ## Definitions -/

/-- These names can be defined one after another when `modules` are there. -/
def Once (modules names : List Word) : Prop := names.Nodup ∧ ∀ name ∈ names, name ∉ modules

theorem once_append {modules modules' names names' : List Word}
    (hmodules : ∀ name, name ∈ modules' ↔ name ∈ modules ∨ name ∈ names) :
    Once modules (names ++ names') ↔ Once modules names ∧ Once modules' names' := by
  unfold Once
  simp only [nodup_append, mem_append, hmodules]
  constructor
  · rintro ⟨⟨hnodup, hnodup', hne⟩, hnew⟩
    refine ⟨⟨hnodup, fun name h => hnew name (Or.inl h)⟩, hnodup', fun name h => ?_⟩
    rintro (hold | hmem)
    · exact hnew name (Or.inr h) hold
    · exact hne name hmem name h rfl
  · rintro ⟨⟨hnodup, hnew⟩, hnodup', hnew'⟩
    refine ⟨⟨hnodup, hnodup', fun name h name' h' heq => hnew' name' h' (Or.inr (heq ▸ h))⟩, ?_⟩
    rintro name (h | h)
    · exact hnew name h
    · exact fun hold => hnew' name h (Or.inl hold)

theorem Once.perm {modules names names' : List Word} (hperm : names.Perm names')
    (h : Once modules names) : Once modules names' :=
  ⟨hperm.nodup_iff.mp h.1, fun name hname => h.2 name (hperm.mem_iff.mpr hname)⟩

theorem defined_append (actions actions' : List Action) (tags tags' : List Word) :
    (tree.defined (actions ++ actions') (tags ++ tags')).Perm
      (tree.defined actions tags ++ tree.defined actions' tags') := by
  simp only [defined, definitions, filterMap_append, flatMap_append]
  rw [perm_iff_count]
  intro name
  simp only [count_append]
  omega

/-! ## What reading does -/

/-- Everything in the lists comes from the files. -/
structure Within (tree : Tree) (top : List Action) (st : ImportVars) : Prop where
  tags : ∀ tag ∈ st.importList, tree.Imported top tag
  names : ∀ name ∈ st.db.modules, tree.Defines top name

/-- The actions have been carried out, and for that the files of `new` were read. -/
structure Done (tree : Tree) (st st' : ImportVars) (actions : List Action) (new : List Word) :
    Prop where
  depth : st'.importDepth = st.importDepth
  mem_list : ∀ tag, tag ∈ st'.importList ↔ tag ∈ st.importList ∨ tag ∈ new
  nodup : new.Nodup
  fresh : ∀ tag ∈ new, tag ∉ st.importList
  listed : ∀ tag ∈ imports actions, tag ∈ st'.importList
  closed : ∀ tag ∈ new, ∀ dep ∈ tree.deps tag, dep ∈ st'.importList
  imported : ∀ tag ∈ new, tree.Imported actions tag
  included : st'.included.map some = st.included.map some ++ new.map tree.importFindModule
  modules : ∀ name, name ∈ st'.db.modules ↔
    name ∈ st.db.modules ∨ name ∈ tree.defined actions new
  top : ∀ name, name ∈ st'.topModules ↔
    name ∈ st.topModules ∨ st.importDepth = 0 ∧ name ∈ definitions actions

/-- Reading ends with all actions done, or at a second definition of a module. -/
def Outcome (tree : Tree) (st : ImportVars) (actions : List Action)
    (res : Except Stop ImportVars) : Prop :=
  (∃ st' new, res = .ok st' ∧ tree.Done st st' actions new ∧
    Once st.db.modules (tree.defined actions new)) ∨
  ∃ name new, res = .error (.alreadyDefined name) ∧ new.Nodup ∧
    (∀ tag ∈ new, tag ∉ st.importList ∧ tree.Imported actions tag) ∧
    ¬Once st.db.modules (tree.defined actions new)

structure Part (tree : Tree) (top actions : List Action) : Prop where
  tags : ∀ tag ∈ imports actions, tree.Imported top tag
  names : ∀ name ∈ definitions actions, tree.Defines top name

theorem part_top : tree.Part top top where
  tags := fun tag htag => ⟨tag, htag, ReflTransGen.refl⟩
  names := fun _ hname => Or.inl hname

theorem part_fileOf (h : tree.Imported top tag) :
    tree.Part top (tree.fileOf tag) where
  tags := fun _ htag => h.tail htag
  names := fun _ hname => Or.inr ⟨tag, h, hname⟩

theorem Part.imported (hpart : tree.Part top actions) (h : tree.Imported actions tag) :
    tree.Imported top tag := by
  obtain ⟨root, hroot, hpath⟩ := h
  obtain ⟨root', hroot', hpath'⟩ := hpart.tags root hroot
  exact ⟨root', hroot', hpath'.trans hpath⟩

theorem Part.of_append (h : tree.Part top (actions ++ rest)) :
    tree.Part top actions ∧ tree.Part top rest := by
  have htags := h.tags
  have hnames := h.names
  simp only [Build.imports, definitions, filterMap_append, mem_append] at htags hnames
  exact ⟨⟨fun tag ht => htags tag (Or.inl ht), fun name hn => hnames name (Or.inl hn)⟩,
    ⟨fun tag ht => htags tag (Or.inr ht), fun name hn => hnames name (Or.inr hn)⟩⟩

variable {new : List Word}

theorem Done.within (hdone : tree.Done st st' actions new) (hpart : tree.Part top actions)
    (h : tree.Within top st) : tree.Within top st' where
  tags := by
    intro tag htag
    rcases (hdone.mem_list tag).mp htag with hold | hnew
    · exact h.tags tag hold
    · exact hpart.imported (hdone.imported tag hnew)
  names := by
    intro name hname
    rcases (hdone.modules name).mp hname with hold | hnew
    · exact h.names name hold
    · rcases mem_append.mp hnew with hhere | hthere
      · exact hpart.names name hhere
      · obtain ⟨tag, htag, hdef⟩ := mem_flatMap.mp hthere
        exact Or.inr ⟨tag, hpart.imported (hdone.imported tag htag), hdef⟩

/-! ## Actions one after another -/

theorem imports_append_left : imports actions ⊆ imports (actions ++ rest) := by
  simp [imports, filterMap_append]

theorem imports_append_right : imports rest ⊆ imports (actions ++ rest) := by
  simp [imports, filterMap_append]

theorem Done.append {new' : List Word} (h : tree.Done st st' actions new)
    (h' : tree.Done st' st'' rest new') : tree.Done st st'' (actions ++ rest) (new ++ new') where
  depth := h'.depth.trans h.depth
  mem_list := by
    intro tag
    rw [h'.mem_list, h.mem_list, mem_append, or_assoc]
  nodup := by
    rw [nodup_append]
    refine ⟨h.nodup, h'.nodup, ?_⟩
    rintro tag htag _ htag' rfl
    exact h'.fresh tag htag' ((h.mem_list tag).mpr (Or.inr htag))
  fresh := by
    intro tag htag hold
    rcases mem_append.mp htag with hnew | hnew
    · exact h.fresh tag hnew hold
    · exact h'.fresh tag hnew ((h.mem_list tag).mpr (Or.inl hold))
  listed := by
    intro tag htag
    simp only [imports, filterMap_append, mem_append] at htag
    rcases htag with hhere | hthere
    · exact (h'.mem_list tag).mpr (Or.inl (h.listed tag hhere))
    · exact h'.listed tag hthere
  closed := by
    intro tag htag dep hdep
    rcases mem_append.mp htag with hnew | hnew
    · exact (h'.mem_list dep).mpr (Or.inl (h.closed tag hnew dep hdep))
    · exact h'.closed tag hnew dep hdep
  imported := by
    intro tag htag
    rcases mem_append.mp htag with hnew | hnew
    · exact (h.imported tag hnew).mono imports_append_left
    · exact (h'.imported tag hnew).mono imports_append_right
  included := by
    rw [h'.included, h.included, map_append, append_assoc]
  modules := by
    intro name
    rw [h'.modules, h.modules, (defined_append actions rest new new').mem_iff, mem_append,
      or_assoc]
  top := by
    intro name
    rw [h'.top, h.top, h.depth]
    simp only [definitions, filterMap_append, mem_append]
    tauto

theorem Done.once_iff {new' : List Word} (h : tree.Done st st' actions new) :
    Once st.db.modules (tree.defined (actions ++ rest) (new ++ new')) ↔
      Once st.db.modules (tree.defined actions new) ∧
        Once st'.db.modules (tree.defined rest new') := by
  rw [← once_append h.modules]
  have hperm : (tree.defined (actions ++ rest) (new ++ new')).Perm
      (tree.defined actions new ++ tree.defined rest new') := defined_append _ _ _ _
  exact ⟨Once.perm hperm, Once.perm hperm.symm⟩

theorem Outcome.bind {res : Except Stop ImportVars} {next : ImportVars → Except Stop ImportVars}
    (h : tree.Outcome st actions res)
    (hnext : ∀ st' new, tree.Done st st' actions new → res = .ok st' →
      tree.Outcome st' rest (next st')) :
    tree.Outcome st (actions ++ rest) (res >>= next) := by
  rcases h with ⟨st', new, rfl, hdone, honce⟩ | ⟨name, new, rfl, hnodup, hnew, hnot⟩
  · rcases hnext st' new hdone rfl with ⟨st'', new', hres, hdone', honce'⟩ |
      ⟨name, new', hres, hnodup', hnew', hnot⟩
    · exact Or.inl ⟨st'', new ++ new', hres, hdone.append hdone',
        hdone.once_iff.mpr ⟨honce, honce'⟩⟩
    · refine Or.inr ⟨name, new ++ new', hres, ?_, ?_,
        fun honce' => hnot (hdone.once_iff.mp honce').2⟩
      · rw [nodup_append]
        refine ⟨hdone.nodup, hnodup', ?_⟩
        rintro tag htag _ htag' rfl
        exact (hnew' tag htag').1 ((hdone.mem_list tag).mpr (Or.inr htag))
      · intro tag htag
        rcases mem_append.mp htag with htag | htag
        · exact ⟨hdone.fresh tag htag, (hdone.imported tag htag).mono imports_append_left⟩
        · exact ⟨fun hold => (hnew' tag htag).1 ((hdone.mem_list tag).mpr (Or.inl hold)),
            (hnew' tag htag).2.mono imports_append_right⟩
  · refine Or.inr ⟨name, new, rfl, hnodup, ?_, fun honce => hnot ?_⟩
    · exact fun tag htag => ⟨(hnew tag htag).1, (hnew tag htag).2.mono imports_append_left⟩
    · rw [← append_nil new] at honce
      have hsplit := honce.perm (defined_append actions rest new [])
      exact ((once_append fun _ => mem_append).mp hsplit).1

/-! ## One action -/

theorem setIsMember_iff {set : List Word} {name : Word}
    (h : ∀ other ∈ set, other.patternMatches name = true → other = name) :
    setIsMember set name = true ↔ name ∈ set := by
  refine ⟨fun hmember => ?_, Modules.setIsMember_of_mem⟩
  rw [setIsMember, decide_eq_true_eq, Word.filter, ne_eq, filter_eq_nil_iff] at hmember
  simp only [mem_singleton, forall_eq, not_not, any_eq_true] at hmember
  obtain ⟨other, hother, hmatch⟩ := hmember
  rw [← h other hother hmatch]
  exact hother

theorem moduleAdd_eq_none {db : Modules} {eval : Eval} {module : Definition}
    (h : db.moduleAdd eval module.name module.locals = none) :
    setIsMember db.modules module.name = true := by
  unfold Modules.moduleAdd at h
  split_ifs at h with hdefined hmember
  · obtain ⟨f, hf, hempty⟩ := hdefined
    exact absurd hempty (module.defined f hf)
  · exact hmember

theorem outcome_define (himp : tree.Importable top) (h : tree.Within top st) (module : Definition)
    (hpart : tree.Part top [.define module]) :
    tree.Outcome st [.define module] (st.moduleAdd tree.eval module) := by
  have hdefs : tree.defined [.define module] [] = [module.name] := rfl
  unfold ImportVars.moduleAdd
  cases hadd : st.db.moduleAdd tree.eval module.name module.locals with
  | none =>
    refine Or.inr ⟨module.name, [], rfl, nodup_nil, by simp, fun honce => ?_⟩
    have hmem : module.name ∈ st.db.modules := by
      refine (setIsMember_iff fun other hother => ?_).mp (moduleAdd_eq_none hadd)
      exact himp.names other module.name (h.names other hother)
        (hpart.names module.name mem_cons_self)
    exact honce.2 module.name (by rw [hdefs]; simp) hmem
  | some db =>
    have hmodules : ∀ name, name ∈ db.modules ↔ name ∈ st.db.modules ∨ name = module.name :=
      fun _ => Modules.mem_modules_moduleAdd hadd
    obtain ⟨hnot, -⟩ := Modules.moduleAdd_eq_some hadd
    refine Or.inl ⟨_, [], rfl, ?_, ?_⟩
    · constructor
      · rfl
      · simp
      · exact nodup_nil
      · simp
      · simp [imports, Action.imports?]
      · simp
      · simp
      · simp
      · intro name
        rw [hdefs, mem_singleton]
        exact hmodules name
      · intro name
        by_cases hdepth : st.importDepth = 0
        · simp [hdepth, Modules.mem_setInsert, definitions, Action.defines?]
        · simp [hdepth]
    · rw [hdefs]
      refine ⟨nodup_singleton _, fun name hname hold => ?_⟩
      rw [mem_singleton.mp hname] at hold
      rw [Modules.setIsMember_of_mem hold] at hnot
      cases hnot

/-- The variables when the file of a tag is included. -/
def enter (st : ImportVars) (tag : Word) (path : List Char) : ImportVars :=
  { st with
    importTag := some tag
    importedPath := some path
    importDepth := st.importDepth + 1
    importList := setInsert st.importList tag
    included := st.included ++ [path] }

def leave (st : ImportVars) : ImportVars := { st with importDepth := st.importDepth - 1 }

theorem importModule_eq {read : ImportVars → List Action → Except Stop ImportVars}
    {path : List Char} (hfind : tree.importFindModule tag = some path)
    (hmember : setIsMember st.importList tag = false) :
    tree.importModule read st tag = read (enter st tag path) (tree.fileOf tag) >>= fun st' =>
      .ok (leave st') := by
  have hfile : tree.fileOf tag = tree.androidMk path := by rw [fileOf, hfind]; rfl
  unfold importModule
  simp only [hmember, Bool.false_eq_true, if_false, hfind, hfile]
  rfl

theorem Done.leave {path : List Char} (hfind : tree.importFindModule tag = some path)
    (hfresh : tag ∉ st.importList) (h : tree.Done (enter st tag path) st' (tree.fileOf tag) new) :
    tree.Done st (leave st') [.importModule tag] (tag :: new) := by
  -- the tag is entered before its file is read, so that the file finds it in the list
  have himports : imports [.importModule tag] = [tag] := rfl
  have hlist : ∀ other, other ∈ (enter st tag path).importList ↔
      other ∈ st.importList ∨ other = tag := fun _ => Modules.mem_setInsert
  have htag : tree.Imported [.importModule tag] tag := ⟨tag, by simp [himports], ReflTransGen.refl⟩
  constructor
  · have hdepth : st'.importDepth = st.importDepth + 1 := h.depth
    rw [Tree.leave, hdepth, Nat.add_sub_cancel]
  · intro other
    rw [Tree.leave, h.mem_list, hlist, mem_cons, or_assoc]
  · refine nodup_cons.mpr ⟨fun hnew => ?_, h.nodup⟩
    exact h.fresh tag hnew ((hlist tag).mpr (Or.inr rfl))
  · intro other hother hold
    rcases mem_cons.mp hother with rfl | hnew
    · exact hfresh hold
    · exact h.fresh other hnew ((hlist other).mpr (Or.inl hold))
  · intro other hother
    rw [himports, mem_singleton] at hother
    exact (h.mem_list other).mpr (Or.inl ((hlist other).mpr (Or.inr hother)))
  · intro other hother dep hdep
    rcases mem_cons.mp hother with rfl | hnew
    · exact h.listed dep hdep
    · exact h.closed other hnew dep hdep
  · intro other hother
    rcases mem_cons.mp hother with rfl | hnew
    · exact htag
    · exact htag.fileOf (h.imported other hnew)
  · have hincluded := h.included
    simp only [enter, map_append, map_cons, map_nil] at hincluded
    rw [Tree.leave, hincluded, map_cons, hfind, append_assoc, singleton_append]
  · intro name
    have hdefs : tree.defined [.importModule tag] (tag :: new) =
        tree.defined (tree.fileOf tag) new := rfl
    rw [hdefs]
    exact h.modules name
  · intro name
    have hdeep : ¬(enter st tag path).importDepth = 0 := Nat.succ_ne_zero _
    have htop := h.top name
    simp only [hdeep, false_and, or_false] at htop
    have hnone : definitions [.importModule tag] = [] := rfl
    rw [hnone]
    simp only [not_mem_nil, and_false, or_false]
    exact htop

theorem within_enter (path : List Char) (h : tree.Within top st) (htag : tree.Imported top tag) :
    tree.Within top (enter st tag path) where
  tags := by
    intro other hother
    rcases Modules.mem_setInsert.mp hother with hold | rfl
    · exact h.tags other hold
    · exact htag
  names := h.names

theorem outcome_import (himp : tree.Importable top) (h : tree.Within top st)
    (htag : tree.Imported top tag) {read : ImportVars → List Action → Except Stop ImportVars}
    (hread : ∀ path, tag ∉ st.importList →
      tree.Outcome (enter st tag path) (tree.fileOf tag)
        (read (enter st tag path) (tree.fileOf tag))) :
    tree.Outcome st [.importModule tag] (tree.importModule read st tag) := by
  have hmember : setIsMember st.importList tag = true ↔ tag ∈ st.importList :=
    setIsMember_iff fun other hother => himp.tags other tag (h.tags other hother) htag
  by_cases hold : tag ∈ st.importList
  · -- nothing is read
    have hskip : tree.importModule read st tag = .ok { st with importTag := some tag } := by
      unfold importModule
      simp only [hmember.mpr hold, if_true]
    refine Or.inl ⟨_, [], hskip, ?_, nodup_nil, by simp [defined, definitions,
      Action.defines?]⟩
    constructor
    · rfl
    · simp
    · exact nodup_nil
    · simp
    · intro other hother
      have hother' : other = tag := by simpa [imports, Action.imports?] using hother
      rw [hother']
      exact hold
    · simp
    · simp
    · simp
    · simp [defined, definitions, Action.defines?]
    · simp [definitions, Action.defines?]
  · obtain ⟨path, hfind⟩ := Option.ne_none_iff_exists'.mp (himp.found tag htag)
    rw [importModule_eq hfind (by rw [← Bool.not_eq_true, hmember]; exact hold)]
    rcases hread path hold with ⟨st', new, hres, hdone, honce⟩ |
      ⟨name, new, hres, hnodup, hnew, hnot⟩
    · rw [hres]
      exact Or.inl ⟨leave st', tag :: new, rfl, hdone.leave hfind hold, honce⟩
    · have hself : tree.Imported [.importModule tag] tag :=
        ⟨tag, mem_cons_self, ReflTransGen.refl⟩
      have hentered : ∀ other ∈ st.importList, other ∈ (enter st tag path).importList :=
        fun other hother => Modules.mem_setInsert.mpr (Or.inl hother)
      rw [hres]
      refine Or.inr ⟨name, tag :: new, rfl, ?_, ?_, hnot⟩
      · refine nodup_cons.mpr ⟨fun hmem => (hnew tag hmem).1 ?_, hnodup⟩
        exact Modules.mem_setInsert.mpr (Or.inr rfl)
      · intro other hother
        rcases mem_cons.mp hother with rfl | hmem
        · exact ⟨hold, hself⟩
        · exact ⟨fun hin => (hnew other hmem).1 (hentered other hin),
            hself.fileOf (hnew other hmem).2⟩

/-! ## Whole files -/

def remaining (tree : Tree) (top : List Action) (st : ImportVars) : Finset Word :=
  (tree.allTags top).filter (· ∉ st.importList)

theorem card_remaining_enter (path : List Char) (htag : tree.Imported top tag)
    (hfresh : tag ∉ st.importList) :
    (tree.remaining top (enter st tag path)).card < (tree.remaining top st).card := by
  refine Finset.card_lt_card (Finset.ssubset_iff_of_subset ?_ |>.mpr ⟨tag, ?_, ?_⟩)
  · intro other hother
    obtain ⟨hall, hnot⟩ := Finset.mem_filter.mp hother
    exact Finset.mem_filter.mpr ⟨hall, fun hold => hnot (Modules.mem_setInsert.mpr (Or.inl hold))⟩
  · exact Finset.mem_filter.mpr ⟨mem_allTags htag, hfresh⟩
  · intro hmem
    exact (Finset.mem_filter.mp hmem).2 (Modules.mem_setInsert.mpr (Or.inr rfl))

theorem Done.card_remaining_le (h : tree.Done st st' actions new) :
    (tree.remaining top st').card ≤ (tree.remaining top st).card := by
  refine Finset.card_le_card fun other hother => ?_
  obtain ⟨hall, hnot⟩ := Finset.mem_filter.mp hother
  exact Finset.mem_filter.mpr ⟨hall, fun hold => hnot ((h.mem_list other).mpr (Or.inl hold))⟩

/-- By induction on the fuel, of which each file on the way down takes one: it is enough when there
    is more of it than tags that are still to come. -/
theorem readFile_outcome (himp : tree.Importable top) {fuel : Nat}
    (hfuel : (tree.remaining top st).card < fuel) (h : tree.Within top st)
    (hpart : tree.Part top actions) :
    tree.Outcome st actions (tree.readFile fuel st actions) := by
  induction fuel generalizing st actions with
  | zero => omega
  | succ fuel ih =>
    rw [readFile]
    induction actions generalizing st with
    | nil =>
      refine Or.inl ⟨st, [], rfl, ?_, nodup_nil, by simp [defined, definitions]⟩
      constructor <;> simp [imports, defined, definitions]
    | cons action actions ihActions =>
      obtain ⟨hfirst, hrest⟩ : tree.Part top [action] ∧ tree.Part top actions :=
        Part.of_append hpart
      have haction : tree.Outcome st [action] (tree.act (tree.readFile fuel) st action) := by
        cases action with
        | define module => exact outcome_define himp h module hfirst
        | importModule tag =>
          have htag : tree.Imported top tag := hfirst.tags tag mem_cons_self
          refine outcome_import himp h htag fun path hfresh => ?_
          have hless := card_remaining_enter path htag hfresh
          exact ih (by omega) (within_enter path h htag) (part_fileOf htag)
      rw [foldlM_cons]
      refine haction.bind fun st' new hdone _ => ?_
      have hless : (tree.remaining top st').card ≤ (tree.remaining top st).card :=
        hdone.card_remaining_le
      exact ihActions (by omega) (hdone.within hfirst h) hrest

/-- From nothing, exactly the imported tags get into the list. -/
theorem Done.mem_iff (h : tree.Done ImportVars.initial st' actions new) (tag : Word) :
    tag ∈ new ↔ tree.Imported actions tag := by
  have hlist : ∀ other, other ∈ st'.importList ↔ other ∈ new := by
    intro other
    rw [h.mem_list]
    simp [ImportVars.initial]
  refine ⟨h.imported tag, ?_⟩
  rintro ⟨root, hroot, hpath⟩
  induction hpath with
  | refl => exact (hlist root).mp (h.listed root hroot)
  | tail _ hstep ih => exact (hlist _).mp (h.closed _ ih _ hstep)

theorem nodup_defined {tags other : List Word} (h : (tree.defined actions tags).Nodup)
    (hnodup : other.Nodup) (hsub : other ⊆ tags) : (tree.defined actions other).Nodup := by
  obtain ⟨sub, hperm, hsublist⟩ := subperm_of_subset hnodup hsub
  have hsmaller : (tree.defined actions sub).Nodup :=
    h.sublist (List.Sublist.append_left (hsublist.flatMap _) _)
  exact ((hperm.flatMap_right _).append_left _).nodup_iff.mp hsmaller

/-- A top-level `Android.mk` is read to its end if no module is defined twice: each tag that is
    imported from it was included once, all imports are closed, and the top modules are its own
    ones. If a module is defined twice, make stops with that. -/
theorem readFile_top (tree : Tree) (top : List Action) (himp : tree.Importable top) :
    ∃ rounds, ∀ fuel, rounds ≤ fuel →
      (tree.DefinedOnce top → ∃ (st : ImportVars) (tags : List Word),
        tree.readFile fuel ImportVars.initial top = .ok st ∧
        st.included.map some = tags.map tree.importFindModule ∧ tags.Nodup ∧
        (∀ tag, tag ∈ tags ↔ tree.Imported top tag) ∧
        st.importDepth = ImportVars.initial.importDepth ∧
        ∀ name, name ∈ st.topModules ↔ name ∈ definitions top) ∧
      (¬tree.DefinedOnce top → ∃ name,
        tree.readFile fuel ImportVars.initial top = .error (.alreadyDefined name)) := by
  refine ⟨(tree.remaining top ImportVars.initial).card + 1, fun fuel hfuel => ?_⟩
  have hwithin : tree.Within top ImportVars.initial := ⟨by simp [ImportVars.initial],
    by simp [ImportVars.initial, Modules.clear]⟩
  have houtcome : tree.Outcome ImportVars.initial top
      (tree.readFile fuel ImportVars.initial top) :=
    readFile_outcome himp (by omega) hwithin part_top
  rcases houtcome with ⟨st, tags, hrun, hdone, honce⟩ | ⟨name, tags, hrun, hnodup, htags, hnot⟩
  · refine ⟨fun _ => ⟨st, tags, hrun, ?_, hdone.nodup, hdone.mem_iff, hdone.depth, ?_⟩,
      fun htwice => absurd ?_ htwice⟩
    · simpa [ImportVars.initial] using hdone.included
    · intro name
      rw [hdone.top]
      simp [ImportVars.initial]
    · -- the tags of any other list are among those that were read
      intro other hother himported
      exact nodup_defined honce.1 hother fun tag htag =>
        (hdone.mem_iff tag).mpr (himported tag htag)
  · refine ⟨fun hdefined => absurd ?_ hnot, fun _ => ⟨name, hrun⟩⟩
    exact ⟨hdefined tags hnodup fun tag htag => (htags tag htag).2,
      by simp [ImportVars.initial, Modules.clear]⟩

section Files

open Modules

def appModule : Definition where
  name := app
  locals := fileLocals [("MODULE_CLASS", [sharedLibrary])]
  defined := by decide +kernel

def fooModule : Definition where
  name := foo
  locals := fileLocals [("MODULE_CLASS", [staticLibrary])]
  defined := by decide +kernel

def jni : Word := Word.ofString "jni" (by simp [isBlank])

def selfTree : Tree where
  eval := plainEval
  files := [("jni/foo".toList, [.define fooModule, .importModule foo])]
  importDirs := [jni]

def selfTop : List Action := [.importModule foo, .define appModule]

theorem imported_selfTop (h : selfTree.Imported selfTop tag) : tag = foo := by
  obtain ⟨root, hroot, hpath⟩ := h
  have hroots : ∀ root ∈ imports selfTop, root = foo := by decide +kernel
  have hdeps : ∀ dep ∈ selfTree.deps foo, dep = foo := by decide +kernel
  induction hpath with
  | refl => exact hroots root hroot
  | tail _ hstep ih =>
    rw [ih] at hstep
    exact hdeps _ hstep

theorem importable_selfTop : selfTree.Importable selfTop where
  found := by
    intro tag htag
    rw [imported_selfTop htag]
    decide +kernel
  tags := by
    intro tag tag' htag htag' _
    rw [imported_selfTop htag, imported_selfTop htag']
  names := by
    have hdefines : ∀ name, selfTree.Defines selfTop name → name ∈ [app, foo] := by
      rintro name (hname | ⟨tag, htag, hname⟩)
      · exact mem_cons.mpr (Or.inl (mem_singleton.mp hname))
      · rw [imported_selfTop htag] at hname
        have hnames : ∀ name ∈ definitions (selfTree.fileOf foo), name ∈ [app, foo] := by
          decide +kernel
        exact hnames name hname
    have hmatch : ∀ name ∈ [app, foo], ∀ name' ∈ [app, foo],
        name.patternMatches name' = true → name = name' := by decide +kernel
    exact fun name name' h h' => hmatch name (hdefines name h) name' (hdefines name' h')

theorem definedOnce_selfTop : selfTree.DefinedOnce selfTop := by
  intro tags hnodup htags
  have hall : (selfTree.defined selfTop [foo]).Nodup := by decide +kernel
  exact nodup_defined hall hnodup fun tag htag =>
    mem_singleton.mpr (imported_selfTop (htags tag htag))

theorem readFile_top_self : ∃ rounds, ∀ fuel, rounds ≤ fuel → ∃ (st : ImportVars)
    (tags : List Word), selfTree.readFile fuel ImportVars.initial selfTop = .ok st ∧
      st.included.map some = tags.map selfTree.importFindModule ∧ tags.Nodup ∧
      (∀ tag, tag ∈ tags ↔ selfTree.Imported selfTop tag) ∧
      st.importDepth = ImportVars.initial.importDepth ∧
      ∀ name, name ∈ st.topModules ↔ name ∈ definitions selfTop := by
  obtain ⟨rounds, hrun⟩ := readFile_top selfTree selfTop importable_selfTop
  exact ⟨rounds, fun fuel hfuel => (hrun fuel hfuel).1 definedOnce_selfTop⟩

example : (selfTree.readFile 2 ImportVars.initial selfTop).map (·.topModules) = .ok [app] := by
  decide +kernel

def fooPercent : Word := Word.ofString "fo%" (by simp [isBlank])

def percentTree : Tree where
  eval := plainEval
  files := [("jni/fo%".toList, []), ("jni/foo".toList, [.define fooModule])]
  importDirs := [jni]

/-- A module that is defined twice makes make stop; and after the tag `fo%` the tag `foo` counts as
    imported, though its file was not included. -/
theorem readFile_twice_and_percent :
    (∀ fuel st, selfTree.readFile fuel ImportVars.initial
      [.define appModule, .define appModule] ≠ .ok st) ∧
    percentTree.importFindModule foo = some "jni/foo".toList ∧
    (percentTree.readFile 2 ImportVars.initial
      [.importModule fooPercent, .importModule foo]).map (·.included) =
        .ok ["jni/fo%".toList] := by
  refine ⟨fun fuel st hrun => ?_, by decide +kernel, by decide +kernel⟩
  cases fuel with
  | zero => cases hrun
  | succ fuel =>
    have hstop : ∀ read, [Action.define appModule, Action.define appModule].foldlM
        (selfTree.act read) ImportVars.initial = .error (.alreadyDefined app) := fun _ => rfl
    rw [readFile, hstop] at hrun
    cases hrun

end Files

end Tree

end CrystaxNdk.Build
