import CrystaxNdk.CrazyLinker.Names
import CrystaxNdk.Lib.Fields

/-!
# The order in which `FindFile` looks

A `SearchPathList` keeps two texts, and what it stands for are the path lists added since the last
reset, and the list of the environment. `FindFile` answers with the first regular file among the
items of these, in order.
-/

namespace CrystaxNdk.CrazyLinker

open Lib List

/-- Which paths are regular files. A path that is empty or ends in a slash can at best be a
    directory. -/
structure RegularFiles where
  isFile : CString → Bool
  noSlash : ∀ path, path = [] ∨ path.getLast? = some '/' → isFile path = false

/-- What is called on a `SearchPathList`. For `ResetFromEnv` it is what `GetEnv` answers. -/
inductive SearchCall where
  | resetFromEnv (env : Option CString)
  | addPaths (paths : CString)

def SearchPathList.after (calls : List SearchCall) : SearchPathList :=
  calls.foldl (fun s call =>
    match call with
    | .resetFromEnv env => resetFromEnv env
    | .addPaths paths => s.addPaths paths) reset

/-- The path lists in the order in which they are to be searched. -/
structure SearchOrder where
  added : List CString
  env : CString

namespace SearchOrder

def step (o : SearchOrder) : SearchCall → SearchOrder
  | .resetFromEnv env => { added := [], env := env.getD [] }
  | .addPaths paths => { o with added := o.added ++ [paths] }

def after (calls : List SearchCall) : SearchOrder :=
  calls.foldl step { added := [], env := [] }

/-- The name in the directory that an item stands for. -/
def joined (name item : CString) : CString :=
  if item = [] then name
  else if item.getLast? = some '/' then item ++ name
  else item ++ '/' :: name

def candidates (o : SearchOrder) (name : CString) : List CString :=
  ((o.added ++ [o.env]).flatMap (separatedItems ':')).map (joined name)

theorem joined_nil (item : CString) :
    joined [] item = [] ∨ (joined [] item).getLast? = some '/' := by
  rw [joined]
  split
  · exact Or.inl rfl
  · split
    · rename_i hlast
      rw [append_nil]
      exact Or.inr hlast
    · exact Or.inr (by simp)

end SearchOrder

namespace SearchPathList

variable {s : SearchPathList} {o : SearchOrder}

theorem itemsFrom_eq {cur : CString} (hcur : ':' ∉ cur) (l : CString) (h : cur ++ l ≠ []) :
    itemsFrom cur l = separatedItems ':' (cur ++ l) := by
  induction l generalizing cur with
  | nil =>
    rw [append_nil] at h ⊢
    rw [itemsFrom, separatedItems_of_not_mem hcur h]
  | cons c l ih =>
    rw [itemsFrom]
    by_cases hc : c = ':'
    · subst hc
      rw [if_pos rfl, separatedItems_append_cons hcur]
      by_cases hl : l = []
      · simp [hl]
      · rw [if_neg hl, ih not_mem_nil hl, nil_append]
    · rw [if_neg hc, ih (by simpa [hcur] using Ne.symm hc) (by simp), append_assoc,
        singleton_append]

theorem items_eq (l : CString) : items l = separatedItems ':' l := by
  rw [items]
  by_cases hl : l = []
  · simp [hl]
  · rw [if_neg hl, itemsFrom_eq not_mem_nil l hl, nil_append]

theorem candidate_eq (name item : CString) :
    candidate name item = SearchOrder.joined name item := by
  rw [candidate, SearchOrder.joined]
  by_cases hitem : item = []
  · simp [hitem]
  · by_cases hlast : item.getLast? = some '/'
    · simp [hitem, hlast]
    · simp [hitem, hlast]

structure Holds (s : SearchPathList) (o : SearchOrder) : Prop where
  list : separatedItems ':' s.list = o.added.flatMap (separatedItems ':')
  env : s.envList = o.env

theorem holds_reset : Holds reset { added := [], env := [] } := ⟨by simp [reset], rfl⟩

theorem Holds.addPaths (h : Holds s o) (paths : CString) :
    Holds (s.addPaths paths) (o.step (.addPaths paths)) := by
  refine ⟨?_, h.env⟩
  rw [SearchPathList.addPaths, withSeparator, separatedItems_join, h.list, SearchOrder.step,
    flatMap_append, flatMap_singleton]

theorem holds_resetFromEnv (o : SearchOrder) (env : Option CString) :
    Holds (resetFromEnv env) (o.step (.resetFromEnv env)) := by
  cases env with
  | none => exact holds_reset
  | some text => exact ⟨by simp [resetFromEnv, reset, SearchOrder.step], rfl⟩

/-- After any calls the texts hold the path lists of the last reset and since. -/
theorem holds_after (calls : List SearchCall) : Holds (after calls) (SearchOrder.after calls) := by
  induction calls using List.reverseRecOn with
  | nil => exact holds_reset
  | append_singleton calls call ih =>
    rw [after, SearchOrder.after, foldl_append, foldl_append]
    cases call with
    | resetFromEnv env => exact holds_resetFromEnv (SearchOrder.after calls) env
    | addPaths paths => exact ih.addPaths paths

theorem Holds.items_fullList (h : Holds s o) :
    items s.fullList = (o.added ++ [o.env]).flatMap (separatedItems ':') := by
  rw [items_eq, fullList, h.env, flatMap_append, flatMap_singleton, ← h.list]
  split
  · rw [withSeparator, separatedItems_join]
  · rename_i henv
    rw [not_not.mp henv, separatedItems_nil, append_nil]

/-- `FindFile` gives the first regular file among the candidates, after any calls. -/
theorem findFile_after (files : RegularFiles) (calls : List SearchCall) (name : CString) :
    (after calls).findFile files.isFile name =
      ((SearchOrder.after calls).candidates name).find? files.isFile := by
  have hitems := (holds_after calls).items_fullList
  rw [findFile, hitems, SearchOrder.candidates, map_congr_left fun item _ =>
    candidate_eq name item]
  split
  · rename_i hname
    subst hname
    symm
    rw [find?_eq_none]
    intro path hpath
    obtain ⟨item, -, rfl⟩ := mem_map.mp hpath
    rw [Bool.not_eq_true]
    exact files.noSlash _ (SearchOrder.joined_nil item)
  · rfl

def oneFile : RegularFiles where
  isFile path := path = ['b', '/', 'x']
  noSlash := by
    rintro path (rfl | hlast)
    · rfl
    · rw [decide_eq_false_iff_not]
      rintro rfl
      exact absurd hlast (by decide)

theorem findFile_after_oneFile :
    (after [.addPaths ['a', ':', 'b']]).findFile oneFile.isFile ['x'] = some ['b', '/', 'x'] := by
  rw [findFile_after]
  decide +kernel

end SearchPathList

end CrystaxNdk.CrazyLinker
