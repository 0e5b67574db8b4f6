import CrystaxNdk.CrazyLinker.RDebug

/-!
# The debugger's list

What becomes of the list of `r_debug` in a sequence of callbacks. As long as each library is entered
once and taken out at most once, after it was entered, the list is well formed: the first two
entries of the system, then the libraries that are in, the last one first, then the other entries of
the system (`Holds.foldl_run`). When `Init` finds no `r_debug`, or the list of the system is too
short to have a third entry, no library ever gets in. The second part allows more: an entry may come
back, and may be deleted when it is not there.
-/

namespace CrystaxNdk.CrazyLinker

open Lib List Function

/-! ## The libraries that are in -/

/-- Each library is entered first and taken out then, if at all. -/
def Proper (callbacks : List Callback) : Prop :=
  ∀ lib, (callbacks.filter fun c => c.lib = lib) <+: [.addEntry lib, .delEntry lib]

/-- The libraries in the list, the last one first. -/
def listedBy (libs : List LibPtr) : Callback → List LibPtr
  | .addEntry lib => lib :: libs
  | .delEntry lib => libs.erase lib

def listed (callbacks : List Callback) : List LibPtr := callbacks.foldl listedBy []

theorem listed_concat (callbacks : List Callback) (c : Callback) :
    listed (callbacks ++ [c]) = listedBy (listed callbacks) c := by
  simp [listed]

theorem filter_lib_concat (callbacks : List Callback) (c : Callback) (lib : LibPtr) :
    ((callbacks ++ [c]).filter fun c => c.lib = lib) =
      (callbacks.filter fun c => c.lib = lib) ++ if c.lib = lib then [c] else [] := by
  rw [filter_append]
  by_cases hc : c.lib = lib
  · simp [hc]
  · simp [hc]

variable {callbacks : List Callback}

theorem Proper.init {c : Callback} (h : Proper (callbacks ++ [c])) :
    Proper callbacks := by
  intro lib
  have hlib := h lib
  rw [filter_append] at hlib
  exact (prefix_append _ _).trans hlib

theorem Proper.before_addEntry {lib : LibPtr} (h : Proper (callbacks ++ [.addEntry lib])) :
    (callbacks.filter fun c => c.lib = lib) = [] := by
  have hlib := h lib
  rw [filter_lib_concat, Callback.lib, if_pos rfl] at hlib
  exact eq_of_append_cons_prefix [] [.delEntry lib] (by simp) hlib

theorem Proper.before_delEntry {lib : LibPtr} (h : Proper (callbacks ++ [.delEntry lib])) :
    (callbacks.filter fun c => c.lib = lib) = [.addEntry lib] := by
  have hlib := h lib
  rw [filter_lib_concat, Callback.lib, if_pos rfl] at hlib
  exact eq_of_append_cons_prefix [Callback.addEntry lib] [] (by simp) hlib

theorem nodup_listed_and_mem (h : Proper callbacks) :
    (listed callbacks).Nodup ∧ ∀ lib, lib ∈ listed callbacks ↔
      (callbacks.filter fun c => c.lib = lib) = [.addEntry lib] := by
  induction callbacks using List.reverseRecOn with
  | nil => simp [listed]
  | append_singleton callbacks c ih =>
    obtain ⟨hnodup, hmem⟩ := ih h.init
    rw [listed_concat]
    cases c with
    | addEntry new =>
      have hbefore := h.before_addEntry
      have hnew : new ∉ listed callbacks := by simp [hmem, hbefore]
      refine ⟨nodup_cons.mpr ⟨hnew, hnodup⟩, fun lib => ?_⟩
      rw [filter_lib_concat, listedBy, mem_cons, hmem, Callback.lib]
      by_cases hlib : lib = new
      · simp [hlib, hbefore]
      · simp [hlib, Ne.symm hlib]
    | delEntry old =>
      have hbefore := h.before_delEntry
      refine ⟨hnodup.erase _, fun lib => ?_⟩
      rw [filter_lib_concat, listedBy, hnodup.mem_erase_iff, hmem, Callback.lib]
      by_cases hlib : lib = old
      · simp [hlib, hbefore]
      · simp [hlib, Ne.symm hlib]

/-! ## The list itself -/

namespace RDebug

variable {r : RDebug} {system : List Nat} {libs : List LibPtr} {lib : LibPtr}

def nodes (system : List Nat) (libs : List LibPtr) : List LinkMap :=
  (system.take 2).map .system ++ (libs.map .library ++ (system.drop 2).map .system)

/-- `Init` finds an `r_debug` whose list is long enough. -/
def Usable (r : RDebug) (system : List Nat) : Prop := r.found = true ∧ 3 ≤ system.length

instance (r : RDebug) (system : List Nat) : Decidable (r.Usable system) :=
  inferInstanceAs (Decidable (_ ∧ _))

/-- The list has the entries of the system and of `libs`, and `r_debug_` is set once it was looked
    for and found to be of use. -/
structure Holds (r : RDebug) (system : List Nat) (libs : List LibPtr) : Prop where
  linked : Linked r.lNext r.lPrev none r.rMap (nodes system libs)
  system_nodup : system.Nodup
  libs_nodup : libs.Nodup
  rDebug : r.rDebug = true ↔ r.init = true ∧ r.Usable system
  libs_rDebug : libs ≠ [] → r.rDebug = true

theorem holds_create {rMap : Option LinkMap} {lNext lPrev : LinkMap → Option LinkMap}
    (hlinked : Linked lNext lPrev none rMap (system.map .system)) (hnodup : system.Nodup)
    (found : Bool) (rState : RState) : (create found rMap rState lNext lPrev).Holds system [] where
  linked := by
    rw [nodes, map_nil, nil_append, ← map_append, take_append_drop]
    exact hlinked
  system_nodup := hnodup
  libs_nodup := nodup_nil
  rDebug := by simp [create]
  libs_rDebug := fun hne => absurd rfl hne

theorem library_not_mem_system (system : List Nat) : LinkMap.library lib ∉ system.map .system := by
  simp

theorem mem_nodes_library : LinkMap.library lib ∈ nodes system libs ↔ lib ∈ libs := by
  rw [nodes, mem_append, mem_append]
  simp only [library_not_mem_system, false_or, or_false]
  simp

theorem nodup_nodes (hsystem : system.Nodup) (hlibs : libs.Nodup) :
    (nodes system libs).Nodup := by
  have hinj : Injective LinkMap.system := fun a b h => LinkMap.system.inj h
  have hinj' : Injective LinkMap.library := fun a b h => LinkMap.library.inj h
  have hparts : (system.take 2 ++ system.drop 2).Nodup := by rwa [take_append_drop]
  obtain ⟨htake, hdrop, hdisj⟩ := nodup_append.mp hparts
  refine nodup_append.mpr ⟨htake.map hinj, ?_, ?_⟩
  · refine nodup_append.mpr ⟨hlibs.map hinj', hdrop.map hinj, ?_⟩
    rintro a ha b hb rfl
    obtain ⟨p, -, rfl⟩ := mem_map.mp ha
    exact library_not_mem_system _ hb
  · rintro a ha b hb rfl
    obtain ⟨p, hp, rfl⟩ := mem_map.mp ha
    rcases mem_append.mp hb with hb | hb
    · obtain ⟨q, -, heq⟩ := mem_map.mp hb
      cases heq
    · obtain ⟨q, hq, heq⟩ := mem_map.mp hb
      exact hdisj p hp q hq (LinkMap.system.inj heq).symm

/-- Only the libraries that are in can be found by going through the list. -/
theorem Holds.mem_of_isEntry (h : r.Holds system libs) (hentry : r.IsEntry (.library lib)) :
    lib ∈ libs := by
  obtain ⟨first, hfirst, hreach⟩ := hentry
  have hlinked := h.linked
  rw [hfirst] at hlinked
  exact mem_nodes_library.mp (hlinked.visits.mem_of_reach hreach)

/-! ## One callback -/

theorem nodes_of_three {a b c : Nat} {rest : List Nat} :
    nodes (a :: b :: c :: rest) libs =
      [.system a] ++ .system b :: (libs.map .library ++ .system c :: rest.map .system) := rfl

theorem ensureInit_eq (r : RDebug) :
    r.ensureInit = { r with init := true, rDebug := if r.init then r.rDebug else r.found } := by
  obtain ⟨init, found, rDebug, rMap, rState, lNext, lPrev⟩ := r
  cases init with
  | false => rfl
  | true => rfl

theorem Holds.rDebug_ensureInit (h : r.Holds system libs) (husable : r.Usable system) :
    (if r.init then r.rDebug else r.found) = true := by
  cases hinit : r.init with
  | false => exact husable.1
  | true => exact h.rDebug.mpr ⟨hinit, husable⟩

theorem Holds.addEntryImpl_eq (h : r.Holds system libs) (husable : r.Usable system)
    (entry : LinkMap) :
    ∃ a b c rest after, system = a :: b :: c :: rest ∧ after ∈ nodes system libs ∧
      r.lNext (.system b) = some after ∧
      r.addEntryImpl entry =
        { r with
          init := true
          rDebug := true
          lPrev := update (update r.lPrev entry (some (.system b))) after
            (some entry)
          lNext := update (update r.lNext entry (some after)) (.system b)
            (some entry)
          rState := .consistent } := by
  have hset := h.rDebug_ensureInit husable
  obtain ⟨a, b, c, rest, rfl⟩ : ∃ a b c rest, system = a :: b :: c :: rest := by
    have hlength := husable.2
    rcases system with _ | ⟨a, _ | ⟨b, _ | ⟨c, rest⟩⟩⟩
    · simp at hlength
    · simp at hlength
    · simp at hlength
    · exact ⟨a, b, c, rest, rfl⟩
  have hlinked := h.linked
  rw [nodes_of_three] at hlinked
  have hmap : r.rMap = some (.system a) := hlinked.1
  have hbefore : r.lNext (.system a) = some (.system b) := hlinked.2.2.1
  obtain ⟨after, hmem, hafter⟩ : ∃ after ∈ nodes (a :: b :: c :: rest) libs,
      r.lNext (.system b) = some after := by
    rw [hlinked.next_eq, nodes_of_three]
    cases libs with
    | nil => exact ⟨.system c, by simp, rfl⟩
    | cons lib libs => exact ⟨.library lib, by simp, rfl⟩
  refine ⟨a, b, c, rest, after, rfl, hmem, hafter, ?_⟩
  unfold RDebug.addEntryImpl
  rw [ensureInit_eq, hset]
  simp only [if_true, hmap, Option.bind_some, hbefore, hafter]

theorem Holds.addEntryImpl (h : r.Holds system libs) (husable : r.Usable system)
    (hnew : lib ∉ libs) : (r.addEntryImpl (.library lib)).Holds system (lib :: libs) := by
  obtain ⟨a, b, c, rest, after, rfl, -, hafter, heq⟩ := h.addEntryImpl_eq husable (.library lib)
  have hlinked := h.linked
  have hnd := nodup_nodes h.system_nodup h.libs_nodup
  rw [nodes_of_three] at hlinked hnd
  have hy : LinkMap.library lib ∉
      [.system a] ++ .system b :: (libs.map .library ++ .system c :: rest.map .system) := by
    rw [← nodes_of_three, mem_nodes_library]
    exact hnew
  have hlink := hlinked.linkAfter hnd hy
  rw [hafter] at hlink
  rw [heq]
  exact ⟨hlink, h.system_nodup, nodup_cons.mpr ⟨hnew, h.libs_nodup⟩,
    by simp [Usable, husable.1], fun _ => rfl⟩

theorem Holds.lPrev_ne_self (h : r.Holds system libs) (hlib : lib ∈ libs) :
    r.lPrev (.library lib) ≠ some (.library lib) :=
  h.linked.prev_ne_self (nodup_nodes h.system_nodup h.libs_nodup) (mem_nodes_library.mpr hlib)

theorem Holds.delEntryImpl (h : r.Holds system libs) (hlib : lib ∈ libs) :
    (r.delEntryImpl (.library lib)).Holds system (libs.erase lib) := by
  have hset : r.rDebug = true := h.libs_rDebug (ne_nil_of_mem hlib)
  obtain ⟨newer, older, rfl⟩ := append_of_mem hlib
  have hnewer : lib ∉ newer := by
    obtain ⟨-, -, hdisj⟩ := nodup_append.mp h.libs_nodup
    exact fun hmem => hdisj lib hmem lib (by simp) rfl
  -- the list around the entry; there is something in front of it, so `r_map` stays
  let front : List LinkMap := (system.take 2).map .system ++ newer.map .library
  let back : List LinkMap := older.map .library ++ (system.drop 2).map .system
  have hnodes : nodes system (newer ++ lib :: older) = front ++ .library lib :: back := by
    simp [nodes, front, back]
  have hnodes' : nodes system (newer ++ older) = front ++ back := by
    simp [nodes, front, back]
  have hlinked := h.linked
  have hnd := nodup_nodes h.system_nodup h.libs_nodup
  rw [hnodes] at hlinked hnd
  obtain ⟨first, hfront⟩ : ∃ first, front.head? = some first := by
    obtain ⟨-, -, hlength⟩ := h.rDebug.mp hset
    cases system with
    | nil => simp at hlength
    | cons a rest => exact ⟨.system a, rfl⟩
  have hne : front ≠ [] := fun hnil => by rw [hnil] at hfront; cases hfront
  have hnot : LinkMap.library lib ∉ front ++ back := by
    rw [← hnodes', mem_nodes_library]
    have hnd' := h.libs_nodup
    rw [nodup_middle, nodup_cons] at hnd'
    exact hnd'.1
  have hprev := h.lPrev_ne_self (by simp : lib ∈ newer ++ lib :: older)
  have hmap : r.rMap ≠ some (.library lib) := by
    rw [hlinked.head_eq, head?_append, hfront]
    intro heq
    obtain rfl : first = .library lib := by simpa using heq
    exact hnot (mem_append_left _ (mem_of_mem_head? hfront))
  -- the two neighbours are linked to each other, and then the links of the entry are cleared
  have hbypass := hlinked.bypass hnd (fun y hy => (by cases hy))
  rw [if_neg hne] at hbypass
  have herase : (newer ++ lib :: older).erase lib = newer ++ older := by
    rw [erase_append_right _ hnewer, erase_cons_head]
  unfold RDebug.delEntryImpl
  rw [if_pos hset, herase]
  dsimp only
  rw [if_neg hmap, assign_of_ne _ _ hprev]
  refine ⟨?_, h.system_nodup, ?_, h.rDebug, fun _ => hset⟩
  · rw [hnodes']
    refine hbypass.congr (fun y hy => ?_) fun y hy => ?_
    · exact update_of_ne (ne_of_mem_of_not_mem hy hnot) _ _
    · exact update_of_ne (ne_of_mem_of_not_mem hy hnot) _ _
  · rw [← herase]
    exact h.libs_nodup.erase _

/-- The second entry has none after it in a list that is too short. -/
theorem Holds.lNext_of_short (h : r.Holds system []) (hlength : ¬ 3 ≤ system.length) :
    ∀ before, r.rMap.bind r.lNext = some before → r.lNext before = none := by
  intro before hbefore
  have hlinked := h.linked
  rcases system with _ | ⟨a, _ | ⟨b, _ | ⟨c, rest⟩⟩⟩
  · have hmap : r.rMap = none := hlinked
    rw [hmap] at hbefore
    cases hbefore
  · obtain ⟨hmap, -, hnext⟩ := hlinked
    have hnone : r.lNext (.system a) = none := hnext
    rw [hmap, Option.bind_some, hnone] at hbefore
    cases hbefore
  · obtain ⟨hmap, -, hnext, -, hend⟩ := hlinked
    rw [hmap, Option.bind_some, hnext] at hbefore
    cases hbefore
    exact hend
  · exact absurd (by simp) hlength

theorem Holds.addEntryImpl_of_not_usable (h : r.Holds system []) (husable : ¬ r.Usable system)
    (entry : LinkMap) :
    ∃ rState, r.addEntryImpl entry = { r with init := true, rDebug := false, rState } := by
  have hunset : r.rDebug = false := by
    rw [Bool.eq_false_iff]
    exact fun hset => husable (h.rDebug.mp hset).2
  unfold RDebug.addEntryImpl
  rw [ensureInit_eq]
  cases hset : (if r.init then r.rDebug else r.found) with
  | false => exact ⟨r.rState, rfl⟩
  | true =>
    have hfound : r.found = true := by
      cases hinit : r.init with
      | false => rwa [hinit] at hset
      | true =>
        rw [hinit, if_pos rfl, hunset] at hset
        cases hset
    have hshort := h.lNext_of_short fun hlength => husable ⟨hfound, hlength⟩
    refine ⟨.add, ?_⟩
    cases hbefore : r.rMap.bind r.lNext with
    | none => simp only [if_true, hbefore]
    | some before => simp only [if_true, hbefore, hshort before hbefore]

theorem Holds.run_of_not_usable (h : r.Holds system []) (husable : ¬ r.Usable system)
    (c : Callback) : (r.run c).Holds system [] := by
  cases c with
  | addEntry lib =>
    obtain ⟨rState, heq⟩ := h.addEntryImpl_of_not_usable husable (.library lib)
    rw [run, heq]
    exact ⟨h.linked, h.system_nodup, nodup_nil, by simpa [Usable] using husable,
      fun hne => absurd rfl hne⟩
  | delEntry lib =>
    have hunset : ¬ r.rDebug = true := fun hset => husable (h.rDebug.mp hset).2
    rw [run, RDebug.delEntryImpl, if_neg hunset]
    exact h

/-! ## A sequence of callbacks -/

theorem found_run (r : RDebug) (c : Callback) : (r.run c).found = r.found := by
  cases c with
  | addEntry lib =>
    simp only [run, addEntryImpl, ensureInit_eq]
    repeat' split
    all_goals rfl
  | delEntry lib =>
    simp only [run, delEntryImpl]
    split
    · rfl
    · rfl

theorem found_foldl_run (r : RDebug) (callbacks : List Callback) :
    (callbacks.foldl run r).found = r.found := by
  induction callbacks generalizing r with
  | nil => rfl
  | cons c callbacks ih =>
    rw [foldl_cons, ih, found_run]

/-- **The list after a sequence of callbacks** has, behind the second entry of the system, the
    libraries that were entered and not taken out. -/
theorem Holds.foldl_run (h : r.Holds system []) (hproper : Proper callbacks) :
    (callbacks.foldl run r).Holds system (if r.Usable system then listed callbacks else []) := by
  induction callbacks using List.reverseRecOn with
  | nil =>
    rw [show listed [] = [] from rfl, ite_self]
    exact h
  | append_singleton callbacks c ih =>
    have hbefore := ih hproper.init
    have hmem := (nodup_listed_and_mem hproper.init).2
    have hiff : (callbacks.foldl run r).Usable system ↔ r.Usable system := by
      rw [Usable, found_foldl_run, Usable]
    rw [foldl_append, foldl_cons, foldl_nil, listed_concat]
    by_cases husable : r.Usable system
    · rw [if_pos husable] at hbefore ⊢
      cases c with
      | addEntry lib =>
        refine hbefore.addEntryImpl (hiff.mpr husable) ?_
        simp [hmem, hproper.before_addEntry]
      | delEntry lib => exact hbefore.delEntryImpl ((hmem lib).mpr hproper.before_delEntry)
    · rw [if_neg husable] at hbefore ⊢
      exact hbefore.run_of_not_usable (fun hcontra => husable (hiff.mp hcontra)) c

end RDebug

/-!
## Calls in any order

`AddEntryImpl` and `DelEntryImpl` called in any order, as long as an entry is not added while it is
in the list and not deleted before it was added. It may be deleted again, and it may be added again
after that. `Listing` is what holds after each call if the list of the system has three entries; the
check in `AddEntryImpl` wants a third one, though its comment asks for two.
-/

/-! ### Calls -/

def AllowedAfter (calls : List Callback) : Callback → Prop
  | .addEntry lib => lib ∉ listed calls
  | .delEntry lib => .addEntry lib ∈ calls

instance (calls : List Callback) (c : Callback) : Decidable (AllowedAfter calls c) :=
  match c with
  | .addEntry lib => inferInstanceAs (Decidable (lib ∉ listed calls))
  | .delEntry lib => inferInstanceAs (Decidable (.addEntry lib ∈ calls))

/-- A sequence of calls in which each of them may follow those before it. -/
def Admissible (calls : List Callback) : Prop :=
  ∀ before c after, calls = before ++ c :: after → AllowedAfter before c

theorem admissible_iff {calls : List Callback} :
    Admissible calls ↔ ∀ i : Fin calls.length, AllowedAfter (calls.take i) calls[i] := by
  constructor
  · intro h i
    refine h _ _ (calls.drop (i + 1)) ?_
    simp
  · rintro h before c after rfl
    simpa using h ⟨before.length, by simp⟩

theorem Admissible.init {calls : List Callback} {c : Callback} (h : Admissible (calls ++ [c])) :
    Admissible calls ∧ AllowedAfter calls c := by
  refine ⟨?_, h calls c [] rfl⟩
  rintro before d after rfl
  exact h before d (after ++ [c]) (by simp)

theorem Admissible.head {calls : List Callback} {c : Callback} (h : Admissible (c :: calls)) :
    ∃ lib, c = .addEntry lib := by
  have hc := h [] c calls rfl
  cases c with
  | addEntry lib => exact ⟨lib, rfl⟩
  | delEntry lib => exact absurd hc not_mem_nil

namespace RDebug

variable {r : RDebug} {system : List Nat} {libs : List LibPtr} {lib : LibPtr}
  {calls : List Callback} {x : LinkMap}

/-! ### What a call does not change -/

theorem Holds.addEntryImpl_of_not_mem (h : r.Holds system libs) (husable : r.Usable system)
    {entry : LinkMap} (hx : x ∉ nodes system libs) (hne : x ≠ entry) :
    (r.addEntryImpl entry).lNext x = r.lNext x ∧ (r.addEntryImpl entry).lPrev x = r.lPrev x := by
  obtain ⟨a, b, c, rest, after, rfl, hafter, -, heq⟩ := h.addEntryImpl_eq husable entry
  have hb : x ≠ .system b := fun hxb => hx (by simp [hxb, nodes_of_three])
  have hxa : x ≠ after := fun hxa => hx (hxa ▸ hafter)
  rw [heq]
  dsimp only
  rw [update_of_ne hb, update_of_ne hxa, update_of_ne hne,
    update_of_ne hne]
  exact ⟨rfl, rfl⟩

theorem Holds.delEntryImpl_of_not_mem (h : r.Holds system libs) (hlib : lib ∈ libs)
    (hx : x ∉ nodes system libs) :
    (r.delEntryImpl (.library lib)).lNext x = r.lNext x ∧
      (r.delEntryImpl (.library lib)).lPrev x = r.lPrev x := by
  have hset : r.rDebug = true := h.libs_rDebug (ne_nil_of_mem hlib)
  have hmem : LinkMap.library lib ∈ nodes system libs := mem_nodes_library.mpr hlib
  have hne : x ≠ .library lib := fun heq => hx (heq ▸ hmem)
  unfold RDebug.delEntryImpl
  rw [if_pos hset]
  dsimp only
  rw [assign_of_ne _ _ (h.lPrev_ne_self hlib), update_of_ne hne, update_of_ne hne,
    assign_of_ne _ _ (h.linked.prev_ne hmem hx), assign_of_ne _ _ (h.linked.next_ne hmem hx)]
  exact ⟨rfl, rfl⟩

theorem Holds.delEntryImpl_of_no_links (h : r.Holds system libs) (hset : r.rDebug = true)
    (hlib : lib ∉ libs) (hnext : r.lNext (.library lib) = none)
    (hprev : r.lPrev (.library lib) = none) :
    r.delEntryImpl (.library lib) = { r with rState := .consistent } := by
  have hmap : r.rMap ≠ some (.library lib) := by
    rw [h.linked.head_eq]
    exact fun hhead => hlib (mem_nodes_library.mp (mem_of_mem_head? hhead))
  unfold RDebug.delEntryImpl
  rw [if_pos hset]
  dsimp only
  rw [hprev, assign, hnext, assign, if_neg hmap]
  congr 1
  · rw [← hnext, update_eq_self]
  · rw [← hprev, update_eq_self]

/-! ### Every call -/

structure Listing (r : RDebug) (system : List Nat) (calls : List Callback) : Prop where
  holds : r.Holds system (listed calls)
  usable : r.Usable system
  rDebug : calls ≠ [] → r.rDebug = true
  consistent : calls ≠ [] → r.rState = .consistent
  unlinked : ∀ lib, .addEntry lib ∈ calls → lib ∉ listed calls →
    r.lNext (.library lib) = none ∧ r.lPrev (.library lib) = none

theorem Listing.addEntry (h : r.Listing system calls) (hnew : lib ∉ listed calls) :
    (r.run (.addEntry lib)).Listing system (calls ++ [.addEntry lib]) := by
  obtain ⟨_, _, _, _, _, -, -, -, heq⟩ := h.holds.addEntryImpl_eq h.usable (.library lib)
  refine ⟨?_, ?_, fun _ => ?_, fun _ => ?_, fun other hadded hout => ?_⟩
  · rw [listed_concat]
    exact h.holds.addEntryImpl h.usable hnew
  · rw [Usable, found_run]
    exact h.usable
  · rw [run, heq]
  · rw [run, heq]
  · rw [listed_concat, listedBy, mem_cons, not_or] at hout
    have hbefore : Callback.addEntry other ∈ calls := by simpa [hout.1] using hadded
    have hframe := h.holds.addEntryImpl_of_not_mem h.usable (mem_nodes_library.not.mpr hout.2)
      (fun heq => hout.1 (LinkMap.library.inj heq))
    rw [run, hframe.1, hframe.2]
    exact h.unlinked other hbefore hout.2

theorem Listing.delEntry (h : r.Listing system calls) (hadded : .addEntry lib ∈ calls) :
    (r.run (.delEntry lib)).Listing system (calls ++ [.delEntry lib]) := by
  have hset := h.rDebug (ne_nil_of_mem hadded)
  have hfields : (r.run (.delEntry lib)).rDebug = true ∧
      (r.run (.delEntry lib)).rState = .consistent := by
    rw [run, RDebug.delEntryImpl, if_pos hset]
    exact ⟨hset, rfl⟩
  have husable : (r.run (.delEntry lib)).Usable system := by
    rw [Usable, found_run]
    exact h.usable
  have hcalls : ∀ other, Callback.addEntry other ∈ calls ++ [.delEntry lib] →
      .addEntry other ∈ calls := by
    intro other hmem
    simpa using hmem
  by_cases hin : lib ∈ listed calls
  · refine ⟨?_, husable, fun _ => hfields.1, fun _ => hfields.2, fun other hmem hout => ?_⟩
    · rw [listed_concat]
      exact h.holds.delEntryImpl hin
    · by_cases hother : other = lib
      · rw [hother, run, RDebug.delEntryImpl, if_pos hset]
        exact ⟨update_self _ _ _, update_self _ _ _⟩
      · rw [listed_concat, listedBy, mem_erase_of_ne hother] at hout
        have hframe := h.holds.delEntryImpl_of_not_mem hin (mem_nodes_library.not.mpr hout)
        rw [run, hframe.1, hframe.2]
        exact h.unlinked other (hcalls other hmem) hout
  · -- It is out already, and the list stays as it is.
    have hlinks := h.unlinked lib hadded hin
    have hlisted : listed (calls ++ [.delEntry lib]) = listed calls := by
      rw [listed_concat, listedBy, erase_of_not_mem hin]
    have heq : r.run (.delEntry lib) = { r with rState := .consistent } :=
      h.holds.delEntryImpl_of_no_links hset hin hlinks.1 hlinks.2
    refine ⟨?_, husable, fun _ => hfields.1, fun _ => hfields.2, fun other hmem hout => ?_⟩
    · rw [hlisted, heq]
      exact ⟨h.holds.linked, h.holds.system_nodup, h.holds.libs_nodup, h.holds.rDebug,
        h.holds.libs_rDebug⟩
    · rw [heq]
      exact h.unlinked other (hcalls other hmem) (hlisted ▸ hout)

theorem Listing.foldl_run (h : r.Listing system []) (hcalls : Admissible calls) :
    (calls.foldl run r).Listing system calls := by
  induction calls using List.reverseRecOn with
  | nil => exact h
  | append_singleton calls c ih =>
    obtain ⟨hbefore, hc⟩ := hcalls.init
    rw [foldl_append, foldl_cons, foldl_nil]
    cases c with
    | addEntry lib => exact (ih hbefore).addEntry hc
    | delEntry lib => exact (ih hbefore).delEntry hc

/-- After the calls the list has the entries of the system and, behind the second one, those that
    were added and not deleted; and it is said to be consistent. -/
def RightAfter (r : RDebug) (system : List Nat) (calls : List Callback) : Prop :=
  Linked (calls.foldl run r).lNext (calls.foldl run r).lPrev none (calls.foldl run r).rMap
    (nodes system (listed calls)) ∧
  (calls ≠ [] → (calls.foldl run r).rState = .consistent)

section Calls

variable {rMap : Option LinkMap} {lNext lPrev : LinkMap → Option LinkMap}

/-- The first entry gets in only if the list is long enough. -/
theorem usable_of_rightAfter
    (hlinked : Linked lNext lPrev none rMap (system.map .system)) (hnodup : system.Nodup)
    {found : Bool} {rState : RState}
    (hright : (create found rMap rState lNext lPrev).RightAfter system [.addEntry lib]) :
    (create found rMap rState lNext lPrev).Usable system := by
  by_contra husable
  have hholds := holds_create hlinked hnodup found rState
  obtain ⟨_, heq⟩ := hholds.addEntryImpl_of_not_usable husable (.library lib)
  have hvisits := hright.1.visits
  rw [foldl_cons, foldl_nil, run, heq] at hvisits
  have hmem : LinkMap.library lib ∈ nodes system [] := by
    rw [hholds.linked.visits.unique hvisits]
    exact mem_nodes_library.mpr (mem_singleton_self lib)
  exact absurd (mem_nodes_library.mp hmem) not_mem_nil

/-- **The debugger's list.** After every call of a sequence the list is as it should be exactly if
    there is no call, or `Init` finds the `r_debug` and the list had a third entry to begin with. -/
theorem rightAfter_iff (hlinked : Linked lNext lPrev none rMap (system.map .system))
    (hnodup : system.Nodup) (found : Bool) (rState : RState) (hcalls : Admissible calls) :
    (∀ before, before <+: calls →
      (create found rMap rState lNext lPrev).RightAfter system before) ↔
        calls = [] ∨ found = true ∧ 3 ≤ system.length := by
  have hholds := holds_create hlinked hnodup found rState
  constructor
  · intro hright
    cases calls with
    | nil => exact Or.inl rfl
    | cons c rest =>
      obtain ⟨lib, rfl⟩ := hcalls.head
      exact Or.inr (usable_of_rightAfter hlinked hnodup
        (hright [.addEntry lib] (prefix_append [_] rest)))
  · rintro (rfl | husable) before hbefore
    · obtain rfl : before = [] := prefix_nil.mp hbefore
      exact ⟨hholds.linked, fun hne => absurd rfl hne⟩
    · obtain ⟨rest, rfl⟩ := hbefore
      have hstart : (create found rMap rState lNext lPrev).Listing system [] :=
        ⟨hholds, husable, fun hne => absurd rfl hne, fun hne => absurd rfl hne,
          fun lib hmem => absurd hmem not_mem_nil⟩
      have hadmissible : Admissible before := by
        rintro first c after rfl
        exact hcalls first c (after ++ rest) (by simp)
      have hlisting := hstart.foldl_run hadmissible
      exact ⟨hlisting.holds.linked, hlisting.consistent⟩

end Calls

def chainNext (n : Nat) : LinkMap → Option LinkMap
  | .system i => if i + 1 < n then some (.system (i + 1)) else none
  | .library _ => none

def chainPrev : LinkMap → Option LinkMap
  | .system (i + 1) => some (.system i)
  | _ => none

def systemChain (n : Nat) : RDebug :=
  create true (some (.system 0)) .consistent (chainNext n) chainPrev

/-- A library is added, deleted twice and added again while another one is in. -/
def someCalls : List Callback :=
  [.addEntry 5, .addEntry 6, .delEntry 5, .delEntry 5, .addEntry 5]

theorem admissible_someCalls : Admissible someCalls := admissible_iff.mpr (by decide)

theorem linked_systemChain : Linked (chainNext 3) chainPrev none (some (.system 0))
    ([0, 1, 2].map .system) :=
  ⟨rfl, rfl, rfl, rfl, rfl, rfl, rfl⟩

theorem rightAfter_someCalls :
    listed someCalls = [5, 6] ∧ (systemChain 3).RightAfter [0, 1, 2] someCalls :=
  ⟨by decide, (rightAfter_iff linked_systemChain (by decide) true .consistent
    admissible_someCalls).mpr (.inr (by decide)) someCalls (prefix_refl _)⟩

/-- The executable and the linker only: the entry is not added and the state stays `RT_ADD`. -/
theorem not_rightAfter_addEntry :
    Linked (systemChain 2).lNext (systemChain 2).lPrev none (systemChain 2).rMap
        [.system 0, .system 1] ∧
      ((systemChain 2).run (.addEntry 5)).rState = .add ∧
      ((systemChain 2).run (.addEntry 5)).lNext (.system 1) = none ∧
      ¬ (systemChain 2).RightAfter [0, 1] [.addEntry 5] := by
  refine ⟨⟨rfl, rfl, rfl, rfl, rfl⟩, rfl, rfl, fun hright => ?_⟩
  have hstate : RState.add = .consistent := hright.2 (by decide)
  cases hstate

end RDebug

end CrystaxNdk.CrazyLinker
