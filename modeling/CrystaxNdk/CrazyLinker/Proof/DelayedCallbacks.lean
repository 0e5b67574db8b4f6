import CrystaxNdk.CrazyLinker.Proof.DebugList
import CrystaxNdk.CrazyLinker.Proof.History

/-!
# Callbacks that wait

`UnloadLibrary` deletes a library right after `DelEntry`, also when `DelEntry` was only posted. So
whether the callbacks that wait, and the debugger's list, refer to libraries that are still there
depends on how the posted callbacks are scheduled. `safe_iff_careful` says on what: when a library
is taken out at once, its own `AddEntry` must not be waiting, and when it is deleted, its `DelEntry`
must have been executed. Neither is ensured by the linker.

What carries the proof is that the callbacks of each library, those that were executed and then
those that wait, are in the order of the log (`Follows.order`).
-/

namespace CrystaxNdk.CrazyLinker

open Lib List

def Event.callback : Event → Option Callback
  | .addEntry lib => some (.addEntry lib)
  | .delEntry lib => some (.delEntry lib)
  | _ => none

def Report.executed : Report → Option Callback
  | .ran c => some c
  | _ => none

namespace Debugger

variable {d d' : Debugger} {a : Action} {report : Report} {trace : List Report}

/-- No pending callback and no entry of the list is about a library that is deleted, and each
    library was added before it was removed. -/
structure Safe (d : Debugger) (trace : List Report) : Prop where
  pending : ∀ c ∈ d.pending, c.lib ∉ d.deleted
  entries : ∀ lib, d.rdebug.IsEntry (.library lib) → lib ∉ d.deleted
  order : ∀ front lib back, trace = front ++ .ran (.delEntry lib) :: back →
    .ran (.addEntry lib) ∈ front

/-- A library whose `AddEntry` waits is not taken out at once, and one whose `DelEntry` waits is
    not deleted. -/
def careful (d : Debugger) : Action → Bool
  | .linker posted =>
    match d.todo with
    | .delEntry lib :: _ => posted || decide (.addEntry lib ∉ d.pending)
    | .deleteLibrary lib :: _ => decide (.delEntry lib ∉ d.pending)
    | _ => true
  | .callback => true

theorem careful_delEntry {lib : LibPtr} {todo : List Event} {posted : Bool}
    (htodo : d.todo = .delEntry lib :: todo) :
    d.careful (.linker posted) = true ↔ posted = true ∨ .addEntry lib ∉ d.pending := by
  simp [careful, htodo]

theorem careful_deleteLibrary {lib : LibPtr} {todo : List Event} {posted : Bool}
    (htodo : d.todo = .deleteLibrary lib :: todo) :
    d.careful (.linker posted) = true ↔ .delEntry lib ∉ d.pending := by
  simp [careful, htodo]

/-! ## One step -/

inductive Step (d : Debugger) : Action → Debugger → Report → Prop
  | post {event : Event} {todo : List Event} {c : Callback} (htodo : d.todo = event :: todo)
      (hc : event.callback = some c) :
      Step d (.linker true) { d with todo, pending := d.pending ++ [c] } (.posted c)
  | run {event : Event} {todo : List Event} {c : Callback} (htodo : d.todo = event :: todo)
      (hc : event.callback = some c) :
      Step d (.linker false) { d with todo, rdebug := d.rdebug.run c } (.ran c)
  | delete {lib : LibPtr} {todo : List Event} {posted : Bool}
      (htodo : d.todo = .deleteLibrary lib :: todo) :
      Step d (.linker posted) { d with todo, deleted := lib :: d.deleted } .other
  | skip {event : Event} {todo : List Event} {posted : Bool} (htodo : d.todo = event :: todo)
      (hentry : event.entry = none) : Step d (.linker posted) { d with todo } .other
  | callback {c : Callback} {pending : List Callback} (hpending : d.pending = c :: pending) :
      Step d .callback { d with pending, rdebug := d.rdebug.run c } (.ran c)

theorem step_runOrDelay {event : Event} {todo : List Event} {c : Callback} (posted : Bool)
    (htodo : d.todo = event :: todo) (hc : event.callback = some c) :
    Step d (.linker posted) ({ d with todo }.runOrDelay posted c).1
      ({ d with todo }.runOrDelay posted c).2 := by
  cases posted with
  | true => exact Step.post htodo hc
  | false => exact Step.run htodo hc

theorem Step.of_step (h : d.step a = some (d', report)) : Step d a d' report := by
  cases a with
  | linker posted =>
    rw [step] at h
    cases htodo : d.todo with
    | nil =>
      rw [htodo] at h
      cases h
    | cons event todo =>
      rw [htodo] at h
      cases event with
      | addEntry lib =>
        have hstep := step_runOrDelay posted htodo rfl
        rwa [Option.some.inj h] at hstep
      | delEntry lib =>
        have hstep := step_runOrDelay posted htodo rfl
        rwa [Option.some.inj h] at hstep
      | deleteLibrary lib =>
        cases h
        exact Step.delete htodo
      | _ =>
        cases h
        exact Step.skip htodo rfl
  | callback =>
    rw [step] at h
    cases hpending : d.pending with
    | nil =>
      rw [hpending] at h
      cases h
    | cons c pending =>
      rw [hpending] at h
      cases h
      exact Step.callback hpending

/-! ## The order of the log -/

/-- The callbacks about one library that the log has asked for. -/
def asked (past : List Event) (lib : LibPtr) : List Callback :=
  (history past lib).filterMap Event.callback

def executed (trace : List Report) : List Callback := trace.filterMap Report.executed

@[simp] theorem executed_ran (trace : List Report) (c : Callback) :
    executed (trace ++ [.ran c]) = executed trace ++ [c] := by
  simp [executed, Report.executed]

@[simp] theorem executed_posted (trace : List Report) (c : Callback) :
    executed (trace ++ [.posted c]) = executed trace := by
  rw [executed, filterMap_append]
  exact append_nil _

@[simp] theorem executed_other (trace : List Report) :
    executed (trace ++ [.other]) = executed trace := by
  rw [executed, filterMap_append]
  exact append_nil _

theorem entry_of_callback {event : Event} {c : Callback} (h : event.callback = some c) :
    event.entry = some c.lib := by
  cases event with
  | addEntry lib => cases h; rfl
  | delEntry lib => cases h; rfl
  | _ => cases h

theorem asked_concat {event : Event} {c : Callback} (h : event.callback = some c)
    (past : List Event) (lib : LibPtr) :
    asked (past ++ [event]) lib = asked past lib ++ if c.lib = lib then [c] else [] := by
  have hentry := entry_of_callback h
  rw [asked, history_append, filterMap_append, asked]
  by_cases hlib : c.lib = lib
  · simp [history, hentry, hlib, h]
  · simp [history, hentry, hlib]

theorem asked_concat_of_none {event : Event} (h : event.callback = none) (past : List Event)
    (lib : LibPtr) : asked (past ++ [event]) lib = asked past lib := by
  rw [asked, history_append, filterMap_append, asked]
  by_cases hentry : event.entry = some lib
  · simp [history, hentry, h]
  · simp [history, hentry]

/-- At some point of the log, with `past` done: the callbacks of each library, executed and waiting,
    are in the order of the log, and those of a library that is deleted do not wait. -/
structure Follows (log : List Event) (r : RDebug) (d : Debugger) (trace : List Report)
    (past : List Event) : Prop where
  log_eq : log = past ++ d.todo
  rdebug : d.rdebug = (executed trace).foldl RDebug.run r
  order : ∀ lib, ((executed trace ++ d.pending).filter fun c => c.lib = lib) = asked past lib
  deleted : ∀ lib ∈ d.deleted, history past lib = wholeHistory lib
  pending : ∀ c ∈ d.pending, c.lib ∉ d.deleted

section Follows

variable {log past : List Event} {r : RDebug} {event : Event} {todo : List Event} {lib : LibPtr}
  {c : Callback}

theorem follows_initial (log : List Event) (r : RDebug) : Follows log r (initial r log) [] [] where
  log_eq := rfl
  rdebug := rfl
  order := fun _ => rfl
  deleted := fun _ h => absurd h not_mem_nil
  pending := fun _ h => absurd h not_mem_nil

/-- The callbacks about a library that wait are the last ones that were asked for. -/
theorem Follows.order_append (h : Follows log r d trace past) (lib : LibPtr) :
    ((executed trace).filter fun c => c.lib = lib) ++ (d.pending.filter fun c => c.lib = lib) =
      asked past lib := by
  rw [← filter_append]
  exact h.order lib

theorem Follows.executed_of_deleted (h : Follows log r d trace past) (hlib : lib ∈ d.deleted) :
    ((executed trace).filter fun c => c.lib = lib) = [.addEntry lib, .delEntry lib] := by
  have hnone : (d.pending.filter fun c => c.lib = lib) = [] := by
    rw [filter_eq_nil_iff]
    intro c hc hc'
    rw [← of_decide_eq_true hc'] at hlib
    exact h.pending c hc hlib
  have horder := h.order_append lib
  rw [hnone, append_nil, asked, h.deleted lib hlib] at horder
  exact horder

section Lawful

variable (h : Follows log r d trace past) (hlog : ∀ lib, history log lib <+: wholeHistory lib)
include h hlog

/-- The next event of a library comes where the whole history has it. -/
theorem Follows.history_eq (htodo : d.todo = event :: todo) (hentry : event.entry = some lib)
    (before after : List Event) (hwhole : wholeHistory lib = before ++ event :: after) :
    history past lib = before := by
  have hlib := hlog lib
  have hevent : history (event :: todo) lib = event :: history todo lib := by
    simp [history, hentry]
  rw [h.log_eq, htodo, history_append, hevent, hwhole] at hlib
  exact eq_of_append_cons_prefix before after (hwhole ▸ nodup_wholeHistory lib) hlib

theorem Follows.not_deleted (htodo : d.todo = event :: todo) (hentry : event.entry = some lib) :
    lib ∉ d.deleted := by
  intro hlib
  have hbegins := hlog lib
  rw [h.log_eq, htodo, history_append, h.deleted lib hlib] at hbegins
  have hlength := hbegins.length_le
  simp [history, hentry] at hlength

theorem Follows.deleted_concat (htodo : d.todo = event :: todo) :
    ∀ lib ∈ d.deleted, history (past ++ [event]) lib = wholeHistory lib := by
  intro lib hlib
  have hother : event.entry ≠ some lib := fun hentry => h.not_deleted hlog htodo hentry hlib
  rw [history_append_of_forall_ne past (by simpa using hother)]
  exact h.deleted lib hlib

theorem Follows.asked_begins (lib : LibPtr) :
    asked past lib <+: [.addEntry lib, .delEntry lib] := by
  have hpast : history past lib <+: wholeHistory lib := by
    have hlib := hlog lib
    rw [h.log_eq, history_append] at hlib
    exact (prefix_append _ _).trans hlib
  exact hpast.filterMap Event.callback

/-- A library that is entered or taken out at once has no callback waiting. -/
theorem Follows.none_pending (hcareful : d.careful (.linker false) = true)
    (htodo : d.todo = event :: todo) (hc : event.callback = some c) :
    (d.pending.filter fun b => b.lib = c.lib) = [] := by
  have horder := h.order_append c.lib
  cases event with
  | addEntry lib =>
    cases hc
    have hpast : history past lib = [] :=
      h.history_eq hlog htodo rfl [] [.delEntry lib, .deleteLibrary lib] rfl
    rw [asked, Callback.lib, hpast] at horder
    exact (append_eq_nil_iff.mp horder).2
  | delEntry lib =>
    cases hc
    have hpast : history past lib = [.addEntry lib] :=
      h.history_eq hlog htodo rfl [.addEntry lib] [.deleteLibrary lib] rfl
    rw [asked, Callback.lib, hpast] at horder
    rw [filter_eq_nil_iff]
    intro b hb hlib
    -- a callback that waits could only be the `AddEntry`
    have hmem : b ∈ d.pending.filter fun c => c.lib = lib := mem_filter.mpr ⟨hb, hlib⟩
    have hb' : b ∈ [Event.addEntry lib].filterMap Event.callback := by
      rw [← horder]
      exact mem_append_right _ hmem
    rw [mem_singleton.mp hb'] at hb
    rcases (careful_delEntry htodo).mp hcareful with hposted | hadd
    · cases hposted
    · exact hadd hb
  | _ => cases hc

/-- When a library is about to be deleted, none of its callbacks waits. -/
theorem Follows.ne_deleted (htodo : d.todo = .deleteLibrary lib :: todo)
    (hwaits : .delEntry lib ∉ d.pending) : ∀ c ∈ d.pending, c.lib ≠ lib := by
  intro c hc hlib
  have hpast : history past lib = [.addEntry lib, .delEntry lib] :=
    h.history_eq hlog htodo rfl [.addEntry lib, .delEntry lib] [] rfl
  have horder := h.order_append lib
  rw [asked, hpast] at horder
  have hmem : c ∈ d.pending.filter fun c => c.lib = lib :=
    mem_filter.mpr ⟨hc, by simpa using hlib⟩
  -- the last of those that wait is the last that was asked for, which is the `DelEntry`
  have hlast := congrArg List.getLast? horder
  rw [getLast?_append_of_ne_nil _ (ne_nil_of_mem hmem)] at hlast
  have hdel := mem_of_getLast? (hlast.trans (show _ = some (Callback.delEntry lib) from rfl))
  exact hwaits (mem_filter.mp hdel).1

theorem Follows.step (hcareful : d.careful a = true) (hstep : Step d a d' report) :
    ∃ past', Follows log r d' (trace ++ [report]) past' := by
  cases hstep with
  -- the callback joins the queue, and comes last of those about its library
  | @post event todo c htodo hc =>
    refine ⟨past ++ [event], ?_, ?_, ?_, h.deleted_concat hlog htodo, ?_⟩
    · simp [h.log_eq, htodo]
    · simp [h.rdebug]
    · intro lib
      rw [asked_concat hc, ← h.order lib, ← filter_lib_concat]
      simp
    · intro b hb
      rcases mem_append.mp hb with hb | hb
      · exact h.pending b hb
      · rw [mem_singleton.mp hb]
        exact h.not_deleted hlog htodo (entry_of_callback hc)
  | @run event todo c htodo hc =>
    refine ⟨past ++ [event], ?_, ?_, ?_, h.deleted_concat hlog htodo, h.pending⟩
    · simp [h.log_eq, htodo]
    · simp [h.rdebug]
    · intro lib
      -- it overtakes no callback about the same library
      have hnone := h.none_pending hlog hcareful htodo hc
      have horder := h.order_append lib
      rw [asked_concat hc, ← horder]
      by_cases hlib : c.lib = lib
      · subst hlib
        simp [hnone]
      · simp [hlib]
  | @delete lib todo posted htodo =>
    -- a library is deleted after both of its callbacks were asked for, and executed
    have hpast : history past lib = [.addEntry lib, .delEntry lib] :=
      h.history_eq hlog htodo rfl [.addEntry lib, .delEntry lib] [] rfl
    have hne := h.ne_deleted hlog htodo ((careful_deleteLibrary htodo).mp hcareful)
    refine ⟨past ++ [.deleteLibrary lib], ?_, ?_, ?_, ?_, ?_⟩
    · simp [h.log_eq, htodo]
    · simp [h.rdebug]
    · intro p
      rw [asked_concat_of_none rfl, ← h.order p]
      simp
    · intro p hp
      rcases mem_cons.mp hp with rfl | hp
      · rw [history_append, hpast]
        simp [history, Event.entry, wholeHistory]
      · exact h.deleted_concat hlog htodo p hp
    · intro c hc hp
      rcases mem_cons.mp hp with hlib | hp
      · exact hne c hc hlib
      · exact h.pending c hc hp
  | @skip event todo posted htodo hentry =>
    have hnone : event.callback = none := by
      cases hc : event.callback with
      | none => rfl
      | some c =>
        rw [entry_of_callback hc] at hentry
        cases hentry
    refine ⟨past ++ [event], ?_, ?_, ?_, h.deleted_concat hlog htodo, h.pending⟩
    · simp [h.log_eq, htodo]
    · simp [h.rdebug]
    · intro lib
      rw [asked_concat_of_none hnone, ← h.order lib]
      simp
  | @callback c pending hpending =>
    refine ⟨past, h.log_eq, ?_, ?_, h.deleted, ?_⟩
    · simp [h.rdebug]
    · intro lib
      rw [← h.order lib, hpending]
      simp
    · intro b hb
      exact h.pending b (by rw [hpending]; exact mem_cons_of_mem _ hb)

/-! ## What it means for the debugger -/

theorem Follows.proper : Proper (executed trace) := by
  intro lib
  have hasked := h.asked_begins hlog lib
  rw [← h.order_append lib] at hasked
  exact (prefix_append _ _).trans hasked

theorem Follows.safe {system : List Nat}
    (hr : r.Holds system []) : d.Safe trace where
  pending := h.pending
  entries := by
    intro lib hentry hdeleted
    have hholds := hr.foldl_run (h.proper hlog)
    rw [← h.rdebug] at hholds
    have hmem := hholds.mem_of_isEntry hentry
    by_cases husable : r.Usable system
    · rw [if_pos husable, (nodup_listed_and_mem (h.proper hlog)).2,
        h.executed_of_deleted hdeleted] at hmem
      cases hmem
    · rw [if_neg husable] at hmem
      exact absurd hmem not_mem_nil
  order := by
    intro front lib back htrace
    have hlib := h.proper hlog lib
    have hsplit : ((executed trace).filter fun c => c.lib = lib) =
        ((executed front).filter fun c => c.lib = lib) ++
          .delEntry lib :: ((executed back).filter fun c => c.lib = lib) := by
      simp [htrace, executed, Report.executed, Callback.lib]
    rw [hsplit] at hlib
    have hfront := eq_of_append_cons_prefix [Callback.addEntry lib] [] (by simp) hlib
    have hadd : Callback.addEntry lib ∈ (executed front).filter fun c => c.lib = lib := by
      simp [hfront]
    obtain ⟨report, hreport, heq⟩ := mem_filterMap.mp (mem_filter.mp hadd).1
    cases report with
    | ran c =>
      cases heq
      exact hreport
    | posted c => cases heq
    | other => cases heq

/-- A library is not taken out at once before it is entered. -/
theorem Follows.add_not_pending (htodo : d.todo = .delEntry lib :: todo)
    (hsafe : Safe d' (trace ++ [.ran (.delEntry lib)])) : .addEntry lib ∉ d.pending := by
  intro hwaits
  have hran : Report.ran (.addEntry lib) ∈ trace := hsafe.order trace lib [] rfl
  have hpast : history past lib = [.addEntry lib] :=
    h.history_eq hlog htodo rfl [.addEntry lib] [.deleteLibrary lib] rfl
  have horder := h.order_append lib
  rw [asked, hpast] at horder
  -- the one `AddEntry` would have been executed and would still wait
  have hexecuted : Callback.addEntry lib ∈ (executed trace).filter fun c => c.lib = lib :=
    mem_filter.mpr ⟨mem_filterMap.mpr ⟨_, hran, rfl⟩, by simp [Callback.lib]⟩
  have hpending : Callback.addEntry lib ∈ d.pending.filter fun c => c.lib = lib :=
    mem_filter.mpr ⟨hwaits, by simp [Callback.lib]⟩
  have hlength := congrArg List.length horder
  rw [length_append] at hlength
  have hone : ([Event.addEntry lib].filterMap Event.callback).length = 1 := rfl
  have hpos := length_pos_of_mem hexecuted
  have hpos' := length_pos_of_mem hpending
  omega

theorem Follows.careful
    (hsafe : ∀ d' report, d.step a = some (d', report) → d'.Safe (trace ++ [report])) :
    d.careful a = true := by
  cases a with
  | callback => rfl
  | linker posted =>
    cases htodo : d.todo with
    | nil => simp [Debugger.careful, htodo]
    | cons event todo =>
      cases event with
      | delEntry lib =>
        rw [careful_delEntry htodo]
        cases posted with
        | true => exact Or.inl rfl
        | false =>
          have hafter := hsafe _ (.ran (.delEntry lib)) (by rw [Debugger.step, htodo]; rfl)
          exact Or.inr (h.add_not_pending hlog htodo hafter)
      | deleteLibrary lib =>
        rw [careful_deleteLibrary htodo]
        have hafter := hsafe { d with todo, deleted := lib :: d.deleted } .other
          (by rw [Debugger.step, htodo])
        exact fun hwaits => hafter.pending _ hwaits (mem_cons_self ..)
      | _ => simp [Debugger.careful, htodo]

/-! ## Whole runs -/

end Lawful

/-- Along a run of careful steps the callbacks follow the log. -/
theorem follows_run (hlog : ∀ lib, history log lib <+: wholeHistory lib) {schedule : List Action}
    (hcareful : ∀ front a, front ++ [a] <+: schedule → ∀ trace d past,
      runActions Debugger.step (initial r log) front = some (trace, d) →
        Follows log r d trace past → d.careful a = true) :
    ∀ front, front <+: schedule → ∀ trace d,
      runActions Debugger.step (initial r log) front = some (trace, d) →
        ∃ past, Follows log r d trace past := by
  intro front
  induction front using List.reverseRecOn with
  | nil =>
    intro _ trace d hrun
    cases hrun
    exact ⟨[], follows_initial log r⟩
  | append_singleton front a ih =>
    intro hbegins trace' d' hrun
    obtain ⟨trace, d, report, hfront, hstep, rfl⟩ := runActions_concat.mp hrun
    obtain ⟨past, h⟩ := ih ((prefix_append _ _).trans hbegins) trace d hfront
    exact h.step hlog (hcareful front a hbegins trace d past hfront h) (Step.of_step hstep)

end Follows

/-- **Delayed callbacks.** Whatever calls the linker gets, and however its callbacks are posted,
    refused and executed: everything is safe all the time exactly if every step is careful. -/
theorem safe_iff_careful {sys : System} {st : LibraryList}
    (hcalls : Relation.ReflTransGen (ApiCall sys) LibraryList.empty st) {system : List Nat}
    {rMap : Option LinkMap} {lNext lPrev : LinkMap → Option LinkMap}
    (hlinked : Linked lNext lPrev none rMap (system.map .system)) (hnodup : system.Nodup)
    (found : Bool) (rState : RState) (schedule : List Action) :
    (∀ front, front <+: schedule → ∀ trace d,
      runActions step (initial (.create found rMap rState lNext lPrev) st.log) front =
        some (trace, d) → d.Safe trace) ↔
    ∀ front a, front ++ [a] <+: schedule → ∀ trace d,
      runActions step (initial (.create found rMap rState lNext lPrev) st.log) front =
        some (trace, d) → d.careful a = true := by
  have hlog : ∀ lib, history st.log lib <+: wholeHistory lib := history_of_apiCalls hcalls
  have hr := RDebug.holds_create hlinked hnodup found rState
  constructor
  · intro hsafe
    have hstep : ∀ front a, front ++ [a] <+: schedule → ∀ trace d past,
        runActions step (initial (.create found rMap rState lNext lPrev) st.log) front =
          some (trace, d) → Follows st.log (.create found rMap rState lNext lPrev) d trace past →
          d.careful a = true := by
      intro front a hbegins trace d past hrun h
      refine h.careful hlog fun d' report hstep => hsafe _ hbegins _ _ ?_
      exact runActions_concat.mpr ⟨trace, d, report, hrun, hstep, rfl⟩
    intro front a hbegins trace d hrun
    obtain ⟨past, h⟩ :=
      follows_run hlog hstep front ((prefix_append _ _).trans hbegins) trace d hrun
    exact hstep front a hbegins trace d past hrun h
  · intro hcareful front hbegins trace d hrun
    obtain ⟨past, h⟩ := follows_run hlog
      (fun front a hfront trace d _ hrun' _ => hcareful front a hfront trace d hrun')
      front hbegins trace d hrun
    exact h.safe hlog hr

/-- A process with its executable, the linker and one more library. -/
def bootNext : LinkMap → Option LinkMap
  | .system 0 => some (.system 1)
  | .system 1 => some (.system 2)
  | _ => none

def bootPrev : LinkMap → Option LinkMap
  | .system 1 => some (.system 0)
  | .system 2 => some (.system 1)
  | _ => none

def bootRDebug : RDebug := .create true (some (.system 0)) .consistent bootNext bootPrev

theorem linked_boot :
    Linked bootNext bootPrev none (some (.system 0)) ([0, 1, 2].map .system) :=
  ⟨rfl, rfl, rfl, rfl, rfl, rfl, rfl⟩

theorem exists_openedAndClosed :
    ∃ st, Relation.ReflTransGen (ApiCall (System.directory [("liba.so".toList, [])]))
        LibraryList.empty st ∧
      st.log = [.addEntry 1, .callConstructors 1, .callJniOnUnload 1, .callDestructors 1,
        .delEntry 1, .deleteLibrary 1] := by
  obtain ⟨st₁, hopen⟩ : ∃ st, crazyLibraryOpen (System.directory [("liba.so".toList, [])])
      System.libPath (fun _ => true) 2 LibraryList.empty "liba.so".toList 0 0 =
        some (st, some 1) := ⟨_, rfl⟩
  obtain ⟨st₂, hclose, hlog⟩ : ∃ st, st₁.unloadLibrary 2 1 = some st ∧
      st.log = [.addEntry 1, .callConstructors 1, .callJniOnUnload 1, .callDestructors 1,
        .delEntry 1, .deleteLibrary 1] := by
    cases hopen
    exact ⟨_, rfl, rfl⟩
  exact ⟨st₂, (Relation.ReflTransGen.single (ApiCall.opens hopen)).tail (ApiCall.closes hclose),
    hlog⟩

/-- Both callbacks of a library are posted, and executed before it is deleted. -/
theorem safe_iff_careful_inTime :
    ∃ st, Relation.ReflTransGen (ApiCall (System.directory [("liba.so".toList, [])]))
        LibraryList.empty st ∧
      ∀ front, front <+: [.linker true, .linker false, .linker false, .callback, .linker false,
          .linker true, .callback, .linker false] → ∀ trace d,
        runActions step (initial bootRDebug st.log) front = some (trace, d) → d.Safe trace := by
  obtain ⟨st, hcalls, hlog⟩ := exists_openedAndClosed
  refine ⟨st, hcalls,
    (safe_iff_careful hcalls linked_boot (by decide) true .consistent _).mpr ?_⟩
  rw [hlog]
  simp only [forall_concat_prefix_cons, forall_concat_prefix_nil]
  refine ⟨?_, ?_, ?_, ?_, ?_, ?_, ?_, ?_, trivial⟩
  all_goals
    intro trace d hrun
    cases hrun
    rfl

/-- `DelEntry` is posted and waits while the library is deleted, which is still in the debugger's
    list. -/
theorem deleted_while_waiting :
    ∃ st, Relation.ReflTransGen (ApiCall (System.directory [("liba.so".toList, [])]))
        LibraryList.empty st ∧
      ∃ trace d, runActions step (initial bootRDebug st.log)
          [.linker false, .linker false, .linker false, .linker false, .linker true,
            .linker false] = some (trace, d) ∧
        .delEntry 1 ∈ d.pending ∧ d.rdebug.IsEntry (.library 1) ∧ 1 ∈ d.deleted := by
  obtain ⟨st, hcalls, hlog⟩ := exists_openedAndClosed
  refine ⟨st, hcalls, ?_⟩
  rw [hlog]
  have hreach : ∀ r : RDebug, r.lNext (.system 0) = some (.system 1) →
      r.lNext (.system 1) = some (.library 1) →
      Relation.ReflTransGen (fun a b => r.lNext a = some b) (.system 0) (.library 1) := by
    intro r hfirst hsecond
    refine Relation.ReflTransGen.tail (Relation.ReflTransGen.single ?_) hsecond
    exact hfirst
  exact ⟨_, _, rfl, by decide, ⟨.system 0, rfl, hreach _ rfl rfl⟩, by decide⟩

end Debugger

end CrystaxNdk.CrazyLinker
