import CrystaxNdk.NativeAppGlue.Glue

/-!
# What a step can do, and the window

`step` says what each thread does next. The relations here say the same case by case, with what the
case needs and what it leads to, so that a property of runs is proved by going through them. The
first such property is about the window of the application: `android_app_set_window` may return
although older commands are still in the pipe, because the value it waits for was there already.
-/

namespace CrystaxNdk.NativeAppGlue

namespace Glue

/-- The places where the application thread calls `free_saved_state`, and where it goes on. -/
inductive FreesAt : AppThread → AppThread → Prop
  | read : FreesAt (.read .saveState) (.preExec .saveState)
  | resume : FreesAt (.postExec .resume) .androidMain
  | destroy : FreesAt .destroy .detach

inductive AppStep (st : Glue) : Glue → Event → Prop
  | read {cmd : AppCmd} {pipe : List AppCmd} (hthread : st.thread = .androidMain)
      (hpipe : st.pipe = cmd :: pipe) :
      AppStep st { st with pipe, thread := .read cmd } (.cmdRead cmd)
  | free {thread : AppThread} (hthread : FreesAt st.thread thread) (hmutex : st.mutex = false) :
      AppStep st { st with app := st.app.freeSavedState, thread } (.stateFreed st.app.savedState)
  | skip {cmd : AppCmd} (hthread : st.thread = .read cmd) (hcmd : cmd ≠ .saveState) :
      AppStep st { st with thread := .preExec cmd } .other
  | preExec {cmd : AppCmd} (hthread : st.thread = .preExec cmd)
      (hmutex : preLocks cmd = true → st.mutex = false) :
      AppStep st { st with app := st.app.preExecCmd cmd, thread := .handler cmd } .other
  | handled {cmd : AppCmd} (hthread : st.thread = .handler cmd) :
      AppStep st { st with thread := .postExec cmd } .other
  | postExec {cmd : AppCmd} (hthread : st.thread = .postExec cmd) (hcmd : cmd ≠ .resume)
      (hmutex : cmd ∈ [AppCmd.termWindow, .saveState] → st.mutex = false) :
      AppStep st { st with app := st.app.postExecCmd cmd, thread := .androidMain } .other
  | detach (hthread : st.thread = .detach) (hmutex : st.mutex = false) :
      AppStep st { st with app.destroyed := true, thread := .exited } .other

variable {st st' : Glue} {a : Action} {e : Event}

theorem locked_eq_some {next res : Glue × Event} (h : st.locked next = some res) :
    st.mutex = false ∧ next = res := by
  unfold locked at h
  split_ifs at h with hmutex
  exact ⟨by simpa using hmutex, by simpa using h⟩

theorem appStep_cases (h : st.appStep = some (st', e)) : AppStep st st' e := by
  unfold appStep at h
  cases hthread : st.thread with
  | androidMain =>
    simp only [hthread] at h
    cases hpipe : st.pipe with
    | nil => simp [hpipe] at h
    | cons cmd pipe =>
      simp only [hpipe, Option.some.injEq, Prod.mk.injEq] at h
      obtain ⟨rfl, rfl⟩ := h
      exact .read hthread hpipe
  | read cmd =>
    simp only [hthread] at h
    split_ifs at h with hcmd
    · subst hcmd
      obtain ⟨hmutex, heq⟩ := locked_eq_some h
      cases heq
      exact .free (hthread ▸ .read) hmutex
    · cases h
      exact .skip hthread hcmd
  | preExec cmd =>
    simp only [hthread] at h
    split_ifs at h with hlock
    · obtain ⟨hmutex, heq⟩ := locked_eq_some h
      cases heq
      exact .preExec hthread fun _ => hmutex
    · cases h
      exact .preExec hthread fun hpre => absurd hpre hlock
  | handler cmd =>
    simp only [hthread] at h
    cases h
    exact .handled hthread
  | postExec cmd =>
    simp only [hthread] at h
    split_ifs at h with hcmd hlock
    · subst hcmd
      obtain ⟨hmutex, heq⟩ := locked_eq_some h
      cases heq
      exact .free (hthread ▸ .resume) hmutex
    · obtain ⟨hmutex, heq⟩ := locked_eq_some h
      cases heq
      exact .postExec hthread hcmd fun _ => hmutex
    · cases h
      exact .postExec hthread hcmd fun hpost => absurd hpost hlock
  | destroy =>
    simp only [hthread] at h
    obtain ⟨hmutex, heq⟩ := locked_eq_some h
    cases heq
    exact .free (hthread ▸ .destroy) hmutex
  | detach =>
    simp only [hthread] at h
    obtain ⟨hmutex, heq⟩ := locked_eq_some h
    cases heq
    exact .detach hthread hmutex
  | exited =>
    simp only [hthread] at h
    cases h

theorem AppStep.main_eq (h : AppStep st st' e) : st'.main = st.main := by
  cases h <;> rfl

inductive MainStep (st : Glue) : Glue → Event → Prop
  | mutex (mutex : Bool) (hmain : st.main ≠ .idle) : MainStep st { st with mutex } .other
  | returnWindow {window : Option Nat} (hmain : st.main = .setWindow window)
      (hready : st.app.window = st.app.pendingWindow) :
      MainStep st { st with main := .idle, mutex := false } (.setWindowReturned window)
  | returnSave (hmain : st.main = .saveInstanceState) (hready : st.app.stateSaved = true) :
      MainStep st
        { st with
          main := .idle
          mutex := false
          app.savedState := none
          app.savedStateSize := if st.app.savedState ≠ none then 0 else st.app.savedStateSize }
        (.saveReturned
          (st.app.savedState.map fun savedState => (savedState, st.app.savedStateSize)))
  | returnOther (hmain : st.main = .setInput ∨ ∃ cmd, st.main = .setActivityState cmd) :
      MainStep st { st with main := .idle, mutex := false } .other
  | returnFree (hmain : st.main = .free) :
      MainStep st { st with main := .freed, mutex := false } .other

theorem mainReturn_cases (hready : st.mainReady = true) :
    MainStep st st.mainReturn.1 st.mainReturn.2 := by
  unfold mainReady at hready
  unfold mainReturn
  cases hmain : st.main with
  | idle => simp [hmain] at hready
  | freed => simp [hmain] at hready
  | setInput => exact .returnOther (Or.inl hmain)
  | setWindow window =>
    simp only [hmain, decide_eq_true_eq] at hready
    exact .returnWindow hmain hready
  | setActivityState cmd => exact .returnOther (Or.inr ⟨cmd, hmain⟩)
  | saveInstanceState =>
    simp only [hmain] at hready
    exact .returnSave hmain hready
  | free => exact .returnFree hmain

theorem mainStep_cases (h : st.mainStep = some (st', e)) : MainStep st st' e := by
  unfold mainStep at h
  split_ifs at h with hmain hmutex hready
  · have heq : st.mainReturn = (st', e) := by simpa using h
    have hret := mainReturn_cases hready
    rw [heq] at hret
    exact hret
  · cases h
    exact .mutex false fun hidle => hmain (Or.inl hidle)
  · cases h
    exact .mutex true fun hidle => hmain (Or.inl hidle)

inductive Called (st : Glue) : Glue → Event → Prop
  | setInput (inputQueue : Option Nat) : Called st (st.androidAppSetInput inputQueue) .other
  | setWindow (window : Option Nat) :
      Called st (st.androidAppSetWindow window) (.setWindowCalled window)
  | setActivityState {cmd : AppCmd} (hcmd : cmd ∈ [AppCmd.start, .resume, .pause, .stop]) :
      Called st (st.androidAppSetActivityState cmd) .other
  | save : Called st st.onSaveInstanceState .saveCalled
  | write {cmd : AppCmd}
      (hcmd : cmd ∈ [AppCmd.configChanged, .lowMemory, .gainedFocus, .lostFocus]) :
      Called st (st.writeCmd cmd) .other
  | free : Called st st.androidAppFree .other

inductive Step (st : Glue) : Glue → Event → Prop
  | callback {st' : Glue} {e : Event} (hmain : st.main = .idle) (h : Called st st' e) :
      Step st st' e
  | main {st' : Glue} {e : Event} (h : MainStep st st' e) : Step st st' e
  | app {st' : Glue} {e : Event} (h : AppStep st st' e) : Step st st' e
  | store (savedState : Option Nat) (size nextBuffer : Nat)
      (hthread : st.thread = .handler .saveState)
      (hnew : ∀ b, savedState = some b → b = st.nextBuffer ∧ nextBuffer = b + 1)
      (hnext : st.nextBuffer ≤ nextBuffer) :
      Step st
        { st with app.savedState := savedState, app.savedStateSize := size, nextBuffer }
        (.stateStored (savedState.map fun savedState => (savedState, size)))
  | leave (hthread : st.thread = .androidMain) :
      Step st { st with thread := .destroy } (.mainLeft st.app.destroyRequested st.main)

theorem callback_cases {next : Glue} {event : Event} (hcalled : Called st next event)
    (h : st.callback next event = some (st', e)) : Step st st' e := by
  unfold callback at h
  split_ifs at h with hmain
  cases h
  exact .callback hmain hcalled

theorem storeState_cases {allocate : Bool} {size : Nat}
    (h : st.storeState allocate size = some (st', e)) : Step st st' e := by
  by_cases hthread : st.thread = .handler .saveState
  · rw [storeState, if_pos hthread] at h
    cases h
    refine .store _ _ _ hthread ?_ ?_
    · cases allocate <;> simp
    · split_ifs <;> omega
  · rw [storeState, if_neg hthread] at h
    cases h

theorem step_cases (h : st.step a = some (st', e)) : Step st st' e := by
  cases a with
  | setInput inputQueue => exact callback_cases (.setInput inputQueue) h
  | setWindow window => exact callback_cases (.setWindow window) h
  | onStart => exact callback_cases (.setActivityState (by simp)) h
  | onResume => exact callback_cases (.setActivityState (by simp)) h
  | onPause => exact callback_cases (.setActivityState (by simp)) h
  | onStop => exact callback_cases (.setActivityState (by simp)) h
  | onSaveInstanceState => exact callback_cases .save h
  | onConfigurationChanged => exact callback_cases (.write (by simp)) h
  | onLowMemory => exact callback_cases (.write (by simp)) h
  | onWindowFocusChanged focused => exact callback_cases (.write (by cases focused <;> simp)) h
  | onDestroy => exact callback_cases .free h
  | mainThread => exact .main (mainStep_cases h)
  | appThread => exact .app (appStep_cases h)
  | storeState allocate size => exact storeState_cases h
  | leaveMain =>
    unfold step leaveMain at h
    split_ifs at h with hthread
    cases h
    exact .leave hthread

end Glue

/-!
## The window

That `android_app_set_window` returns early does no harm: the application thread only ever assigns
`pendingWindow` or `NULL` to `window`, and `pendingWindow` only changes in the next call.
-/

open Lib

namespace Glue

variable {st st' : Glue} {e : Event}

theorem androidAppSetWindow_fields (st : Glue) (window : Option Nat) :
    (st.androidAppSetWindow window).app.pendingWindow = window ∧
    (st.androidAppSetWindow window).app.window = st.app.window ∧
    (st.androidAppSetWindow window).main = .setWindow window := by
  unfold androidAppSetWindow
  split_ifs <;> exact ⟨rfl, rfl, rfl⟩

theorem freeSavedState_window (app : AndroidApp) : app.freeSavedState.window = app.window ∧
    app.freeSavedState.pendingWindow = app.pendingWindow := by
  unfold AndroidApp.freeSavedState
  split_ifs <;> exact ⟨rfl, rfl⟩

theorem AppStep.window (h : AppStep st st' e) :
    st'.app.pendingWindow = st.app.pendingWindow ∧
    (st'.app.window = st.app.window ∨ st'.app.window = st.app.pendingWindow ∨
      st'.app.window = none) := by
  cases h with
  | read _ _ => exact ⟨rfl, Or.inl rfl⟩
  | free _ _ =>
    obtain ⟨hwindow, hpending⟩ := freeSavedState_window st.app
    exact ⟨hpending, Or.inl hwindow⟩
  | skip _ _ => exact ⟨rfl, Or.inl rfl⟩
  | @preExec cmd _ _ => cases cmd <;> simp [AndroidApp.preExecCmd]
  | handled _ => exact ⟨rfl, Or.inl rfl⟩
  | @postExec cmd _ hcmd _ => cases cmd <;> simp [AndroidApp.postExecCmd] at hcmd ⊢
  | detach _ _ => exact ⟨rfl, Or.inl rfl⟩

/-- Any step but a call of `android_app_set_window`. -/
structure KeepsWindow (st st' : Glue) (e : Event) : Prop where
  pendingWindow : st'.app.pendingWindow = st.app.pendingWindow
  window : st'.app.window = st.app.window ∨ st'.app.window = st.app.pendingWindow ∨
    st'.app.window = none
  main : ∀ w, st'.main = .setWindow w → st.main = .setWindow w
  returned : ∀ w, e = .setWindowReturned w →
    st.main = .setWindow w ∧ st'.app.window = st.app.pendingWindow

theorem MainStep.keepsWindow (h : MainStep st st' e) : KeepsWindow st st' e := by
  cases h with
  | mutex _ _ => exact ⟨rfl, Or.inl rfl, fun _ => id, by simp⟩
  | returnWindow hmain hready =>
    refine ⟨rfl, Or.inl rfl, by simp, ?_⟩
    rintro w heq
    cases heq
    exact ⟨hmain, hready⟩
  | returnSave _ _ => exact ⟨rfl, Or.inl rfl, by simp, by simp⟩
  | returnOther _ => exact ⟨rfl, Or.inl rfl, by simp, by simp⟩
  | returnFree _ => exact ⟨rfl, Or.inl rfl, by simp, by simp⟩

theorem Step.keepsWindow (h : Step st st' e) :
    KeepsWindow st st' e ∨ ∃ w, e = .setWindowCalled w ∧ st' = st.androidAppSetWindow w := by
  cases h with
  | callback _ hcalled =>
    cases hcalled with
    | setWindow w => exact Or.inr ⟨w, rfl, rfl⟩
    | setInput _ => exact Or.inl ⟨rfl, Or.inl rfl, by simp [androidAppSetInput], by simp⟩
    | setActivityState _ =>
      exact Or.inl ⟨rfl, Or.inl rfl, by simp [androidAppSetActivityState], by simp⟩
    | save => exact Or.inl ⟨rfl, Or.inl rfl, by simp [onSaveInstanceState], by simp⟩
    | write _ => exact Or.inl ⟨rfl, Or.inl rfl, fun _ => id, by simp⟩
    | free => exact Or.inl ⟨rfl, Or.inl rfl, by simp [androidAppFree], by simp⟩
  | main hmain => exact Or.inl hmain.keepsWindow
  | app happ =>
    obtain ⟨hpending, hwindow⟩ := happ.window
    refine Or.inl ⟨hpending, hwindow, fun w hw => happ.main_eq ▸ hw, ?_⟩
    intro w heq
    cases happ <;> cases heq
  | store _ _ _ _ _ _ => exact Or.inl ⟨rfl, Or.inl rfl, fun _ => id, by simp⟩
  | leave _ => exact Or.inl ⟨rfl, Or.inl rfl, fun _ => id, by simp⟩

/-! ### Runs -/

section Runs

variable {s₀ : Glue} {trace : List Event} {w : Option Nat}

theorem pendingWindow_of_run (h : Run step s₀ trace st) (hidle : s₀.main = .idle) :
    ∀ w, st.main = .setWindow w → st.app.pendingWindow = w := by
  induction h with
  | nil =>
    intro w hw
    rw [hidle] at hw
    cases hw
  | snoc _ hstep ih =>
    intro w hw
    rcases (step_cases hstep).keepsWindow with hkeeps | ⟨v, -, rfl⟩
    · rw [hkeeps.pendingWindow]
      exact ih w (hkeeps.main w hw)
    · obtain ⟨hpending, -, hmain⟩ := androidAppSetWindow_fields _ v
      rw [hmain] at hw
      cases hw
      exact hpending

/-- Until the next call, `window` is the window of the last one or `NULL`. -/
theorem window_of_run (h : Run step s₀ trace st) (hpending : s₀.app.pendingWindow = w)
    (hwindow : s₀.app.window = w) (hnone : ∀ v, .setWindowCalled v ∉ trace) :
    st.app.pendingWindow = w ∧ (st.app.window = w ∨ st.app.window = none) := by
  induction h with
  | nil => exact ⟨hpending, Or.inl hwindow⟩
  | snoc _ hstep ih =>
    simp only [List.mem_append, List.mem_singleton, not_or] at hnone
    obtain ⟨hpending', hwindow'⟩ := ih fun v => (hnone v).1
    rcases (step_cases hstep).keepsWindow with hkeeps | ⟨v, rfl, -⟩
    · refine ⟨hkeeps.pendingWindow.trans hpending', ?_⟩
      rcases hkeeps.window with heq | heq | heq
      · rw [heq]
        exact hwindow'
      · exact Or.inl (heq.trans hpending')
      · exact Or.inr heq
    · exact absurd rfl (hnone v).2

/-- Once it was told that there is none, `window` is `NULL` until there is a new one. -/
theorem window_none_of_run (h : Run step s₀ trace st) (hpending : s₀.app.pendingWindow = none)
    (hwindow : s₀.app.window = none) (hnone : ∀ v, .setWindowCalled (some v) ∉ trace) :
    st.app.pendingWindow = none ∧ st.app.window = none := by
  induction h with
  | nil => exact ⟨hpending, hwindow⟩
  | snoc _ hstep ih =>
    simp only [List.mem_append, List.mem_singleton, not_or] at hnone
    obtain ⟨hpending', hwindow'⟩ := ih fun v => (hnone v).1
    rcases (step_cases hstep).keepsWindow with hkeeps | ⟨v, rfl, rfl⟩
    · refine ⟨hkeeps.pendingWindow.trans hpending', ?_⟩
      rcases hkeeps.window with heq | heq | heq
      · exact heq.trans hwindow'
      · exact heq.trans hpending'
      · exact heq
    · obtain ⟨hcalled, hsame, -⟩ := androidAppSetWindow_fields _ v
      cases v with
      | none => exact ⟨hcalled, hsame.trans hwindow'⟩
      | some v => exact absurd rfl (hnone v).2

/-- After `android_app_set_window` has returned, and until it is called again, the window of the
    application is the one it was called with, or none. After it was called with `NULL` there is
    none until it is called with a window. -/
theorem window_handover (savedState : Option Nat) (trace : List Event) (st : Glue)
    (h : Run step (initial savedState) trace st) (front : List Event) (w : Option Nat)
    (back : List Event) (hreturned : trace = front ++ .setWindowReturned w :: back) :
    ((∀ v, .setWindowCalled v ∉ back) → st.app.window = w ∨ st.app.window = none) ∧
    (w = none → (∀ v, .setWindowCalled (some v) ∉ back) → st.app.window = none) := by
  obtain ⟨s₁, a, s₂, hfront, hstep, hback⟩ := h.split hreturned
  obtain ⟨hpending, hwindow⟩ : s₂.app.pendingWindow = w ∧ s₂.app.window = w := by
    rcases (step_cases hstep).keepsWindow with hkeeps | ⟨v, hcalled, -⟩
    · obtain ⟨hmain, hready⟩ := hkeeps.returned w rfl
      have hpending := pendingWindow_of_run hfront rfl w hmain
      exact ⟨hkeeps.pendingWindow.trans hpending, hready.trans hpending⟩
    · cases hcalled
  constructor
  · intro hnone
    exact (window_of_run hback hpending hwindow hnone).2
  · rintro rfl hnone
    exact (window_none_of_run hback hpending hwindow hnone).2

def windowActions : List Action :=
  [.setWindow (some 7), .mainThread, .appThread, .appThread, .appThread, .mainThread, .mainThread,
    .setWindow none, .mainThread, .appThread, .appThread, .appThread, .appThread, .appThread,
    .appThread, .appThread, .mainThread, .mainThread]

def windowRun : List Event × Glue :=
  (runActions step (initial none) windowActions).getD ([], initial none)

theorem window_handover_destroyed :
    Run step (initial none) windowRun.1 windowRun.2 ∧
      windowRun.1.getLast? = some (.setWindowReturned none) ∧ windowRun.2.app.window = none := by
  have hrun : runActions step (initial none) windowActions = some windowRun := by decide +kernel
  have hlast : windowRun.1 = windowRun.1.dropLast ++ .setWindowReturned none :: [] := by
    decide +kernel
  refine ⟨run_of_runActions hrun, by decide +kernel, ?_⟩
  exact (window_handover none _ _ (run_of_runActions hrun) _ none [] hlast).2 rfl (by simp)

end Runs

end Glue

end CrystaxNdk.NativeAppGlue
