import CrystaxNdk.NativeAppGlue.Proof.Window

/-!
# No callback waits for ever

A callback of the main thread waits for a field of `android_app` to change. The commands that are in
the pipe or in the hands of the application thread determine what the field will be (`settled`), and
that is what the callback waits for (`Answers`). So as long as a callback waits the application
thread can go on, and each of its steps leaves it less to do (`work`).

This is so only as long as there is somebody to read the commands. An `android_main` that returns
before it is asked to leaves them in the pipe, and the callbacks that follow, `onDestroy` aside, do
wait for ever; `Patient` says of a trace that this has not happened.

The last section is about the end. Whenever `android_main` returns, the application thread is
through with `android_app` before that is freed (`Outlived`).
-/

namespace CrystaxNdk.NativeAppGlue

open Lib

namespace AndroidApp

/-- What the callbacks wait for, `destroyed` aside. -/
def shared (app : AndroidApp) : AndroidApp :=
  { app with savedState := none, savedStateSize := 0, destroyed := false }

def handle (app : AndroidApp) (cmd : AppCmd) : AndroidApp := (app.preExecCmd cmd).postExecCmd cmd

variable (app : AndroidApp) {cmd : AppCmd}

theorem shared_freeSavedState : app.freeSavedState.shared = app.shared := by
  unfold freeSavedState
  split_ifs <;> rfl

theorem shared_preExecCmd : (app.preExecCmd cmd).shared = app.shared.preExecCmd cmd := by
  cases cmd <;> rfl

theorem shared_postExecCmd : (app.postExecCmd cmd).shared = app.shared.postExecCmd cmd := by
  cases cmd with
  | resume => exact app.shared_freeSavedState
  | _ => rfl

def Kept (R : AndroidApp → AndroidApp → Prop) : Prop :=
  ∀ a b cmd, R a b → R (a.preExecCmd cmd) (b.preExecCmd cmd) ∧
    R (a.postExecCmd cmd) (b.postExecCmd cmd)

def SameWindow (a b : AndroidApp) : Prop :=
  a.window = b.window ∧ a.pendingWindow = b.pendingWindow ∧
    a.destroyRequested = b.destroyRequested

theorem kept_sameWindow : Kept SameWindow := by
  intro a b cmd h
  cases cmd <;> simp_all [SameWindow, preExecCmd, postExecCmd, freeSavedState, apply_ite]

theorem kept_pendingWindow (w : Option Nat) :
    Kept fun a b => a.pendingWindow = w ∧ a.destroyRequested = b.destroyRequested := by
  intro a b cmd h
  cases cmd <;> simp_all [preExecCmd, postExecCmd, freeSavedState, apply_ite]

theorem kept_destroyRequested : Kept fun a _ => a.destroyRequested = true := by
  intro a b cmd h
  cases cmd <;> simp_all [preExecCmd, postExecCmd, freeSavedState, apply_ite]

theorem handle_sameWindow (hcmd : cmd ∉ [.initWindow, .termWindow, .destroy]) :
    (app.handle cmd).SameWindow app := by
  cases hsaved : app.savedState <;> cases cmd <;>
    simp [SameWindow, handle, preExecCmd, postExecCmd, freeSavedState, hsaved] at hcmd ⊢

theorem handle_activityState (hcmd : cmd ∈ [AppCmd.start, .resume, .pause, .stop]) :
    (app.handle cmd).activityState = cmd := by
  cases hsaved : app.savedState <;> cases cmd <;>
    simp [handle, preExecCmd, postExecCmd, freeSavedState, hsaved] at hcmd ⊢

end AndroidApp

namespace AppThread

/-- What the application thread still does with the command at hand. -/
def finish (app : AndroidApp) : AppThread → AndroidApp
  | .read cmd | .preExec cmd => app.handle cmd
  | .handler cmd | .postExec cmd => app.postExecCmd cmd
  | _ => app

/-- How far the application thread is from its end, with an empty pipe. -/
def rank : AppThread → Nat
  | .exited => 0
  | .detach => 1
  | .destroy => 2
  | .androidMain => 3
  | .postExec _ => 4
  | .handler _ => 5
  | .preExec _ => 6
  | .read _ => 7

end AppThread

/-- `android_app` when the application thread is through with the commands there are. -/
def AndroidApp.settle (app : AndroidApp) (thread : AppThread) (pipe : List AppCmd) : AndroidApp :=
  pipe.foldl handle (thread.finish app.shared)

theorem AndroidApp.settle_concat (app : AndroidApp) (thread : AppThread) (pipe : List AppCmd)
    (cmd : AppCmd) : app.settle thread (pipe ++ [cmd]) = (app.settle thread pipe).handle cmd := by
  simp [settle]

theorem AndroidApp.Kept.settle {R : AndroidApp → AndroidApp → Prop} (hR : Kept R)
    {a b : AndroidApp} (h : R a.shared b.shared) (thread : AppThread) (pipe : List AppCmd) :
    R (a.settle thread pipe) (b.settle thread pipe) := by
  have hhandle {a b : AndroidApp} (cmd : AppCmd) (hab : R a b) : R (a.handle cmd) (b.handle cmd) :=
    (hR _ _ cmd (hR _ _ cmd hab).1).2
  induction pipe using List.reverseRecOn with
  | nil =>
    cases thread with
    | read cmd => exact hhandle cmd h
    | preExec cmd => exact hhandle cmd h
    | handler cmd => exact (hR _ _ cmd h).2
    | postExec cmd => exact (hR _ _ cmd h).2
    | _ => exact h
  | append_singleton pipe cmd ih =>
    rw [settle_concat, settle_concat]
    exact hhandle cmd ih

namespace Glue

open AndroidApp

def settled (st : Glue) : AndroidApp := st.app.settle st.thread st.pipe

/-- What the application thread has left to do. -/
def work (st : Glue) : Nat := 5 * st.pipe.length + st.thread.rank

variable {st st' : Glue} {e : Event}

/-- What is known of `android_app` when the application thread is through with its commands. -/
structure Answers (st : Glue) : Prop where
  ready : st.main ∈ [.idle, .free, .freed] ∨ { st with app := st.settled }.mainReady = true
  window : st.settled.window = st.settled.pendingWindow
  requested : st.settled.destroyRequested = decide (st.main = .free ∨ st.main = .freed)
  leaving : st.thread.rank < 3 →
    (st.main = .free ∨ st.main = .freed) ∧ (st.thread = .exited → st.app.destroyed = true)

theorem answers_initial (savedState : Option Nat) : Answers (initial savedState) :=
  ⟨Or.inl (by simp [initial]), rfl, rfl, by simp [initial, AppThread.rank]⟩

/-! ## The main thread -/

theorem settled_setWindow (st : Glue) (w : Option Nat)
    (h : st.settled.window = st.settled.pendingWindow) :
    (st.androidAppSetWindow w).settled.window = (st.androidAppSetWindow w).settled.pendingWindow ∧
      (st.androidAppSetWindow w).settled.destroyRequested = st.settled.destroyRequested ∧
      (st.androidAppSetWindow w).thread = st.thread := by
  obtain ⟨hpending, hrequested⟩ := (kept_pendingWindow w).settle
    (a := { st.app with pendingWindow := w }) (b := st.app) ⟨rfl, rfl⟩ st.thread st.pipe
  unfold androidAppSetWindow
  split_ifs with hold hw hw <;> simp only [settled, writeCmd, settle_concat]
  · exact ⟨rfl, hrequested, trivial⟩
  · exact ⟨(hpending.trans (not_not.mp hw)).symm, hrequested, trivial⟩
  · exact ⟨rfl, hrequested, trivial⟩
  · have happ : { st.app with pendingWindow := w } = st.app := by
      rw [not_not.mp hw, ← not_not.mp hold]
    rw [happ]
    exact ⟨h, rfl, trivial⟩

theorem Answers.called (h : Answers st) (hmain : st.main = .idle) (hcalled : Called st st' e) :
    Answers st' := by
  have hleaving : ¬ st.thread.rank < 3 := fun hlt => by simpa [hmain] using (h.leaving hlt).1
  have hactive : st.settled.destroyRequested = false := by simpa [hmain] using h.requested
  -- a command that is about something else
  have hwrote {st' : Glue} {app : AndroidApp} {cmd : AppCmd}
      (hsettled : st'.settled = (app.settle st.thread st.pipe).handle cmd)
      (hthread : st'.thread = st.thread) (happ : app.shared.SameWindow st.app.shared)
      (hcmd : cmd ∉ [.initWindow, .termWindow, .destroy])
      (hready : st'.main ∈ [.idle, .free, .freed] ∨
        { st' with app := (app.settle st.thread st.pipe).handle cmd }.mainReady = true)
      (hmain' : decide (st'.main = .free ∨ st'.main = .freed) = false) : Answers st' := by
    obtain ⟨hwindow, hpending, hrequested⟩ := kept_sameWindow.settle happ st.thread st.pipe
    obtain ⟨hwindow', hpending', hrequested'⟩ :=
      handle_sameWindow (app.settle st.thread st.pipe) hcmd
    refine ⟨?_, ?_, ?_, fun hlt => absurd (hthread ▸ hlt) hleaving⟩ <;> rw [hsettled]
    · exact hready
    · rw [hwindow', hpending', hwindow, hpending]
      exact h.window
    · rw [hrequested', hrequested, hmain']
      exact hactive
  cases hcalled with
  | setInput q =>
    exact hwrote (settle_concat _ _ _ _) rfl ⟨rfl, rfl, rfl⟩ (by decide)
      (Or.inr (decide_eq_true rfl)) rfl
  | setWindow w =>
    obtain ⟨hwindow, hrequested, hthread⟩ := settled_setWindow st w h.window
    exact ⟨Or.inr (decide_eq_true hwindow), hwindow, hrequested.trans hactive,
      fun hlt => absurd (hthread ▸ hlt) hleaving⟩
  | @setActivityState cmd hcmd =>
    exact hwrote (settle_concat _ _ _ _) rfl ⟨rfl, rfl, rfl⟩ (by cases cmd <;> simp at hcmd ⊢)
      (Or.inr (decide_eq_true (handle_activityState _ hcmd))) rfl
  | save =>
    exact hwrote (settle_concat _ _ _ _) rfl ⟨rfl, rfl, rfl⟩ (by decide) (Or.inr rfl) rfl
  | @write cmd hcmd =>
    exact hwrote (settle_concat _ _ _ _) rfl ⟨rfl, rfl, rfl⟩ (by cases cmd <;> simp at hcmd ⊢)
      (Or.inl (by simp [writeCmd, hmain])) (by simp [writeCmd, hmain])
  | free =>
    have hsettled : st.androidAppFree.settled = _ := settle_concat _ _ _ _
    refine ⟨Or.inl (by simp [androidAppFree]), ?_, ?_, fun hlt => absurd hlt hleaving⟩ <;>
      rw [hsettled]
    exacts [h.window, rfl]

theorem Answers.main (h : Answers st) (hstep : MainStep st st' e) : Answers st' := by
  -- a callback that returns is not `android_app_free`
  have hreturn (hfree : st.main ≠ .free) (hfreed : st.main ≠ .freed) :
      Answers { st with main := .idle, mutex := false } :=
    ⟨Or.inl (by simp), h.window, h.requested.trans (by simp [hfree, hfreed]),
      fun hlt => ((h.leaving hlt).1.elim hfree hfreed).elim⟩
  cases hstep with
  | mutex _ _ => exact ⟨h.ready, h.window, h.requested, h.leaving⟩
  | returnFree hmain =>
    exact ⟨Or.inl (by simp), h.window, h.requested.trans (by simp [hmain]),
      fun hlt => ⟨Or.inr rfl, (h.leaving hlt).2⟩⟩
  | returnWindow hmain _ => exact hreturn (by simp [hmain]) (by simp [hmain])
  | returnSave hmain _ =>
    obtain ⟨hready, hwindow, hrequested, hleaving⟩ := hreturn (by simp [hmain]) (by simp [hmain])
    exact ⟨hready, hwindow, hrequested, hleaving⟩
  | returnOther hmain =>
    rcases hmain with hmain | ⟨cmd, hmain⟩ <;> exact hreturn (by simp [hmain]) (by simp [hmain])

/-! ## The application thread -/

/-- A step does what was expected of the thread, which then has less to do. -/
theorem AppStep.settles (h : AppStep st st' e) :
    st'.settled = st.settled ∧ st'.work < st.work ∧ st'.mutex = st.mutex ∧
    (st'.thread.rank < 3 →
      st.thread.rank < 3 ∧ (st'.thread = .exited → st'.app.destroyed = true)) := by
  unfold settled settle work
  cases h with
  | read hthread hpipe => simp [hthread, hpipe, AppThread.rank, AppThread.finish]; omega
  | free hthread _ =>
    rw [shared_freeSavedState]
    generalize st.thread = thread at hthread ⊢
    cases hthread <;> exact ⟨rfl, by simp [AppThread.rank], rfl, by simp [AppThread.rank]⟩
  | skip hthread _ => simp [hthread, AppThread.rank, AppThread.finish]
  | preExec hthread _ =>
    simp [hthread, shared_preExecCmd, AppThread.rank, AppThread.finish, handle]
  | handled hthread => simp [hthread, AppThread.rank, AppThread.finish]
  | postExec hthread _ _ => simp [hthread, shared_postExecCmd, AppThread.rank, AppThread.finish]
  | detach hthread _ => simp [hthread, shared, AppThread.rank, AppThread.finish]

/-- `android_main` has only returned after it was asked to. -/
def Patient (trace : List Event) : Prop := ∀ main, .mainLeft false main ∉ trace

theorem Patient.of_concat {trace : List Event} (h : Patient (trace ++ [e])) :
    Patient trace ∧ ∀ main, e ≠ .mainLeft false main := by
  simp only [Patient, List.mem_append, List.mem_singleton, not_or] at h
  exact ⟨fun main => (h main).1, fun main heq => (h main).2 heq.symm⟩

theorem Answers.step (h : Answers st) (hstep : Step st st' e)
    (hasked : ∀ main, e ≠ .mainLeft false main) : Answers st' := by
  cases hstep with
  | callback hmain hcalled => exact h.called hmain hcalled
  | main hmain => exact h.main hmain
  | app happ =>
    obtain ⟨hready, hwindow, hrequested, hleaving⟩ := h
    obtain ⟨hsettled, -, -, hrank⟩ := happ.settles
    unfold mainReady at hready
    rw [← hsettled, ← happ.main_eq] at hready hrequested
    rw [← hsettled] at hwindow
    exact ⟨hready, hwindow, hrequested,
      fun hlt => ⟨happ.main_eq ▸ (hleaving (hrank hlt).1).1, (hrank hlt).2⟩⟩
  | store _ _ _ _ _ _ => exact ⟨h.ready, h.window, h.requested, h.leaving⟩
  | leave hthread =>
    have hrequested : st.app.destroyRequested = true := by
      by_contra hnot
      exact hasked st.main (by simp [hnot])
    -- `destroyRequested` is only set for `android_app_free`
    have hsettled : { st with thread := .destroy }.settled = st.settled := by
      simp only [settled, settle, hthread, AppThread.finish]
    have hmain := h.requested.symm.trans
      (kept_destroyRequested.settle (a := st.app) (b := st.app) hrequested _ _)
    refine ⟨?_, ?_, ?_, fun _ => ⟨of_decide_eq_true hmain, fun heq => by cases heq⟩⟩ <;>
      rw [hsettled]
    exacts [h.ready, h.window, h.requested]

theorem answers_of_run {savedState : Option Nat} {trace : List Event}
    (h : Run step (initial savedState) trace st) (hpatient : Patient trace) : Answers st := by
  induction h with
  | nil => exact answers_initial savedState
  | snoc _ hstep ih =>
    obtain ⟨hbefore, hasked⟩ := hpatient.of_concat
    exact (ih hbefore).step (step_cases hstep) hasked

/-! ## The way to the end of a callback -/

theorem appStep_isSome (hmutex : st.mutex = false) :
    st.appStep.isSome ∨ st.thread = .exited ∨ st.thread = .androidMain ∧ st.pipe = [] := by
  unfold appStep locked
  cases st.thread with
  | androidMain => cases hpipe : st.pipe <;> simp
  | read cmd => simp [hmutex, apply_ite Option.isSome]
  | postExec cmd => simp [hmutex, apply_ite Option.isSome]
  | _ => simp [hmutex]

/-- The main thread is in a callback that waits. -/
def Waits (st : Glue) : Prop := st.main ≠ .idle ∧ st.main ≠ .freed
deriving Decidable

theorem Answers.ready_or_free (h : Answers st) (hwaits : st.Waits)
    (hthread : st.thread = .androidMain) (hpipe : st.pipe = []) :
    st.mainReady = true ∨ st.app.destroyRequested = true := by
  have hsettled : st.settled = st.app.shared := by
    rw [settled, hthread, hpipe]
    rfl
  obtain ⟨hready, -, hrequested, -⟩ := h
  rw [hsettled] at hready hrequested
  unfold mainReady at hready ⊢
  cases hmain : st.main with
  | idle => exact absurd hmain hwaits.1
  | freed => exact absurd hmain hwaits.2
  | free => exact Or.inr (hrequested.trans (by simp [hmain]))
  | _ =>
    rw [hmain] at hready
    exact Or.inl (hready.resolve_left (by simp))

/-- The steps that the two threads take by themselves. -/
def threadActions : List Action := [.mainThread, .appThread, .leaveMain]

theorem Answers.progress (h : Answers st) (hwaits : st.Waits) (hmutex : st.mutex = false)
    (hready : st.mainReady = false) :
    ∃ a ∈ threadActions, ∃ st' e, st.step a = some (st', e) ∧
      (∀ main, e ≠ .mainLeft false main) ∧ st'.main = st.main ∧ st'.mutex = false ∧
      st'.work < st.work := by
  obtain hsome | hexited | ⟨hthread, hpipe⟩ := appStep_isSome hmutex
  · obtain ⟨⟨st', e⟩, hstep⟩ := Option.isSome_iff_exists.mp hsome
    have happ := appStep_cases hstep
    obtain ⟨-, hwork, hmutex', -⟩ := happ.settles
    refine ⟨.appThread, by decide, st', e, hstep, ?_, happ.main_eq, hmutex'.trans hmutex, hwork⟩
    rintro main rfl
    cases happ
  · obtain ⟨hmain, hdestroyed⟩ := h.leaving (by simp [hexited, AppThread.rank])
    simp [mainReady, hmain.resolve_right hwaits.2, hdestroyed hexited] at hready
  · have hrequested := (h.ready_or_free hwaits hthread hpipe).resolve_left (by simp [hready])
    exact ⟨.leaveMain, by decide, { st with thread := .destroy }, .mainLeft true st.main,
      by simp [Glue.step, leaveMain, hthread, hrequested], by simp, rfl, hmutex,
      by simp [work, hthread, AppThread.rank]⟩

theorem not_waits_mainReturn (hready : st.mainReady = true) : ¬ st.mainReturn.1.Waits := by
  unfold mainReady at hready
  unfold mainReturn Waits
  cases hmain : st.main <;> simp [hmain] at hready ⊢

theorem mainReturn_ne_mainLeft (hready : st.mainReady = true) {asked : Bool} {main : MainThread} :
    st.mainReturn.2 ≠ .mainLeft asked main := by
  unfold mainReady at hready
  unfold mainReturn
  cases hmain : st.main <;> simp [hmain] at hready ⊢

/-- From `st` the two threads get to the end of the callback in at most `n` steps, in which
    `android_main` only returns if it is asked to. -/
def ReturnsIn (st : Glue) (n : Nat) : Prop :=
  ∃ actions trace st', (∀ a ∈ actions, a ∈ threadActions) ∧ actions.length ≤ n ∧
    runActions step st actions = some (trace, st') ∧ Patient trace ∧ ¬ st'.Waits

theorem ReturnsIn.step {n m : Nat} {a : Action} (h : st'.ReturnsIn n) (ha : a ∈ threadActions)
    (hstep : st.step a = some (st', e)) (hasked : ∀ main, e ≠ .mainLeft false main) (hm : n < m) :
    st.ReturnsIn m := by
  obtain ⟨actions, trace, st'', hactions, hlength, hrun, hpatient, hdone⟩ := h
  refine ⟨a :: actions, e :: trace, st'', List.forall_mem_cons.mpr ⟨ha, hactions⟩, ?_, ?_, ?_,
    hdone⟩
  · exact hlength.trans_lt hm
  · simp [runActions, hstep, hrun]
  · intro main hmem
    exact (List.mem_cons.mp hmem).elim (fun heq => hasked main heq.symm) (hpatient main)

theorem returnsIn_of_ready {n : Nat} (hwaits : st.Waits) (hmutex : st.mutex = true)
    (hready : st.mainReady = true) (hn : 0 < n) : st.ReturnsIn n := by
  have hreturn : st.step .mainThread = some st.mainReturn := by
    simp [Glue.step, mainStep, hwaits.1, hwaits.2, hmutex, hready]
  have hend : st.mainReturn.1.ReturnsIn 0 :=
    ⟨[], [], _, by simp, by simp, rfl, by simp [Patient], not_waits_mainReturn hready⟩
  exact hend.step (by decide) hreturn (fun main => mainReturn_ne_mainLeft hready) hn

theorem step_mutex (hwaits : st.Waits) (h : st.mutex = true → st.mainReady = false) :
    st.step .mainThread = some ({ st with mutex := !st.mutex }, .other) := by
  cases hmutex : st.mutex <;> simp [Glue.step, mainStep, hwaits.1, hwaits.2, hmutex, h]

theorem Answers.returnsIn {n : Nat} (h : Answers st) (hwaits : st.Waits)
    (hmutex : st.mutex = false) (hn : st.work + 2 ≤ n) : st.ReturnsIn n := by
  induction n generalizing st with
  | zero => omega
  | succ n ih =>
    cases hready : st.mainReady with
    | true =>
      have hlock := step_mutex hwaits (by simp [hmutex])
      have hend : { st with mutex := !st.mutex }.ReturnsIn n :=
        returnsIn_of_ready hwaits (by simp [hmutex]) hready (by omega)
      exact hend.step (by decide) hlock (by simp) n.lt_succ_self
    | false =>
      obtain ⟨a, ha, st', e, hstep, hasked, hmain, hmutex', hlt⟩ := h.progress hwaits hmutex hready
      have hrest := ih (h.step (step_cases hstep) hasked) (by rwa [Waits, hmain]) hmutex' (by omega)
      exact hrest.step ha hstep hasked n.lt_succ_self

/-- While a callback waits, the two threads get to its end by themselves, whatever they did before,
    in a number of steps that the commands in the pipe bound. It is only assumed that `android_main`
    waits until it is asked to return, and that the pipe has room for every command. -/
theorem callback_returns (savedState : Option Nat) (trace : List Event) (st : Glue)
    (h : Run step (initial savedState) trace st) (hpatient : Patient trace) (hwaits : st.Waits) :
    st.ReturnsIn (st.work + 3) := by
  cases hmutex : st.mutex with
  | false => exact (answers_of_run h hpatient).returnsIn hwaits hmutex (by omega)
  | true =>
    cases hready : st.mainReady with
    | true => exact returnsIn_of_ready hwaits hmutex hready (by omega)
    | false =>
      -- the main thread has to let go of the mutex first
      have hstep := step_mutex hwaits fun _ => hready
      have hanswers := (answers_of_run h hpatient).step (step_cases hstep) (by simp)
      have hrest : { st with mutex := !st.mutex }.ReturnsIn (st.work + 2) :=
        hanswers.returnsIn hwaits (by simp [hmutex]) le_rfl
      exact hrest.step (by decide) hstep (by simp) (by omega)

theorem callback_returns_setWindow :
    ((initial none).androidAppSetWindow (some 7)).ReturnsIn 11 :=
  callback_returns none [.setWindowCalled (some 7)] _
    (Run.nil.snoc (a := .setWindow (some 7)) rfl) (by simp [Patient]) (by decide)

/-! ## The end -/

/-- The application thread is through before `android_app_free` frees `android_app`. -/
structure Outlived (st : Glue) : Prop where
  destroyed : st.app.destroyed = true ↔ st.thread = .exited
  freed : st.main = .freed → st.thread = .exited

theorem freed_of_step {a : Action} (h : st.step a = some (st', e)) (hfreed : st'.main = .freed) :
    st.app.destroyed = true ∨ st.main = .freed := by
  cases a with
  | mainThread =>
    unfold Glue.step mainStep mainReady mainReturn at h
    grind
  | appThread => exact Or.inr ((appStep_cases h).main_eq ▸ hfreed)
  | _ =>
    simp only [Glue.step, callback, storeState, leaveMain, androidAppSetInput,
      androidAppSetActivityState, onSaveInstanceState, androidAppFree, writeCmd] at h
    grind [androidAppSetWindow_fields]

theorem Called.thread_eq (h : Called st st' e) :
    st'.thread = st.thread ∧ st'.app.destroyed = st.app.destroyed := by
  cases h with
  | setWindow w =>
    unfold androidAppSetWindow
    split_ifs <;> exact ⟨rfl, rfl⟩
  | _ => exact ⟨rfl, rfl⟩

theorem Outlived.step {a : Action} (h : Outlived st) (hstep : st.step a = some (st', e)) :
    Outlived st' := by
  have hkeeps : (st.thread = .exited → st'.thread = .exited) ∧
      (st'.app.destroyed = true ↔ st'.thread = .exited) := by
    have hdestroyed := h.destroyed
    cases step_cases hstep with
    | callback _ hcalled =>
      rw [hcalled.thread_eq.1, hcalled.thread_eq.2]
      exact ⟨id, hdestroyed⟩
    | main hmain => cases hmain <;> exact ⟨id, hdestroyed⟩
    | store _ _ _ _ _ _ => exact ⟨id, hdestroyed⟩
    | leave hthread => simp [hdestroyed, hthread]
    | app happ =>
      have hfree : st.app.freeSavedState.destroyed = st.app.destroyed := by
        unfold AndroidApp.freeSavedState
        split_ifs <;> rfl
      cases happ with
      | read hthread _ => simp [hdestroyed, hthread]
      | free hthread _ =>
        generalize hfrom : st.thread = thread at hthread
        cases hthread <;> simp [hfree, hdestroyed, hfrom]
      | skip hthread _ => simp [hdestroyed, hthread]
      | @preExec cmd hthread _ => cases cmd <;> simp [preExecCmd, hdestroyed, hthread]
      | handled hthread => simp [hdestroyed, hthread]
      | @postExec cmd hthread _ _ => cases cmd <;> simp [postExecCmd, hfree, hdestroyed, hthread]
      | detach _ _ => simp
  refine ⟨hkeeps.2, fun hfreed => hkeeps.1 ?_⟩
  exact (freed_of_step hstep hfreed).elim h.destroyed.mp h.freed

theorem outlived_of_run {savedState : Option Nat} {trace : List Event}
    (h : Run step (initial savedState) trace st) : Outlived st := by
  induction h with
  | nil => exact ⟨by simp [initial, AndroidApp.create], by simp [initial]⟩
  | snoc _ hstep ih => exact ih.step hstep

/-- Once `android_app_free` is done there is no step left that could use `android_app`. -/
theorem no_step_of_freed (savedState : Option Nat) (trace : List Event) (st : Glue)
    (h : Run step (initial savedState) trace st) (hfreed : st.main = .freed) (a : Action) :
    st.step a = none := by
  have hthread := (outlived_of_run h).freed hfreed
  cases a <;> simp [step, callback, mainStep, appStep, storeState, leaveMain, hfreed, hthread]

theorem no_step_of_freed_onDestroy : ∃ trace st, Run step (initial none) trace st ∧
    st.main = .freed ∧ st.step .appThread = none := by
  obtain ⟨trace, st, hrun, hfreed⟩ : ∃ trace st, runActions step (initial none)
      [.onDestroy, .mainThread, .appThread, .appThread, .appThread, .appThread, .appThread,
        .leaveMain, .appThread, .appThread, .mainThread, .mainThread] = some (trace, st) ∧
      st.main = .freed := exists_runActions_iff.mpr (by decide +kernel)
  have h := run_of_runActions hrun
  exact ⟨trace, st, h, hfreed, no_step_of_freed none trace st h hfreed .appThread⟩

end Glue

end CrystaxNdk.NativeAppGlue
