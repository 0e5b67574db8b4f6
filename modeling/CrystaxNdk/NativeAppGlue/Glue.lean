import CrystaxNdk.Lib.Runs

/-!
# `android_native_app_glue.c` — the two threads of a native activity

The main thread of an activity calls the callbacks `onStart`, `onSaveInstanceState` and so on, and
must get an answer from each. The application runs in a thread of its own. The callbacks write
commands to a pipe, and most of them wait until the application thread has got to a certain point
in handling them. What the two share is `struct android_app`, under a mutex.

`step` is one step of one thread. The steps of the application thread that take the mutex are
atomic; the main thread keeps the mutex from the beginning of a callback to the first time it has to
wait, and takes it again whenever it is woken up, for a reason or not.

Windows, input queues and blocks of memory are numbers, and no block gets the number of another.

`android_main` and the handlers are the application's, and may do what they like with two
exceptions. A handler assigns to `savedState` only for `APP_CMD_SAVE_STATE`, and `android_main`
reads a command only to process it. It may return at any time, though, whether it was asked to or
not: `android_app_entry` then calls `android_app_destroy`, and the commands that are left in the
pipe are never read. Results that need the application to wait until it is asked say so in terms of
the event `mainLeft`.

The pipe takes any number of commands. A real one is full after some thousand of them, and then
blocks the main thread in `write`, with the mutex if the callback has taken it.
-/

namespace CrystaxNdk.NativeAppGlue

/-- `APP_CMD_INPUT_CHANGED` and so on, in the order of their values. -/
inductive AppCmd
  | inputChanged | initWindow | termWindow | windowResized | windowRedrawNeeded
  | contentRectChanged | gainedFocus | lostFocus | configChanged | lowMemory | start | resume
  | saveState | pause | stop | destroy
deriving DecidableEq, Repr

/-- `struct android_app`, without what only the application uses. -/
structure AndroidApp where
  savedState : Option Nat
  savedStateSize : Nat
  inputQueue : Option Nat
  window : Option Nat
  activityState : AppCmd
  destroyRequested : Bool
  stateSaved : Bool
  destroyed : Bool
  pendingInputQueue : Option Nat
  pendingWindow : Option Nat
deriving DecidableEq

namespace AndroidApp

/-- After `memset`, with the state of the last instance if there is one. -/
def create (savedState : Option Nat) (savedStateSize : Nat) : AndroidApp where
  savedState := savedState
  savedStateSize := savedStateSize
  inputQueue := none
  window := none
  activityState := .inputChanged
  destroyRequested := false
  stateSaved := false
  destroyed := false
  pendingInputQueue := none
  pendingWindow := none

def freeSavedState (app : AndroidApp) : AndroidApp :=
  if app.savedState ≠ none then { app with savedState := none, savedStateSize := 0 } else app

def preExecCmd (app : AndroidApp) : AppCmd → AndroidApp
  | .inputChanged => { app with inputQueue := app.pendingInputQueue }
  | .initWindow => { app with window := app.pendingWindow }
  | .resume => { app with activityState := .resume }
  | .start => { app with activityState := .start }
  | .pause => { app with activityState := .pause }
  | .stop => { app with activityState := .stop }
  | .destroy => { app with destroyRequested := true }
  | _ => app

def postExecCmd (app : AndroidApp) : AppCmd → AndroidApp
  | .termWindow => { app with window := none }
  | .saveState => { app with stateSaved := true }
  | .resume => app.freeSavedState
  | _ => app

end AndroidApp

/-- Where the main thread is: in no callback, or in the loop of one that waits. -/
inductive MainThread
  | idle
  | setInput
  | setWindow (window : Option Nat)
  | setActivityState (cmd : AppCmd)
  | saveInstanceState
  | free
  | freed
deriving DecidableEq

/-- Where the application thread is: in `android_main`, in one of the steps of `process_cmd`, or in
    one of those of `android_app_destroy`. -/
inductive AppThread
  | androidMain
  | read (cmd : AppCmd)
  | preExec (cmd : AppCmd)
  | handler (cmd : AppCmd)
  | postExec (cmd : AppCmd)
  | destroy
  | detach
  | exited
deriving DecidableEq

/-- The activity. `mutex` says that the main thread has the mutex. -/
structure Glue where
  app : AndroidApp
  pipe : List AppCmd
  mutex : Bool
  main : MainThread
  thread : AppThread
  nextBuffer : Nat
deriving DecidableEq

inductive Event
  | setWindowCalled (window : Option Nat)
  | setWindowReturned (window : Option Nat)
  | saveCalled
  | saveReturned (state : Option (Nat × Nat))
  | cmdRead (cmd : AppCmd)
  | stateStored (state : Option (Nat × Nat))
  | stateFreed (savedState : Option Nat)
  /-- `android_main` has returned; whether it was asked to, and what the main thread was doing. -/
  | mainLeft (asked : Bool) (main : MainThread)
  | other
deriving DecidableEq

/-- The callbacks of the main thread, one step of a callback, and the steps of the application
    thread: `storeState` is an assignment to `savedState` in the handler, with a new block or with
    `NULL`, and `leaveMain` the return of `android_main`. -/
inductive Action
  | setInput (inputQueue : Option Nat)
  | setWindow (window : Option Nat)
  | onStart
  | onResume
  | onPause
  | onStop
  | onSaveInstanceState
  | onConfigurationChanged
  | onLowMemory
  | onWindowFocusChanged (focused : Bool)
  | onDestroy
  | mainThread
  | appThread
  | storeState (allocate : Bool) (size : Nat)
  | leaveMain
deriving DecidableEq

namespace Glue

/-- When `android_app_create` returns. -/
def initial (savedState : Option Nat) : Glue where
  app := AndroidApp.create (savedState.map fun _ => 0) (savedState.getD 0)
  pipe := []
  mutex := false
  main := .idle
  thread := .androidMain
  nextBuffer := 1

/-! ## The main thread -/

def writeCmd (st : Glue) (cmd : AppCmd) : Glue := { st with pipe := st.pipe ++ [cmd] }

def androidAppSetInput (st : Glue) (inputQueue : Option Nat) : Glue :=
  let st := { st with app.pendingInputQueue := inputQueue }
  { st.writeCmd .inputChanged with main := .setInput, mutex := true }

def androidAppSetWindow (st : Glue) (window : Option Nat) : Glue :=
  let st := if st.app.pendingWindow ≠ none then st.writeCmd .termWindow else st
  let st := { st with app.pendingWindow := window }
  let st := if window ≠ none then st.writeCmd .initWindow else st
  { st with main := .setWindow window, mutex := true }

def androidAppSetActivityState (st : Glue) (cmd : AppCmd) : Glue :=
  { st.writeCmd cmd with main := .setActivityState cmd, mutex := true }

def onSaveInstanceState (st : Glue) : Glue :=
  let st := { st with app.stateSaved := false }
  { st.writeCmd .saveState with main := .saveInstanceState, mutex := true }

def androidAppFree (st : Glue) : Glue :=
  { st.writeCmd .destroy with main := .free, mutex := true }

/-- The loop of the callback may be left. -/
def mainReady (st : Glue) : Bool :=
  match st.main with
  | .setInput => st.app.inputQueue = st.app.pendingInputQueue
  | .setWindow _ => st.app.window = st.app.pendingWindow
  | .setActivityState cmd => st.app.activityState = cmd
  | .saveInstanceState => st.app.stateSaved
  | .free => st.app.destroyed
  | .idle => false
  | .freed => false

/-- What follows the loop, and the return of the callback. -/
def mainReturn (st : Glue) : Glue × Event :=
  let st := { st with mutex := false }
  match st.main with
  | .setWindow window => ({ st with main := .idle }, .setWindowReturned window)
  | .saveInstanceState =>
    let state := st.app.savedState.map fun savedState => (savedState, st.app.savedStateSize)
    ({ st with
        main := .idle
        app.savedState := none
        app.savedStateSize := if st.app.savedState ≠ none then 0 else st.app.savedStateSize },
      .saveReturned state)
  | .free => ({ st with main := .freed }, .other)
  | _ => ({ st with main := .idle }, .other)

/-- One step in a callback: the condition of the loop, `pthread_cond_wait`, or the end of it. -/
def mainStep (st : Glue) : Option (Glue × Event) :=
  if st.main = .idle ∨ st.main = .freed then none
  else if st.mutex then
    if st.mainReady then some st.mainReturn else some ({ st with mutex := false }, .other)
  else some ({ st with mutex := true }, .other)

/-! ## The application thread -/

def locked (st : Glue) (next : Glue × Event) : Option (Glue × Event) :=
  if st.mutex then none else some next

def freeSavedState (st : Glue) (thread : AppThread) : Glue × Event :=
  ({ st with app := st.app.freeSavedState, thread }, .stateFreed st.app.savedState)

/-- Whether `android_app_pre_exec_cmd` takes the mutex. -/
def preLocks (cmd : AppCmd) : Bool :=
  cmd ∈ [.inputChanged, .initWindow, .resume, .start, .pause, .stop]

/-- One step of the application thread, which handles commands in `android_main`. -/
def appStep (st : Glue) : Option (Glue × Event) :=
  match st.thread with
  | .androidMain =>
    match st.pipe with
    | [] => none
    | cmd :: pipe => some ({ st with pipe, thread := .read cmd }, .cmdRead cmd)
  | .read cmd =>
    if cmd = .saveState then st.locked (st.freeSavedState (.preExec cmd))
    else some ({ st with thread := .preExec cmd }, .other)
  | .preExec cmd =>
    let next := ({ st with app := st.app.preExecCmd cmd, thread := .handler cmd }, .other)
    if preLocks cmd then st.locked next else some next
  | .handler cmd => some ({ st with thread := .postExec cmd }, .other)
  | .postExec cmd =>
    if cmd = .resume then st.locked (st.freeSavedState .androidMain)
    else
      let next := ({ st with app := st.app.postExecCmd cmd, thread := .androidMain }, .other)
      if cmd ∈ [.termWindow, .saveState] then st.locked next else some next
  | .destroy => st.locked (st.freeSavedState .detach)
  | .detach => st.locked ({ st with app.destroyed := true, thread := .exited }, .other)
  | .exited => none

/-- The handler of `APP_CMD_SAVE_STATE` assigns to `savedState`. -/
def storeState (st : Glue) (allocate : Bool) (size : Nat) : Option (Glue × Event) :=
  if st.thread = .handler .saveState then
    let savedState := if allocate then some st.nextBuffer else none
    some ({ st with
        app.savedState := savedState
        app.savedStateSize := size
        nextBuffer := if allocate then st.nextBuffer + 1 else st.nextBuffer },
      .stateStored (savedState.map fun savedState => (savedState, size)))
  else none

/-- `android_main` returns, and `android_app_entry` goes on. -/
def leaveMain (st : Glue) : Option (Glue × Event) :=
  if st.thread = .androidMain then
    some ({ st with thread := .destroy }, .mainLeft st.app.destroyRequested st.main)
  else none

/-- A callback, which the main thread enters when it is in no other one. -/
def callback (st : Glue) (next : Glue) (event : Event) : Option (Glue × Event) :=
  if st.main = .idle then some (next, event) else none

def step (st : Glue) : Action → Option (Glue × Event)
  | .setInput inputQueue => st.callback (st.androidAppSetInput inputQueue) .other
  | .setWindow window => st.callback (st.androidAppSetWindow window) (.setWindowCalled window)
  | .onStart => st.callback (st.androidAppSetActivityState .start) .other
  | .onResume => st.callback (st.androidAppSetActivityState .resume) .other
  | .onPause => st.callback (st.androidAppSetActivityState .pause) .other
  | .onStop => st.callback (st.androidAppSetActivityState .stop) .other
  | .onSaveInstanceState => st.callback st.onSaveInstanceState .saveCalled
  | .onConfigurationChanged => st.callback (st.writeCmd .configChanged) .other
  | .onLowMemory => st.callback (st.writeCmd .lowMemory) .other
  | .onWindowFocusChanged focused =>
    st.callback (st.writeCmd (if focused then .gainedFocus else .lostFocus)) .other
  | .onDestroy => st.callback st.androidAppFree .other
  | .mainThread => st.mainStep
  | .appThread => st.appStep
  | .storeState allocate size => st.storeState allocate size
  | .leaveMain => st.leaveMain

end Glue

end CrystaxNdk.NativeAppGlue
