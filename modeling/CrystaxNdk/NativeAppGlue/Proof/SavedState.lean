import CrystaxNdk.NativeAppGlue.Proof.Window

/-!
# The saved state

While `onSaveInstanceState` waits, the main thread writes no other command, so its
`APP_CMD_SAVE_STATE` is the last one in the pipe. When the application thread has handled it there
is nothing left to do, and nothing touches `savedState` until the main thread has taken it, unless
`android_main` returns just then: `android_app_destroy` frees the state that was saved, and the
callback returns `NULL`. `Phase` follows a request through the two threads in runs in which this
does not happen.

A block is in one place at a time: in `savedState`, where it can be freed, or returned. That no
block is returned twice, or freed after it was returned, follows from this alone, and holds for all
runs (`Owned`).
-/

namespace CrystaxNdk.NativeAppGlue

open Lib List

/-! ## What is seen of the saved state -/

def storeEvent (states : List (Option (Nat × Nat))) : Event → List (Option (Nat × Nat))
  | .cmdRead .saveState => states ++ [none]
  | .stateStored state => states.dropLast ++ [state]
  | _ => states

/-- For each `APP_CMD_SAVE_STATE` that was read, what the handler has stored for it. -/
def stored (trace : List Event) : List (Option (Nat × Nat)) := trace.foldl storeEvent []

/-- What a call of `onSaveInstanceState` has returned. -/
def Event.returned? : Event → Option (Option (Nat × Nat))
  | .saveReturned state => some state
  | _ => none

/-- What each call of `onSaveInstanceState` has returned. -/
def returned (trace : List Event) : List (Option (Nat × Nat)) := trace.filterMap Event.returned?

def buffers (states : List (Option (Nat × Nat))) : List Nat := states.filterMap (·.map Prod.fst)

section Traces

variable {trace : List Event} {e : Event}

theorem stored_append : stored (trace ++ [e]) = storeEvent (stored trace) e := by
  simp [stored]

theorem returned_append : returned (trace ++ [e]) = returned trace ++ e.returned?.toList := by
  cases h : e.returned? <;> simp [returned, h]

def Event.Silent (e : Event) : Prop :=
  e ≠ .cmdRead .saveState ∧ (∀ state, e ≠ .stateStored state) ∧ ∀ state, e ≠ .saveReturned state

theorem Event.Silent.stored (h : e.Silent) :
    NativeAppGlue.stored (trace ++ [e]) = NativeAppGlue.stored trace := by
  rw [stored_append]
  obtain ⟨hread, hstored, -⟩ := h
  cases e with
  | cmdRead cmd => cases cmd <;> first | rfl | exact absurd rfl hread
  | stateStored state => exact absurd rfl (hstored state)
  | _ => rfl

theorem Event.Silent.returned (h : e.Silent) :
    NativeAppGlue.returned (trace ++ [e]) = NativeAppGlue.returned trace := by
  rw [returned_append]
  cases e with
  | saveReturned state => exact absurd rfl (h.2.2 state)
  | _ => simp [Event.returned?]

/-- What is seen of the saved state in a phase stays as it is under every other event. -/
theorem stored_eq (he : e.Silent) (heq : stored trace = returned trace) :
    stored (trace ++ [e]) = returned (trace ++ [e]) := by
  rw [he.stored, he.returned, heq]

theorem stored_eq_append {states : List (Option (Nat × Nat))} (he : e.Silent)
    (heq : stored trace = returned trace ++ states) :
    stored (trace ++ [e]) = returned (trace ++ [e]) ++ states := by
  rw [he.stored, he.returned, heq]

end Traces

/-- The command that the application thread is about to handle, or handles. -/
def AppThread.cmd? : AppThread → Option AppCmd
  | .read cmd => some cmd
  | .preExec cmd => some cmd
  | .handler cmd => some cmd
  | .postExec cmd => some cmd
  | _ => none

def AndroidApp.state (app : AndroidApp) : Option (Nat × Nat) :=
  app.savedState.map fun savedState => (savedState, app.savedStateSize)

namespace Glue

variable {st st' : Glue} {trace : List Event} {e : Event}

/-! ## A request to save the state -/

/-- No request is in the pipe or being handled. -/
structure Quiet (st : Glue) : Prop where
  pipe : .saveState ∉ st.pipe
  thread : st.thread.cmd? ≠ some .saveState

inductive Phase (trace : List Event) (st : Glue) : Prop
  | none (hmain : st.main ≠ .saveInstanceState) (hquiet : st.Quiet)
      (heq : stored trace = returned trace)
  | written (front : List AppCmd) (hmain : st.main = .saveInstanceState)
      (hpipe : st.pipe = front ++ [.saveState]) (hfront : .saveState ∉ front)
      (hthread : st.thread.cmd? ≠ some .saveState) (hsaved : st.app.stateSaved = false)
      (heq : stored trace = returned trace)
  | read (hmain : st.main = .saveInstanceState) (hpipe : st.pipe = [])
      (hthread : st.thread = .read .saveState) (hsaved : st.app.stateSaved = false)
      (heq : stored trace = returned trace ++ [Option.none])
  | handled (hmain : st.main = .saveInstanceState) (hpipe : st.pipe = [])
      (hthread : st.thread ∈
        [AppThread.preExec .saveState, .handler .saveState, .postExec .saveState])
      (hsaved : st.app.stateSaved = false) (heq : stored trace = returned trace ++ [st.app.state])
  | saved (hmain : st.main = .saveInstanceState) (hpipe : st.pipe = [])
      (hthread : st.thread = .androidMain) (heq : stored trace = returned trace ++ [st.app.state])

end Glue

/-! ## The fields that matter -/

namespace AndroidApp

variable (app : AndroidApp) (cmd : AppCmd)

@[simp]
theorem freeSavedState_savedState : app.freeSavedState.savedState = none := by
  unfold freeSavedState
  split_ifs with h
  · rfl
  · simpa using h

@[simp]
theorem freeSavedState_stateSaved : app.freeSavedState.stateSaved = app.stateSaved := by
  unfold freeSavedState
  split_ifs <;> rfl

@[simp]
theorem preExecCmd_stateSaved : (app.preExecCmd cmd).stateSaved = app.stateSaved := by
  cases cmd <;> rfl

@[simp]
theorem preExecCmd_savedState : (app.preExecCmd cmd).savedState = app.savedState := by
  cases cmd <;> rfl

theorem postExecCmd_stateSaved (h : cmd ≠ .saveState) :
    (app.postExecCmd cmd).stateSaved = app.stateSaved := by
  cases cmd <;> first | rfl | exact absurd rfl h | simp [postExecCmd]

theorem postExecCmd_savedState (h : cmd ≠ .resume) :
    (app.postExecCmd cmd).savedState = app.savedState := by
  cases cmd <;> first | rfl | exact absurd rfl h

end AndroidApp

namespace Glue

variable {st st' : Glue} {trace : List Event} {e : Event}

/-! ## The phases -/

theorem Phase.bystand (h : Phase trace st) (hmain : st'.main = st.main) (hpipe : st'.pipe = st.pipe)
    (hsaved : st'.app.stateSaved = st.app.stateSaved) (hthread : st.thread.cmd? ≠ some .saveState)
    (hthread' : st'.thread.cmd? ≠ some .saveState)
    (hnot : st.main = .saveInstanceState → st.pipe = [] → st.thread ≠ .androidMain)
    (he : e.Silent) : Phase (trace ++ [e]) st' := by
  cases h with
  | none hother hquiet heq =>
    refine .none (hmain ▸ hother) ⟨hpipe ▸ hquiet.pipe, hthread'⟩ ?_
    exact stored_eq he heq
  | written front hsave hfront hnone _ hfalse heq =>
    refine .written front (hmain.trans hsave) (hpipe.trans hfront) hnone hthread'
      (hsaved.trans hfalse) ?_
    exact stored_eq he heq
  | read _ _ hread _ _ => exact absurd (by rw [hread]; rfl) hthread
  | handled _ _ hhandled _ _ =>
    refine absurd ?_ hthread
    simp only [mem_cons, not_mem_nil, or_false] at hhandled
    rcases hhandled with h | h | h <;> (rw [h]; rfl)
  | saved hsave hnil hidle _ => exact absurd hidle (hnot hsave hnil)

def HandlesSave (st : Glue) : Prop :=
  st.thread ∈ [AppThread.preExec .saveState, .handler .saveState, .postExec .saveState]

theorem Phase.of_handlesSave (h : Phase trace st) (hthread : st.HandlesSave) :
    st.main = .saveInstanceState ∧ st.pipe = [] ∧ st.app.stateSaved = false ∧
      stored trace = returned trace ++ [st.app.state] := by
  have hcmd : st.thread.cmd? = some .saveState := by
    simp only [HandlesSave, mem_cons, not_mem_nil, or_false] at hthread
    rcases hthread with h | h | h <;> (rw [h]; rfl)
  cases h with
  | none _ hquiet _ => exact absurd hcmd hquiet.thread
  | written _ _ _ _ hne _ _ => exact absurd hcmd hne
  | read _ _ hread _ _ => simp [HandlesSave, hread] at hthread
  | handled hmain hpipe _ hsaved heq => exact ⟨hmain, hpipe, hsaved, heq⟩
  | saved _ _ hidle _ => simp [hidle, AppThread.cmd?] at hcmd

theorem Phase.of_main_ne (h : Phase trace st) (hmain : st.main ≠ .saveInstanceState) :
    st.Quiet ∧ stored trace = returned trace := by
  cases h with
  | none _ hquiet heq => exact ⟨hquiet, heq⟩
  | written _ hsave => exact absurd hsave hmain
  | read hsave => exact absurd hsave hmain
  | handled hsave => exact absurd hsave hmain
  | saved hsave => exact absurd hsave hmain

theorem silent_other : Event.other.Silent := by
  simp [Event.Silent]

theorem Called.phase (h : Called st st' e) (hidle : st.main = .idle) (hphase : Phase trace st) :
    Phase (trace ++ [e]) st' := by
  obtain ⟨hquiet, heq⟩ := hphase.of_main_ne (by simp [hidle])
  obtain ⟨hpipe, hthread⟩ := hquiet
  cases h with
  | setInput _ =>
    refine .none (by simp [androidAppSetInput])
      ⟨by simpa [androidAppSetInput, writeCmd], hthread⟩ ?_
    exact stored_eq silent_other heq
  | setWindow window =>
    have he : (Event.setWindowCalled window).Silent := by simp [Event.Silent]
    refine .none (by simp [androidAppSetWindow]) ?_ (stored_eq he heq)
    unfold androidAppSetWindow
    split_ifs <;> exact ⟨by simpa [writeCmd], hthread⟩
  | @setActivityState cmd hcmd =>
    have hne : AppCmd.saveState ≠ cmd := by
      rintro rfl
      simp at hcmd
    refine .none (by simp [androidAppSetActivityState]) ⟨?_, hthread⟩ ?_
    · simpa [androidAppSetActivityState, writeCmd] using ⟨hpipe, hne⟩
    · exact stored_eq silent_other heq
  | save =>
    have he : Event.saveCalled.Silent := by simp [Event.Silent]
    refine .written st.pipe rfl rfl hpipe hthread rfl ?_
    exact stored_eq he heq
  | @write cmd hcmd =>
    have hne : AppCmd.saveState ≠ cmd := by
      rintro rfl
      simp at hcmd
    refine .none (by simp [writeCmd, hidle]) ⟨by simpa [writeCmd] using ⟨hpipe, hne⟩, hthread⟩ ?_
    exact stored_eq silent_other heq
  | free =>
    refine .none (by simp [androidAppFree]) ⟨by simpa [androidAppFree, writeCmd], hthread⟩ ?_
    exact stored_eq silent_other heq

/-- The main thread only gets on when the state has been saved. -/
theorem MainStep.phase (h : MainStep st st' e) (hphase : Phase trace st) :
    Phase (trace ++ [e]) st' := by
  cases h with
  | mutex _ _ =>
    have he := silent_other
    cases hphase with
    | none hmain hquiet heq =>
      exact .none hmain ⟨hquiet.1, hquiet.2⟩ (stored_eq he heq)
    | written front hmain hpipe hfront hthread hsaved heq =>
      exact .written front hmain hpipe hfront hthread hsaved (stored_eq he heq)
    | read hmain hpipe hthread hsaved heq =>
      exact .read hmain hpipe hthread hsaved (stored_eq_append he heq)
    | handled hmain hpipe hthread hsaved heq =>
      exact .handled hmain hpipe hthread hsaved (stored_eq_append he heq)
    | saved hmain hpipe hthread heq =>
      exact .saved hmain hpipe hthread (stored_eq_append he heq)
  | @returnWindow window hmain _ =>
    obtain ⟨hquiet, heq⟩ := hphase.of_main_ne (by simp [hmain])
    have he : (Event.setWindowReturned window).Silent := by simp [Event.Silent]
    exact .none (by simp) ⟨hquiet.1, hquiet.2⟩ (stored_eq he heq)
  -- the loop is only left when the state was saved, which is the last phase
  | returnSave hmain hready =>
    cases hphase with
    | none hother _ _ => exact absurd hmain hother
    | written _ _ _ _ _ hsaved _ => simp [hsaved] at hready
    | read _ _ _ hsaved _ => simp [hsaved] at hready
    | handled _ _ _ hsaved _ => simp [hsaved] at hready
    | saved _ hpipe hthread heq =>
      refine .none (by simp) ⟨by simp [hpipe], by simp [hthread, AppThread.cmd?]⟩ ?_
      rw [stored_append, returned_append]
      exact heq
  | returnOther hmain =>
    have hne : st.main ≠ .saveInstanceState := by
      rcases hmain with hmain | ⟨cmd, hmain⟩ <;> simp [hmain]
    obtain ⟨hquiet, heq⟩ := hphase.of_main_ne hne
    refine .none (by simp) ⟨hquiet.1, hquiet.2⟩ ?_
    exact stored_eq silent_other heq
  | returnFree hmain =>
    obtain ⟨hquiet, heq⟩ := hphase.of_main_ne (by simp [hmain])
    refine .none (by simp) ⟨hquiet.1, hquiet.2⟩ ?_
    exact stored_eq silent_other heq

/-- The next command is the request if there is no other before it. -/
theorem Phase.cmdRead {cmd : AppCmd} {pipe : List AppCmd} (h : Phase trace st)
    (hpipe : st.pipe = cmd :: pipe) :
    Phase (trace ++ [.cmdRead cmd]) { st with pipe, thread := .read cmd } := by
  have hsilent : AppCmd.saveState ≠ cmd → (Event.cmdRead cmd).Silent := by
    intro hne
    simpa [Event.Silent] using Ne.symm hne
  cases h with
  | none hmain hquiet heq =>
    have hmem := hquiet.pipe
    simp only [hpipe, mem_cons, not_or] at hmem
    have he := hsilent hmem.1
    refine .none hmain ⟨hmem.2, by simpa [AppThread.cmd?] using Ne.symm hmem.1⟩ ?_
    exact stored_eq he heq
  | written front hmain hfront hnone _ hsaved heq =>
    cases front with
    | nil =>
      obtain ⟨rfl, rfl⟩ : cmd = .saveState ∧ pipe = [] := by simpa [hpipe] using hfront
      refine .read hmain rfl rfl hsaved ?_
      rw [stored_append, returned_append]
      simp [storeEvent, Event.returned?, heq]
    | cons first front =>
      obtain ⟨rfl, rfl⟩ : cmd = first ∧ pipe = front ++ [.saveState] := by
        simpa [hpipe] using hfront
      simp only [mem_cons, not_or] at hnone
      have he := hsilent hnone.1
      refine .written front hmain rfl hnone.2
        (by simpa [AppThread.cmd?] using Ne.symm hnone.1) hsaved ?_
      exact stored_eq he heq
  | read _ hnil => simp [hpipe] at hnil
  | handled _ hnil => simp [hpipe] at hnil
  | saved _ hnil => simp [hpipe] at hnil

/-- `free_saved_state` throws away the state of an earlier request, never that of the last. -/
theorem Phase.freed {thread : AppThread} (h : Phase trace st) (hthread : FreesAt st.thread thread) :
    Phase (trace ++ [.stateFreed st.app.savedState])
      { st with app := st.app.freeSavedState, thread } := by
  have he : (Event.stateFreed st.app.savedState).Silent := by simp [Event.Silent]
  by_cases hread : st.thread = .read .saveState
  · obtain rfl : thread = .preExec .saveState := by
      rw [hread] at hthread
      cases hthread
      rfl
    cases h with
    | none _ hquiet _ => exact absurd (by rw [hread]; rfl) hquiet.thread
    | written _ _ _ _ hne _ _ => exact absurd (by rw [hread]; rfl) hne
    | read hmain hpipe _ hsaved heq =>
      refine .handled hmain hpipe (by simp) (by simpa using hsaved) ?_
      rw [he.stored, he.returned, heq]
      simp [AndroidApp.state]
    | handled _ _ hhandled _ _ => simp [hread] at hhandled
    | saved _ _ hidle _ => simp [hread] at hidle
  · obtain ⟨hcmd, hnot, hcmd'⟩ : st.thread.cmd? ≠ some .saveState ∧ st.thread ≠ .androidMain ∧
        thread.cmd? ≠ some .saveState := by
      revert hread
      generalize st.thread = old at hthread
      cases hthread <;> simp [AppThread.cmd?]
    exact h.bystand rfl rfl (by simp) hcmd hcmd' (fun _ _ => hnot) he

/-- The thread is at `cmd` and goes on with it, or is done with it. -/
theorem Phase.advance {cmd : AppCmd} (h : Phase trace st) (hcmd : st.thread.cmd? = some cmd)
    (hne : cmd ≠ .saveState) (hcmd' : st'.thread.cmd? = some cmd ∨ st'.thread = .androidMain)
    (hmain : st'.main = st.main) (hpipe : st'.pipe = st.pipe)
    (hsaved : st'.app.stateSaved = st.app.stateSaved) : Phase (trace ++ [.other]) st' := by
  refine h.bystand hmain hpipe hsaved (by simpa [hcmd] using hne) ?_ ?_ silent_other
  · rcases hcmd' with hcmd' | hidle
    · simpa [hcmd'] using hne
    · simp [hidle, AppThread.cmd?]
  · rintro - - hidle
    simp [hidle, AppThread.cmd?] at hcmd

theorem AppStep.phase (h : AppStep st st' e) (hphase : Phase trace st) :
    Phase (trace ++ [e]) st' := by
  cases h with
  | read _ hpipe => exact hphase.cmdRead hpipe
  | free hthread _ => exact hphase.freed hthread
  | @skip cmd hthread hne =>
    exact hphase.advance (by rw [hthread]; rfl) hne (Or.inl rfl) rfl rfl rfl
  | @preExec cmd hthread _ =>
    by_cases hcmd : cmd = .saveState
    · subst hcmd
      obtain ⟨hmain, hpipe, hsaved, heq⟩ := hphase.of_handlesSave (by simp [HandlesSave, hthread])
      refine .handled hmain hpipe (by simp) (by simpa using hsaved) ?_
      exact stored_eq_append silent_other heq
    · exact hphase.advance (by rw [hthread]; rfl) hcmd (Or.inl rfl) rfl rfl (by simp)
  | @handled cmd hthread =>
    by_cases hcmd : cmd = .saveState
    · subst hcmd
      obtain ⟨hmain, hpipe, hsaved, heq⟩ := hphase.of_handlesSave (by simp [HandlesSave, hthread])
      refine .handled hmain hpipe (by simp) hsaved ?_
      exact stored_eq_append silent_other heq
    · exact hphase.advance (by rw [hthread]; rfl) hcmd (Or.inl rfl) rfl rfl rfl
  | @postExec cmd hthread hresume _ =>
    by_cases hcmd : cmd = .saveState
    · subst hcmd
      obtain ⟨hmain, hpipe, hsaved, heq⟩ := hphase.of_handlesSave (by simp [HandlesSave, hthread])
      refine .saved hmain hpipe rfl ?_
      exact stored_eq_append silent_other heq
    · refine hphase.advance (by rw [hthread]; rfl) hcmd (Or.inr rfl) rfl rfl ?_
      exact AndroidApp.postExecCmd_stateSaved st.app cmd hcmd
  | detach hthread _ =>
    refine hphase.bystand rfl rfl rfl ?_ (by simp [AppThread.cmd?]) ?_ silent_other
    · simp [hthread, AppThread.cmd?]
    · simp [hthread]

theorem phase_of_run {savedState : Option Nat} (h : Run step (initial savedState) trace st)
    (hstays : ∀ asked, .mainLeft asked .saveInstanceState ∉ trace) : Phase trace st := by
  induction h with
  | nil =>
    exact .none (by simp [initial]) ⟨by simp [initial], by simp [initial, AppThread.cmd?]⟩ rfl
  | @snoc trace st st' a e _ hstep ih =>
    have ih := ih fun asked hmem => hstays asked (mem_append_left _ hmem)
    cases step_cases hstep with
    | callback hidle hcalled => exact hcalled.phase hidle ih
    | main hmain => exact hmain.phase ih
    | app happ => exact happ.phase ih
    | store savedState size nextBuffer hthread _ _ =>
      obtain ⟨hmain, hpipe, hsaved, heq⟩ := ih.of_handlesSave (by simp [HandlesSave, hthread])
      refine .handled hmain hpipe (by simp [hthread]) hsaved ?_
      rw [stored_append, returned_append, heq]
      simp [storeEvent, Event.returned?, AndroidApp.state]
    | leave hthread =>
      refine ih.bystand rfl rfl rfl ?_ (by simp [AppThread.cmd?]) ?_ (by simp [Event.Silent])
      · simp [hthread, AppThread.cmd?]
      · intro hmain
        exact absurd (by simp [hmain]) (hstays st.app.destroyRequested)

/-! ## Blocks of memory -/

/-- A block is returned only once, and not freed after that. -/
structure Owned (trace : List Event) (st : Glue) : Prop where
  savedState : ∀ b, st.app.savedState = some b → b < st.nextBuffer ∧ b ∉ buffers (returned trace)
  returned : ∀ b ∈ buffers (returned trace), b < st.nextBuffer
  nodup : (buffers (NativeAppGlue.returned trace)).Nodup
  freed : ∀ front b back, trace = front ++ .stateFreed (some b) :: back →
    b ∉ buffers (NativeAppGlue.returned front)

theorem Owned.keep (h : Owned trace st) (hfreed : ∀ b, e ≠ .stateFreed b)
    (hreturned : e.returned? = none) (hnext : st.nextBuffer ≤ st'.nextBuffer)
    (hnew : ∀ b, st'.app.savedState = some b →
      st.app.savedState = some b ∨ b = st.nextBuffer ∧ b < st'.nextBuffer) :
    Owned (trace ++ [e]) st' := by
  have heq : NativeAppGlue.returned (trace ++ [e]) = NativeAppGlue.returned trace := by
    simp [returned_append, hreturned]
  refine ⟨?_, ?_, heq ▸ h.nodup, ?_⟩
  · intro b hb
    rw [heq]
    rcases hnew b hb with hold | ⟨rfl, hlt⟩
    · exact ⟨(h.savedState b hold).1.trans_le hnext, (h.savedState b hold).2⟩
    · exact ⟨hlt, fun hmem => absurd (h.returned _ hmem) (lt_irrefl _)⟩
  · intro b hb
    rw [heq] at hb
    exact (h.returned b hb).trans_le hnext
  · intro front b back hsplit
    rcases concat_eq_split hsplit with ⟨-, rfl, -⟩ | ⟨back', htrace, -⟩
    · exact absurd rfl (hfreed (some b))
    · exact h.freed front b back' htrace

theorem Owned.free {thread : AppThread} (h : Owned trace st) :
    Owned (trace ++ [.stateFreed st.app.savedState])
      { st with app := st.app.freeSavedState, thread } := by
  have he : (Event.stateFreed st.app.savedState).Silent := by simp [Event.Silent]
  refine ⟨by simp, ?_, ?_, ?_⟩
  · rw [he.returned]
    exact h.returned
  · rw [he.returned]
    exact h.nodup
  · intro front b back hsplit
    rcases concat_eq_split hsplit with ⟨rfl, heq, -⟩ | ⟨back', htrace, -⟩
    · exact (h.savedState b (by simpa using heq)).2
    · exact h.freed front b back' htrace

theorem Owned.returnSave (h : Owned trace st) {size : Nat} {mutex : Bool} {main : MainThread} :
    Owned (trace ++ [.saveReturned st.app.state])
      { st with app.savedState := none, app.savedStateSize := size, mutex, main } := by
  have heq : buffers (NativeAppGlue.returned (trace ++ [.saveReturned st.app.state])) =
      buffers (NativeAppGlue.returned trace) ++ st.app.savedState.toList := by
    rw [returned_append]
    cases hstate : st.app.savedState <;>
      simp [buffers, Event.returned?, AndroidApp.state, hstate]
  refine ⟨by simp, ?_, ?_, ?_⟩
  · intro b hb
    rw [heq, mem_append, Option.mem_toList] at hb
    rcases hb with hb | hb
    · exact h.returned b hb
    · exact (h.savedState b hb).1
  · rw [heq]
    refine h.nodup.append (by cases st.app.savedState <;> simp) ?_
    intro b hb hstate
    exact (h.savedState b (Option.mem_toList.mp hstate)).2 hb
  · intro front b back hsplit
    rcases concat_eq_split hsplit with ⟨-, hlast, -⟩ | ⟨back', htrace, -⟩
    · cases hlast
    · exact h.freed front b back' htrace

theorem Step.owned (h : Step st st' e) (howned : Owned trace st) : Owned (trace ++ [e]) st' := by
  cases h with
  | callback _ hcalled =>
    cases hcalled with
    | setWindow window =>
      refine howned.keep (by simp) rfl ?_ ?_
      · unfold androidAppSetWindow
        split_ifs <;> exact le_rfl
      · unfold androidAppSetWindow
        split_ifs <;> exact fun _ => Or.inl
    | _ => exact howned.keep (by simp) rfl le_rfl fun _ => Or.inl
  | main hmain =>
    cases hmain with
    | returnSave _ _ => exact howned.returnSave
    | _ => exact howned.keep (by simp) rfl le_rfl fun _ => Or.inl
  | app happ =>
    cases happ with
    | free _ _ => exact howned.free
    | preExec _ _ => exact howned.keep (by simp) rfl le_rfl fun _ hb => Or.inl (by simpa using hb)
    | @postExec cmd _ hcmd _ =>
      refine howned.keep (by simp) rfl le_rfl fun b hb => Or.inl ?_
      rw [← AndroidApp.postExecCmd_savedState st.app cmd hcmd]
      exact hb
    | _ => exact howned.keep (by simp) rfl le_rfl fun _ => Or.inl
  | store savedState size nextBuffer _ hnew hnext =>
    refine howned.keep (by simp) rfl hnext fun b hb => Or.inr ?_
    obtain ⟨hold, hlt⟩ := hnew b hb
    exact ⟨hold, by simp [hlt]⟩
  | leave _ => exact howned.keep (by simp) rfl le_rfl fun _ => Or.inl

theorem owned_of_run {savedState : Option Nat} (h : Run step (initial savedState) trace st) :
    Owned trace st := by
  induction h with
  | nil =>
    refine ⟨?_, by simp [NativeAppGlue.returned, buffers],
      by simp [NativeAppGlue.returned, buffers],
      by simp⟩
    cases savedState <;> simp [initial, AndroidApp.create, NativeAppGlue.returned, buffers]
  | snoc _ hstep ih => exact (step_cases hstep).owned ih

/-- The `n`th call of `onSaveInstanceState` returns what the handler has stored while it handled
    the `n`th `APP_CMD_SAVE_STATE`, if `android_main` does not return during such a call. In any
    case no block is returned twice, and none that was returned is freed by the application thread
    later. -/
theorem savedState_handover (savedState : Option Nat) (trace : List Event) (st : Glue)
    (h : Run step (initial savedState) trace st) :
    ((∀ asked, .mainLeft asked .saveInstanceState ∉ trace) →
      ∀ (n : Nat) (state : Option (Nat × Nat)),
        (returned trace)[n]? = some state → (stored trace)[n]? = some state) ∧
    (buffers (returned trace)).Nodup ∧
    ∀ (front : List Event) (b size : Nat) (back : List Event),
      trace = front ++ .saveReturned (some (b, size)) :: back → .stateFreed (some b) ∉ back := by
  have howned := owned_of_run h
  refine ⟨?_, howned.nodup, ?_⟩
  · intro hstays
    have happend : ∃ rest, stored trace = returned trace ++ rest := by
      cases phase_of_run h hstays with
      | none _ _ heq => exact ⟨[], by simp [heq]⟩
      | written _ _ _ _ _ _ heq => exact ⟨[], by simp [heq]⟩
      | read _ _ _ _ heq => exact ⟨_, heq⟩
      | handled _ _ _ _ heq => exact ⟨_, heq⟩
      | saved _ _ _ heq => exact ⟨_, heq⟩
    obtain ⟨rest, heq⟩ := happend
    intro n state hn
    obtain ⟨hlt, -⟩ := List.getElem?_eq_some_iff.mp hn
    rw [heq, getElem?_append_left hlt]
    exact hn
  · rintro front b size back rfl hfreed
    obtain ⟨middle, back', rfl⟩ := append_of_mem hfreed
    refine howned.freed (front ++ .saveReturned (some (b, size)) :: middle) b back' (by simp) ?_
    simp [returned, buffers, Event.returned?]

/-- The activity is paused and its state saved, with a block of 64 bytes. -/
def saveActions : List Action :=
  [.onPause, .mainThread, .appThread, .appThread, .appThread, .mainThread, .mainThread,
    .onSaveInstanceState, .mainThread, .appThread, .appThread, .appThread, .appThread, .appThread,
    .storeState true 64, .appThread, .appThread, .mainThread, .mainThread]

def saveRun : List Event × Glue :=
  (runActions step (initial none) saveActions).getD ([], initial none)

theorem savedState_handover_paused :
    Run step (initial none) saveRun.1 saveRun.2 ∧
      (returned saveRun.1)[0]? = some (some (1, 64)) ∧
      (stored saveRun.1)[0]? = some (some (1, 64)) := by
  have hrun : runActions step (initial none) saveActions = some saveRun := by decide +kernel
  have hreturned : (returned saveRun.1)[0]? = some (some (1, 64)) := by decide +kernel
  refine ⟨run_of_runActions hrun, hreturned, ?_⟩
  refine (savedState_handover none _ _ (run_of_runActions hrun)).1 ?_ 0 _ hreturned
  decide +kernel

/-- As before, but `android_main` returns when the state has been saved. -/
def leaveActions : List Action :=
  saveActions.dropLast.dropLast ++ [.leaveMain, .appThread, .mainThread, .mainThread]

/-- The block was stored, and is freed while `onSaveInstanceState` waits, which returns `NULL`. -/
theorem savedState_lost : ∃ trace st, Run step (initial none) trace st ∧
    (stored trace)[0]? = some (some (1, 64)) ∧ (returned trace)[0]? = some none ∧
      .stateFreed (some 1) ∈ trace := by
  obtain ⟨trace, st, hrun, hlost⟩ : ∃ trace st,
      runActions step (initial none) leaveActions = some (trace, st) ∧
        (stored trace)[0]? = some (some (1, 64)) ∧ (returned trace)[0]? = some none ∧
          .stateFreed (some 1) ∈ trace := exists_runActions_iff.mpr (by decide +kernel)
  exact ⟨trace, st, run_of_runActions hrun, hlost⟩

end Glue

end CrystaxNdk.NativeAppGlue
