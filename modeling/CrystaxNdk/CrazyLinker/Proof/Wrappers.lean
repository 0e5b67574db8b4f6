import CrystaxNdk.CrazyLinker.Wrappers
import CrystaxNdk.CrazyLinker.Proof.AddressLookup
import CrystaxNdk.CrazyLinker.Proof.SymbolLookup

/-!
# What the wrappers of `libdl` tell a thread

`WrapDlerror` reports the last error, and `WrapDladdr` the object an address is in. The message of a
call that fails goes to the buffer that is current, and `WrapDlerror` hands that buffer out and goes
on with the other one, emptied. So the buffer it handed out is not written until it is current
again, which takes another `WrapDlerror`. It hands out a buffer every time, an empty one if there
was no error.
-/

namespace CrystaxNdk.CrazyLinker

open Function

variable {a : Arch}

/-! ## What a thread should be told -/

def Message.text : Message → CString
  | .formatted text => text
  | .system dlerror => dlerror.getD []

/-- What is left to be asked for after an event. -/
def ErrorEvent.pending : ErrorEvent → Option Message
  | .recorded message => some message
  | .asked => none

/-- The most recent error that has not been asked for. -/
def pendingError (before : Option Message) (events : List ErrorEvent) : Option Message :=
  events.foldl (fun _ event => event.pending) before

/-- The part of the text that fits into a buffer. -/
def errorText (error : Option Message) : CString := ((error.map Message.text).getD []).take 511

/-! ## The buffers -/

namespace ThreadData

theorem record_current (t : ThreadData) (printf : Printf) (message : Message) :
    (t.record printf message).current = t.current := by
  cases message with
  | formatted text => rfl
  | system dlerror => cases dlerror <;> rfl

theorem record_other (t : ThreadData) (printf : Printf) (message : Message) {b : Bool}
    (hb : b ≠ t.current) : (t.record printf message).buffers b = t.buffers b := by
  cases message with
  | formatted text => exact update_of_ne hb _ _
  | system dlerror => cases dlerror <;> exact update_of_ne hb _ _

/-- The text arrives unless it comes from the system and has conversions in it. -/
theorem record_text (t : ThreadData) (printf : Printf) {message : Message}
    (hplain : ∀ fmt, message = .system (some fmt) → '%' ∉ fmt) :
    (t.record printf message).buffers t.current = errorText (some message) := by
  cases message with
  | formatted text => exact update_self ..
  | system dlerror =>
    cases dlerror with
    | none => exact update_self ..
    | some fmt =>
      show (t.store (printf.expand fmt)).buffers t.current = _
      rw [printf.expand_plain fmt (hplain fmt rfl)]
      exact update_self ..

end ThreadData

/-! ## Steps and runs -/

def ThreadStep.Asks (c : ThreadStep a) : Prop := ∃ env, c = .call env .dlerror

namespace WrapState

variable {s s' : WrapState} {c : ThreadStep a} {event : Option ErrorEvent}
  {cs : List (ThreadStep a)} {events : List ErrorEvent}

theorem step_call {d : DlCall} (hd : d ≠ .dlerror) (s : WrapState) (env : WrapEnv a) :
    s.step (.call env d) =
      (d.perform env s.libs).map fun result => s.returned env result.1 result.2 := by
  cases d with
  | dlerror => exact absurd rfl hd
  | dlopen path mode => rfl
  | dlsym libHandle symbolName => rfl
  | dlclose libHandle => rfl

theorem step_cases (h : s.step c = some (s', event)) :
    (event = none ∧ s'.thread = s.thread) ∨
    (∃ printf message, event = some (.recorded message) ∧
      s'.thread = s.thread.record printf message) ∨
    (event = some .asked ∧ s'.thread = (wrapDlerror s.thread).2 ∧ c.Asks) := by
  cases c with
  | others libs =>
    cases h
    exact Or.inl ⟨rfl, rfl⟩
  | call env d =>
    by_cases hd : d = .dlerror
    · subst hd
      cases h
      exact Or.inr (Or.inr ⟨rfl, rfl, env, rfl⟩)
    · rw [step_call hd] at h
      obtain ⟨⟨libs, message⟩, -, heq⟩ := Option.map_eq_some_iff.mp h
      cases message with
      | none =>
        cases heq
        exact Or.inl ⟨rfl, rfl⟩
      | some message =>
        cases heq
        exact Or.inr (Or.inl ⟨env.printf, message, rfl, rfl⟩)

theorem run_cons (h : s.run (c :: cs) = some (s', events)) :
    ∃ s₁ event rest, s.step c = some (s₁, event) ∧ s₁.run cs = some (s', rest) ∧
      events = event.toList ++ rest := by
  obtain ⟨⟨s₁, event⟩, hstep, hrest⟩ := Option.bind_eq_some_iff.mp h
  obtain ⟨⟨s₂, rest⟩, hrun, heq⟩ := Option.map_eq_some_iff.mp hrest
  cases heq
  exact ⟨s₁, event, rest, hstep, hrun, rfl⟩

/-! ### The current buffer -/

/-- The current buffer has the text of this error, unless it came from the system with
    conversions in it. -/
def Tells (s : WrapState) (error : Option Message) : Prop :=
  (∀ fmt, error = some (.system (some fmt)) → '%' ∉ fmt) →
    s.thread.buffers s.thread.current = errorText error

theorem tells_init (libs : LibraryList) : Tells ⟨libs, .init⟩ none := fun _ => rfl

theorem Tells.step {before : Option Message} (htells : s.Tells before)
    (h : s.step c = some (s', event)) : s'.Tells (pendingError before event.toList) := by
  unfold Tells
  obtain ⟨rfl, hthread⟩ | ⟨printf, message, rfl, hthread⟩ | ⟨rfl, hthread, -⟩ := step_cases h
  · rw [hthread]
    exact htells
  · rw [hthread, ThreadData.record_current]
    intro hplain
    exact s.thread.record_text printf fun fmt heq => hplain fmt (congrArg some heq)
  · rw [hthread]
    intro _
    exact update_self ..

theorem Tells.run {before : Option Message} (htells : s.Tells before)
    (h : s.run cs = some (s', events)) : s'.Tells (pendingError before events) := by
  induction cs generalizing s before events with
  | nil =>
    cases h
    exact htells
  | cons c cs ih =>
    obtain ⟨s₁, event, rest, hstep, hrun, rfl⟩ := run_cons h
    have hrest := ih (htells.step hstep) hrun
    rwa [pendingError, pendingError, ← List.foldl_append] at hrest

/-! ### The other buffer -/

theorem step_other (hasks : ¬ c.Asks) (h : s.step c = some (s', event)) :
    s'.thread.current = s.thread.current ∧
      s'.thread.buffers (!s.thread.current) = s.thread.buffers (!s.thread.current) := by
  obtain ⟨-, hthread⟩ | ⟨printf, message, -, hthread⟩ | ⟨-, -, hasked⟩ := step_cases h
  · rw [hthread]
    exact ⟨rfl, rfl⟩
  · rw [hthread]
    exact ⟨s.thread.record_current printf message,
      s.thread.record_other printf message (Bool.not_ne_self _)⟩
  · exact absurd hasked hasks

theorem run_other (hasks : ∀ c ∈ cs, ¬ c.Asks) (h : s.run cs = some (s', events)) :
    s'.thread.buffers (!s.thread.current) = s.thread.buffers (!s.thread.current) := by
  induction cs generalizing s events with
  | nil =>
    cases h
    rfl
  | cons c cs ih =>
    obtain ⟨s₁, event, rest, hstep, hrun, -⟩ := run_cons h
    obtain ⟨hc, hcs⟩ := List.forall_mem_cons.mp hasks
    obtain ⟨hcurrent, hbuffer⟩ := step_other hc hstep
    have hrest := ih hcs hrun
    rw [hcurrent] at hrest
    rw [hrest, hbuffer]

end WrapState

/-- **`dlerror`.** Whatever a thread did, `WrapDlerror` returns a buffer with the text of the most
    recent error since its last call, empty if there was none; and nothing the thread does before it
    calls `WrapDlerror` again changes that buffer. -/
theorem wrapDlerror_contract (libs : LibraryList) {history : List (ThreadStep a)} {s : WrapState}
    {events : List ErrorEvent} (hrun : WrapState.run ⟨libs, .init⟩ history = some (s, events))
    (hplain : ∀ fmt, pendingError none events = some (.system (some fmt)) → '%' ∉ fmt) :
    ∃ b, (wrapDlerror s.thread).1 = some b ∧
      (wrapDlerror s.thread).2.buffers b = errorText (pendingError none events) ∧
      ∀ (later : List (ThreadStep a)) s' events', (∀ c ∈ later, ¬ c.Asks) →
        WrapState.run ⟨s.libs, (wrapDlerror s.thread).2⟩ later = some (s', events') →
        s'.thread.buffers b = errorText (pendingError none events) := by
  have htext : (wrapDlerror s.thread).2.buffers s.thread.current =
      errorText (pendingError none events) := by
    rw [← (WrapState.tells_init libs).run hrun hplain]
    exact update_of_ne (Bool.not_ne_self _).symm _ _
  refine ⟨s.thread.current, rfl, htext, fun later s' events' hasks hlater => ?_⟩
  have hother := WrapState.run_other hasks hlater
  rw [← htext]
  rwa [wrapDlerror, ThreadData.swapErrorBuffers, Bool.not_not] at hother

def bareEnv : WrapEnv .arm where
  sys :=
    { files := [], cwd := ['/'], cwd_noNul := by decide, cwd_dir := by simp,
      dlopen := fun _ _ _ => .error [], loadAt := fun _ _ _ _ => .error [],
      relocate := fun _ _ => .ok () }
  search := .reset
  source :=
    { lookupSymbolEntry := fun _ _ => none, loadBias := fun _ => 0, dlsym := fun _ _ => 0,
      bound := by simp }
  view _ := .cleared
  symbols _ :=
    { symbolTable := fun _ => ⟨0, 0, 0, 0, 0⟩, stringTable := fun _ => 0, hashBucket := fun _ => 0,
      hashBucketSize := 1, hashChain := fun _ => 0, hashChainSize := 0 }
  dlopen _ _ := .error (some "not found".toList)
  dlsymError := some "undefined symbol".toList
  dladdr _ := (0, ⟨[], 0, none, 0⟩)
  dladdrError := none
  printf := { expand := id, expand_plain := fun _ _ => rfl }
  fuel := 1

/-- The message of the system's `dlopen` is returned, and is still there after another error. -/
theorem wrapDlerror_not_found :
    ∃ s events, WrapState.run ⟨.empty, .init⟩ [.call bareEnv (.dlopen none 0)] = some (s, events) ∧
      ∃ b, (wrapDlerror s.thread).1 = some b ∧
        (wrapDlerror s.thread).2.buffers b = "not found".toList ∧
        ∃ s' events', WrapState.run ⟨s.libs, (wrapDlerror s.thread).2⟩
            [.call bareEnv (.dlsym .null none)] = some (s', events') ∧
          s'.thread.buffers b = "not found".toList := by
  have hrun : WrapState.run ⟨.empty, .init⟩ [.call bareEnv (.dlopen none 0)] =
      some (⟨.empty, ThreadData.init.store "not found".toList⟩,
        [.recorded (.system (some "not found".toList))]) := rfl
  refine ⟨_, _, hrun, ?_⟩
  obtain ⟨b, hb, htext, hlater⟩ := wrapDlerror_contract .empty hrun (by
    intro fmt hfmt
    cases hfmt
    decide)
  refine ⟨b, hb, htext, _, _, rfl, ?_⟩
  refine hlater [.call bareEnv (.dlsym .null none)] _ _ ?_ rfl
  rintro c hc ⟨env, rfl⟩
  simp at hc

/-- A thread that never had an error does not get `NULL`. -/
theorem wrapDlerror_not_null :
    WrapState.run (a := .arm) ⟨.empty, .init⟩ [] = some (⟨.empty, .init⟩, []) ∧
      pendingError none [] = none ∧ (wrapDlerror .init).1 ≠ none :=
  ⟨rfl, rfl, by decide⟩

/-!
## The object an address is in

`dladdr` returns zero if it fails. `WrapDladdr` returns zero for an address it finds in a crazy
library, and what the system returns for others. So it never answers for a crazy library, and
because `ContainsAddress` counts the end of a library as inside, not for an object of the system
that begins there either.
-/

open LibraryList

variable {a : Arch}

/-- An address in the range of a crazy library. -/
def LibraryList.InCrazy (st : LibraryList) (view : LibPtr → ElfView a) (address : Addr a) : Prop :=
  ∃ wrap ∈ st.knownLibraries, ∃ v ∈ crazyView view wrap, v.rangeContains address = true

/-- The address just behind a crazy library. -/
def LibraryList.EndsCrazy (st : LibraryList) (view : LibPtr → ElfView a) (address : Addr a) :
    Prop :=
  ∃ wrap ∈ st.knownLibraries, ∃ v ∈ crazyView view wrap, v.loadEnd = address.toNat

/-- A symbol that has the address, with its definition in the library. -/
def SymbolTables.Owner (t : SymbolTables a) (elfAddr : Addr a) (n : Nat) : Prop :=
  t.Defined n ∧ (t.symbolTable n).stValue.toNat ≤ elfAddr.toNat ∧ elfAddr.toNat < t.symbolEnd n

/-- The symbol of the answer is one that has the address, and `NULL` if there is none. -/
def DlInfo.NamesOwner (info : DlInfo a) (t : SymbolTables a) (address loadBias : Addr a) : Prop :=
  (∃ n, t.Owner (address - loadBias) n ∧ info.dliSname = some (t.symbolTable n).stName.toNat ∧
    info.dliSaddr = (t.symbolTable n).stValue + loadBias) ∨
  ((¬ ∃ n, t.Owner (address - loadBias) n) ∧ info.dliSname = none ∧ info.dliSaddr = 0)

/-- What `dladdr` is to do. `objects` are the addresses in the objects of the system. -/
structure DladdrRight (env : WrapEnv a) (st : LibraryList) (objects : Set (Addr a))
    (address : Addr a) : Prop where
  returns : (wrapDladdr env st address).1 ≠ 0 ↔ st.InCrazy env.view address ∨ address ∈ objects
  info : ∀ wrap ∈ st.knownLibraries, ∀ ptr lib, wrap.type = .crazy ptr lib →
    (env.view ptr).rangeContains address = true →
    (wrapDladdr env st address).2.1.dliFbase = (env.view ptr).loadAddress ∧
    (wrapDladdr env st address).2.1.NamesOwner (env.symbols ptr) address (env.view ptr).loadBias

variable {env : WrapEnv a} {st : LibraryList} {address : Addr a}

/-! ### What is returned -/

theorem wrapDladdr_found {wrap : LibraryView}
    (h : st.findLibraryForAddress env.view address = some wrap) :
    (wrapDladdr env st address).1 = 0 := by
  have hcrazy := List.find?_some h
  unfold wrapDladdr
  rw [h, Option.map_some]
  cases htype : wrap.type with
  | none => simp [htype] at hcrazy
  | system handle => simp [htype] at hcrazy
  | crazy ptr lib => rfl

theorem wrapDladdr_not_found (h : st.findLibraryForAddress env.view address = none) :
    (wrapDladdr env st address).1 = (env.dladdr address).1 := by
  unfold wrapDladdr
  rw [h]
  rfl

theorem findLibraryForAddress_isSome_iff {view : LibPtr → ElfView a} :
    (st.findLibraryForAddress view address).isSome = true ↔
      ∃ wrap ∈ st.knownLibraries, ∃ v ∈ crazyView view wrap, v.containsAddress address = true := by
  rw [findLibraryForAddress_eq, List.find?_isSome]
  simp only [Option.any_eq_true, Option.mem_def]

/-- Outside the crazy libraries, only the end of one is found. -/
theorem findLibraryForAddress_isSome_iff_endsCrazy {view : LibPtr → ElfView a}
    (hout : ¬ st.InCrazy view address) :
    (st.findLibraryForAddress view address).isSome = true ↔ st.EndsCrazy view address := by
  rw [findLibraryForAddress_isSome_iff]
  refine exists_congr fun wrap => and_congr_right fun hwrap => exists_congr fun v =>
    and_congr_right fun hv => ?_
  exact ElfView.containsAddress_of_not_rangeContains_iff fun hin => hout ⟨wrap, hwrap, v, hv, hin⟩

theorem wrapDladdr_of_inCrazy {objects : Set (Addr a)}
    (hsystem : (env.dladdr address).1 ≠ 0 ↔ address ∈ objects)
    (hdisjoint : address ∈ objects → ¬ st.InCrazy env.view address)
    (hin : st.InCrazy env.view address) : (wrapDladdr env st address).1 = 0 := by
  cases hfound : st.findLibraryForAddress env.view address with
  | some wrap => exact wrapDladdr_found hfound
  | none =>
    -- a library that ends with the address space is not found
    rw [wrapDladdr_not_found hfound]
    by_contra hne
    exact hdisjoint (hsystem.mp hne) hin

/-- **`dladdr`.** If the system knows its own objects, `WrapDladdr` does what it is to do for an
    address exactly if that is in no crazy library and not, in an object of the system, just behind
    one. -/
theorem dladdrRight_iff {objects : Set (Addr a)}
    (hsystem : ∀ address, (env.dladdr address).1 ≠ 0 ↔ address ∈ objects)
    (hdisjoint : ∀ address ∈ objects, ¬ st.InCrazy env.view address) (address : Addr a) :
    DladdrRight env st objects address ↔
      ¬ st.InCrazy env.view address ∧ (address ∈ objects → ¬ st.EndsCrazy env.view address) := by
  by_cases hin : st.InCrazy env.view address
  · have hzero := wrapDladdr_of_inCrazy (hsystem address) (hdisjoint address) hin
    refine iff_of_false (fun hright => ?_) fun h => h.1 hin
    exact hright.returns.mpr (Or.inl hin) hzero
  · have hinfo : ∀ wrap ∈ st.knownLibraries, ∀ ptr lib, wrap.type = .crazy ptr lib →
        ¬ (env.view ptr).rangeContains address = true := by
      intro wrap hwrap ptr lib htype hrange
      exact hin ⟨wrap, hwrap, env.view ptr, by rw [crazyView, htype]; rfl, hrange⟩
    have hright : DladdrRight env st objects address ↔
        ((wrapDladdr env st address).1 ≠ 0 ↔ address ∈ objects) := by
      refine ⟨fun h => h.returns.trans (or_iff_right hin), fun h => ?_⟩
      refine ⟨h.trans (or_iff_right hin).symm, fun wrap hwrap ptr lib htype hrange => ?_⟩
      exact absurd hrange (hinfo wrap hwrap ptr lib htype)
    rw [hright, and_iff_right hin, ← findLibraryForAddress_isSome_iff_endsCrazy hin]
    cases hfound : st.findLibraryForAddress env.view address with
    | none =>
      rw [wrapDladdr_not_found hfound]
      exact iff_of_true (hsystem address) fun _ => Bool.false_ne_true
    | some wrap =>
      rw [wrapDladdr_found hfound]
      simp

/-! ### One crazy library and one of the system -/

def libcOnly : LibraryList :=
  (empty.linkLibrary 1).pushView
    (.crazy 1 { fullPath := "/data/liba.so".toList, loadAddress := 0, needed := [] }) ['a']

def libcRange : Set (Addr .arm) := {address | 0x50000 ≤ address.toNat ∧ address.toNat < 0x51000}

/-- The crazy library is at `0x40000`, with two functions. -/
def libcOnlyEnv : WrapEnv .arm :=
  { bareEnv with
    view := fun _ =>
      { ElfView.cleared with loadAddress := 0x40000, loadSize := 0x3000, loadBias := 0x40000 }
    symbols := fun _ => SymbolTables.twoFunctions
    dladdr := fun address =>
      if 0x50000 ≤ address.toNat ∧ address.toNat < 0x51000 then
        (1, ⟨"libc.so".toList, 0x50000, none, 0⟩)
      else (0, ⟨[], 0, none, 0⟩) }

theorem inCrazy_libcOnly_iff {address : Addr .arm} :
    libcOnly.InCrazy libcOnlyEnv.view address ↔
      0x40000 ≤ address.toNat ∧ address.toNat < 0x43000 := by
  have hknown : ∀ wrap ∈ libcOnly.knownLibraries,
      crazyView libcOnlyEnv.view wrap = some (libcOnlyEnv.view 1) := by
    intro wrap hwrap
    obtain rfl := List.mem_singleton.mp hwrap
    rfl
  have hrange : (libcOnlyEnv.view 1).rangeContains address = true ↔
      0x40000 ≤ address.toNat ∧ address.toNat < 0x43000 := ElfView.rangeContains_iff
  rw [← hrange]
  constructor
  · rintro ⟨wrap, hwrap, v, hv, hin⟩
    rw [hknown wrap hwrap] at hv
    exact Option.some.inj hv ▸ hin
  · intro hin
    exact ⟨_, List.mem_singleton_self _, _, rfl, hin⟩

theorem system_libcOnly (address : Addr .arm) :
    (libcOnlyEnv.dladdr address).1 ≠ 0 ↔ address ∈ libcRange := by
  show (ite _ _ _ : Int × DlInfo .arm).1 ≠ 0 ↔ _ ∧ _
  split <;> simp_all

theorem disjoint_libcOnly (address : Addr .arm) (hin : address ∈ libcRange) :
    ¬ libcOnly.InCrazy libcOnlyEnv.view address := by
  rw [inCrazy_libcOnly_iff]
  have hlow : 0x50000 ≤ address.toNat := hin.1
  omega

theorem dladdrRight_libc : DladdrRight libcOnlyEnv libcOnly libcRange 0x50800 := by
  refine (dladdrRight_iff system_libcOnly disjoint_libcOnly 0x50800).mpr ⟨?_, fun _ => ?_⟩
  · exact disjoint_libcOnly 0x50800 ⟨by decide, by decide⟩
  · rintro ⟨wrap, hwrap, v, hv, hend⟩
    obtain rfl := List.mem_singleton.mp hwrap
    cases hv
    exact absurd hend (by decide)

/-- In the library, between its functions: the result says that there is no object, and the
    symbol is one that does not have the address. -/
theorem wrapDladdr_between :
    libcOnly.InCrazy libcOnlyEnv.view 0x41f00 ∧
      (wrapDladdr libcOnlyEnv libcOnly 0x41f00).1 = 0 ∧
      (wrapDladdr libcOnlyEnv libcOnly 0x41f00).2.1.dliSname = some 2 ∧
      (¬ ∃ n, SymbolTables.twoFunctions.Owner (0x41f00 - 0x40000) n) ∧
      ¬ DladdrRight libcOnlyEnv libcOnly libcRange 0x41f00 := by
  have hin : libcOnly.InCrazy libcOnlyEnv.view 0x41f00 :=
    inCrazy_libcOnly_iff.mpr (by decide)
  refine ⟨hin, rfl, by decide +kernel, ?_, fun hright => ?_⟩
  · rintro ⟨n, ⟨hn, -⟩, hlow, hhigh⟩
    have hn : n < 3 := hn
    interval_cases n
    all_goals revert hlow hhigh; decide
  · exact hright.returns.mpr (Or.inl hin) rfl

end CrystaxNdk.CrazyLinker
