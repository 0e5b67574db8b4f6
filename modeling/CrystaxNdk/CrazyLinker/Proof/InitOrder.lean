import CrystaxNdk.CrazyLinker.Proof.Lifetimes

/-!
# Libraries start after what they need

`lifetimes_of_run` is about every run of a client: the constructors of a library run once for each
time it is loaded, and so do its destructors; what it needs, directly or through others, runs when
its constructors start and at any time until its destructors have run. The log has the steps inside
of the calls too, so this is more than a statement about the states between them.

The induction keeps two facts about a library and one that it needs. Both are up, or the first is
over (`Attended`): the steps cannot take down what is held. And so far the second has served the
first (`Serves`).
-/

namespace CrystaxNdk.CrazyLinker

open Lib Relation LibraryList List

variable {log log' : List Event} {u v w : LibraryView} {lib : SharedLibrary} {l l' : Ledger}

/-- `w` runs whenever `v` does, and when the constructors of `v` start. -/
structure Serves (w v : LibraryView) (log : List Event) : Prop where
  during : ∀ log', log' <+: log → v.Running log' → w.Running log'
  before : ∀ log', log' ++ [.callConstructors v.ptr] <+: log → w.Running log'

theorem Serves.trans (h₁ : Serves w u log) (h : Serves u v log) : Serves w v log where
  during := fun log' hlog' hv => h₁.during log' hlog' (h.during log' hlog' hv)
  before := fun log' hlog' =>
    h₁.during log' ((prefix_append log' _).trans hlog') (h.before log' hlog')

/-! ## One step -/

/-- A step adds at most one event that matters, and a quiet one before it. Constructors are those
    of a library that is entered. -/
theorem Ledger.Step.log_eq (hstep : l.Step l') :
    ∃ es, l'.list.log = l.list.log ++ es ∧
      (es = [] ∨ (∃ e, es = [e]) ∨ ∃ s e, s.quiet = true ∧ es = [s, e]) ∧
      ∀ p, Event.callConstructors p ∈ es → p = l.list.nextPtr := by
  have hnil : ∀ p, Event.callConstructors p ∈ ([] : List Event) → p = l.list.nextPtr :=
    fun _ hp => absurd hp not_mem_nil
  rcases hstep with hstep | hstep
  · cases hstep with
    | addRef _ _ => exact ⟨[], (append_nil _).symm, Or.inl rfl, hnil⟩
    | openSystem _ _ _ => exact ⟨_, rfl, Or.inr (Or.inl ⟨_, rfl⟩), by simp⟩
    | enter _ _ _ _ => exact ⟨_, log_enter _ _, Or.inr (Or.inr ⟨_, _, rfl, rfl⟩), by simp⟩
    | hand _ => exact ⟨[], (append_nil _).symm, Or.inl rfl, hnil⟩
  · cases hstep with
    | takeBack _ => exact ⟨[], (append_nil _).symm, Or.inl rfl, hnil⟩
    | release _ _ => exact ⟨[], (append_nil _).symm, Or.inl rfl, hnil⟩
    | retire _ _ _ => exact ⟨_, rfl, Or.inr (Or.inr ⟨_, _, rfl, rfl⟩), by simp⟩
    | remove _ _ htype =>
      exact ⟨_, log_removeLibrary htype, Or.inr (Or.inr ⟨_, _, rfl, rfl⟩), by simp⟩
    | closeSystem _ _ htype =>
      exact ⟨_, log_closeSystem htype, Or.inr (Or.inl ⟨_, rfl⟩), by simp⟩

theorem Ledger.Step.log_isPrefix (hstep : l.Step l') : l.list.log <+: l'.list.log := by
  obtain ⟨es, hlog, -⟩ := hstep.log_eq
  exact ⟨es, hlog.symm⟩

theorem Ledger.Step.between (hstep : l.Step l') (hlog' : log' <+: l'.list.log) :
    log' <+: l.list.log ∨ (∃ s : Event, s.quiet = true ∧ log' = l.list.log ++ [s]) ∨
      log' = l'.list.log := by
  obtain ⟨es, hlog, hes, -⟩ := hstep.log_eq
  rw [hlog] at hlog' ⊢
  rcases prefix_append_cases hlog' with ⟨hold, -⟩ | ⟨part, rfl, hpart⟩
  · exact Or.inl hold
  · rcases hes with rfl | ⟨e, rfl⟩ | ⟨s, e, hquiet, rfl⟩
    · rw [prefix_nil.mp hpart]
      exact Or.inr (Or.inr rfl)
    · cases part with
      | nil => exact Or.inl (by simp)
      | cons a part =>
        obtain ⟨rfl, hrest⟩ := cons_prefix_cons.mp hpart
        rw [prefix_nil.mp hrest]
        exact Or.inr (Or.inr rfl)
    · cases part with
      | nil => exact Or.inl (by simp)
      | cons a part =>
        obtain ⟨rfl, hrest⟩ := cons_prefix_cons.mp hpart
        cases part with
        | nil => exact Or.inr (Or.inl ⟨a, hquiet, rfl⟩)
        | cons b part =>
          obtain ⟨rfl, hend⟩ := cons_prefix_cons.mp hrest
          rw [prefix_nil.mp hend]
          exact Or.inr (Or.inr rfl)

variable {p : LibPtr}

/-- Constructors that were not in the log before a step are those of a new library. -/
theorem Ledger.Step.constructors (hstep : l.Step l')
    (hlog' : log' ++ [.callConstructors p] <+: l'.list.log) :
    log' ++ [.callConstructors p] <+: l.list.log ∨
      p = l.list.nextPtr ∧ l.list.log <+: log' := by
  obtain ⟨es, hlog, -, hes⟩ := hstep.log_eq
  rw [hlog] at hlog'
  rcases prefix_append_cases hlog' with ⟨hold, -⟩ | ⟨part, heq, hpart⟩
  · exact Or.inl hold
  · rcases eq_nil_or_concat part with rfl | ⟨part, e, rfl⟩
    · rw [append_nil] at heq
      exact Or.inl (heq ▸ prefix_rfl)
    · rw [concat_eq_append, ← append_assoc] at heq
      obtain ⟨rfl, he⟩ := append_inj' heq rfl
      obtain rfl : Event.callConstructors p = e := by simpa using he
      exact Or.inr ⟨hes p (hpart.subset (by simp)), prefix_append _ _⟩

/-- A library that is up before and after a step runs all along. -/
theorem Ledger.Step.running (hstep : l.Step l') (h : l.Balanced) (hl : Logged l.list)
    (hup : l.list.Up w) (hup' : l'.list.Up w) (hle : l.list.log <+: log')
    (hlog' : log' <+: l'.list.log) : w.Running log' := by
  have hrunning : w.Running l.list.log := hl.running (LibraryList.Balanced.toWellFormed h) hup
  have hrunning' : w.Running l'.list.log :=
    (hstep.logged h hl).running (LibraryList.Balanced.toWellFormed (hstep.balanced h)) hup'
  rcases hstep.between hlog' with hold | ⟨s, hquiet, rfl⟩ | rfl
  · rwa [hold.eq_of_length_le hle.length_le]
  · exact (running_append_quiet hquiet).mpr hrunning
  · exact hrunning'

variable {st : LibraryList}

theorem LibraryList.Up.of_bumpRef {n : Int} (hlive : u.refCount ≠ 0) (hu : u ∈ st.knownLibraries)
    (hwf : WellFormed st.knownLibraries st.nextPtr) (h : (st.bumpRef u.ptr n).Up v) : st.Up v := by
  obtain ⟨k, hk, hv⟩ := h
  obtain ⟨x, hx, heq⟩ := mem_modifyKey.mp hv
  by_cases hp : x.ptr = u.ptr
  · obtain rfl := hwf.eq_of_ptr hx hu hp
    rw [if_pos rfl] at heq
    refine ⟨x.refCount, hlive, ?_⟩
    cases v
    cases heq
    exact hx
  · rw [if_neg hp] at heq
    exact ⟨k, hk, heq ▸ hx⟩

theorem LibraryList.Up.of_append_iff {st' : LibraryList}
    (hknown : st'.knownLibraries = st.knownLibraries ++ [u]) (h : st'.Up v) :
    st.Up v ∨ v.ptr = u.ptr ∧ v.name = u.name := by
  obtain ⟨k, hk, hv⟩ := h
  rw [hknown, mem_append, mem_singleton] at hv
  rcases hv with hv | rfl
  · exact Or.inl ⟨k, hk, hv⟩
  · exact Or.inr ⟨rfl, rfl⟩

/-- What is up after a step was up before it, or is new. -/
theorem Ledger.Step.up_or_new (hstep : l.Step l') (h : l.Balanced) (hup : l'.list.Up v) :
    l.list.Up v ∨ v.ptr = l.list.nextPtr ∧ ¬ l.list.Known v.name := by
  have hwf := LibraryList.Balanced.toWellFormed h
  rcases hstep with hstep | hstep
  · cases hstep with
    | addRef hu hlive => exact Or.inl (hup.of_bumpRef hlive hu hwf)
    | openSystem _ _ hnew =>
      rcases hup.of_append_iff rfl with hold | ⟨hptr, hname⟩
      · exact Or.inl hold
      · exact Or.inr ⟨hptr, hname ▸ hnew⟩
    | enter _ _ _ hnew =>
      rcases hup.of_append_iff rfl with hold | ⟨hptr, hname⟩
      · exact Or.inl hold
      · exact Or.inr ⟨hptr, hname ▸ hnew⟩
    | hand _ => exact Or.inl hup
  · cases hstep with
    | takeBack _ => exact Or.inl hup
    | release hu _ =>
      exact Or.inl (hup.of_bumpRef (LibraryList.Balanced.refCount_pos h hu).ne' hu hwf)
    | @retire st held pend u lib hu _ _ =>
      have hup₁ : (st.bumpRef u.ptr (-1)).Up v := hup
      exact Or.inl (hup₁.of_bumpRef (LibraryList.Balanced.refCount_pos h hu).ne' hu hwf)
    | remove _ _ _ =>
      obtain ⟨k, hk, hv⟩ := hup
      rw [knownLibraries_removeView] at hv
      exact Or.inl ⟨k, hk, removeKey_sublist.subset hv⟩
    | closeSystem hu _ _ =>
      obtain ⟨k, hk, hv⟩ := hup
      rw [knownLibraries_closeSystem hwf] at hv
      exact Or.inl ⟨k, hk, removeKey_sublist.subset hv⟩

/-! ## A library and one that it needs -/

/-- Both are up, or the lifetime of the first is over. -/
def LibraryList.Attended (st : LibraryList) (v w : LibraryView) : Prop :=
  st.Up v ∧ st.Up w ∨ lifetime st.log v.ptr = wholeLifetime v.ptr

section Needs

variable (htype : v.type = .crazy v.ptr lib) (hneeds : w.name ∈ lib.needed)

include htype hneeds

/-- Nothing can be taken down that is held by a library that is up. -/
theorem LibraryList.Attended.step (hstep : l.Step l') (h : l.Balanced) (hl : Logged l.list)
    (hattended : l.list.Attended v w) : l'.list.Attended v w := by
  have hcrazy : v.isCrazy = true := by simp [LibraryView.isCrazy, htype]
  rcases hattended with ⟨hv, hw⟩ | hover
  · have hwUp : l'.list.Up w := by
      rcases hstep.up h hw with hup | ⟨⟨pend, hpend, hmem⟩, -⟩
      · exact hup
      · -- the last reference to `w` is given back, but `v` has one
        obtain ⟨k, hk, hvmem⟩ := hv
        have hbalanced : LibraryList.Balanced l.list l.held (w.name ::ₘ pend) := hpend ▸ h
        have hholds : w.name ∈ LibraryView.holds { v with refCount := k } := by
          rw [holds_eq_needed (v := { v with refCount := k }) hk]
          simpa [LibraryView.needed, htype] using hneeds
        have htwo := LibraryList.Balanced.two_le (w := { w with refCount := 1 }) hbalanced hmem
          hvmem hholds
        exact absurd (show (2 : Int) ≤ 1 from htwo) (by decide)
    rcases hstep.up h hv with hup | ⟨-, hlog⟩
    · exact Or.inl ⟨hup, hwUp⟩
    · have hrunning := hl.running (LibraryList.Balanced.toWellFormed h) hv
      rw [running_crazy htype] at hrunning
      refine Or.inr ?_
      rw [hlog hcrazy, lifetime_append, hrunning]
      simp [lifetime, Event.runs, wholeLifetime]
  · have hle : wholeLifetime v.ptr <+: lifetime l'.list.log v.ptr :=
      hover ▸ lifetime_isPrefix hstep.log_isPrefix v.ptr
    have hge := (hstep.logged h hl).lifetime_isPrefix v.ptr
    exact Or.inr (hge.eq_of_length_le hle.length_le)

omit hneeds in
theorem LibraryList.Attended.lifetime_ne_nil (hl : Logged st)
    (hwf : WellFormed st.knownLibraries st.nextPtr) (hattended : st.Attended v w) :
    lifetime st.log v.ptr ≠ [] := by
  rcases hattended with ⟨hv, -⟩ | hover
  · rw [(running_crazy htype).mp (hl.running hwf hv)]
    simp
  · rw [hover]
    simp [wholeLifetime]

/-- What has served a library so far serves it for one more step. -/
theorem Serves.step (hstep : l.Step l') (h : l.Balanced) (hl : Logged l.list)
    (hattended : l.list.Attended v w) (hserves : Serves w v l.list.log) :
    Serves w v l'.list.log := by
  have hl' := hstep.logged h hl
  refine ⟨fun log' hlog' hrunning => ?_, fun log' hlog' => ?_⟩
  · rcases hstep.between hlog' with hold | ⟨s, hquiet, rfl⟩ | rfl
    · exact hserves.during log' hold hrunning
    · rw [running_append_quiet hquiet] at hrunning ⊢
      exact hserves.during _ prefix_rfl hrunning
    · rcases hattended.step htype hneeds hstep h hl with ⟨-, hw⟩ | hover
      · exact hl'.running (LibraryList.Balanced.toWellFormed (hstep.balanced h)) hw
      · rw [running_crazy htype, hover] at hrunning
        simp [wholeLifetime] at hrunning
  · rcases hstep.constructors hlog' with hold | ⟨hptr, -⟩
    · exact hserves.before log' hold
    · have hne := hattended.lifetime_ne_nil htype hl (LibraryList.Balanced.toWellFormed h)
      exact absurd (hl.unborn v.ptr hptr.ge) hne

end Needs

/-- A library that is up when another one is entered serves it from the start. -/
theorem Serves.of_new (htype : v.type = .crazy v.ptr lib) (hstep : l.Step l') (h : l.Balanced)
    (hl : Logged l.list) (hptr : v.ptr = l.list.nextPtr) (hw : l.list.Up w)
    (hw' : l'.list.Up w) : Serves w v l'.list.log := by
  have hnil : lifetime l.list.log v.ptr = [] := hl.unborn v.ptr hptr.ge
  refine ⟨fun log' hlog' hrunning => ?_, fun log' hlog' => ?_⟩
  · rw [running_crazy htype] at hrunning
    rcases hstep.between hlog' with hold | ⟨s, hquiet, rfl⟩ | rfl
    · have hle := lifetime_isPrefix hold v.ptr
      rw [hnil, hrunning] at hle
      simp at hle
    · rw [lifetime_append, lifetime_of_quiet hquiet, hnil] at hrunning
      cases hrunning
    · exact hstep.running h hl hw hw' hstep.log_isPrefix prefix_rfl
  · rcases hstep.constructors hlog' with hold | ⟨-, hle⟩
    · have hle := lifetime_isPrefix hold v.ptr
      rw [hnil, prefix_nil, lifetime_append] at hle
      simp [lifetime, Event.runs] at hle
    · exact hstep.running h hl hw hw' hle ((prefix_append log' _).trans hlog')

/-! ## Runs of steps -/

/-- The invariant: the books are balanced, the log agrees with the vector, and each library that
    is up was served by all it needs. -/
structure Ledger.Ordered (l : Ledger) : Prop where
  balanced : l.Balanced
  logged : Logged l.list
  served : ∀ v w lib, v.type = .crazy v.ptr lib → l.list.Up v → l.list.Up w →
    w.name ∈ lib.needed → Serves w v l.list.log

theorem Ledger.Ordered.step (h : l.Ordered) (hstep : l.Step l') : l'.Ordered where
  balanced := hstep.balanced h.balanced
  logged := hstep.logged h.balanced h.logged
  served := by
    intro v w lib htype hv' hw' hneeds
    have hneeded : ∀ k, w.name ∈ LibraryView.needed { v with refCount := k } := by
      intro k
      simpa [LibraryView.needed, htype] using hneeds
    rcases hstep.up_or_new h.balanced hw' with hw | ⟨hwptr, hwnew⟩
    · rcases hstep.up_or_new h.balanced hv' with hv | ⟨hvptr, -⟩
      · exact (h.served v w lib htype hv hw hneeds).step htype hneeds hstep h.balanced h.logged
          (Or.inl ⟨hv, hw⟩)
      · exact .of_new htype hstep h.balanced h.logged hvptr hw hw'
    · -- a library is entered after all that it needs
      rcases hstep.up_or_new h.balanced hv' with ⟨k, hk, hv⟩ | ⟨hvptr, -⟩
      · refine absurd (LibraryList.Balanced.holdsKnown h.balanced _ hv w.name ?_) hwnew
        rw [holds_eq_needed (v := { v with refCount := k }) hk]
        exact hneeded k
      · have hwf := LibraryList.Balanced.toWellFormed (hstep.balanced h.balanced)
        obtain ⟨k, hk, hv⟩ := hv'
        obtain ⟨k', -, hw⟩ := hw'
        have heq := hwf.eq_of_ptr hv hw (hvptr.trans hwptr.symm)
        have hname : v.name = w.name := (LibraryView.mk.inj heq).2.2.1
        exact absurd (hname ▸ hneeded k) (hwf.irreflexive _ hv)

theorem Ledger.Ordered.run (h : l.Ordered) (hsteps : ReflTransGen Ledger.Step l l') :
    l'.Ordered := by
  induction hsteps with
  | refl => exact h
  | tail _ hstep ih => exact ih.step hstep

/-- Two libraries that are up, one of which needs the other, from now on and for ever. -/
theorem Ledger.Ordered.serves_of_run (h : l.Ordered) (htype : v.type = .crazy v.ptr lib)
    (hneeds : w.name ∈ lib.needed) (hv : l.list.Up v) (hw : l.list.Up w)
    (hsteps : ReflTransGen Ledger.Step l l') : Serves w v l'.list.log := by
  suffices hboth : l'.list.Attended v w ∧ Serves w v l'.list.log from hboth.2
  induction hsteps with
  | refl => exact ⟨Or.inl ⟨hv, hw⟩, h.served v w lib htype hv hw hneeds⟩
  | tail hrun hstep ih =>
    have hordered := h.run hrun
    obtain ⟨hattended, hserves⟩ := ih
    exact ⟨hattended.step htype hneeds hstep hordered.balanced hordered.logged,
      hserves.step htype hneeds hstep hordered.balanced hordered.logged hattended⟩

theorem log_isPrefix_of_steps (hsteps : ReflTransGen Ledger.Step l l') :
    l.list.log <+: l'.list.log := by
  induction hsteps with
  | refl => exact prefix_rfl
  | tail _ hstep ih => exact ih.trans hstep.log_isPrefix

theorem destructors_of_openSteps (hsteps : ReflTransGen OpenStep l l')
    (hp : Event.callDestructors p ∈ l'.list.log) : Event.callDestructors p ∈ l.list.log := by
  induction hsteps with
  | refl => exact hp
  | tail _ hstep ih =>
    apply ih
    cases hstep with
    | addRef _ _ => exact hp
    | openSystem _ _ _ => simpa [pushView, emit] using hp
    | enter _ _ _ _ => simpa [log_enter] using hp
    | hand _ => exact hp

theorem constructors_of_closeSteps (hsteps : ReflTransGen CloseStep l l')
    (hp : Event.callConstructors p ∈ l'.list.log) : Event.callConstructors p ∈ l.list.log := by
  induction hsteps with
  | refl => exact hp
  | tail _ hstep ih =>
    apply ih
    cases hstep with
    | takeBack _ => exact hp
    | release _ _ => exact hp
    | retire _ _ _ => simpa [retireLibrary, emit, unlinkLibrary, bumpRef] using hp
    | remove _ _ htype => simpa [log_removeLibrary htype] using hp
    | closeSystem _ _ htype => simpa [log_closeSystem htype] using hp

/-! ## Runs of a client -/

variable {sys : System} {paths : Set SearchPathList} {c c' : Client}

theorem Client.Sound.steps_of_run (hbareNeeded : sys.BareNeeded)
    (hacyclic : Acyclic (sys.NeedsIn paths)) (h : c.Sound)
    (hrun : ReflTransGen (Call sys paths) c c') :
    c'.Sound ∧ ReflTransGen Ledger.Step c.ledger c'.ledger := by
  induction hrun with
  | refl => exact ⟨h, .refl⟩
  | tail _ hcall ih =>
    obtain ⟨hsound, hsteps⟩ := ih
    refine ⟨hsound.call hbareNeeded hacyclic hcall, hsteps.trans ?_⟩
    obtain ⟨hopen | hclose, -⟩ := hsound.steps hbareNeeded hacyclic hcall
    · exact ReflTransGen.mono (fun _ _ hstep => Or.inl hstep) _ _ hopen
    · exact ReflTransGen.mono (fun _ _ hstep => Or.inr hstep) _ _ hclose

theorem Client.ordered_of_run (hbareNeeded : sys.BareNeeded)
    (hacyclic : Acyclic (sys.NeedsIn paths))
    (hrun : ReflTransGen (Call sys paths) Client.initial c) : c.Sound ∧ c.ledger.Ordered := by
  obtain ⟨hsound, hsteps⟩ := Client.sound_initial.steps_of_run hbareNeeded hacyclic hrun
  have hordered : Client.initial.ledger.Ordered := by
    refine ⟨balanced_empty, logged_empty, fun v w lib _ hv => ?_⟩
    obtain ⟨k, -, hmem⟩ := hv
    exact absurd hmem not_mem_nil
  exact ⟨hsound, hordered.run hsteps⟩

theorem callConstructors_mem_lifetime :
    Event.callConstructors p ∈ lifetime log p ↔ Event.callConstructors p ∈ log := by
  simp [lifetime, Event.runs]

theorem callDestructors_mem_lifetime :
    Event.callDestructors p ∈ lifetime log p ↔ Event.callDestructors p ∈ log := by
  simp [lifetime, Event.runs]

/-- What happens first to a library is that its constructors run. -/
theorem LibraryList.Logged.constructed (h : Logged st) (hdestr : Event.callDestructors p ∈ st.log) :
    Event.callConstructors p ∈ st.log := by
  have hmem := callDestructors_mem_lifetime.mpr hdestr
  have hle := h.lifetime_isPrefix p
  rw [← callConstructors_mem_lifetime]
  cases hlife : lifetime st.log p with
  | nil =>
    rw [hlife] at hmem
    exact absurd hmem not_mem_nil
  | cons e es =>
    rw [hlife] at hle
    obtain ⟨rfl, -⟩ := cons_prefix_cons.mp hle
    exact mem_cons_self

/-- A library that was constructed was known after the call that did it. -/
theorem known_of_callConstructors (hbareNeeded : sys.BareNeeded)
    (hacyclic : Acyclic (sys.NeedsIn paths))
    (hrun : ReflTransGen (Call sys paths) Client.initial c')
    (hp : Event.callConstructors p ∈ c'.list.log) :
    ∃ c, ReflTransGen (Call sys paths) Client.initial c ∧
      ReflTransGen (Call sys paths) c c' ∧
      ∃ v ∈ c.list.knownLibraries, v.isCrazy = true ∧ v.ptr = p := by
  induction hrun with
  | refl => exact absurd hp not_mem_nil
  | @tail c₁ c' hrun hcall ih =>
    obtain ⟨hsound, hordered⟩ := Client.ordered_of_run hbareNeeded hacyclic hrun
    obtain ⟨-, hordered'⟩ := Client.ordered_of_run hbareNeeded hacyclic (hrun.tail hcall)
    by_cases hold : Event.callConstructors p ∈ c₁.list.log
    · obtain ⟨c, hfrom, hto, hv⟩ := ih hold
      exact ⟨c, hfrom, hto.tail hcall, hv⟩
    rcases hordered'.logged.others p with hnil | hwhole | hv
    · have hmem := callConstructors_mem_lifetime.mpr hp
      rw [show lifetime c'.list.log p = [] from hnil] at hmem
      exact absurd hmem not_mem_nil
    · -- its destructors ran before, and so its constructors did
      exfalso
      have hdestr : Event.callDestructors p ∈ c'.list.log := by
        rw [← callDestructors_mem_lifetime, show lifetime c'.list.log p = _ from hwhole]
        simp [wholeLifetime]
      obtain ⟨hopen | hclose, -⟩ := hsound.steps hbareNeeded hacyclic hcall
      · exact hold (hordered.logged.constructed (destructors_of_openSteps hopen hdestr))
      · exact hold (constructors_of_closeSteps hclose hp)
    · exact ⟨c', hrun.tail hcall, .refl, hv⟩

def LibraryList.NeedsName (st : LibraryList) (a b : CString) : Prop :=
  ∃ v ∈ st.knownLibraries, v.name = a ∧ b ∈ v.needed

variable {m : CString}

theorem LibraryView.type_of_mem_needed (h : m ∈ v.needed) :
    ∃ ptr lib, v.type = .crazy ptr lib ∧ m ∈ lib.needed := by
  unfold LibraryView.needed at h
  split at h
  · exact ⟨_, _, by assumption, h⟩
  · exact absurd h not_mem_nil

/-- What a library needs is known with it, and serves it in all that follows. -/
theorem Client.exists_serves (hsound : c.Sound) (hordered : c.ledger.Ordered)
    (hsteps : ReflTransGen Ledger.Step c.ledger c'.ledger) (hv : v ∈ c.list.knownLibraries)
    (hneeded : m ∈ v.needed) :
    ∃ w ∈ c.list.knownLibraries, w.name = m ∧ Serves w v c'.list.log := by
  obtain ⟨hbalanced, hlive⟩ := hsound
  have hholds : m ∈ v.holds := by
    rw [holds_eq_needed (hlive v hv)]
    exact hneeded
  obtain ⟨w, hw, rfl⟩ := hbalanced.holdsKnown v hv m hholds
  obtain ⟨ptr, lib, htype, hlib⟩ := LibraryView.type_of_mem_needed hneeded
  obtain rfl : ptr = v.ptr := hbalanced.crazyPtr v hv ptr lib htype
  exact ⟨w, hw, rfl, hordered.serves_of_run htype hlib (.of_mem hv (hlive v hv))
    (.of_mem hw (hlive w hw)) hsteps⟩

theorem Client.exists_serves_of_transGen (hsound : c.Sound) (hordered : c.ledger.Ordered)
    (hsteps : ReflTransGen Ledger.Step c.ledger c'.ledger) (hv : v ∈ c.list.knownLibraries)
    (hneeds : TransGen c.list.NeedsName v.name m) :
    ∃ w ∈ c.list.knownLibraries, w.name = m ∧ Serves w v c'.list.log := by
  induction hneeds with
  | single hneeds =>
    obtain ⟨v', hv', hname, hneeded⟩ := hneeds
    obtain rfl := hsound.1.eq_of_name hv' hv hname
    exact Client.exists_serves hsound hordered hsteps hv hneeded
  | tail _ hneeds ih =>
    obtain ⟨u, hu, rfl, hserves⟩ := ih
    obtain ⟨u', hu', hname, hneeded⟩ := hneeds
    obtain rfl := hsound.1.eq_of_name hu' hu hname
    obtain ⟨w, hw, hwname, hserves'⟩ := Client.exists_serves hsound hordered hsteps hu hneeded
    exact ⟨w, hw, hwname, hserves'.trans hserves⟩

/-- A library that is known was constructed, and a library that no longer is has been destructed
    as well. -/
theorem Client.lifetime_eq (hsound : c.Sound) (hordered : c.ledger.Ordered)
    (hsound' : c'.Sound) (hordered' : c'.ledger.Ordered)
    (hsteps : ReflTransGen Ledger.Step c.ledger c'.ledger) (hv : v ∈ c.list.knownLibraries)
    (hcrazy : v.isCrazy = true) :
    lifetime c'.list.log v.ptr = if ∃ w ∈ c'.list.knownLibraries, w.ptr = v.ptr
      then [.callConstructors v.ptr] else wholeLifetime v.ptr := by
  have hconstr : Event.callConstructors v.ptr ∈ lifetime c'.list.log v.ptr := by
    refine (lifetime_isPrefix (log_isPrefix_of_steps hsteps) v.ptr).subset ?_
    rw [hordered.logged.known v hv, life_of_live hcrazy (hsound.2 v hv)]
    exact mem_singleton_self _
  split_ifs with hknown
  · obtain ⟨w, hw, hptr⟩ := hknown
    have hlife := hordered'.logged.known w hw
    rw [← hptr] at hconstr ⊢
    by_cases hwcrazy : w.isCrazy = true
    · exact hlife.trans (life_of_live hwcrazy (hsound'.2 w hw))
    · rw [LibraryView.life, if_pos (by simpa using hwcrazy)] at hlife
      rw [show lifetime c'.list.log w.ptr = [] from hlife] at hconstr
      exact absurd hconstr not_mem_nil
  · rcases hordered'.logged.others v.ptr with hnil | hwhole | ⟨w, hw, -, hptr⟩
    · rw [show lifetime c'.list.log v.ptr = [] from hnil] at hconstr
      exact absurd hconstr not_mem_nil
    · exact hwhole
    · exact absurd ⟨w, hw, hptr⟩ hknown

/-- **Initialisation order.** Along every run of successful loads, lookups and closes, a library
    whose constructors ran is one that was known after some call. Take any that is: up to a later
    state its constructors ran once, and its destructors ran once after them or, if it is still
    known, not at all; what it needs, directly or through others, was running when its constructors
    started and whenever it was running itself. -/
theorem lifetimes_of_run (sys : System) (paths : Set SearchPathList)
    (hbareNeeded : sys.BareNeeded) (hacyclic : Acyclic (sys.NeedsIn paths)) (c' : Client)
    (hrun : ReflTransGen (Call sys paths) Client.initial c') :
    (∀ p, Event.callConstructors p ∈ c'.list.log →
      ∃ c, ReflTransGen (Call sys paths) Client.initial c ∧
        ReflTransGen (Call sys paths) c c' ∧
        ∃ v ∈ c.list.knownLibraries, v.isCrazy = true ∧ v.ptr = p) ∧
    ∀ c, ReflTransGen (Call sys paths) Client.initial c →
      ReflTransGen (Call sys paths) c c' → ∀ v ∈ c.list.knownLibraries, v.isCrazy = true →
        (lifetime c'.list.log v.ptr = if ∃ w ∈ c'.list.knownLibraries, w.ptr = v.ptr
          then [.callConstructors v.ptr] else [.callConstructors v.ptr, .callDestructors v.ptr]) ∧
        ∀ m, TransGen c.list.NeedsName v.name m →
          ∃ w ∈ c.list.knownLibraries, w.name = m ∧ Serves w v c'.list.log := by
  refine ⟨fun p hp => known_of_callConstructors hbareNeeded hacyclic hrun hp, ?_⟩
  intro c hfrom hto v hv hcrazy
  obtain ⟨hsound, hordered⟩ := Client.ordered_of_run hbareNeeded hacyclic hfrom
  obtain ⟨hsound', hordered'⟩ := Client.ordered_of_run hbareNeeded hacyclic hrun
  obtain ⟨-, hsteps⟩ := hsound.steps_of_run hbareNeeded hacyclic hto
  exact ⟨Client.lifetime_eq hsound hordered hsound' hordered' hsteps hv hcrazy,
    fun m hneeds => Client.exists_serves_of_transGen hsound hordered hsteps hv hneeds⟩

/-- `liba.so` needs `libb.so`, which needs `libc.so`, a library of the system. The first one is
    loaded and closed. -/
theorem lifetimes_of_run_directory :
    ∃ c c', ReflTransGen (Call (System.directory
        [("liba.so".toList, ["libb.so".toList]), ("libb.so".toList, ["libc.so".toList])])
        {System.libPath}) Client.initial c ∧
      ReflTransGen (Call (System.directory
        [("liba.so".toList, ["libb.so".toList]), ("libb.so".toList, ["libc.so".toList])])
        {System.libPath}) c c' ∧
      c'.list.log = [.dlopen 1, .addEntry 2, .callConstructors 2, .addEntry 3, .callConstructors 3,
        .callJniOnUnload 3, .callDestructors 3, .callJniOnUnload 2, .callDestructors 2, .dlclose 1,
        .delEntry 2, .deleteLibrary 2, .delEntry 3, .deleteLibrary 3] ∧
      ∃ v ∈ c.list.knownLibraries, v.name = "liba.so".toList ∧
        ∃ w ∈ c.list.knownLibraries, w.name = "libc.so".toList ∧ Serves w v c'.list.log := by
  let libs : List (CString × List CString) :=
    [("liba.so".toList, ["libb.so".toList]), ("libb.so".toList, ["libc.so".toList])]
  obtain ⟨st₁, hload, hknown⟩ : ∃ st, loadLibrary (System.directory libs) 2 System.libPath 3 empty
      "liba.so".toList 0 0 = some (st, .ok 3) ∧
      st.knownLibraries.map (fun v => (v.name, v.isCrazy, v.needed)) =
        [("libc.so".toList, false, []), ("libb.so".toList, true, ["libc.so".toList]),
         ("liba.so".toList, true, ["libb.so".toList])] := ⟨_, rfl, rfl⟩
  obtain ⟨st₂, hclose, hlog⟩ : ∃ st, unloadLibrary 3 st₁ 3 = some st ∧ st.log =
      [.dlopen 1, .addEntry 2, .callConstructors 2, .addEntry 3, .callConstructors 3,
        .callJniOnUnload 3, .callDestructors 3, .callJniOnUnload 2, .callDestructors 2, .dlclose 1,
        .delEntry 2, .deleteLibrary 2, .delEntry 3, .deleteLibrary 3] := by
    cases hload
    exact ⟨_, rfl, rfl⟩
  have hbareNeeded : (System.directory libs).BareNeeded :=
    System.bareNeeded_directory (by decide)
  have hacyclic : Acyclic ((System.directory libs).NeedsIn {System.libPath}) :=
    System.acyclic_needsIn_directory libs System.libPath
      (fun path => if path = "/lib/liba.so".toList then 2 else
        if path = "/lib/libb.so".toList then 1 else 0) (by decide)
  have hfrom : ReflTransGen (Call (System.directory libs) {System.libPath}) Client.initial
      ⟨st₁, 3 ::ₘ 0⟩ := .single (.load rfl (by decide) hload)
  have hto : ReflTransGen (Call (System.directory libs) {System.libPath}) ⟨st₁, 3 ::ₘ 0⟩
      ⟨st₂, (3 ::ₘ 0 : Multiset ViewPtr).erase 3⟩ := .single (.close (by simp) hclose)
  have hmem : ∀ entry ∈ st₁.knownLibraries.map fun v => (v.name, v.isCrazy, v.needed),
      ∃ v ∈ st₁.knownLibraries, (v.name, v.isCrazy, v.needed) = entry :=
    fun entry hentry => mem_map.mp hentry
  rw [hknown] at hmem
  obtain ⟨v, hv, heq⟩ := hmem ("liba.so".toList, true, ["libb.so".toList]) (by simp)
  obtain ⟨u, hu, heq'⟩ := hmem ("libb.so".toList, true, ["libc.so".toList]) (by simp)
  simp only [Prod.mk.injEq] at heq heq'
  have hneeds : TransGen st₁.NeedsName v.name "libc.so".toList := by
    refine .tail (.single ⟨v, hv, rfl, ?_⟩) ⟨u, hu, heq'.1, ?_⟩
    · simp [heq.2.2]
    · simp [heq'.2.2]
  exact ⟨_, _, hfrom, hto, hlog, v, hv, heq.1,
    ((lifetimes_of_run _ _ hbareNeeded hacyclic _ (hfrom.trans hto)).2 _ hfrom hto v hv
      heq.2.1).2 _ hneeds⟩

end CrystaxNdk.CrazyLinker
