import CrystaxNdk.CrazyLinker.Proof.Balance

/-!
# Reference counts over whole runs

`LoadLibrary` takes one reference to what it returns and `UnloadLibrary` gives one back; in
terms of `Balanced`, the first adds a name to those that wait and the second removes one. From
these two specifications the counts of every state a client can reach are exact
(`refCount_of_run`): a view is referenced by the handles the client has to it and the
`DT_NEEDED` entries of the libraries that are known, and by nothing else.

The assumptions are those under which names identify libraries: no name has a directory in it,
and no library needs itself, directly or through others.
-/

namespace CrystaxNdk.CrazyLinker

open Lib Relation List

/-- No `DT_NEEDED` entry has a directory in it. -/
def System.BareNeeded (sys : System) : Prop :=
  ∀ path off, ∀ m ∈ sys.neededAt path off, '/' ∉ m

/-- The file found for `a`, along one of the search paths and at some offset, needs `b`. -/
def System.NeedsIn (sys : System) (paths : Set SearchPathList) (a b : CString) : Prop :=
  ∃ search ∈ paths, ∃ off, sys.Needs search off a b

/-- The names in a directory are bare if the entries of its libraries are. -/
theorem System.bareNeeded_directory {libs : List (CString × List CString)}
    (h : ∀ lib ∈ libs, ∀ m ∈ lib.2, '/' ∉ m) : (System.directory libs).BareNeeded := by
  intro path off m hm
  obtain ⟨lib, hlib, -, hm⟩ := System.neededAt_directory hm
  exact h lib hlib m hm

theorem System.acyclic_needsIn_directory (libs : List (CString × List CString))
    (search : SearchPathList) (rank : CString → Nat)
    (h : ∀ lib ∈ libs, ∀ m ∈ lib.2,
      (System.directory libs).nameRank search rank m ≤ rank ("/lib/".toList ++ lib.1)) :
    Acyclic ((System.directory libs).NeedsIn {search}) := by
  refine (System.acyclic_directory libs search rank h).mono ?_
  rintro a b ⟨search', hsearch, off, hneeds⟩
  rw [Set.mem_singleton_iff.mp hsearch] at hneeds
  exact ⟨off, hneeds⟩

namespace LibraryList

variable {sys : System} {st st' st₁ : LibraryList} {mode : Int} {search : SearchPathList}
  {paths : Set SearchPathList} {held : Multiset ViewPtr} {pend pend' : Multiset CString}
  {v : LibraryView} {n : CString} {addr off fuel : Nat}

/-! ## Loading -/

/-- A load that succeeds is made of the steps of a load, and ends with one more reference to the
    library it returns. -/
theorem loadLibrary_steps (hbareNeeded : sys.BareNeeded)
    (hacyclic : Acyclic (sys.NeedsIn paths)) (hsearch : search ∈ paths) {wrap : ViewPtr}
    (hload : loadLibrary sys mode search fuel st n addr off = some (st', .ok wrap))
    (h : Balanced st held pend) (hlive : st.AllLive) (hbare : '/' ∉ n) :
    ReflTransGen OpenStep ⟨st, held, pend⟩ ⟨st', held, n ::ₘ pend⟩ ∧ st'.AllLive ∧
      ∃ v ∈ st'.knownLibraries, v.ptr = wrap ∧ v.name = n := by
  refine (loadLibrary_induct
    (P := fun st n _ _ st' r => ∀ held pend wrap, Balanced st held pend → st.AllLive →
      '/' ∉ n → r = .ok wrap →
      ReflTransGen OpenStep ⟨st, held, pend⟩ ⟨st', held, n ::ₘ pend⟩ ∧ st'.AllLive ∧
        ∃ v ∈ st'.knownLibraries, v.ptr = wrap ∧ v.name = n)
    (Q := fun st ns st' r => ∀ held pend wraps, Balanced st held pend → st.AllLive →
      (∀ m ∈ ns, '/' ∉ m) → r = .ok wraps →
      ReflTransGen OpenStep ⟨st, held, pend⟩ ⟨st', held, ns + pend⟩ ∧ st'.AllLive)
    ?known ?system ?unopened ?dependency ?finish ?nil ?stop ?goOn fuel).1 st n addr off st' _ hload
    held pend wrap h hlive hbare rfl
  case known =>
    intro st n addr off v hfind held pend wrap h hlive hbare hok
    obtain ⟨hv, hname⟩ := findKnownLibrary_some hfind
    rw [getBaseNamePtr_of_not_mem hbare] at hname
    rcases openKnown_cases st v addr with ⟨e, hopen⟩ | hopen
    · rw [hopen] at hok
      cases hok
    · rw [hopen] at hok ⊢
      cases hok
      refine ⟨hname ▸ .single (.addRef hv (hlive v hv)), hlive.addRef h v.ptr, ?_⟩
      exact ⟨_, mem_modifyKey_self hv rfl, rfl, hname⟩
  case system =>
    intro st n addr off hfind _ held pend wrap h hlive hbare hok
    rw [findKnownLibrary_eq_none, getBaseNamePtr_of_not_mem hbare] at hfind
    rcases openSystem_cases sys st n mode with ⟨e, hopen⟩ | ⟨handle, hopen⟩
    · rw [hopen] at hok
      cases hok
    · rw [hopen] at hok ⊢
      cases hok
      refine ⟨.single (.openSystem hlive hbare hfind), hlive.append rfl rfl, ?_⟩
      exact ⟨⟨st.nextPtr, .system handle, n, 1⟩, by simp, rfl, rfl⟩
  case unopened =>
    intro st n addr off e _ _ _ held pend wrap _ _ _ hok
    cases hok
  case dependency =>
    intro st n addr off lib st' e _ _ _ _ held pend wrap _ _ _ hok
    cases hok
  case finish =>
    intro st n addr off lib st₁ deps hfind _ hopenFile hran hQ held pend wrap h hlive
      hbare hok
    obtain ⟨fuel, hdeps⟩ := hran
    have hneeds := openFile_needs hopenFile
    have hbareLib : ∀ m ∈ lib.needed, '/' ∉ m := by
      intro m hm
      obtain ⟨path, -, hm⟩ := hneeds m hm
      exact hbareNeeded path off m hm
    obtain ⟨hsteps, hlive₁⟩ := hQ held pend deps h hlive hbareLib rfl
    -- loading the dependencies did not load the library itself
    have hnew : ¬ st₁.Known n := by
      intro hknown
      rw [findKnownLibrary_eq_none, getBaseNamePtr_of_not_mem hbare] at hfind
      rcases (loadDependencies_walks hdeps).reaches n hknown with hknown | ⟨m, hm, hreach⟩
      · exact hfind hknown
      · have hstep : TransGen (sys.NeedsIn paths) n m := .single ⟨search, hsearch, off, hneeds m hm⟩
        exact hacyclic n (hstep.trans_left
          (ReflTransGen.mono (fun a b hab => ⟨search, hsearch, 0, hab.2.2⟩) _ _ hreach))
    rcases finishLoad_cases sys st₁ lib deps n with ⟨e, hfinish⟩ | hfinish
    · rw [hfinish] at hok
      cases hok
    · rw [hfinish] at hok ⊢
      cases hok
      refine ⟨hsteps.tail (.enter hlive₁ hbare hbareLib hnew), hlive₁.append rfl rfl, ?_⟩
      exact ⟨⟨st₁.nextPtr, .crazy st₁.nextPtr lib, n, 1⟩, by simp, rfl, rfl⟩
  case nil =>
    intro st held pend wraps _ hlive _ _
    rw [Multiset.coe_nil, zero_add]
    exact ⟨.refl, hlive⟩
  case stop =>
    intro st n ns st' e _ held pend wraps _ _ _ hok
    cases hok
  case goOn =>
    intro st n ns st₁ d st' r hP hQ held pend wraps h hlive hbare hok
    cases r with
    | error e => cases hok
    | ok ds =>
      obtain ⟨hsteps, hlive₁, -⟩ := hP held pend d h hlive (hbare n (by simp)) rfl
      obtain ⟨hsteps', hlive₂⟩ := hQ held (n ::ₘ pend) ds (Ledger.Balanced.opened hsteps h) hlive₁
        (fun m hm => hbare m (by simp [hm])) rfl
      refine ⟨hsteps.trans ?_, hlive₂⟩
      rw [← Multiset.cons_coe, Multiset.cons_add, ← Multiset.add_cons]
      exact hsteps'

/-! ## Unloading -/

/-- How many views are not on their way out: the depth `UnloadLibrary` can reach. -/
def liveCount (st : LibraryList) : Nat :=
  (st.knownLibraries.map fun v => if v.refCount = 0 then 0 else 1).sum

theorem liveCount_bumpRef (h : Balanced st held pend) (hv : v ∈ st.knownLibraries) (k : Int) :
    (st.bumpRef v.ptr k).liveCount + (if v.refCount = 0 then 0 else 1) =
      st.liveCount + if v.refCount + k = 0 then 0 else 1 :=
  sum_modifyKey (g := fun v : LibraryView => if v.refCount = 0 then 0 else 1) h.ptrs hv rfl

theorem liveCount_eq_length (st : LibraryList) : st.liveCount =
    ((st.knownLibraries.filter fun v => v.refCount ≠ 0).map LibraryView.ptr).length := by
  rw [length_map, liveCount]
  induction st.knownLibraries with
  | nil => rfl
  | cons v vs ih => by_cases hv : v.refCount = 0 <;> simp [hv, ih, Nat.add_comm]

theorem Unloads.liveCount_le (hunloads : Unloads st st') (h' : Balanced st' held pend') :
    st'.liveCount ≤ st.liveCount := by
  rw [liveCount_eq_length, liveCount_eq_length]
  refine (subperm_of_subset (h'.ptrs.sublist (filter_sublist.map _)) fun p hp => ?_).length_le
  simp only [mem_map, mem_filter, decide_eq_true_eq] at hp ⊢
  obtain ⟨w, ⟨hw, hlive⟩, rfl⟩ := hp
  obtain ⟨k, hmem, -⟩ := hunloads.kept w hw
  refine ⟨_, ⟨hmem, fun hzero => hlive ?_⟩, rfl⟩
  obtain ⟨k', hk', hw'⟩ := hunloads.leaving _ hmem hzero.le
  have hnonneg : 0 ≤ w.refCount := h'.refCount_nonneg hw
  have heq : k' = w.refCount := congrArg LibraryView.refCount (h'.eq_of_ptr hw' hw rfl)
  omega

theorem unloadDependencies_steps {unload : LibraryList → ViewPtr → Option LibraryList}
    (hunload : ∀ st pend v st', Balanced st held (v.name ::ₘ pend) → v ∈ st.knownLibraries →
      unload st v.ptr = some st' →
      ReflTransGen CloseStep ⟨st, held, v.name ::ₘ pend⟩ ⟨st', held, pend⟩ ∧ Unloads st st') :
    ∀ ns st pend st', Balanced st held ((ns : List CString) + pend) →
      unloadDependencies unload st ns = some st' →
      ReflTransGen CloseStep ⟨st, held, ns + pend⟩ ⟨st', held, pend⟩ ∧ Unloads st st' := by
  intro ns
  induction ns with
  | nil =>
    intro st pend st' h hst'
    rw [← Option.some.inj hst', Multiset.coe_nil, zero_add]
    exact ⟨.refl, Unloads.refl st⟩
  | cons n ns ih =>
    intro st pend st' h hst'
    rw [← Multiset.cons_coe, Multiset.cons_add] at h ⊢
    obtain ⟨v, hv, rfl⟩ := h.pendKnown n (Multiset.mem_cons_self n _)
    simp only [unloadDependencies, h.findKnownLibrary hv] at hst'
    cases hst₁ : unload st v.ptr with
    | none => rw [hst₁] at hst'; cases hst'
    | some st₁ =>
      rw [hst₁] at hst'
      obtain ⟨hsteps, hunloads⟩ := hunload st _ v st₁ h hv hst₁
      obtain ⟨hsteps', hunloads'⟩ := ih st₁ pend st' (Ledger.Balanced.closed hsteps h) hst'
      exact ⟨hsteps.trans hsteps', hunloads.trans hunloads'⟩

/-- An unload that returns is made of the steps of an unload, and gives back one reference. -/
theorem unloadLibrary_steps (held : Multiset ViewPtr) :
    ∀ fuel st pend v st', Balanced st held (v.name ::ₘ pend) → v ∈ st.knownLibraries →
      unloadLibrary fuel st v.ptr = some st' →
      ReflTransGen CloseStep ⟨st, held, v.name ::ₘ pend⟩ ⟨st', held, pend⟩ ∧ Unloads st st' := by
  intro fuel
  induction fuel with
  | zero =>
    intro st pend v st' _ _ hst'
    cases hst'
  | succ fuel ih =>
    intro st pend v st' h hv hst'
    have hview : st.view? v.ptr = some v := view?_of_mem h.ptrs hv
    -- not the last reference; or a view of the system; or a library with dependencies
    by_cases hmore : v.refCount - 1 ≠ 0
    · rw [unloadLibrary_of_more fuel hview (h.typed v hv) hmore] at hst'
      rw [← Option.some.inj hst']
      exact ⟨.single (.release hv hmore), unloads_release h.ptrs hv hmore⟩
    · rw [not_not] at hmore
      cases htype : v.type with
      | none => exact absurd htype (h.typed v hv)
      | system handle =>
        rw [unloadLibrary_of_system fuel hview hmore htype] at hst'
        rw [← Option.some.inj hst']
        have h₁ := h.retire_system hv hmore (by simp [LibraryView.isCrazy, htype])
        rw [show v.needed = [] by simp [LibraryView.needed, htype], Multiset.coe_nil,
          zero_add] at h₁
        exact ⟨.single (.closeSystem hv hmore htype),
          unloads_last h.ptrs hv hmore rfl (Unloads.refl _) h₁.ptrs (knownLibraries_removeView v)⟩
      | crazy ptr lib =>
        obtain rfl : ptr = v.ptr := h.crazyPtr v hv ptr lib htype
        rw [unloadLibrary_of_crazy fuel hview hmore htype, Option.map_eq_some_iff] at hst'
        obtain ⟨st₂, hdeps, rfl⟩ := hst'
        have hretire := h.retireLibrary hv hmore htype
        obtain ⟨hsteps, hunloads⟩ :=
          unloadDependencies_steps ih lib.needed _ pend st₂ hretire hdeps
        have h₂ : Balanced st₂ held pend := Ledger.Balanced.closed hsteps hretire
        have hknown : (st.retireLibrary v.ptr).knownLibraries =
            (st.bumpRef v.ptr (-1)).knownLibraries := rfl
        -- it is still there after its dependencies were unloaded, and nothing refers to it
        obtain ⟨k, hk, hv₂⟩ := hunloads.mem_of_last hv hmore hknown
        have hremove : CloseStep ⟨st₂, held, pend⟩
            ⟨(st₂.emit [.delEntry v.ptr]).removeView v, held, pend⟩ :=
          CloseStep.remove (v := { v with refCount := k }) hv₂
            (le_antisymm hk (h₂.refCount_nonneg hv₂)) htype
        exact ⟨.head (.retire hv hmore htype) (hsteps.tail hremove),
          unloads_last h.ptrs hv hmore hknown hunloads h₂.ptrs (by simp)⟩

theorem unloadDependencies_returns
    (hreturns : ∀ st pend v, Balanced st held (v.name ::ₘ pend) → v ∈ st.knownLibraries →
      st.liveCount < fuel → ∃ st', unloadLibrary fuel st v.ptr = some st') :
    ∀ ns st pend, Balanced st held ((ns : List CString) + pend) → st.liveCount < fuel →
      ∃ st', unloadDependencies (unloadLibrary fuel) st ns = some st' := by
  intro ns
  induction ns with
  | nil => exact fun st _ _ _ => ⟨st, rfl⟩
  | cons n ns ih =>
    intro st pend h hfuel
    rw [← Multiset.cons_coe, Multiset.cons_add] at h
    obtain ⟨v, hv, rfl⟩ := h.pendKnown n (Multiset.mem_cons_self n _)
    obtain ⟨st₁, hst₁⟩ := hreturns st _ v h hv hfuel
    obtain ⟨hsteps, hunloads⟩ := unloadLibrary_steps held _ st _ v st₁ h hv hst₁
    have h₁ : Balanced st₁ held (ns + pend) := Ledger.Balanced.closed hsteps h
    obtain ⟨st', hst'⟩ := ih st₁ pend h₁ ((hunloads.liveCount_le h₁).trans_lt hfuel)
    refine ⟨st', ?_⟩
    simp only [unloadDependencies, h.findKnownLibrary hv, hst₁]
    exact hst'

/-- An unload returns when it may recurse deeper than there are live views. -/
theorem unloadLibrary_returns (held : Multiset ViewPtr) :
    ∀ fuel st pend v, Balanced st held (v.name ::ₘ pend) → v ∈ st.knownLibraries →
      st.liveCount < fuel → ∃ st', unloadLibrary fuel st v.ptr = some st' := by
  intro fuel
  induction fuel with
  | zero => exact fun _ _ _ _ _ hfuel => absurd hfuel (Nat.not_lt_zero _)
  | succ fuel ih =>
    intro st pend v h hv hfuel
    have hview : st.view? v.ptr = some v := view?_of_mem h.ptrs hv
    by_cases hmore : v.refCount - 1 ≠ 0
    · exact ⟨_, unloadLibrary_of_more fuel hview (h.typed v hv) hmore⟩
    · rw [not_not] at hmore
      cases htype : v.type with
      | none => exact absurd htype (h.typed v hv)
      | system handle => exact ⟨_, unloadLibrary_of_system fuel hview hmore htype⟩
      | crazy ptr lib =>
        obtain rfl : ptr = v.ptr := h.crazyPtr v hv ptr lib htype
        -- the library itself no longer counts among the live ones
        have hless : (st.retireLibrary v.ptr).liveCount < fuel := by
          have hbump := liveCount_bumpRef h hv (-1)
          rw [if_neg (h.refCount_pos hv).ne', if_pos (show v.refCount + -1 = 0 from hmore)]
            at hbump
          show (st.bumpRef v.ptr (-1)).liveCount < fuel
          omega
        obtain ⟨st₂, hst₂⟩ := unloadDependencies_returns ih lib.needed _ pend
          (h.retireLibrary hv hmore htype) hless
        rw [unloadLibrary_of_crazy fuel hview hmore htype, hst₂]
        exact ⟨_, rfl⟩

end LibraryList

/-! ## Runs of a client -/

/-- The list together with the handles clients hold. -/
structure Client where
  list : LibraryList
  held : Multiset ViewPtr

/-- One call of a client: a load that succeeds, a lookup, or the close of a handle it holds. -/
inductive Call (sys : System) (paths : Set SearchPathList) : Client → Client → Prop where
  | load {c : Client} {mode : Int} {search : SearchPathList} {fuel : Nat} {name : CString}
      {addr off : Nat} {st : LibraryList} {wrap : ViewPtr} :
      search ∈ paths → '/' ∉ name →
      LibraryList.loadLibrary sys mode search fuel c.list name addr off = some (st, .ok wrap) →
      Call sys paths c ⟨st, wrap ::ₘ c.held⟩
  | find {c : Client} {name : CString} {st : LibraryList} {wrap : ViewPtr} :
      crazyLibraryFindByName c.list name = some (st, wrap) →
      Call sys paths c ⟨st, wrap ::ₘ c.held⟩
  | findNothing {c : Client} {name : CString} :
      crazyLibraryFindByName c.list name = none → Call sys paths c c
  | close {c : Client} {fuel : Nat} {wrap : ViewPtr} {st : LibraryList} :
      wrap ∈ c.held → LibraryList.unloadLibrary fuel c.list wrap = some st →
      Call sys paths c ⟨st, c.held.erase wrap⟩

namespace Client

def initial : Client := ⟨LibraryList.empty, 0⟩

/-- The invariant between calls: nothing waits and nothing is on its way out. -/
def Sound (c : Client) : Prop := LibraryList.Balanced c.list c.held 0 ∧ c.list.AllLive

/-- Between calls nothing waits. -/
def ledger (c : Client) : Ledger := ⟨c.list, c.held, 0⟩

end Client

open LibraryList

variable {sys : System} {paths : Set SearchPathList} {c c' : Client}

theorem Client.takeBack {v : LibraryView} (hv : v ∈ c.list.knownLibraries)
    (hheld : v.ptr ∈ c.held) :
    CloseStep c.ledger ⟨c.list, c.held.erase v.ptr, v.name ::ₘ 0⟩ := by
  rw [Client.ledger, ← Multiset.cons_erase hheld, Multiset.erase_cons_head]
  exact .takeBack hv

/-- **One call** is made of the steps of a load or of those of an unload. It leaves nothing on its
    way out, and takes away no view that is still referred to. -/
theorem Client.Sound.steps (hbareNeeded : sys.BareNeeded)
    (hacyclic : Acyclic (sys.NeedsIn paths)) (h : c.Sound) (hcall : Call sys paths c c') :
    (ReflTransGen OpenStep c.ledger c'.ledger ∨ ReflTransGen CloseStep c.ledger c'.ledger) ∧
      c'.list.AllLive ∧ ∀ w ∈ c'.list.knownLibraries, ∀ v ∈ c.list.knownLibraries,
        w.name = v.name → w.ptr = v.ptr := by
  obtain ⟨hbalanced, hlive⟩ := h
  cases hcall with
  | @load mode search fuel name addr off st wrap hsearch hbare hload =>
    obtain ⟨hsteps, hliveSt, v, hv, rfl, rfl⟩ :=
      loadLibrary_steps hbareNeeded hacyclic hsearch hload hbalanced hlive hbare
    have hst : Balanced st c.held (v.name ::ₘ 0) := Ledger.Balanced.opened hsteps hbalanced
    refine ⟨Or.inl (hsteps.tail (.hand hv)), hliveSt, fun w hw u hu hname => ?_⟩
    -- the view of that name is still there, and there is only one
    have hentry := (loadLibrary_entries hload).subset (mem_map_of_mem hu)
    obtain ⟨u', hu', heq⟩ := mem_map.mp hentry
    simp only [Prod.mk.injEq] at heq
    rw [hst.eq_of_name hw hu' (hname.trans heq.2.2.symm), heq.1]
  | @find name st wrap hfind =>
    obtain ⟨v, hv, rfl, rfl⟩ := crazyLibraryFindByName_some hfind
    have hhand : OpenStep ⟨c.list.addRef v.ptr, c.held, v.name ::ₘ 0⟩
        ⟨c.list.addRef v.ptr, v.ptr ::ₘ c.held, 0⟩ :=
      OpenStep.hand (v := { v with refCount := v.refCount + 1 }) (mem_modifyKey_self hv rfl)
    refine ⟨Or.inl (ReflTransGen.tail (.single (.addRef hv (hlive v hv))) hhand),
      hlive.addRef hbalanced v.ptr, fun w hw u hu hname => ?_⟩
    obtain ⟨w₀, hw₀, hptr, hname₀, -⟩ := mem_bumpRef hw
    rw [hptr, hbalanced.eq_of_name hw₀ hu (hname₀.symm.trans hname)]
  | findNothing _ =>
    exact ⟨Or.inl .refl, hlive, fun w hw u hu hname => by rw [hbalanced.eq_of_name hw hu hname]⟩
  | @close fuel wrap st hheld hunload =>
    obtain ⟨v, hv, rfl⟩ := hbalanced.heldKnown wrap hheld
    have hback := Client.takeBack hv hheld
    obtain ⟨hsteps, hunloads⟩ :=
      unloadLibrary_steps _ fuel c.list 0 v st (hback.balanced hbalanced) hv hunload
    refine ⟨Or.inr (.head hback hsteps), fun w hw hzero => ?_, fun w hw u hu hname => ?_⟩
    · obtain ⟨k, hmem, hk⟩ := hunloads.kept w hw
      exact hlive _ hmem (le_antisymm (hk hzero.le) (hbalanced.refCount_nonneg hmem))
    · obtain ⟨k, hmem, -⟩ := hunloads.kept w hw
      rw [← hbalanced.eq_of_name hmem hu hname]

/-- **One call keeps the books.** -/
theorem Client.Sound.call (hbareNeeded : sys.BareNeeded)
    (hacyclic : Acyclic (sys.NeedsIn paths)) (hcall : Call sys paths c c') (h : c.Sound) :
    c'.Sound := by
  obtain ⟨hopen | hclose, hlive, -⟩ := h.steps hbareNeeded hacyclic hcall
  · exact ⟨Ledger.Balanced.opened hopen h.1, hlive⟩
  · exact ⟨Ledger.Balanced.closed hclose h.1, hlive⟩

theorem Client.sound_initial : Client.initial.Sound :=
  ⟨balanced_empty, fun _ hv => absurd hv not_mem_nil⟩

theorem Client.Sound.run (hbareNeeded : sys.BareNeeded)
    (hacyclic : Acyclic (sys.NeedsIn paths))
    (hrun : ReflTransGen (Call sys paths) Client.initial c) : c.Sound := by
  induction hrun with
  | refl => exact Client.sound_initial
  | tail _ hcall ih => exact ih.call hbareNeeded hacyclic hcall

/-- The `DT_NEEDED` entries, in all libraries that are known, that name `name`. -/
def LibraryList.needCount (st : LibraryList) (name : CString) : Nat :=
  (st.knownLibraries.map fun v => v.needed.count name).sum

theorem heldBy_eq_needCount {st : LibraryList} (hlive : st.AllLive) (name : CString) :
    heldBy st.knownLibraries name = st.needCount name := by
  unfold heldBy needCount
  congr 1
  refine map_congr_left fun v hv => ?_
  rw [holds_eq_needed (hlive v hv)]

/-- Without handles there is nothing left: the library entered last is needed by none. -/
theorem Client.Sound.empty_of_held_eq_zero (h : c.Sound) (hheld : c.held = 0) :
    c.list.knownLibraries = [] ∧ c.list.head = none := by
  obtain ⟨hbalanced, hlive⟩ := h
  have hnil : c.list.knownLibraries = [] := by
    by_contra hne
    obtain ⟨vs, v, hvs⟩ : ∃ vs v, c.list.knownLibraries = vs ++ [v] :=
      ⟨_, _, (dropLast_append_getLast hne).symm⟩
    have hv : v ∈ c.list.knownLibraries := by simp [hvs]
    have hordered := hbalanced.ordered
    rw [hvs, pairwise_append] at hordered
    have hneeds : ∀ w ∈ c.list.knownLibraries, v.name ∉ w.needed := by
      intro w hw
      rw [hvs, mem_append, mem_singleton] at hw
      rcases hw with hw | rfl
      · exact hordered.2.2 w hw v (mem_singleton_self v)
      · exact hbalanced.irreflexive w hv
    have hzero : heldBy c.list.knownLibraries v.name = 0 := by
      refine sum_eq_zero fun k hk => ?_
      obtain ⟨w, hw, rfl⟩ := mem_map.mp hk
      exact count_eq_zero.mpr fun hm => hneeds w hw (holds_subset_needed hm)
    apply hlive v hv
    rw [hbalanced.count v hv, hheld, hzero]
    rfl
  refine ⟨hnil, ?_⟩
  have hchain := hbalanced.chain
  rw [hnil] at hchain
  exact hchain

/-- **Reference counting.** Along every run of successful loads, lookups and closes, the count
    of a view is the number of handles to it plus the number of `DT_NEEDED` entries that name it;
    a view that a call takes away has neither; every handle can be closed; and without handles
    the list is empty again. -/
theorem refCount_of_run (sys : System) (paths : Set SearchPathList)
    (hbareNeeded : sys.BareNeeded) (hacyclic : Acyclic (sys.NeedsIn paths)) (c : Client)
    (hrun : ReflTransGen (Call sys paths) Client.initial c) :
    (∀ v ∈ c.list.knownLibraries, v.refCount = c.held.count v.ptr + c.list.needCount v.name) ∧
    (∀ c', Call sys paths c c' → ∀ v ∈ c.list.knownLibraries,
      (∀ w ∈ c'.list.knownLibraries, w.ptr ≠ v.ptr) →
        c'.held.count v.ptr = 0 ∧ c'.list.needCount v.name = 0) ∧
    (∀ wrap ∈ c.held, ∃ fuel st, unloadLibrary fuel c.list wrap = some st) ∧
    (c.held = 0 → c.list.knownLibraries = [] ∧ c.list.head = none) := by
  have hsound : c.Sound := Client.Sound.run hbareNeeded hacyclic hrun
  refine ⟨?_, ?_, ?_, hsound.empty_of_held_eq_zero⟩
  · intro v hv
    rw [hsound.1.count v hv, heldBy_eq_needCount hsound.2, Multiset.count_zero]
    simp
  · intro c' hcall v hv hgone
    obtain ⟨hbalanced', hlive'⟩ := hsound.call hbareNeeded hacyclic hcall
    obtain ⟨-, -, hsame⟩ := hsound.steps hbareNeeded hacyclic hcall
    constructor
    · rw [Multiset.count_eq_zero]
      intro hheld
      obtain ⟨w, hw, hptr⟩ := hbalanced'.heldKnown _ hheld
      exact hgone w hw hptr
    · refine sum_eq_zero fun k hk => ?_
      obtain ⟨w, hw, rfl⟩ := mem_map.mp hk
      rw [count_eq_zero]
      intro hneeded
      obtain ⟨u, hu, hname⟩ := hbalanced'.holdsKnown w hw v.name
        (by rw [holds_eq_needed (hlive' w hw)]; exact hneeded)
      exact hgone u hu (hsame u hu v hv hname)
  · intro wrap hheld
    obtain ⟨v, hv, rfl⟩ := hsound.1.heldKnown wrap hheld
    exact ⟨c.list.liveCount + 1, unloadLibrary_returns _ _ c.list 0 v
      ((Client.takeBack hv hheld).balanced hsound.1) hv (Nat.lt_succ_self _)⟩

/-- `liba.so` is loaded, `libb.so`, which it needs twice, is looked up, `liba.so` is closed. -/
theorem refCount_of_run_directory :
    ∃ c, ReflTransGen (Call (System.directory
        [("liba.so".toList, ["libb.so".toList, "libc.so".toList, "libb.so".toList]),
         ("libb.so".toList, ["libc.so".toList])]) {System.libPath}) Client.initial c ∧
      c.list.knownLibraries.map LibraryView.refCount = [1, 1] ∧
      ∀ v ∈ c.list.knownLibraries,
        v.refCount = c.held.count v.ptr + c.list.needCount v.name := by
  let libs : List (CString × List CString) :=
    [("liba.so".toList, ["libb.so".toList, "libc.so".toList, "libb.so".toList]),
     ("libb.so".toList, ["libc.so".toList])]
  obtain ⟨st₁, hload⟩ : ∃ st, loadLibrary (System.directory libs) 2 System.libPath 3 empty
      "liba.so".toList 0 0 = some (st, .ok 3) := ⟨_, rfl⟩
  obtain ⟨st₂, hfind⟩ : ∃ st, crazyLibraryFindByName st₁ "libb.so".toList = some (st, 2) := by
    cases hload
    exact ⟨_, rfl⟩
  obtain ⟨st₃, hclose, hcounts⟩ : ∃ st, unloadLibrary 3 st₂ 3 = some st ∧
      st.knownLibraries.map LibraryView.refCount = [1, 1] := by
    cases hload
    cases hfind
    exact ⟨_, rfl, rfl⟩
  have hrun : ReflTransGen (Call (System.directory libs) {System.libPath}) Client.initial
      ⟨st₃, (2 ::ₘ 3 ::ₘ 0 : Multiset ViewPtr).erase 3⟩ := by
    refine ReflTransGen.tail (ReflTransGen.tail (ReflTransGen.tail ReflTransGen.refl
      (Call.load rfl (by decide) hload)) (Call.find hfind)) (Call.close ?_ hclose)
    simp
  have hbareNeeded : (System.directory libs).BareNeeded :=
    System.bareNeeded_directory (by decide)
  have hacyclic : Acyclic ((System.directory libs).NeedsIn {System.libPath}) :=
    System.acyclic_needsIn_directory libs System.libPath
      (fun path => if path = "/lib/liba.so".toList then 2 else
        if path = "/lib/libb.so".toList then 1 else 0) (by decide)
  exact ⟨_, hrun, hcounts, (refCount_of_run _ _ hbareNeeded hacyclic _ hrun).1⟩

end CrystaxNdk.CrazyLinker
