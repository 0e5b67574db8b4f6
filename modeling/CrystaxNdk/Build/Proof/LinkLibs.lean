import CrystaxNdk.Build.Proof.TopoList
import CrystaxNdk.Build.Modules

/-!
# The libraries a module is linked with

`-ndk-mod-link-deps` calls `module-get-shared-libs` for a shared library without passing its name
on, and gets nothing. So the walk stops at shared libraries: those that they need are missing from
the link line, or, when the walk gets to them on another way, not always behind them.
`linkExpansion` are the edges that the comment at `-ndk-mod-link-deps` asks for.
-/

namespace CrystaxNdk.Build

open Lib Relation List

namespace Modules

variable {db : Modules} {m n x : Word}

/-! ## The database -/

theorem mem_of_field_ne_nil {f : String} (h : db.field n f ≠ []) :
    n ∈ db.vars.map fun var => var.1.1 := by
  by_contra hmem
  have hnone : db.vars.lookup (n, f) = none := by
    rw [lookup_eq_none_iff]
    intro var hvar
    rw [bne_iff_ne]
    intro heq
    exact hmem (mem_map.mpr ⟨var, hvar, by rw [← heq]⟩)
  exact h (by rw [field, hnone]; rfl)

theorem mem_of_moduleGetDirectLibs (h : db.moduleGetDirectLibs n ≠ []) :
    n ∈ db.vars.map fun var => var.1.1 := by
  by_contra hmem
  have hnone : ∀ f, db.field n f = [] := fun f => by_contra fun hf => hmem (mem_of_field_ne_nil hf)
  exact h (by simp [moduleGetDirectLibs, hnone])

theorem finite_moduleGetDirectLibs (db : Modules) :
    {n | db.moduleGetDirectLibs n ≠ []}.Finite :=
  Set.Finite.subset (finite_toSet _) fun _ hn => mem_of_moduleGetDirectLibs hn

/-! ## The edges -/

/-- What a library is expanded to: the module that is linked and static libraries to all their
    libraries, shared libraries to their shared libraries. -/
def linkExpansion (db : Modules) (linkModule name : Word) : List Word :=
  if name = linkModule ∨ db.moduleIsStaticLibrary name then db.moduleGetDirectLibs name
  else if db.moduleIsSharedLibrary name then db.field name "SHARED_LIBRARIES" else []

theorem linkDeps_eq : db.linkDeps m n =
    if n = m ∨ db.moduleIsStaticLibrary n then db.moduleGetDirectLibs n else [] := by
  unfold linkDeps
  by_cases hexpand : n = m ∨ db.moduleIsStaticLibrary n
  · simp only [if_pos hexpand]
    split_ifs with hdirect
    · rfl
    · rw [not_not.mp hdirect]
      rfl
    · exact (not_not.mp hdirect).symm
  · simp [if_neg hexpand, moduleGetSharedLibs]

/-- A shared library, other than the module that is linked. -/
def LinkedShared (db : Modules) (m n : Word) : Prop :=
  n ≠ m ∧ db.moduleIsStaticLibrary n = false ∧ db.moduleIsSharedLibrary n = true

/-- The edges that are missing are those out of shared libraries. -/
theorem mem_linkExpansion : x ∈ db.linkExpansion m n ↔
    x ∈ db.linkDeps m n ∨ db.LinkedShared m n ∧ x ∈ db.field n "SHARED_LIBRARIES" := by
  rw [linkDeps_eq, linkExpansion]
  by_cases hexpand : n = m ∨ db.moduleIsStaticLibrary n
  · have hnot : ¬ db.LinkedShared m n := by
      rintro ⟨hne, hstatic, -⟩
      simp [hne, hstatic] at hexpand
    simp [if_pos hexpand, hnot]
  · rw [not_or, Bool.not_eq_true] at hexpand
    by_cases hshared : db.moduleIsSharedLibrary n = true
    · simp [hexpand, hshared, LinkedShared]
    · simp [hexpand, hshared, LinkedShared]

theorem linkDeps_subset : db.linkDeps m n ⊆ db.moduleGetDirectLibs n := by
  rw [linkDeps_eq]
  split_ifs
  · exact List.Subset.refl _
  · exact nil_subset _

theorem linkExpansion_subset : db.linkExpansion m n ⊆ db.moduleGetDirectLibs n := by
  intro x hx
  rcases mem_linkExpansion.mp hx with hx | ⟨-, hx⟩
  · exact linkDeps_subset hx
  · exact mem_append_right _ hx

theorem reaches_directLibs (h : ReflTransGen (DependsOn (db.linkExpansion m)) m n) :
    ReflTransGen (DependsOn db.moduleGetDirectLibs) m n :=
  ReflTransGen.mono (fun _ _ hx => linkExpansion_subset hx) _ _ h

theorem reaches_linkExpansion (h : ReflTransGen (DependsOn (db.linkDeps m)) m n) :
    ReflTransGen (DependsOn (db.linkExpansion m)) m n :=
  ReflTransGen.mono (fun _ _ hx => mem_linkExpansion.mpr (Or.inl hx)) _ _ h

/-! ## The link line -/

structure LinkLine (db : Modules) (m : Word) (l : List Word) : Prop where
  nodup : l.Nodup
  mem_iff : ∀ n, n ∈ l ↔ n ≠ m ∧ ReflTransGen (DependsOn (db.linkExpansion m)) m n
  ordered : ∀ front a back, l = front ++ a :: back →
    ∀ b ∈ db.linkExpansion m a, b ∈ l → b ∈ back

/-- `module-get-link-libs` always returns, and what it returns is sorted by the edges it follows. -/
theorem moduleGetLinkLibs_returns (hacyclic : Acyclic (DependsOn db.moduleGetDirectLibs))
    (hnames : ∀ n, ReflTransGen (DependsOn db.moduleGetDirectLibs) m n → '%' ∉ n.chars)
    (st : Vars) :
    ∃ rounds st' l,
      (∀ fuel, rounds ≤ fuel → db.moduleGetLinkLibs fuel st m = some (st', l)) ∧
      (m :: l).Nodup ∧ (∀ n, n ∈ m :: l ↔ ReflTransGen (DependsOn (db.linkDeps m)) m n) ∧
      Ordered (db.linkDeps m) (m :: l) ∧ (m :: l).Pairwise (Before (db.linkDeps m) m) := by
  have hfinite : {n | db.linkDeps m n ≠ []}.Finite := by
    refine db.finite_moduleGetDirectLibs.subset fun n hn hnone => hn ?_
    exact subset_nil.mp (hnone ▸ linkDeps_subset)
  obtain ⟨rounds, st', l, hrun, hlist⟩ := Vars.getTopoList_returns hfinite
    (fun n hn => hnames n (reaches_directLibs (reaches_linkExpansion (reached_singleton.mp hn)))) st
  have hdag : Acyclic fun n x => Reached (db.linkDeps m) [m] n ∧ x ∈ db.linkDeps m n :=
    hacyclic.mono fun n x hx => linkDeps_subset hx.2
  obtain ⟨rest, rfl⟩ : ∃ rest, l = m :: rest := by
    obtain ⟨rest, hrest⟩ := head?_eq_some_iff.mp hlist.first
    exact ⟨rest, hrest⟩
  refine ⟨rounds, st', rest, ?_, hlist.nodup, fun n => ?_, hlist.ordered hdag, hlist.fifo hdag⟩
  · intro fuel hfuel
    simp [moduleGetLinkLibs, Vars.getTopologicalDepends, hrun fuel hfuel]
  · rw [hlist.mem_iff, reached_singleton]

/-- Every library that a shared library needs is reached on another way, and put behind it. -/
def SharedBehind (db : Modules) (m : Word) : Prop :=
  ∀ s x, ReflTransGen (DependsOn (db.linkDeps m)) m s → db.LinkedShared m s →
    x ∈ db.field s "SHARED_LIBRARIES" → Before (db.linkDeps m) m s x

theorem SharedBehind.reaches (h : db.SharedBehind m)
    (hn : ReflTransGen (DependsOn (db.linkExpansion m)) m n) :
    ReflTransGen (DependsOn (db.linkDeps m)) m n := by
  induction hn with
  | refl => exact ReflTransGen.refl
  | tail _ hstep ih =>
    rcases mem_linkExpansion.mp hstep with hx | ⟨hshared, hx⟩
    · exact ih.tail hx
    · obtain ⟨q, hq, -⟩ := h _ _ ih hshared hx
      exact reached_singleton.mp hq.reached

section Line

variable {l : List Word} (hmem : ∀ n, n ∈ m :: l ↔ ReflTransGen (DependsOn (db.linkDeps m)) m n)
  (hfifo : (m :: l).Pairwise (Before (db.linkDeps m) m))

include hmem hfifo

theorem SharedBehind.linkLine (hnodup : (m :: l).Nodup)
    (hordered : Ordered (db.linkDeps m) (m :: l)) (h : db.SharedBehind m) : db.LinkLine m l where
  nodup := (nodup_cons.mp hnodup).2
  mem_iff := by
    intro n
    have hiff : n ∈ l ↔ n ≠ m ∧ n ∈ m :: l := by
      have hm := (nodup_cons.mp hnodup).1
      constructor
      · intro hn
        exact ⟨fun heq => hm (heq ▸ hn), mem_cons_of_mem m hn⟩
      · rintro ⟨hne, hn⟩
        exact (mem_cons.mp hn).resolve_left hne
    rw [hiff, hmem]
    exact and_congr_right fun _ => ⟨reaches_linkExpansion, h.reaches⟩
  ordered := by
    intro front a back heq b hb hbl
    have hline : m :: l = (m :: front) ++ a :: back := by rw [heq]; rfl
    rcases mem_linkExpansion.mp hb with hb | ⟨hshared, hb⟩
    · exact hordered _ a back hline b hb
    · have ha : a ∈ m :: l := by simp [heq]
      have hbefore := h a b ((hmem a).mp ha) hshared hb
      rw [heq, mem_append, mem_cons] at hbl
      rcases hbl with hfront | rfl | hback
      · -- then `b` would also be before `a`
        rw [hline, pairwise_append] at hfifo
        exact absurd hbefore (hfifo.2.2 b (mem_cons_of_mem m hfront) a (by simp)).asymm
      · exact absurd hbefore hbefore.asymm
      · exact hback

theorem LinkLine.sharedBehind (hacyclic : Acyclic (DependsOn db.moduleGetDirectLibs))
    (h : db.LinkLine m l) : db.SharedBehind m := by
  intro s x hs hshared hx
  have hstep : x ∈ db.linkExpansion m s := mem_linkExpansion.mpr (Or.inr ⟨hshared, hx⟩)
  have hsl : s ∈ l := (mem_cons.mp ((hmem s).mpr hs)).resolve_left hshared.1
  have hreach := (reaches_linkExpansion hs).tail hstep
  have hne : x ≠ m := by
    rintro rfl
    have hcycle := TransGen.tail' (reaches_directLibs (reaches_linkExpansion hs))
      (linkExpansion_subset hstep)
    exact hacyclic x hcycle
  have hxl : x ∈ l := (h.mem_iff x).mpr ⟨hne, hreach⟩
  obtain ⟨front, back, heq⟩ := append_of_mem hsl
  have hback := h.ordered front s back heq x hstep hxl
  rw [heq, pairwise_cons, pairwise_append, pairwise_cons] at hfifo
  exact hfifo.2.2.1.1 x hback

end Line

/-- The link line is right exactly when what shared libraries need is behind them anyway. -/
theorem moduleGetLinkLibs_linkLine_iff (db : Modules)
    (hacyclic : Acyclic (DependsOn db.moduleGetDirectLibs)) (m : Word)
    (hnames : ∀ n, ReflTransGen (DependsOn db.moduleGetDirectLibs) m n → '%' ∉ n.chars)
    (st : Vars) :
    (∃ rounds st' l, (∀ fuel, rounds ≤ fuel → db.moduleGetLinkLibs fuel st m = some (st', l)) ∧
      db.LinkLine m l) ↔ db.SharedBehind m := by
  obtain ⟨rounds, st', l, hrun, hnodup, hmem, hordered, hfifo⟩ :=
    moduleGetLinkLibs_returns hacyclic hnames st
  constructor
  · rintro ⟨rounds', st'', l', hrun', hline⟩
    have heq := (hrun _ (le_max_left rounds rounds')).symm.trans
      (hrun' _ (le_max_right rounds rounds'))
    obtain ⟨-, rfl⟩ : st' = st'' ∧ l = l' := by simpa using heq
    exact hline.sharedBehind hmem hfifo hacyclic
  · intro h
    exact ⟨rounds, st', l, hrun, h.linkLine hmem hfifo hnodup hordered⟩

section Chain

def app : Word := Word.ofString "app" (by simp [isBlank])

def foo : Word := Word.ofString "foo" (by simp [isBlank])

def bar : Word := Word.ofString "bar" (by simp [isBlank])

/-- An executable that needs `foo`, which needs `bar`, both static or both shared. -/
def chain (cls : Word) (libs : String) : Modules where
  modules := [app, bar, foo]
  vars := [((foo, "MODULE_CLASS"), [cls]), ((bar, "MODULE_CLASS"), [cls]), ((app, libs), [foo]),
    ((foo, libs), [bar])]

/-- `bar` is missing when both are shared. -/
theorem moduleGetLinkLibs_chain_shared :
    ((chain sharedLibrary "SHARED_LIBRARIES").moduleGetLinkLibs 3 Vars.initial app).map Prod.snd =
      some [foo] ∧ bar ∉ [foo] ∧ bar ≠ app ∧
    ReflTransGen (DependsOn ((chain sharedLibrary "SHARED_LIBRARIES").linkExpansion app)) app
      bar := by
  refine ⟨by decide +kernel, by decide +kernel, by decide +kernel, ?_⟩
  have hfoo : foo ∈ (chain sharedLibrary "SHARED_LIBRARIES").linkExpansion app app := by
    decide +kernel
  have hbar : bar ∈ (chain sharedLibrary "SHARED_LIBRARIES").linkExpansion app foo := by
    decide +kernel
  exact (ReflTransGen.single hfoo).tail hbar

theorem chain_directLibs (h : x ∈ (chain staticLibrary "STATIC_LIBRARIES").moduleGetDirectLibs n) :
    n = app ∧ x = foo ∨ n = foo ∧ x = bar := by
  have hall : ∀ n ∈ (chain staticLibrary "STATIC_LIBRARIES").vars.map (fun var => var.1.1),
      ∀ x ∈ (chain staticLibrary "STATIC_LIBRARIES").moduleGetDirectLibs n,
        n = app ∧ x = foo ∨ n = foo ∧ x = bar := by
    decide +kernel
  exact hall n (mem_of_moduleGetDirectLibs (ne_nil_of_mem h)) x h

theorem moduleGetLinkLibs_linkLine_chain :
    ∃ rounds st' l, (∀ fuel, rounds ≤ fuel →
      (chain staticLibrary "STATIC_LIBRARIES").moduleGetLinkLibs fuel Vars.initial app =
        some (st', l)) ∧ (chain staticLibrary "STATIC_LIBRARIES").LinkLine app l := by
  refine (moduleGetLinkLibs_linkLine_iff _ ?_ app ?_ Vars.initial).mpr ?_
  · refine Acyclic.of_rank (fun n => [bar, foo, app].idxOf n) ?_
    intro n x hx
    rcases chain_directLibs hx with ⟨rfl, rfl⟩ | ⟨rfl, rfl⟩
    · decide +kernel
    · decide +kernel
  · intro n hn
    rcases ReflTransGen.cases_tail hn with rfl | ⟨_, -, hx⟩
    · decide +kernel
    · rcases chain_directLibs hx with ⟨-, rfl⟩ | ⟨-, rfl⟩
      · decide +kernel
      · decide +kernel
  · intro s x _ hshared hx
    rcases chain_directLibs (mem_append_right _ hx) with ⟨rfl, -⟩ | ⟨rfl, -⟩
    · exact absurd rfl hshared.1
    · exact absurd hshared.2.1 (by decide +kernel)

end Chain

end Modules

end CrystaxNdk.Build
