import CrystaxNdk.Lib.Fifo
import CrystaxNdk.Build.Proof.Closure

/-!
# The topological list

The counter of a node is the number of edges into it from the nodes that have not been popped. A
node gets into the queue at the moment its counter becomes zero, which a counter does at most
once; and the counter of a node in the queue stays zero, so that the decrement of the node that was
just popped does nothing.

Every node of the closure but the top one has an edge into it, so the queue starts with the top
node or, if that is on a cycle, with nothing. Nodes on cycles and behind them never get into the
queue. They are what is left in `_ndk_mod_nodes`.
-/

namespace CrystaxNdk.Build

open Lib Relation List Function

namespace Vars

variable {deps : Word → List Word} {st st' : Vars} {all : List Word} {top : Word}

/-! ## Counting -/

theorem foldl_topoZeroIncoming (names : List Word) (st : Vars) :
    (names.foldl topoZeroIncoming st).nodes = st.nodes ∧ ∀ x,
      (names.foldl topoZeroIncoming st).topoIncoming x =
        if x ∈ names then 0 else st.topoIncoming x := by
  induction names generalizing st with
  | nil => simp
  | cons name names ih =>
    obtain ⟨hnodes, hincoming⟩ := ih (st.topoZeroIncoming name)
    refine ⟨hnodes, fun x => ?_⟩
    rw [foldl_cons, hincoming]
    by_cases hx : x = name
    · simp [topoZeroIncoming, hx]
    · simp [topoZeroIncoming, hx]

theorem foldl_topoIncrementIncoming (ds : List Word) (st : Vars) :
    (ds.foldl topoIncrementIncoming st).nodes = st.nodes ∧ ∀ x,
      (ds.foldl topoIncrementIncoming st).topoIncoming x = st.topoIncoming x + ds.count x := by
  induction ds generalizing st with
  | nil => simp
  | cons d ds ih =>
    obtain ⟨hnodes, hincoming⟩ := ih (st.topoIncrementIncoming d)
    refine ⟨hnodes, fun x => ?_⟩
    rw [foldl_cons, hincoming]
    by_cases hx : x = d
    · simp only [topoIncrementIncoming, hx, update_self, count_cons_self]
      omega
    · have hd : d ≠ x := fun h => hx h.symm
      simp [topoIncrementIncoming, update_of_ne hx, count_cons_of_ne hd]

theorem foldl_topoCount (deps : Word → List Word) (names : List Word) (st : Vars) :
    let counted := names.foldl
      (fun st n => (deps n).foldl topoIncrementIncoming { st with depends := deps n }) st
    counted.nodes = st.nodes ∧ ∀ x, counted.topoIncoming x =
      st.topoIncoming x + incoming deps names x := by
  induction names generalizing st with
  | nil => simp
  | cons n names ih =>
    obtain ⟨hnodes, hincoming⟩ :=
      foldl_topoIncrementIncoming (deps n) { st with depends := deps n }
    obtain ⟨hnodes', hincoming'⟩ :=
      ih ((deps n).foldl topoIncrementIncoming { st with depends := deps n })
    refine ⟨hnodes'.trans hnodes, fun x => ?_⟩
    rw [foldl_cons, hincoming', hincoming, incoming_cons, Nat.add_assoc]

/-- The counter of a node of the closure is the number of edges into it. -/
theorem topoCount_spec (names : List Word) (st : Vars) :
    (topoCount deps st names).nodes = st.nodes ∧ ∀ x ∈ names,
      (topoCount deps st names).topoIncoming x = incoming deps names x := by
  obtain ⟨hzeroNodes, hzero⟩ := foldl_topoZeroIncoming names st
  obtain ⟨hnodes, hincoming⟩ := foldl_topoCount deps names (names.foldl topoZeroIncoming st)
  refine ⟨hnodes.trans hzeroNodes, fun x hx => ?_⟩
  unfold topoCount
  rw [hincoming, hzero, if_pos hx, Nat.zero_add]

/-! ## The queue -/

theorem topoRelease_spec {d : Word} (hd : 0 < st.topoIncoming d) :
    (topoRelease st d).list = st.list ∧ (topoRelease st d).nodes = st.nodes ∧
    (topoRelease st d).topoIncoming = update st.topoIncoming d (st.topoIncoming d - 1) ∧
    (topoRelease st d).wq = st.wq ++ if st.topoIncoming d = 1 then [d] else [] := by
  unfold topoRelease
  by_cases hlast : st.topoIncoming d = 1
  · simp [topoDecrementIncoming, topoHasIncoming, pushBack, hlast]
  · have hmore : st.topoIncoming d - 1 ≠ 0 := by omega
    simp [topoDecrementIncoming, topoHasIncoming, hmore, hlast]

theorem foldl_topoRelease (ds : List Word) (st : Vars)
    (hcount : ∀ x, ds.count x ≤ st.topoIncoming x) :
    (ds.foldl topoRelease st).list = st.list ∧ (ds.foldl topoRelease st).nodes = st.nodes ∧
    (∀ x, (ds.foldl topoRelease st).topoIncoming x = st.topoIncoming x - ds.count x) ∧
    (ds.foldl topoRelease st).wq = st.wq ++ released st.topoIncoming ds := by
  induction ds generalizing st with
  | nil => simp [released]
  | cons d ds ih =>
    have hpos : 0 < st.topoIncoming d := by
      have hd := hcount d
      rw [count_cons_self] at hd
      omega
    obtain ⟨hlist, hnodes, hincoming, hwq⟩ := topoRelease_spec hpos
    obtain ⟨hlist', hnodes', hincoming', hwq'⟩ := ih (topoRelease st d) (by
      rw [hincoming]
      exact count_le_update hcount)
    rw [foldl_cons]
    refine ⟨hlist'.trans hlist, hnodes'.trans hnodes, fun x => ?_, ?_⟩
    · rw [hincoming', hincoming]
      by_cases hx : x = d
      · subst hx
        rw [update_self, count_cons_self]
        omega
      · rw [update_of_ne hx, count_cons_of_ne (Ne.symm hx)]
    · rw [hwq', hwq, hincoming, append_assoc]
      rfl

/-! ## Sorting -/

/-- The state when `-ndk-mod-topo-sort` is called, for the closure `all`. -/
structure Sorting (deps : Word → List Word) (top : Word) (all : List Word) (st : Vars) :
    Prop where
  emitted : Emitted deps all (st.list ++ st.wq)
  sourced : ∀ a ∈ st.list ++ st.wq, ∀ n ∈ all, a ∈ deps n → n ∈ st.list
  counted : ∀ x ∈ all, st.topoIncoming x = incoming deps (pending all st.list) x
  ready : ∀ x ∈ all, st.topoIncoming x = 0 → x ∈ st.list ++ st.wq
  nodes : st.nodes = pending all st.list
  fifo : ∃ kl kq, Fifo deps top st.list st.wq kl kq

/-- What a call makes of the variables before it calls itself. -/
def topoRound (deps : Word → List Word) (st : Vars) (n : Word) : Vars :=
  let st := st.popFirst
  let st := { st with list := st.list ++ [n], nodes := Word.filterOut [n] st.nodes }
  let st := (st.topoDecrementIncoming n).getDepends deps
  st.depends.foldl topoRelease st

theorem topoSort_nil (fuel : Nat) (hwq : st.wq = []) :
    topoSort deps (fuel + 1) st = some st.popFirst := by
  simp [topoSort, popFirst, hwq]

theorem topoSort_cons (fuel : Nat) {n : Word} {queue : List Word} (hwq : st.wq = n :: queue) :
    topoSort deps (fuel + 1) st = topoSort deps fuel (topoRound deps st n) := by
  simp [topoSort, topoRound, popFirst, hwq]

section Round

variable {n : Word} {queue : List Word}

theorem topoRound_fields (hwq : st.wq = n :: queue) (hzero : st.topoIncoming n = 0)
    (hcount : ∀ x, (deps n).count x ≤ st.topoIncoming x) :
    (topoRound deps st n).list = st.list ++ [n] ∧
    (topoRound deps st n).nodes = Word.filterOut [n] st.nodes ∧
    (∀ x, (topoRound deps st n).topoIncoming x = st.topoIncoming x - (deps n).count x) ∧
    (topoRound deps st n).wq = queue ++ released st.topoIncoming (deps n) := by
  have hsame : update st.topoIncoming n (st.topoIncoming n - 1) = st.topoIncoming := by
    rw [hzero, Nat.zero_sub, update_eq_self_iff, hzero]
  unfold topoRound
  simp only [popFirst, topoDecrementIncoming, getDepends, hwq, hsame, head?_cons,
    Option.elim_some, tail_cons]
  exact foldl_topoRelease (deps n) _ hcount

/-- The node at the head of the queue has not been listed, and nothing left depends on it. -/
theorem Sorting.head (h : Sorting deps top all st) (hwq : st.wq = n :: queue) :
    n ∈ all ∧ n ∉ st.list ∧ st.topoIncoming n = 0 := by
  have hn : n ∈ all := h.emitted.subset (by simp [hwq])
  refine ⟨hn, ?_, ?_⟩
  · intro hmem
    exact (nodup_append.mp h.emitted.nodup).2.2 n hmem n (by simp [hwq]) rfl
  · rw [h.counted n hn, incoming_eq_zero_iff]
    intro m hm hnm
    obtain ⟨hm, hmout⟩ := mem_pending.mp hm
    exact hmout (h.sourced n (by simp [hwq]) m hm hnm)

theorem Sorting.count_le (hall : all.Nodup) (hmem : ∀ n, n ∈ all ↔ Reached deps [top] n)
    (h : Sorting deps top all st) (hn : n ∈ all) (hout : n ∉ st.list) (x : Word) :
    (deps n).count x ≤ st.topoIncoming x := by
  by_cases hx : x ∈ deps n
  · rw [h.counted x (mem_of_dependsOn hmem hn hx), incoming_pending hall hn hout]
    exact Nat.le_add_right _ _
  · rw [count_eq_zero_of_not_mem hx]
    exact Nat.zero_le _

/-- The nodes that get into the queue are those that only `n` was left to depend on. -/
theorem Sorting.mem_released (hall : all.Nodup) (hmem : ∀ n, n ∈ all ↔ Reached deps [top] n)
    (h : Sorting deps top all st) (hn : n ∈ all) (hout : n ∉ st.list) {x : Word} :
    x ∈ released st.topoIncoming (deps n) ↔
      x ∈ deps n ∧ incoming deps (pending all (st.list ++ [n])) x = 0 := by
  rw [Lib.mem_released (h.count_le hall hmem hn hout), and_congr_right_iff]
  intro hx
  rw [h.counted x (mem_of_dependsOn hmem hn hx), incoming_pending hall hn hout]
  omega

theorem topoRound_spec (hall : all.Nodup) (hmem : ∀ n, n ∈ all ↔ Reached deps [top] n)
    (hnames : ∀ n ∈ all, '%' ∉ n.chars) (hwq : st.wq = n :: queue) (h : Sorting deps top all st) :
    Sorting deps top all (topoRound deps st n) ∧ (topoRound deps st n).list = st.list ++ [n] := by
  obtain ⟨hn, hout, hzero⟩ := h.head hwq
  have hready := fun x => h.mem_released hall hmem hn hout (x := x)
  obtain ⟨hlist, hnodes, hcounters, hqueue⟩ :=
    topoRound_fields hwq hzero (h.count_le hall hmem hn hout)
  have hold : st.list ++ st.wq = st.list ++ [n] ++ queue := by rw [hwq, append_cons]
  have hgrown : (topoRound deps st n).list ++ (topoRound deps st n).wq =
      st.list ++ st.wq ++ released st.topoIncoming (deps n) := by
    rw [hlist, hqueue, hold, append_assoc, append_assoc, append_assoc]
  have hcounted : ∀ x ∈ all, (topoRound deps st n).topoIncoming x =
      incoming deps (pending all (st.list ++ [n])) x := by
    intro x hx
    rw [hcounters, h.counted x hx, incoming_pending hall hn hout, Nat.add_sub_cancel_left]
  have hsourced : ∀ a ∈ st.list ++ st.wq ++ released st.topoIncoming (deps n), ∀ m ∈ all,
      a ∈ deps m → m ∈ st.list ++ [n] := by
    intro a ha m hm ham
    rcases mem_append.mp ha with ha | ha
    · exact mem_append_left _ (h.sourced a ha m hm ham)
    · by_contra hmout
      exact incoming_eq_zero_iff.mp ((hready a).mp ha).2 m (mem_pending.mpr ⟨hm, hmout⟩) ham
  refine ⟨⟨?_, ?_, ?_, ?_, ?_, ?_⟩, hlist⟩
  · rw [hgrown]
    refine h.emitted.emitAll ?_ ?_ ?_
    · rw [nodup_append]
      refine ⟨h.emitted.nodup, nodup_released (h.count_le hall hmem hn hout), ?_⟩
      rintro x hx y hy rfl
      exact hout (h.sourced x hx n hn ((hready x).mp hy).1)
    · intro x hx
      exact mem_of_dependsOn hmem hn ((hready x).mp hx).1
    · intro a ha m hm ham
      rw [hold]
      exact mem_append_left _ (hsourced a (mem_append_right _ ha) m hm ham)
  · rw [hgrown, hlist]
    exact hsourced
  · rw [hlist]
    exact hcounted
  · -- a counter that is zero now was zero before, or has just become zero
    intro x hx hxzero
    rw [hcounted x hx] at hxzero
    rw [hgrown, mem_append]
    by_cases hdep : x ∈ deps n
    · exact Or.inr ((hready x).mpr ⟨hdep, hxzero⟩)
    · refine Or.inl (h.ready x hx ?_)
      rw [h.counted x hx, incoming_pending hall hn hout, hxzero,
        count_eq_zero_of_not_mem hdep]
  · rw [hlist, hnodes, Word.filterOut_eq (by simpa using hnames n hn), h.nodes, pending, pending,
      filter_filter]
    refine filter_congr fun x _ => ?_
    by_cases hx : x = n <;> simp [hx]
  · obtain ⟨kl, kq, hfifo⟩ := h.fifo
    obtain ⟨idx, hidx, hlast⟩ := exists_lastAt_released (h.count_le hall hmem hn hout)
    rw [hwq] at hfifo
    cases hkeys : kq with
    | nil =>
      rw [hkeys] at hfifo
      exact absurd hfifo.waiting (by simp)
    | cons k kq =>
      rw [hkeys] at hfifo
      rw [hlist, hqueue]
      refine ⟨_, _, hfifo.pop hidx hlast fun x hx m hm hxm => ?_⟩
      exact hsourced x (mem_append_right _ hx) m ((hmem m).mpr hm) hxm

end Round

/-! ## All rounds -/

theorem topoSort_mono {fuel : Nat} (h : topoSort deps fuel st = some st') :
    ∀ fuel', fuel ≤ fuel' → topoSort deps fuel' st = some st' := by
  induction fuel generalizing st with
  | zero => cases h
  | succ fuel ih =>
    intro fuel' hle
    obtain ⟨fuel', rfl⟩ : ∃ k, fuel' = k + 1 := ⟨fuel' - 1, by omega⟩
    cases hwq : st.wq with
    | nil =>
      rw [topoSort_nil _ hwq] at h ⊢
      exact h
    | cons n queue =>
      rw [topoSort_cons _ hwq] at h ⊢
      exact ih h fuel' (by omega)

theorem Sorting.popFirst (h : Sorting deps top all st) (hwq : st.wq = []) :
    Sorting deps top all st.popFirst where
  emitted := by simpa [Vars.popFirst, hwq] using h.emitted
  sourced := by simpa [Vars.popFirst, hwq] using h.sourced
  counted := h.counted
  ready := by simpa [Vars.popFirst, hwq] using h.ready
  nodes := h.nodes
  fifo := by simpa [Vars.popFirst, hwq] using h.fifo

/-- The rounds come to an end: each takes a node away. -/
theorem topoSort_spec (hall : all.Nodup) (hmem : ∀ n, n ∈ all ↔ Reached deps [top] n)
    (hnames : ∀ n ∈ all, '%' ∉ n.chars) (h : Sorting deps top all st) {fuel : Nat}
    (hfuel : (pending all st.list).length < fuel) :
    ∃ st', topoSort deps fuel st = some st' ∧ Sorting deps top all st' ∧ st'.wq = [] := by
  induction fuel generalizing st with
  | zero => omega
  | succ fuel ih =>
    cases hwq : st.wq with
    | nil =>
      refine ⟨st.popFirst, topoSort_nil _ hwq, h.popFirst hwq, ?_⟩
      simp [popFirst, hwq]
    | cons n queue =>
      obtain ⟨hn, hout, -⟩ := h.head hwq
      obtain ⟨hround, hlist⟩ := topoRound_spec hall hmem hnames hwq h
      have hlength := length_pending hall hn hout
      rw [topoSort_cons _ hwq]
      exact ih hround (by rw [hlist]; omega)

/-! ## The list -/

/-- The state `-ndk-mod-get-topo-list` calls `-ndk-mod-topo-sort` in. -/
def topoStart (deps : Word → List Word) (st : Vars) (nodes : List Word) : Vars :=
  let st := topoCount deps { st with nodes } nodes
  { st with list := [], wq := (st.topoFindFirstZeroIncoming nodes).toList }

theorem getTopoList_eq {fuel : Nat} {nodes : List Word}
    (h : st.getClosure deps fuel [top] = some (st', nodes)) :
    st.getTopoList deps fuel top =
      (topoSort deps fuel (topoStart deps st' nodes)).map fun st => (st, st.list ++ st.nodes) := by
  unfold getTopoList
  rw [h]
  rfl

theorem eq_top_of_incoming (hmem : ∀ n, n ∈ all ↔ Reached deps [top] n) {x : Word}
    (hx : x ∈ all) (hzero : incoming deps all x = 0) : x = top := by
  rcases ReflTransGen.cases_tail (reached_singleton.mp ((hmem x).mp hx)) with htop | ⟨m, hm, hmx⟩
  · exact htop
  · have hmem : m ∈ all := (hmem m).mpr (reached_singleton.mpr hm)
    exact absurd hmx (incoming_eq_zero_iff.mp hzero m hmem)

theorem topoStart_incoming (st : Vars) {x : Word} (hx : x ∈ all) :
    (topoStart deps st all).topoIncoming x = incoming deps all x :=
  (topoCount_spec all { st with nodes := all }).2 x hx

theorem topoStart_wq (hmem : ∀ n, n ∈ all ↔ Reached deps [top] n) (hfirst : [top] <+: all)
    (st : Vars) : (topoStart deps st all).wq = if incoming deps all top = 0 then [top] else [] := by
  obtain ⟨rest, hrest⟩ := hfirst
  have htop : top ∈ all := by simp [← hrest]
  have hfind : (topoStart deps st all).wq =
      (all.find? fun n => !(topoStart deps st all).topoHasIncoming n).toList := by
    rw [← head?_filter]
    rfl
  have hhas : ∀ n ∈ all,
      (topoStart deps st all).topoHasIncoming n = decide (incoming deps all n ≠ 0) := by
    intro n hn
    rw [topoHasIncoming, topoStart_incoming st hn]
  rw [hfind]
  split_ifs with hzero
  · have hnot : (topoStart deps st all).topoHasIncoming top = false := by
      simp [hhas top htop, hzero]
    nth_rewrite 2 [← hrest]
    simp [hnot]
  · have hnone : (all.find? fun n => !(topoStart deps st all).topoHasIncoming n) = none := by
      rw [find?_eq_none]
      intro n hn
      have hnzero : incoming deps all n ≠ 0 := fun h => hzero (eq_top_of_incoming hmem hn h ▸ h)
      simp [hhas n hn, hnzero]
    rw [hnone, Option.toList_none]

theorem sorting_topoStart (hmem : ∀ n, n ∈ all ↔ Reached deps [top] n) (hfirst : [top] <+: all)
    (st : Vars) : Sorting deps top all (topoStart deps st all) := by
  have hlist : (topoStart deps st all).list = [] := rfl
  have hwq := topoStart_wq hmem hfirst st
  have htop : top ∈ all := hfirst.subset (mem_singleton_self top)
  -- a node in the queue has no edges into it
  have hsourced : ∀ a ∈ (topoStart deps st all).wq, ∀ n ∈ all, a ∉ deps n := by
    intro a ha
    rw [hwq] at ha
    split_ifs at ha with hzero
    · rw [mem_singleton.mp ha]
      exact incoming_eq_zero_iff.mp hzero
    · exact absurd ha not_mem_nil
  refine ⟨?_, ?_, ?_, ?_, ?_, ?_⟩
  · refine emitted_nil.emitAll ?_ ?_ ?_
    · rw [nil_append, hwq]
      split_ifs <;> simp
    · rw [hwq]
      split_ifs
      · simpa using htop
      · exact nil_subset _
    · intro a ha n hn han
      exact absurd han (hsourced a ha n hn)
  · intro a ha n hn han
    rw [hlist, nil_append] at ha
    exact absurd han (hsourced a ha n hn)
  · intro x hx
    rw [hlist, pending_nil]
    exact topoStart_incoming st hx
  · intro x hx hzero
    rw [topoStart_incoming st hx] at hzero
    obtain rfl := eq_top_of_incoming hmem hx hzero
    rw [hlist, hwq, if_pos hzero]
    simp
  · rw [hlist, pending_nil]
    exact (topoCount_spec all { st with nodes := all }).1
  · rw [hlist, hwq]
    split_ifs with hzero
    · refine ⟨[], [[]], fifo_start fun m hm => ?_⟩
      exact incoming_eq_zero_iff.mp hzero m ((hmem m).mpr hm)
    · exact ⟨[], [], ⟨List.Forall₂.nil, List.Forall₂.nil, by simp, by simp⟩⟩

structure TopoList (deps : Word → List Word) (top : Word) (l : List Word) : Prop where
  nodup : l.Nodup
  mem_iff : ∀ n, n ∈ l ↔ Reached deps [top] n
  first : l.head? = some top
  ordered : Acyclic (fun n x => Reached deps [top] n ∧ x ∈ deps n) → Ordered deps l
  fifo : Acyclic (fun n x => Reached deps [top] n ∧ x ∈ deps n) → l.Pairwise (Before deps top)

/-- Without cycles every node is sorted: if one were left, one would be ready. -/
theorem Sorting.all_subset (hmem : ∀ n, n ∈ all ↔ Reached deps [top] n)
    (h : Sorting deps top all st) (hwq : st.wq = [])
    (hacyclic : Acyclic fun n x => Reached deps [top] n ∧ x ∈ deps n) : all ⊆ st.list := by
  by_contra hsub
  simp only [← hmem] at hacyclic
  have hrest : ∃ a ∈ all, a ∉ st.list := by simpa [subset_def] using hsub
  obtain ⟨a, ha, hout, hready⟩ := Emitted.exists_ready hacyclic hrest
  have hzero : st.topoIncoming a = 0 := by
    rw [h.counted a ha, incoming_eq_zero_iff]
    intro n hn han
    obtain ⟨hn, hnout⟩ := mem_pending.mp hn
    exact hnout (hready n hn han)
  have hlisted := h.ready a ha hzero
  rw [hwq, append_nil] at hlisted
  exact hout hlisted

theorem Sorting.nodes_eq_nil (h : Sorting deps top all st) (hsub : all ⊆ st.list) :
    st.nodes = [] := by
  rw [h.nodes, pending, filter_eq_nil_iff]
  intro n hn
  simpa using hsub hn

/-- The nodes that were sorted, and then the others. -/
theorem Sorting.topoList (hall : all.Nodup) (hmem : ∀ n, n ∈ all ↔ Reached deps [top] n)
    (hfirst : [top] <+: all) (h : Sorting deps top all st) (hwq : st.wq = []) :
    TopoList deps top (st.list ++ st.nodes) where
  nodup := by
    have hlist := h.emitted.nodup
    rw [hwq, append_nil] at hlist
    rw [h.nodes, nodup_append]
    refine ⟨hlist, hall.filter _, ?_⟩
    rintro x hx y hy rfl
    exact (mem_pending.mp hy).2 hx
  mem_iff := by
    intro n
    have hsub : n ∈ st.list → n ∈ all := fun hn => h.emitted.subset (mem_append_left _ hn)
    rw [← hmem, h.nodes, mem_append, mem_pending]
    tauto
  first := by
    cases hlist : st.list with
    | nil =>
      obtain ⟨rest, hrest⟩ := hfirst
      rw [h.nodes, hlist, pending_nil, ← hrest]
      rfl
    | cons a out =>
      -- nothing comes before the first node, so nothing depends on it
      have hout : st.list ++ st.wq = [] ++ a :: out := by rw [hwq, hlist, append_nil]; rfl
      have ha : a ∈ all := h.emitted.subset (by simp [hout])
      have hzero : incoming deps all a = 0 := by
        rw [incoming_eq_zero_iff]
        intro n hn han
        exact not_mem_nil (h.emitted.sourced [] a out hout n hn han)
      rw [eq_top_of_incoming hmem ha hzero]
      rfl
  ordered := by
    intro hacyclic
    have hsub := h.all_subset hmem hwq hacyclic
    have hemitted := h.emitted
    rw [hwq, append_nil] at hemitted
    rw [h.nodes_eq_nil hsub, append_nil]
    exact hemitted.ordered hsub fun n hn d hd => mem_of_dependsOn hmem hn hd
  fifo := by
    intro hacyclic
    rw [h.nodes_eq_nil (h.all_subset hmem hwq hacyclic), append_nil]
    obtain ⟨kl, kq, hfifo⟩ := h.fifo
    exact hfifo.pairwise

theorem getTopoList_returns (hfinite : {n | deps n ≠ []}.Finite)
    (hnames : ∀ n, Reached deps [top] n → '%' ∉ n.chars) (st : Vars) :
    ∃ rounds st' l, (∀ fuel, rounds ≤ fuel → st.getTopoList deps fuel top = some (st', l)) ∧
      TopoList deps top l := by
  obtain ⟨rounds, mid, all, hclosure, hall, hmem, hfirst⟩ :=
    getClosure_spec hfinite (nodup_singleton top) (cons_ne_nil top []) st
  have hfuel : (pending all (topoStart deps mid all).list).length < all.length + 1 := by
    simp [topoStart]
  obtain ⟨st', hrun, hst', hend⟩ := topoSort_spec hall hmem
    (fun n hn => hnames n ((hmem n).mp hn)) (sorting_topoStart hmem hfirst mid) hfuel
  refine ⟨max rounds (all.length + 1), st', st'.list ++ st'.nodes, ?_,
    hst'.topoList hall hmem hfirst hend⟩
  intro fuel hfuel
  rw [getTopoList_eq (getClosure_mono hclosure fuel (le_of_max_le_left hfuel)),
    topoSort_mono hrun fuel (le_of_max_le_right hfuel), Option.map_some]

/-- `-ndk-mod-get-topo-list` lists the nodes that can be reached from the top node, each of them
    once and the top node first, whatever cycles there are. Without cycles every node comes before
    those it depends on. -/
theorem getTopoList_sorted (deps : Word → List Word) (hfinite : {n | deps n ≠ []}.Finite)
    (top : Word) (hnames : ∀ n, ReflTransGen (DependsOn deps) top n → '%' ∉ n.chars) (st : Vars) :
    ∃ rounds st' l, (∀ fuel, rounds ≤ fuel → st.getTopoList deps fuel top = some (st', l)) ∧
      l.Nodup ∧ (∀ n, n ∈ l ↔ ReflTransGen (DependsOn deps) top n) ∧ l.head? = some top ∧
      (Acyclic (fun n x => ReflTransGen (DependsOn deps) top n ∧ x ∈ deps n) →
        ∀ front a back, l = front ++ a :: back → ∀ b ∈ deps a, b ∈ back) := by
  obtain ⟨rounds, st', l, hrun, hlist⟩ :=
    getTopoList_returns hfinite (fun n hn => hnames n (reached_singleton.mp hn)) st
  refine ⟨rounds, st', l, hrun, hlist.nodup, fun n => ?_, hlist.first, fun hacyclic => ?_⟩
  · rw [hlist.mem_iff, reached_singleton]
  · exact hlist.ordered (by simpa only [reached_singleton] using hacyclic)

section Abc

def abcDepends (n : Word) : List Word := ([(modA, [modB, modC]), (modC, [modB])].lookup n).getD []

theorem abcDepends_mem {n : Word} (h : ReflTransGen (DependsOn abcDepends) modA n) :
    n ∈ [modA, modB, modC] := by
  induction h with
  | refl => simp
  | tail _ hstep ih =>
    have hclosed : ∀ n ∈ [modA, modB, modC], ∀ x ∈ abcDepends n, x ∈ [modA, modB, modC] := by
      decide +kernel
    exact hclosed _ ih _ hstep

theorem acyclic_abcDepends :
    Acyclic fun n x => ReflTransGen (DependsOn abcDepends) modA n ∧ x ∈ abcDepends n := by
  refine Acyclic.of_rank (fun n => [modB, modC, modA].idxOf n) ?_
  rintro n x ⟨hn, hx⟩
  have hrank : ∀ n ∈ [modA, modB, modC], ∀ x ∈ abcDepends n,
      [modB, modC, modA].idxOf x < [modB, modC, modA].idxOf n := by
    decide +kernel
  exact hrank n (abcDepends_mem hn) x hx

theorem getTopoList_sorted_abc : ∃ rounds st' l,
    (∀ fuel, rounds ≤ fuel → initial.getTopoList abcDepends fuel modA = some (st', l)) ∧
      l.Nodup ∧ l.head? = some modA ∧ Ordered abcDepends l := by
  obtain ⟨rounds, st', l, hrun, hnodup, -, hfirst, hordered⟩ := getTopoList_sorted abcDepends
    (finite_lookup _) modA (fun n hn => by
      have hnames : ∀ n ∈ [modA, modB, modC], '%' ∉ n.chars := by decide +kernel
      exact hnames n (abcDepends_mem hn)) initial
  exact ⟨rounds, st', l, hrun, hnodup, hfirst, hordered acyclic_abcDepends⟩

example : (initial.getTopoList abcDepends 4 modA).map Prod.snd = some [modA, modC, modB] := by
  decide +kernel

end Abc

end Vars

end CrystaxNdk.Build
