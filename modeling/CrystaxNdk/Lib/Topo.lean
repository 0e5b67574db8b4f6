import Mathlib

/-!
# Acyclic relations: ranks, and sorting by counting edges

A relation whose sources lie in a finite set and that has no cycle decreases some natural number at
every step (`Acyclic.exists_rank`). Every recursion that follows such a relation terminates, and the
number is the depth the recursion can reach. Nothing is assumed of the targets: a node that is never
a source has rank `0`, and there may be infinitely many of those. Where there is no cycle the nodes
can also be sorted; the second part has the invariant of the algorithms that count edges to do so.
-/

namespace CrystaxNdk.Lib

open Relation

variable {α : Type*}

/-- No node reaches itself in one step or more. -/
def Acyclic (r : α → α → Prop) : Prop := ∀ a, ¬ TransGen r a a

variable {r : α → α → Prop}

theorem Acyclic.mono {s : α → α → Prop} (h : Acyclic s) (hrs : ∀ a b, r a b → s a b) :
    Acyclic r :=
  fun a ha => h a (TransGen.mono hrs _ _ ha)

theorem Acyclic.of_rank (rank : α → Nat) (h : ∀ a b, r a b → rank b < rank a) : Acyclic r := by
  have hlt : ∀ a b, TransGen r a b → rank b < rank a := by
    intro a b hab
    induction hab with
    | single hab => exact h _ _ hab
    | tail _ hbc ih => exact (h _ _ hbc).trans ih
  exact fun a ha => lt_irrefl _ (hlt a a ha)

/-- Where no node of `p` is on a cycle, the steps out of `p` form an acyclic relation. -/
theorem acyclic_restrict {p : α → Prop} (h : ∀ a, p a → ¬ TransGen r a a) :
    Acyclic fun a b => r a b ∧ p a := by
  intro a ha
  obtain ⟨b, hab, -⟩ := TransGen.head'_iff.mp ha
  exact h a hab.2 (TransGen.mono (fun _ _ hxy => hxy.1) _ _ ha)

open Classical in
/-- The sources in `S` that `a` reaches. Going one step down an acyclic relation loses at least
    the node stepped to, which is what makes their number a rank. -/
noncomputable def below (r : α → α → Prop) (S : Finset α) (a : α) : Finset α :=
  S.filter (TransGen r a)

theorem mem_below {S : Finset α} {a b : α} :
    b ∈ below r S a ↔ b ∈ S ∧ TransGen r a b := by
  classical
  simp [below]

theorem below_ssubset {S : Finset α} (h : Acyclic r) {a b : α} (hab : r a b) (hb : b ∈ S) :
    below r S b ⊂ below r S a := by
  refine Finset.ssubset_iff_of_subset ?_ |>.mpr ⟨b, ?_, ?_⟩
  · intro c hc
    obtain ⟨hcS, hbc⟩ := mem_below.mp hc
    exact mem_below.mpr ⟨hcS, TransGen.head hab hbc⟩
  · exact mem_below.mpr ⟨hb, TransGen.single hab⟩
  · intro hbb
    exact h b (mem_below.mp hbb).2

/-- **An acyclic relation with finitely many sources has a rank.** -/
theorem Acyclic.exists_rank (h : Acyclic r) (S : Finset α) (hS : ∀ a b, r a b → a ∈ S) :
    ∃ rank : α → Nat, ∀ a b, r a b → rank b < rank a := by
  classical
  refine ⟨fun a => if a ∈ S then (below r S a).card + 1 else 0, fun a b hab => ?_⟩
  have ha : a ∈ S := hS a b hab
  by_cases hb : b ∈ S
  · simpa [ha, hb] using Finset.card_lt_card (below_ssubset h hab hb)
  · simp [ha, hb]

/-!
## Sorting a graph by counting edges

A graph is a function `deps` from a node to the nodes it depends on, in order and possibly with
repetitions. Every algorithm that sorts such a graph by counting keeps, for each node, the number
of edges into it from the nodes that are still to come, and lists a node when that number is zero.
`Emitted` is what holds of the list so far, `Emitted.emit` adds a node to it, and
`Emitted.exists_ready` finds the next one when there is no cycle. How the counts are kept and in
which order ready nodes are taken is left to the algorithm.
-/

open List Function

variable {α : Type*}

def DependsOn (deps : α → List α) (a b : α) : Prop := b ∈ deps a

/-- Every node is followed by everything it depends on. -/
def Ordered (deps : α → List α) (l : List α) : Prop :=
  ∀ front a back, l = front ++ a :: back → ∀ b ∈ deps a, b ∈ back

/-! ### Counting -/

section Counting

variable [DecidableEq α] {deps : α → List α} {l l' : List α} {a x : α}

/-- The number of edges into `x` from the nodes `l`. -/
def incoming (deps : α → List α) (l : List α) (x : α) : Nat := (l.flatMap deps).count x

@[simp] theorem incoming_nil : incoming deps [] x = 0 := rfl

theorem incoming_cons : incoming deps (a :: l) x = (deps a).count x + incoming deps l x := by
  simp [incoming]

theorem incoming_eq_zero_iff : incoming deps l x = 0 ↔ ∀ n ∈ l, x ∉ deps n := by
  simp [incoming, count_eq_zero]

def pending (nodes out : List α) : List α := nodes.filter (· ∉ out)

@[simp] theorem mem_pending {nodes out : List α} :
    x ∈ pending nodes out ↔ x ∈ nodes ∧ x ∉ out := by
  simp [pending]

@[simp] theorem pending_nil (nodes : List α) : pending nodes [] = nodes := by
  simp [pending]

theorem pending_append_singleton {nodes : List α} (hnodes : nodes.Nodup) (out : List α) :
    pending nodes (out ++ [a]) = (pending nodes out).erase a := by
  unfold pending
  rw [(hnodes.filter _).erase_eq_filter, filter_filter]
  refine filter_congr fun x _ => ?_
  by_cases hx : x = a <;> simp [hx]

theorem incoming_pending {nodes out : List α} (hnodes : nodes.Nodup) (ha : a ∈ nodes)
    (hout : a ∉ out) : incoming deps (pending nodes out) x =
      (deps a).count x + incoming deps (pending nodes (out ++ [a])) x := by
  have hmem : a ∈ pending nodes out := mem_pending.mpr ⟨ha, hout⟩
  rw [pending_append_singleton hnodes, ← incoming_cons]
  exact ((perm_cons_erase hmem).flatMap_right deps).count_eq x

theorem length_pending {nodes out : List α} (hnodes : nodes.Nodup) (ha : a ∈ nodes)
    (hout : a ∉ out) :
    (pending nodes (out ++ [a])).length + 1 = (pending nodes out).length := by
  have hmem : a ∈ pending nodes out := mem_pending.mpr ⟨ha, hout⟩
  have hpos : 0 < (pending nodes out).length := length_pos_of_mem hmem
  rw [pending_append_singleton hnodes, length_erase_of_mem hmem]
  omega

/-- The nodes whose counters get down to zero when the edges to `ds` are taken away one by one. -/
def released (count : α → Nat) : List α → List α
  | [] => []
  | d :: ds =>
    (if count d = 1 then [d] else []) ++ released (update count d (count d - 1)) ds

section Released

variable {count : α → Nat} {d : α} {ds : List α}

theorem count_le_update (h : ∀ x, (d :: ds).count x ≤ count x) (x : α) :
    ds.count x ≤ update count d (count d - 1) x := by
  have hx := h x
  by_cases hd : x = d
  · subst hd
    rw [count_cons_self] at hx
    rw [update_self]
    omega
  · rwa [update_of_ne hd, ← count_cons_of_ne (Ne.symm hd)]

/-- A counter gets down to zero with the last edge that it counts. -/
theorem mem_released (h : ∀ x, ds.count x ≤ count x) :
    x ∈ released count ds ↔ x ∈ ds ∧ count x = ds.count x := by
  induction ds generalizing count with
  | nil => simp [released]
  | cons d ds ih =>
    rw [released, mem_append, ih (count_le_update h)]
    by_cases hx : x = d
    · subst hx
      have hle := h x
      rw [count_cons_self] at hle
      rw [update_self, count_cons_self]
      by_cases hmore : x ∈ ds
      · have hpos : 0 < ds.count x := count_pos_iff.mpr hmore
        have hnot : count x ≠ 1 := by omega
        simp only [hnot, hmore, if_false, not_mem_nil, mem_cons_self, false_or, true_and]
        omega
      · simp [hmore, count_eq_zero_of_not_mem hmore]
    · have hnot : x ∉ (if count d = 1 then [d] else []) := by
        split_ifs <;> simp [hx]
      simp [hnot, hx, count_cons_of_ne (Ne.symm hx)]

theorem nodup_released (h : ∀ x, ds.count x ≤ count x) : (released count ds).Nodup := by
  induction ds generalizing count with
  | nil => simp [released]
  | cons d ds ih =>
    have hrest := ih (count_le_update h)
    rw [released]
    split_ifs with hlast
    · -- then `d` does not come again
      rw [singleton_append, nodup_cons]
      refine ⟨fun hd => ?_, hrest⟩
      have hmem := ((mem_released (count_le_update h)).mp hd).1
      have hpos := count_pos_iff.mpr hmem
      have hle := h d
      rw [count_cons_self, hlast] at hle
      omega
    · exact hrest

end Released

end Counting

/-! ### Listing -/

/-- What has been listed of `nodes`: every node that depends on a listed one comes before it. -/
structure Emitted (deps : α → List α) (nodes out : List α) : Prop where
  nodup : out.Nodup
  subset : out ⊆ nodes
  sourced : ∀ front a back, out = front ++ a :: back → ∀ n ∈ nodes, a ∈ deps n → n ∈ front

variable {deps : α → List α} {nodes out : List α} {a : α}

theorem emitted_nil : Emitted deps nodes [] where
  nodup := nodup_nil
  subset := nil_subset _
  sourced := by simp

/-- A node may be listed once everything that depends on it is. -/
theorem Emitted.emit (h : Emitted deps nodes out) (ha : a ∈ nodes) (hout : a ∉ out)
    (hready : ∀ n ∈ nodes, a ∈ deps n → n ∈ out) : Emitted deps nodes (out ++ [a]) where
  nodup := by
    rw [nodup_append]
    refine ⟨h.nodup, nodup_singleton a, ?_⟩
    intro x hx y hy
    rw [mem_singleton.mp hy]
    rintro rfl
    exact hout hx
  subset := by
    intro x hx
    rcases mem_append.mp hx with hx | hx
    · exact h.subset hx
    · rw [mem_singleton.mp hx]
      exact ha
  sourced := by
    intro front b back heq n hn hb
    -- the split is inside `out`, or at the new node
    rcases eq_nil_or_concat back with rfl | ⟨back, c, rfl⟩
    · obtain ⟨rfl, hab⟩ := append_inj' heq rfl
      obtain rfl : a = b := by simpa using hab
      exact hready n hn hb
    · have heq' : out ++ [a] = (front ++ b :: back) ++ [c] := by simpa using heq
      exact h.sourced front b back (append_inj' heq' rfl).1 n hn hb

theorem Emitted.emitAll {ready : List α} (h : Emitted deps nodes out)
    (hnodup : (out ++ ready).Nodup) (hsub : ready ⊆ nodes)
    (hready : ∀ a ∈ ready, ∀ n ∈ nodes, a ∈ deps n → n ∈ out) :
    Emitted deps nodes (out ++ ready) := by
  induction ready generalizing out with
  | nil => simpa using h
  | cons a ready ih =>
    have hout : a ∉ out := by
      intro ha
      exact (nodup_append.mp hnodup).2.2 a ha a (by simp) rfl
    have hemit := h.emit (hsub (by simp)) hout (hready a (by simp))
    rw [append_cons] at hnodup ⊢
    refine ih hemit hnodup (fun b hb => hsub (mem_cons_of_mem a hb)) ?_
    intro b hb n hn hbn
    exact mem_append_left _ (hready b (mem_cons_of_mem a hb) n hn hbn)

/-- Without cycles some node is ready as long as not all are listed. -/
theorem Emitted.exists_ready (hacyclic : Acyclic fun n x => n ∈ nodes ∧ x ∈ deps n)
    (hrest : ∃ a ∈ nodes, a ∉ out) :
    ∃ a ∈ nodes, a ∉ out ∧ ∀ n ∈ nodes, a ∈ deps n → n ∈ out := by
  classical
  obtain ⟨rank, hrank⟩ := hacyclic.exists_rank nodes.toFinset
    fun n x hx => mem_toFinset.mpr hx.1
  -- a node of the highest rank among those left
  obtain ⟨a, hmem, hmax⟩ := Finset.exists_max_image (nodes.toFinset.filter (· ∉ out)) rank (by
    obtain ⟨a, ha, hout⟩ := hrest
    exact ⟨a, by simp [ha, hout]⟩)
  obtain ⟨ha, hout⟩ : a ∈ nodes ∧ a ∉ out := by simpa using hmem
  refine ⟨a, ha, hout, fun n hn han => ?_⟩
  by_contra hnout
  have hle : rank n ≤ rank a := hmax n (by simp [hn, hnout])
  exact absurd (hrank n a ⟨hn, han⟩) (not_lt.mpr hle)

theorem Emitted.ordered (h : Emitted deps nodes out) (hall : nodes ⊆ out)
    (hclosed : ∀ n ∈ nodes, ∀ b ∈ deps n, b ∈ nodes) : Ordered deps out := by
  intro front a back heq b hb
  have ha : a ∈ nodes := h.subset (by simp [heq])
  have hmem : b ∈ front ++ a :: back := heq ▸ hall (hclosed a ha b hb)
  have hnodup : (front ++ a :: back).Nodup := heq ▸ h.nodup
  have hafront : a ∉ front := fun hafront =>
    (nodup_append.mp hnodup).2.2 a hafront a (by simp) rfl
  rcases mem_append.mp hmem with hbfront | hbback
  · -- then `a` would come before `b`, in front of itself
    obtain ⟨front', back', rfl⟩ := append_of_mem hbfront
    have hfirst : a ∈ front' :=
      h.sourced front' b (back' ++ a :: back) (by simp [heq]) a ha hb
    exact absurd (mem_append_left _ hfirst) hafront
  · rcases mem_cons.mp hbback with rfl | hbback
    · exact absurd (h.sourced front b back heq b ha hb) hafront
    · exact hbback

end CrystaxNdk.Lib
