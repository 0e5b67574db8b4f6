import CrystaxNdk.Lib.Reach

/-!
# The order of a sort with a queue

When ready nodes wait in a queue, a sort of an acyclic graph lists its nodes in an order that can
be read off the graph. A path from the top node is given by the positions of its nodes among the
dependencies of the node before. Among the paths to a node take the longest ones, and of these the
greatest in lexicographic order: that is its `Key`, and the nodes are listed by their keys.

`Fifo` says this of the list so far and the queue, and `Fifo.pop` takes a node from the queue.
-/

namespace CrystaxNdk.Lib

open List

/-! ## Comparing paths -/

/-- Shorter paths come first, and those of one length in lexicographic order. -/
def shortlex (p : List Nat) : ℕ ×ₗ List ℕ := toLex (p.length, p)

section Shortlex

variable {p q : List Nat} {i j : Nat}

theorem shortlex_inj (h : shortlex p = shortlex q) : p = q :=
  congrArg (fun x => (ofLex x).2) h

theorem shortlex_lt_iff :
    shortlex p < shortlex q ↔ p.length < q.length ∨ p.length = q.length ∧ p < q := by
  simp [shortlex, Prod.Lex.toLex_lt_toLex]

theorem shortlex_lt_append : shortlex p < shortlex (p ++ [i]) := by
  simp [shortlex_lt_iff]

theorem append_singleton_lt (hlength : p.length = q.length) (hpq : p < q) :
    p ++ [i] < q ++ [j] := by
  induction p generalizing q with
  | nil =>
    have hnil : q = [] := by simpa using hlength.symm
    exact absurd hpq (by simp [hnil])
  | cons a p ih =>
    cases q with
    | nil => simp at hlength
    | cons b q =>
      rw [cons_lt_cons_iff] at hpq
      rw [cons_append, cons_append, cons_lt_cons_iff]
      rcases hpq with hab | ⟨hab, hpq⟩
      · exact Or.inl hab
      · exact Or.inr ⟨hab, ih (by simpa using hlength) hpq⟩

theorem shortlex_append_lt (h : shortlex p < shortlex q) :
    shortlex (p ++ [i]) < shortlex (q ++ [j]) := by
  rw [shortlex_lt_iff] at h ⊢
  rcases h with hlength | ⟨hlength, hpq⟩
  · exact Or.inl (by simpa using hlength)
  · exact Or.inr ⟨by simpa using hlength, append_singleton_lt hlength hpq⟩

theorem shortlex_append_lt_iff : shortlex (p ++ [i]) < shortlex (p ++ [j]) ↔ i < j := by
  have hlex : p ++ [i] < p ++ [j] ↔ i < j := by
    induction p with
    | nil => simp [cons_lt_cons_iff]
    | cons a p ih => simpa [cons_lt_cons_iff] using ih
  rw [shortlex_lt_iff, hlex]
  simp

end Shortlex

/-! ## Paths and keys -/

section Paths

variable {α : Type*} {deps : α → List α} {top a b : α} {p q : List Nat}

/-- The positions `p` lead from the top node to a node. -/
inductive Leads (deps : α → List α) (top : α) : List Nat → α → Prop
  | start : Leads deps top [] top
  | step {p : List Nat} {n x : α} {i : Nat} (h : Leads deps top p n) (hx : (deps n)[i]? = some x) :
      Leads deps top (p ++ [i]) x

theorem Leads.reached (h : Leads deps top p a) : Reached deps [top] a := by
  induction h with
  | start => exact ⟨top, mem_singleton_self top, Relation.ReflTransGen.refl⟩
  | step _ hx ih => exact ih.tail (mem_of_getElem? hx)

/-- The greatest of the paths to `a`. -/
structure Key (deps : α → List α) (top a : α) (p : List Nat) : Prop where
  leads : Leads deps top p a
  greatest : ∀ q, Leads deps top q a → shortlex q ≤ shortlex p

/-- Some path to `b` is greater than all paths to `a`. -/
def Before (deps : α → List α) (top a b : α) : Prop :=
  ∃ q, Leads deps top q b ∧ ∀ p, Leads deps top p a → shortlex p < shortlex q

theorem Key.before (ha : Key deps top a p) (hb : Key deps top b q)
    (hpq : shortlex p < shortlex q) : Before deps top a b :=
  ⟨q, hb.leads, fun r hr => (ha.greatest r hr).trans_lt hpq⟩

theorem Before.asymm (hab : Before deps top a b) : ¬ Before deps top b a := by
  rintro ⟨q, hq, hgreater⟩
  obtain ⟨r, hr, hgreater'⟩ := hab
  exact lt_asymm (hgreater r hr) (hgreater' q hq)

end Paths

/-! ## The queue -/

section Queue

variable {α : Type*} {deps : α → List α} {top n : α} {list queue ready : List α}
  {kl kq : List (List Nat)} {k : List Nat} {idx : List Nat}

/-- `x` is at the position `i`, and not behind it. -/
def LastAt (ds : List α) (i : Nat) (x : α) : Prop :=
  ds[i]? = some x ∧ ∀ j, ds[j]? = some x → j ≤ i

/-- The nodes that are released come in the order of their last positions. -/
theorem exists_lastAt_released [DecidableEq α] {count : α → Nat} {ds : List α}
    (h : ∀ x, ds.count x ≤ count x) :
    ∃ idx : List Nat, idx.Pairwise (· < ·) ∧ List.Forall₂ (LastAt ds) idx (released count ds) := by
  induction ds generalizing count with
  | nil => exact ⟨[], List.Pairwise.nil, by simp [released]⟩
  | cons d ds ih =>
    obtain ⟨idx, hidx, hlast⟩ := ih (count_le_update h)
    have hshift : List.Forall₂ (LastAt (d :: ds)) (idx.map (· + 1))
        (released (Function.update count d (count d - 1)) ds) := by
      rw [forall₂_map_left_iff]
      refine hlast.imp fun i x hix => ⟨by simpa using hix.1, fun j hj => ?_⟩
      cases j with
      | zero => exact Nat.zero_le _
      | succ j => exact Nat.succ_le_succ (hix.2 j (by simpa using hj))
    have hgrow : (idx.map (· + 1)).Pairwise (· < ·) :=
      hidx.map _ fun _ _ hlt => Nat.succ_lt_succ hlt
    rw [released]
    split_ifs with hone
    · -- `d` does not come again
      refine ⟨0 :: idx.map (· + 1), pairwise_cons.mpr ⟨by simp, hgrow⟩,
        List.Forall₂.cons ⟨rfl, fun j hj => ?_⟩ hshift⟩
      have hd : d ∉ ds := by
        intro hmem
        have hpos := count_pos_iff.mpr hmem
        have hle := h d
        rw [count_cons_self, hone] at hle
        omega
      cases j with
      | zero => exact le_rfl
      | succ j => exact absurd (mem_of_getElem? (by simpa using hj)) hd
    · exact ⟨_, hgrow, hshift⟩

theorem exists_mem_of_forall₂ {β : Type*} {R : α → β → Prop} {l : List α} {l' : List β}
    (h : List.Forall₂ R l l') {a : α} (ha : a ∈ l) : ∃ b ∈ l', R a b := by
  induction h with
  | nil => exact absurd ha not_mem_nil
  | cons hab _ ih =>
    rcases mem_cons.mp ha with rfl | ha
    · exact ⟨_, mem_cons_self, hab⟩
    · obtain ⟨b, hb, hab⟩ := ih ha
      exact ⟨b, mem_cons_of_mem _ hb, hab⟩

/-- The keys of what is listed and of what waits: they grow, and the nodes in the queue are
    dependencies of listed ones. -/
structure Fifo (deps : α → List α) (top : α) (list queue : List α) (kl kq : List (List Nat)) :
    Prop where
  listed : List.Forall₂ (Key deps top) list kl
  waiting : List.Forall₂ (Key deps top) queue kq
  increasing : (kl ++ kq).Pairwise (shortlex · < shortlex ·)
  origin : ∀ q ∈ kq, q = [] ∨ ∃ p ∈ kl, ∃ i, q = p ++ [i]

theorem fifo_start (h : ∀ m, Reached deps [top] m → top ∉ deps m) :
    Fifo deps top [] [top] [] [[]] where
  listed := List.Forall₂.nil
  waiting := by
    refine List.Forall₂.cons ⟨Leads.start, fun q hq => ?_⟩ List.Forall₂.nil
    cases hq with
    | start => exact le_rfl
    | step hm hx => exact absurd (mem_of_getElem? hx) (h _ hm.reached)
  increasing := by simp
  origin := by simp

/-- A node that is released by the one that was just taken has its key from there. -/
theorem Fifo.key (h : Fifo deps top list (n :: queue) kl (k :: kq)) {x : α} {i : Nat}
    (hx : LastAt (deps n) i x)
    (hsource : ∀ m, Reached deps [top] m → x ∈ deps m → m ∈ list ++ [n]) :
    Key deps top x (k ++ [i]) := by
  have hk : Key deps top n k := (forall₂_cons.mp h.waiting).1
  refine ⟨hk.leads.step hx.1, fun q hq => ?_⟩
  cases hq with
  | start => exact le_of_lt (by simp [shortlex_lt_iff])
  | @step p m _ j hp hj =>
    rcases mem_append.mp (hsource m hp.reached (mem_of_getElem? hj)) with hm | hm
    · obtain ⟨k', hk', hkey⟩ := exists_mem_of_forall₂ h.listed hm
      have hlt : shortlex k' < shortlex k :=
        (pairwise_append.mp h.increasing).2.2 k' hk' k mem_cons_self
      exact (shortlex_append_lt ((hkey.greatest p hp).trans_lt hlt)).le
    · obtain rfl := mem_singleton.mp hm
      rcases (hk.greatest p hp).lt_or_eq with hlt | heq
      · exact (shortlex_append_lt hlt).le
      · rw [shortlex_inj heq]
        exact not_lt.mp fun hlt => absurd (shortlex_append_lt_iff.mp hlt) (not_lt.mpr (hx.2 j hj))

/-- The first node of the queue is taken, and those it releases are put at its end. -/
theorem Fifo.pop (h : Fifo deps top list (n :: queue) kl (k :: kq))
    (hidx : idx.Pairwise (· < ·)) (hlast : List.Forall₂ (LastAt (deps n)) idx ready)
    (hsource : ∀ x ∈ ready, ∀ m, Reached deps [top] m → x ∈ deps m → m ∈ list ++ [n]) :
    Fifo deps top (list ++ [n]) (queue ++ ready) (kl ++ [k])
      (kq ++ idx.map fun i => k ++ [i]) := by
  obtain ⟨hk, hqueue⟩ := forall₂_cons.mp h.waiting
  have hold := h.increasing
  rw [append_cons] at hold
  have hbelow : ∀ p ∈ kl, shortlex p < shortlex k := fun p hp =>
    (pairwise_append.mp h.increasing).2.2 p hp k mem_cons_self
  refine ⟨?_, ?_, ?_, ?_⟩
  · exact rel_append h.listed (List.Forall₂.cons hk List.Forall₂.nil)
  · have hready := (forall₂_and_left ready idx).mpr ⟨hsource, hlast.flip⟩
    refine rel_append hqueue (forall₂_map_right_iff.mpr (hready.imp ?_))
    intro x i hx
    exact h.key hx.2 hx.1
  · -- new keys are longer than the key of `n`, and come after those of its successors
    rw [← append_assoc, pairwise_append]
    refine ⟨hold, hidx.map _ fun _ _ hlt => shortlex_append_lt_iff.mpr hlt, ?_⟩
    intro p hp q hq
    obtain ⟨i, -, rfl⟩ := mem_map.mp hq
    rcases mem_append.mp hp with hp | hp
    · rcases mem_append.mp hp with hp | hp
      · exact (hbelow p hp).trans shortlex_lt_append
      · rw [mem_singleton.mp hp]
        exact shortlex_lt_append
    · rcases h.origin p (mem_cons_of_mem k hp) with rfl | ⟨r, hr, j, rfl⟩
      · simp [shortlex_lt_iff]
      · exact shortlex_append_lt (hbelow r hr)
  · intro q hq
    rcases mem_append.mp hq with hq | hq
    · rcases h.origin q (mem_cons_of_mem k hq) with hnil | ⟨p, hp, i, hqi⟩
      · exact Or.inl hnil
      · exact Or.inr ⟨p, mem_append_left _ hp, i, hqi⟩
    · obtain ⟨i, -, rfl⟩ := mem_map.mp hq
      exact Or.inr ⟨k, by simp, i, rfl⟩

/-- When the queue is empty, the list is in the order of the keys. -/
theorem Fifo.pairwise (h : Fifo deps top list queue kl kq) : list.Pairwise (Before deps top) := by
  have hkeys := (pairwise_append.mp h.increasing).1
  have hlisted := h.listed
  clear h
  induction hlisted with
  | nil => exact List.Pairwise.nil
  | cons hkey hrest ih =>
    rw [pairwise_cons] at hkeys ⊢
    refine ⟨fun b hb => ?_, ih hkeys.2⟩
    obtain ⟨q, hq, hbq⟩ := exists_mem_of_forall₂ hrest hb
    exact hkey.before hbq (hkeys.1 q hq)

end Queue

end CrystaxNdk.Lib
