import CrystaxNdk.Lib.Topo
import CrystaxNdk.Lib.Linked

/-!
# Exploring a graph with a work queue

Nodes are taken from the front of a queue, and what they depend on is put at its end, unless it
has been in the queue before. `Explored` is what holds between two rounds: `done` are the nodes
that were taken and `queue` those that wait. `Explored.visit` is one round and `Explored.mem_iff`
the end of it all. `Pending` is the same for a loop that puts everything into the queue, and
`Pending.rule` an induction over its rounds. That is about which nodes are found; the last part is
about the order they are taken in, which is that of a breadth-first search.
-/

namespace CrystaxNdk.Lib

open Relation List

variable {α : Type*}

def Reached (deps : α → List α) (seeds : List α) (b : α) : Prop :=
  ∃ a ∈ seeds, ReflTransGen (DependsOn deps) a b

theorem Reached.tail {deps : α → List α} {seeds : List α} {n d : α} (h : Reached deps seeds n)
    (hd : d ∈ deps n) : Reached deps seeds d := by
  obtain ⟨r, hr, hrn⟩ := h
  exact ⟨r, hr, ReflTransGen.tail hrn hd⟩

theorem mem_of_dependsOn {deps : α → List α} {seeds all : List α}
    (hmem : ∀ n, n ∈ all ↔ Reached deps seeds n) {n d : α} (hn : n ∈ all) (hd : d ∈ deps n) :
    d ∈ all :=
  (hmem d).mpr (((hmem n).mp hn).tail hd)

@[simp] theorem reached_singleton {deps : α → List α} {a b : α} :
    Reached deps [a] b ↔ ReflTransGen (DependsOn deps) a b := by
  simp [Reached]

section Unseen

variable [DecidableEq α] {seen ds : List α} {x : α}

/-- Those of `ds` that were not seen yet, each of them once. -/
def unseen : List α → List α → List α
  | _, [] => []
  | seen, d :: ds => if d ∈ seen then unseen seen ds else d :: unseen (seen ++ [d]) ds

theorem mem_unseen : x ∈ unseen seen ds ↔ x ∈ ds ∧ x ∉ seen := by
  induction ds generalizing seen with
  | nil => simp [unseen]
  | cons d ds ih =>
    by_cases hd : d ∈ seen
    · rw [unseen, if_pos hd, ih, mem_cons]
      constructor
      · exact fun h => ⟨Or.inr h.1, h.2⟩
      · rintro ⟨rfl | hx, hseen⟩
        · exact absurd hd hseen
        · exact ⟨hx, hseen⟩
    · rw [unseen, if_neg hd, mem_cons, ih]
      by_cases hx : x = d
      · simp [hx, hd]
      · simp [hx]

theorem nodup_unseen : (unseen seen ds).Nodup := by
  induction ds generalizing seen with
  | nil => simp [unseen]
  | cons d ds ih =>
    rw [unseen]
    split_ifs with hd
    · exact ih
    · rw [nodup_cons, mem_unseen]
      exact ⟨by simp, ih⟩

end Unseen

structure Explored (deps : α → List α) (seeds done queue : List α) : Prop where
  nodup : (done ++ queue).Nodup
  seeded : ∀ a ∈ seeds, a ∈ done ++ queue
  closed : ∀ n ∈ done, ∀ d ∈ deps n, d ∈ done ++ queue
  reached : ∀ n ∈ done ++ queue, Reached deps seeds n

variable {deps : α → List α} {seeds done queue : List α} {a : α}

theorem explored_start (h : seeds.Nodup) : Explored deps seeds [] seeds where
  nodup := h
  seeded := fun _ ha => ha
  closed := by simp
  reached := fun n hn => ⟨n, hn, ReflTransGen.refl⟩

theorem Explored.visit [DecidableEq α] (h : Explored deps seeds done (a :: queue)) :
    Explored deps seeds (done ++ [a])
      (queue ++ unseen (done ++ [a] ++ queue) (deps a)) where
  nodup := by
    have hold : (done ++ [a] ++ queue).Nodup := by simpa using h.nodup
    rw [← append_assoc, nodup_append]
    refine ⟨hold, nodup_unseen, ?_⟩
    rintro x hx y hy rfl
    exact (mem_unseen.mp hy).2 hx
  seeded := by
    intro r hr
    have hmem := h.seeded r hr
    simp only [mem_append, mem_cons, not_mem_nil, or_false] at hmem ⊢
    tauto
  closed := by
    intro n hn d hd
    rw [← append_assoc, mem_append]
    by_cases hseen : d ∈ done ++ [a] ++ queue
    · exact Or.inl hseen
    · rcases mem_append.mp hn with hn | hn
      · have hmem := h.closed n hn d hd
        exact absurd (by simpa using hmem) hseen
      · rw [mem_singleton.mp hn] at hd
        exact Or.inr (mem_unseen.mpr ⟨hd, hseen⟩)
  reached := by
    intro n hn
    rw [← append_assoc, mem_append] at hn
    rcases hn with hn | hn
    · exact h.reached n (by simpa using hn)
    · exact (h.reached a (by simp)).tail (mem_unseen.mp hn).1

/-- When the queue is empty, what is done is what can be reached. -/
theorem Explored.mem_iff (h : Explored deps seeds done []) {n : α} :
    n ∈ done ↔ Reached deps seeds n := by
  constructor
  · intro hn
    exact h.reached n (by simpa using hn)
  · rintro ⟨r, hr, hrn⟩
    induction hrn with
    | refl => simpa using h.seeded r hr
    | tail _ hbc ih => simpa using h.closed _ ih _ hbc

/-- If finitely many nodes are depended on at all, finitely many are reached. -/
theorem finite_reached_of_finite_range (hfinite : {d | ∃ n, d ∈ deps n}.Finite) (seeds : List α) :
    {n | Reached deps seeds n}.Finite := by
  refine Set.Finite.subset ((finite_toSet seeds).union hfinite) ?_
  rintro n ⟨r, hr, hrn⟩
  rcases ReflTransGen.cases_tail hrn with rfl | ⟨m, -, hmn⟩
  · exact Or.inl hr
  · exact Or.inr ⟨m, hmn⟩

/-- In a graph with finitely many edges finitely many nodes are reached. -/
theorem finite_reached (hfinite : {n | deps n ≠ []}.Finite) (seeds : List α) :
    {n | Reached deps seeds n}.Finite := by
  refine finite_reached_of_finite_range ?_ seeds
  refine Set.Finite.subset (hfinite.biUnion fun m _ => finite_toSet (deps m)) ?_
  rintro d ⟨m, hd⟩
  exact Set.mem_biUnion (x := m) (ne_nil_of_mem hd) hd

theorem finite_lookup [DecidableEq α] (edges : List (α × List α)) :
    {n | (edges.lookup n).getD [] ≠ []}.Finite := by
  refine Set.Finite.subset (finite_toSet (edges.map Prod.fst)) ?_
  intro n hn
  by_contra hmem
  have hnone : edges.lookup n = none := by
    rw [lookup_eq_none_iff]
    intro edge hedge
    simp only [bne_iff_ne]
    rintro rfl
    exact hmem (mem_map_of_mem hedge)
  exact hn (by rw [hnone]; rfl)

theorem Explored.length_le (h : Explored deps seeds done queue) {univ : Finset α}
    (huniv : ∀ n, Reached deps seeds n → n ∈ univ) : done.length + queue.length ≤ univ.card := by
  classical
  rw [← length_append, ← toFinset_card_of_nodup h.nodup]
  exact Finset.card_le_card fun n hn => huniv n (h.reached n (mem_toFinset.mp hn))

/-! ## Queues with repetitions -/

/-- An exploration that queues everything a node depends on, and skips what is done when it comes to
    it. -/
structure Pending (deps : α → List α) (seeds : List α) (done : Set α) (queue : List α) : Prop where
  seeded : ∀ a ∈ seeds, a ∈ done ∨ a ∈ queue
  closed : ∀ n ∈ done, ∀ d ∈ deps n, d ∈ done ∨ d ∈ queue
  reached : ∀ n, n ∈ done ∨ n ∈ queue → Reached deps seeds n

namespace Pending

variable {done : Set α}

theorem start : Pending deps seeds ∅ seeds where
  seeded := fun _ ha => Or.inr ha
  closed := fun _ hn => absurd hn (Set.notMem_empty _)
  reached := fun n hn => ⟨n, hn.resolve_left (Set.notMem_empty n), ReflTransGen.refl⟩

theorem skip (h : Pending deps seeds done (a :: queue)) (ha : a ∈ done) :
    Pending deps seeds done queue := by
  have hdrop : ∀ n, n ∈ done ∨ n ∈ a :: queue → n ∈ done ∨ n ∈ queue := by
    rintro n (hn | hn)
    · exact Or.inl hn
    · rcases mem_cons.mp hn with rfl | hn
      · exact Or.inl ha
      · exact Or.inr hn
  exact ⟨fun b hb => hdrop b (h.seeded b hb), fun n hn d hd => hdrop d (h.closed n hn d hd),
    fun n hn => h.reached n (hn.imp_right (mem_cons_of_mem a))⟩

theorem take (h : Pending deps seeds done (a :: queue)) :
    Pending deps seeds (insert a done) (queue ++ deps a) := by
  have hmove : ∀ n, n ∈ done ∨ n ∈ a :: queue → n ∈ insert a done ∨ n ∈ queue ++ deps a := by
    rintro n (hn | hn)
    · exact Or.inl (Set.mem_insert_of_mem a hn)
    · rcases mem_cons.mp hn with rfl | hn
      · exact Or.inl (Set.mem_insert n done)
      · exact Or.inr (mem_append_left _ hn)
  have ha : Reached deps seeds a := h.reached a (Or.inr mem_cons_self)
  refine ⟨fun b hb => hmove b (h.seeded b hb), ?_, ?_⟩
  · rintro n (rfl | hn) d hd
    · exact Or.inr (mem_append_right _ hd)
    · exact hmove d (h.closed n hn d hd)
  · rintro n ((rfl | hn) | hn)
    · exact ha
    · exact h.reached n (Or.inl hn)
    · rcases mem_append.mp hn with hn | hn
      · exact h.reached n (Or.inr (mem_cons_of_mem a hn))
      · exact ha.tail hn

theorem mem_iff (h : Pending deps seeds done []) {n : α} : n ∈ done ↔ Reached deps seeds n := by
  constructor
  · exact fun hn => h.reached n (Or.inl hn)
  · rintro ⟨r, hr, hrn⟩
    induction hrn with
    | refl => exact (h.seeded r hr).resolve_right not_mem_nil
    | tail _ hbc ih => exact (h.closed _ ih _ hbc).resolve_right not_mem_nil

/-- The rule for such a loop. A round either shortens the queue or leaves fewer nodes to be done, of
    the finitely many that are reached. -/
theorem rule {motive : Set α → List α → Prop} (hfinite : {n | Reached deps seeds n}.Finite)
    (hend : ∀ done, Pending deps seeds done [] → motive done [])
    (hskip : ∀ done a queue, a ∈ done → motive done queue → motive done (a :: queue))
    (htake : ∀ done a queue, a ∉ done → motive (insert a done) (queue ++ deps a) →
      motive done (a :: queue))
    (h : Pending deps seeds done queue) : motive done queue := by
  induction hleft : ({n | Reached deps seeds n} \ done).ncard using Nat.strong_induction_on
    generalizing done queue with
  | _ left ih =>
    induction queue with
    | nil => exact hend done h
    | cons a queue ihqueue =>
      by_cases ha : a ∈ done
      · exact hskip done a queue ha (ihqueue (h.skip ha))
      · refine htake done a queue ha (ih _ ?_ h.take rfl)
        rw [← hleft]
        refine Set.ncard_lt_ncard ⟨?_, ?_⟩ (hfinite.subset Set.sdiff_subset)
        · exact Set.sdiff_subset_sdiff_right (Set.subset_insert a done)
        · intro hsub
          have hmem := hsub ⟨h.reached a (Or.inr mem_cons_self), ha⟩
          exact hmem.2 (Set.mem_insert a done)

end Pending

/-!
## Breadth-first search

The order of a breadth-first search is given by layers: the nodes it starts with, then what these
depend on, then what those do, each node where it is met first. `workQueue` is the program: nodes
are taken from the front of a queue, and what they depend on is put at its end unless it is in the
visited set, to which it is then added. The node the search starts from need not be in that set;
if it is met again it is queued once more. The order in which nodes are taken is the layered one,
but for that (`layered_eq_filter`).
-/

variable {α : Type*} [DecidableEq α] {seen ds : List α} {a x : α}

/-! ### What was not seen -/

theorem unseen_append (seen xs ys : List α) :
    unseen seen (xs ++ ys) = unseen seen xs ++ unseen (seen ++ unseen seen xs) ys := by
  induction xs generalizing seen with
  | nil => simp [unseen]
  | cons x xs ih =>
    rw [cons_append, unseen, unseen]
    split
    next => exact ih seen
    next => rw [ih, cons_append, append_assoc, singleton_append]

theorem unseen_eq_nil (h : ds ⊆ seen) : unseen seen ds = [] := by
  rw [eq_nil_iff_forall_not_mem]
  intro x hx
  obtain ⟨hmem, hnot⟩ := mem_unseen.mp hx
  exact hnot (h hmem)

/-- It makes no difference, but for `a` itself, whether `a` was seen. -/
theorem filter_unseen {seen' : List α} (ha : a ∈ seen)
    (hseen : ∀ x, x ≠ a → (x ∈ seen ↔ x ∈ seen')) :
    (unseen seen' ds).filter (· ≠ a) = unseen seen ds := by
  induction ds generalizing seen seen' with
  | nil => rfl
  | cons d ds ih =>
    rw [unseen, unseen]
    by_cases hd : d = a
    · subst hd
      rw [if_pos ha]
      by_cases hd' : d ∈ seen'
      · rw [if_pos hd']
        exact ih ha hseen
      · rw [if_neg hd', filter_cons_of_neg (by simp)]
        refine ih ha fun x hx => ?_
        rw [hseen x hx]
        simp [hx]
    · by_cases hd' : d ∈ seen'
      · rw [if_pos hd', if_pos ((hseen d hd).mpr hd')]
        exact ih ha hseen
      · rw [if_neg hd', if_neg fun h => hd' ((hseen d hd).mp h),
          filter_cons_of_pos (by simpa using hd)]
        congr 1
        refine ih (mem_append_left _ ha) fun x hx => ?_
        rw [mem_append, mem_append, hseen x hx]

/-- A node may be left out of a layer if all that it depends on was seen. -/
theorem unseen_flatMap_filter {deps : α → List α} (ha : deps a ⊆ seen) (layer : List α) :
    unseen seen ((layer.filter (· ≠ a)).flatMap deps) = unseen seen (layer.flatMap deps) := by
  induction layer generalizing seen with
  | nil => rfl
  | cons x layer ih =>
    rw [flatMap_cons, unseen_append]
    by_cases hx : x = a
    · rw [hx, filter_cons_of_neg (by simp), unseen_eq_nil ha]
      simpa using ih ha
    · rw [filter_cons_of_pos (by simpa using hx), flatMap_cons, unseen_append]
      rw [ih (subset_append_of_subset_left _ ha)]

/-! ### Layers -/

/-- `k` layers, one after the other, if `layer` is the first and `seen` were met before the
    second. -/
def layered (deps : α → List α) : Nat → List α → List α → List α
  | 0, _, _ => []
  | k + 1, seen, layer =>
    let next := unseen seen (layer.flatMap deps)
    layer ++ layered deps k (seen ++ next) next

@[simp] theorem layered_nil (deps : α → List α) (k : Nat) (seen : List α) :
    layered deps k seen [] = [] := by
  induction k generalizing seen with
  | zero => rfl
  | succ k ih =>
    rw [layered, flatMap_nil, unseen]
    exact ih _

/-- A node whose dependencies were seen before it is met again changes nothing but the place where
    it is. -/
theorem layered_eq_filter {deps : α → List α} {seen' : List α} (ha : a ∈ seen)
    (hseen : ∀ x, x ≠ a → (x ∈ seen ↔ x ∈ seen')) (hdeps : deps a ⊆ seen) (k : Nat)
    (layer : List α) :
    layered deps k seen (layer.filter (· ≠ a)) =
      (layered deps k seen' layer).filter (· ≠ a) := by
  induction k generalizing seen seen' layer with
  | zero => rfl
  | succ k ih =>
    rw [layered, layered, filter_append]
    simp only [unseen_flatMap_filter hdeps, ← filter_unseen ha hseen]
    congr 1
    refine ih (mem_append_left _ ha) ?_ (subset_append_of_subset_left _ hdeps) _
    intro x hx
    rw [mem_append, mem_append, hseen x hx]
    simp [hx]

/-- Met again or not: `start` comes first, and the others in the order in which they come when
    `start` was not marked as seen. -/
theorem layered_start (deps : α → List α) (start : α) (k : Nat) :
    ∃ rest, layered deps (k + 1) [] [start] = start :: rest ∧
      layered deps (k + 1) [start] [start] = start :: rest.filter (· ≠ start) := by
  refine ⟨_, rfl, ?_⟩
  have hseen : ∀ x, x ≠ start → (x ∈ [start] ↔ x ∈ ([] : List α)) := by
    intro x hx
    simp [hx]
  rw [layered]
  simp only [flatMap_singleton, singleton_append, nil_append]
  rw [← filter_unseen (mem_singleton_self start) hseen]
  congr 1
  refine layered_eq_filter (mem_cons_self ..) ?_ ?_ k _
  · intro x hx
    simp [hx]
  · intro d hd
    by_cases hstart : d = start
    · simp [hstart]
    · simp [mem_unseen, hd, hstart]

theorem findSome?_cons_filter {β : Type*} (f : α → Option β) (a : α) (l : List α) :
    (a :: l.filter (· ≠ a)).findSome? f = (a :: l).findSome? f := by
  rw [findSome?_cons, findSome?_cons]
  cases ha : f a with
  | some b => rfl
  | none =>
    induction l with
    | nil => rfl
    | cons x l ih =>
      by_cases hx : x = a
      · rw [filter_cons_of_neg (by simpa using hx), findSome?_cons, hx, ha]
        exact ih
      · rw [filter_cons_of_pos (by simpa using hx), findSome?_cons, findSome?_cons]
        simp only at ih
        rw [ih]

/-! ### The queue -/

section Queue

variable {σ : Type*} {deps : α → List α}

/-- Take nodes from the queue until a visit ends it or none is left; `none` when the fuel is used
    up. -/
def workQueue (deps : α → List α) (visit : σ → α → σ × Bool) :
    Nat → σ → List α → List α → Option σ
  | 0, _, _, _ => none
  | _ + 1, s, [], _ => some s
  | fuel + 1, s, x :: queue, visited =>
    let next := unseen visited (deps x)
    if (visit s x).2 then some (visit s x).1
    else workQueue deps visit fuel (visit s x).1 (queue ++ next) (visited ++ next)

/-- Without a visit that ends it the nodes are taken in this order, to the last. -/
inductive Drains (deps : α → List α) : List α → List α → List α → Prop
  | done (visited : List α) : Drains deps [] visited []
  | pop {x : α} {queue visited order : List α}
      (h : Drains deps (queue ++ unseen visited (deps x)) (visited ++ unseen visited (deps x))
        order) : Drains deps (x :: queue) visited (x :: order)

theorem Drains.workQueue_eq {queue visited order : List α} (h : Drains deps queue visited order)
    (visit : σ → α → σ × Bool) (s : σ) {fuel : Nat} (hfuel : order.length < fuel) :
    workQueue deps visit fuel s queue visited = some (visitAll visit s order) := by
  induction h generalizing s fuel with
  | done visited =>
    obtain ⟨fuel, rfl⟩ := Nat.exists_eq_add_of_lt hfuel
    rfl
  | pop h ih =>
    cases fuel with
    | zero => exact absurd hfuel (Nat.not_lt_zero _)
    | succ fuel =>
      rw [workQueue, visitAll, ih _ (Nat.lt_of_succ_lt_succ hfuel), apply_ite some]

/-- A layer at the front of the queue is taken as a whole. -/
theorem Drains.layer {xs queue visited order : List α}
    (h : Drains deps (queue ++ unseen visited (xs.flatMap deps))
      (visited ++ unseen visited (xs.flatMap deps)) order) :
    Drains deps (xs ++ queue) visited (xs ++ order) := by
  induction xs generalizing queue visited with
  | nil => simpa [unseen] using h
  | cons x xs ih =>
    rw [cons_append, cons_append]
    refine Drains.pop ?_
    rw [append_assoc]
    apply ih
    rw [flatMap_cons, unseen_append] at h
    simpa using h

/-- In a finite graph the queue is drained, layer after layer. -/
theorem drains_layered {all : List α} (hdeps : ∀ x, deps x ⊆ all) {seen : List α}
    (hnodup : seen.Nodup) (hseen : seen ⊆ all) {k : Nat} (hk : all.length < seen.length + k)
    (layer : List α) : Drains deps layer seen (layered deps k seen layer) ∧
      (layered deps k seen layer).length + seen.length ≤ layer.length + all.length := by
  -- `k` bounds the layers that can still bring new nodes
  induction k generalizing seen layer with
  | zero => exact absurd (hnodup.subperm hseen).length_le (Nat.not_le_of_lt hk)
  | succ k ih =>
    set next := unseen seen (layer.flatMap deps) with hnext
    have hsub : next ⊆ all := by
      intro x hx
      obtain ⟨y, -, hy⟩ := mem_flatMap.mp (mem_unseen.mp hx).1
      exact hdeps y hy
    have hnodup' : (seen ++ next).Nodup := by
      refine nodup_append.mpr ⟨hnodup, nodup_unseen, ?_⟩
      rintro x hx y hy rfl
      exact (mem_unseen.mp hy).2 hx
    have hseen' : seen ++ next ⊆ all := append_subset.mpr ⟨hseen, hsub⟩
    have hrest : Drains deps next (seen ++ next) (layered deps k (seen ++ next) next) ∧
        (layered deps k (seen ++ next) next).length + (seen ++ next).length ≤
          next.length + all.length := by
      by_cases hnil : next = []
      · rw [hnil, layered_nil, append_nil]
        refine ⟨Drains.done _, ?_⟩
        simpa using (hnodup.subperm hseen).length_le
      · have hpos := length_pos_iff.mpr hnil
        exact ih hnodup' hseen' (by rw [length_append]; omega) next
    rw [layered, ← hnext]
    constructor
    · have hlayer : Drains deps (layer ++ []) seen
          (layer ++ layered deps k (seen ++ next) next) := Drains.layer hrest.1
      rwa [append_nil] at hlayer
    · have hlength := hrest.2
      rw [length_append] at hlength ⊢
      omega

/-- If every node is in the visited set when it is queued, an exploration is finished. -/
theorem Drains.explored {seeds done queue order : List α}
    (h : Drains deps queue (done ++ queue) order) (hexp : Explored deps seeds done queue) :
    Explored deps seeds (done ++ order) [] := by
  generalize hvisited : done ++ queue = visited at h
  induction h generalizing done with
  | done visited => rwa [append_nil]
  | @pop x queue visited order h ih =>
    subst hvisited
    have hassoc : done ++ x :: queue = done ++ [x] ++ queue := by simp
    have hnext := ih (hassoc ▸ hexp.visit) (by rw [hassoc, append_assoc _ queue])
    simpa using hnext

end Queue

end CrystaxNdk.Lib
