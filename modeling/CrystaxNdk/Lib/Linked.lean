import Mathlib

/-!
# Intrusive doubly linked lists

The links live in the nodes, one function from nodes per pointer field. `Linked next prev p h l`
says that following `next` from `h` visits the nodes `l` and ends, and that `prev` leads back,
to `p` from the first of them. `Visits` is the half of it that a loop along `next` depends on, and
`follow` is such a loop. `Linked.linkFront` and `Linked.unlink` are the two pointer
exercises, with the assignments in the order C code makes them: they amount to `List.cons` and
`List.erase`.
-/

namespace CrystaxNdk.Lib

open List Function

variable {ι : Type*}

/-- The nodes `l`, from `h` on, with `p` in front of them. -/
def Linked (next prev : ι → Option ι) : Option ι → Option ι → List ι → Prop
  | _, h, [] => h = none
  | p, h, x :: xs => h = some x ∧ prev x = p ∧ Linked next prev (some x) (next x) xs

variable {next prev next' prev' : ι → Option ι} {p h : Option ι} {x y : ι} {l : List ι}

theorem Linked.congr (hl : Linked next prev p h l) (hnext : ∀ x ∈ l, next' x = next x)
    (hprev : ∀ x ∈ l, prev' x = prev x) : Linked next' prev' p h l := by
  induction l generalizing p h with
  | nil => exact hl
  | cons x xs ih =>
    obtain ⟨hh, hp, hrest⟩ := hl
    refine ⟨hh, (hprev x (by simp)).trans hp, ?_⟩
    rw [hnext x (by simp)]
    exact ih hrest (fun y hy => hnext y (by simp [hy])) fun y hy => hprev y (by simp [hy])

theorem Linked.head_eq (hl : Linked next prev p h l) : h = l.head? := by
  cases l with
  | nil => exact hl
  | cons x xs => exact hl.1

variable {front back : List ι}

theorem Linked.prev_mem (hl : Linked next prev p h (front ++ x :: back)) :
    prev x = p ∧ front = [] ∨ ∃ y ∈ front, prev x = some y := by
  induction front generalizing p h with
  | nil => exact Or.inl ⟨hl.2.1, rfl⟩
  | cons z zs ih =>
    rcases ih hl.2.2 with ⟨hx, rfl⟩ | ⟨y, hy, hx⟩
    · exact Or.inr ⟨z, by simp, hx⟩
    · exact Or.inr ⟨y, by simp [hy], hx⟩

theorem Linked.prev_eq (hl : Linked next prev p h (front ++ x :: back)) :
    prev x = front.getLast?.or p := by
  induction front generalizing p h with
  | nil => exact hl.2.1
  | cons z zs ih =>
    rw [ih hl.2.2]
    cases zs with
    | nil => rfl
    | cons y ys => simp [getLast?_cons]

theorem Linked.next_eq (hl : Linked next prev p h (front ++ x :: back)) :
    next x = back.head? := by
  induction front generalizing p h with
  | nil => exact hl.2.2.head_eq
  | cons z zs ih => exact ih hl.2.2

theorem Linked.next_ne (hl : Linked next prev p h l) (hx : x ∈ l) (hy : y ∉ l) :
    next x ≠ some y := by
  obtain ⟨front, back, rfl⟩ := append_of_mem hx
  rw [hl.next_eq]
  exact fun hback => hy (by simp [mem_of_mem_head? hback])

theorem Linked.prev_ne (hl : Linked next prev none h l) (hx : x ∈ l) (hy : y ∉ l) :
    prev x ≠ some y := by
  obtain ⟨front, back, rfl⟩ := append_of_mem hx
  rw [hl.prev_eq, Option.or_none]
  exact fun hlast => hy (mem_append_left _ (mem_of_getLast? hlast))

theorem Linked.prev_ne_self (hl : Linked next prev none h l) (hnd : l.Nodup) (hx : x ∈ l) :
    prev x ≠ some x := by
  obtain ⟨front, back, rfl⟩ := append_of_mem hx
  rw [hl.prev_eq, Option.or_none]
  exact fun hlast => (nodup_append.mp hnd).2.2 x (mem_of_getLast? hlast) x (by simp) rfl

/-! ## Going through the list -/

/-- Following `next` from `h` visits the nodes `l` and ends. -/
def Visits (next : ι → Option ι) : Option ι → List ι → Prop
  | h, [] => h = none
  | h, x :: xs => h = some x ∧ Visits next (next x) xs

theorem Linked.visits (hl : Linked next prev p h l) : Visits next h l := by
  induction l generalizing p h with
  | nil => exact hl
  | cons x xs ih => exact ⟨hl.1, ih hl.2.2⟩

theorem Visits.unique {l' : List ι} (hl : Visits next h l) (hl' : Visits next h l') : l = l' := by
  induction l generalizing h l' with
  | nil =>
    cases l' with
    | nil => rfl
    | cons y ys =>
      have hnone : h = none := hl
      rw [hnone] at hl'
      cases hl'.1
  | cons x xs ih =>
    obtain ⟨rfl, hxs⟩ := hl
    cases l' with
    | nil => cases hl'
    | cons y ys =>
      obtain ⟨heq, hys⟩ := hl'
      cases heq
      rw [ih hxs hys]

variable {P : ι → Prop}

theorem exists_visits (rank : ι → Nat)
    (hstep : ∀ x y, P x → next x = some y → P y ∧ rank y < rank x) (hh : ∀ x, h = some x → P x) :
    ∃ l, Visits next h l := by
  cases h with
  | none => exact ⟨[], rfl⟩
  | some x =>
    have hx := hh x rfl
    induction hn : rank x using Nat.strong_induction_on generalizing x with
    | _ n ih =>
      cases hnext : next x with
      | none => exact ⟨[x], rfl, hnext⟩
      | some y =>
        obtain ⟨hy, hlt⟩ := hstep x y hx hnext
        obtain ⟨l, hl⟩ := ih (rank y) (hn ▸ hlt) y (fun z hz => Option.some.inj hz ▸ hy) hy rfl
        exact ⟨x :: l, rfl, hnext ▸ hl⟩

theorem Visits.mem_of_reach (hl : Visits next (some x) l)
    (hreach : Relation.ReflTransGen (fun a b => next a = some b) x y) : y ∈ l := by
  induction hreach using Relation.ReflTransGen.head_induction_on generalizing l with
  | refl =>
    cases l with
    | nil => cases hl
    | cons z zs => exact Option.some.inj hl.1 ▸ mem_cons_self
  | head hnext _ ih =>
    cases l with
    | nil => cases hl
    | cons z zs =>
      obtain ⟨heq, hzs⟩ := hl
      cases heq
      rw [hnext] at hzs
      exact mem_cons_of_mem _ (ih hzs)

/-- What is closed under `next` holds of everything that is visited. -/
theorem Visits.forall_mem (hl : Visits next h l) (hh : ∀ x, h = some x → P x)
    (hstep : ∀ x y, P x → next x = some y → P y) : ∀ x ∈ l, P x := by
  induction l generalizing h with
  | nil => exact fun x hx => absurd hx not_mem_nil
  | cons z zs ih =>
    have hz := hh z hl.1
    intro x hx
    rcases mem_cons.mp hx with rfl | hx
    · exact hz
    · exact ih hl.2 (fun y hy => hstep z y hz hy) x hx

/-- A list along which a number decreases does not come back to a node. -/
theorem Visits.nodup (rank : ι → Nat) (hstep : ∀ x y, P x → next x = some y → P y ∧ rank y < rank x)
    (hh : ∀ x, h = some x → P x) (hl : Visits next h l) : l.Nodup := by
  induction l generalizing h with
  | nil => exact nodup_nil
  | cons x xs ih =>
    have hx := hh x hl.1
    have hbelow : ∀ y ∈ xs, P y ∧ rank y < rank x := by
      refine hl.2.forall_mem (fun y hy => hstep x y hx hy) fun y z hy hyz => ?_
      obtain ⟨hz, hlt⟩ := hstep y z hy.1 hyz
      exact ⟨hz, hlt.trans hy.2⟩
    refine nodup_cons.mpr ⟨fun hmem => (hbelow x hmem).2.ne rfl, ?_⟩
    exact ih (fun y hy => (hstep x y hx hy).1) hl.2

section Follow

variable {σ : Type*}

/-- Follow `next`, with a visit at each node that may end it; `none` when the fuel is used up. -/
def follow (next : ι → Option ι) (visit : σ → ι → σ × Bool) : Nat → σ → Option ι → Option σ
  | 0, _, _ => none
  | _ + 1, s, none => some s
  | fuel + 1, s, some x =>
    if (visit s x).2 then some (visit s x).1 else follow next visit fuel (visit s x).1 (next x)

def visitAll (visit : σ → ι → σ × Bool) : σ → List ι → σ
  | s, [] => s
  | s, x :: xs => if (visit s x).2 then (visit s x).1 else visitAll visit (visit s x).1 xs

theorem Visits.follow_eq (hl : Visits next h l) (visit : σ → ι → σ × Bool) (s : σ)
    {fuel : Nat} (hfuel : l.length < fuel) :
    follow next visit fuel s h = some (visitAll visit s l) := by
  induction l generalizing h s fuel with
  | nil =>
    obtain ⟨fuel, rfl⟩ := Nat.exists_eq_add_of_lt hfuel
    rw [hl]
    rfl
  | cons x xs ih =>
    obtain ⟨rfl, hrest⟩ := hl
    cases fuel with
    | zero => exact absurd hfuel (Nat.not_lt_zero _)
    | succ fuel =>
      rw [follow, visitAll, ih hrest _ (Nat.lt_of_succ_lt_succ hfuel), apply_ite some]

theorem visitAll_search (test : ι → Bool) (f : ι → σ) (found : Option σ) (l : List ι) :
    visitAll (fun found x => if test x then (some (f x), true) else (found, false)) found l =
      ((l.find? test).map f).or found := by
  induction l generalizing found with
  | nil => rfl
  | cons x xs ih =>
    rw [visitAll]
    cases htest : test x with
    | true => simp [find?_cons_of_pos htest]
    | false =>
      rw [find?_cons_of_neg (by simp [htest])]
      simpa using ih found

end Follow

/-! ## Changing the links -/

variable [DecidableEq ι]

/-- Assign through a pointer, when there is one. -/
def assign (f : ι → Option ι) (at? : Option ι) (value : Option ι) : ι → Option ι :=
  match at? with
  | none => f
  | some x => update f x value

theorem assign_of_ne (f : ι → Option ι) {at? : Option ι} (value : Option ι)
    (hx : at? ≠ some x) : assign f at? value x = f x := by
  cases at? with
  | none => rfl
  | some z => exact update_of_ne (fun hxz => hx (by rw [hxz])) _ _

theorem assign_self (f : ι → Option ι) (value : Option ι) :
    assign f (some x) value x = value := update_self _ _ _

/-- A change of the node in front is a change of one `prev`. -/
theorem Linked.relink (hl : Linked next prev p h l) (hnd : l.Nodup) (q : Option ι) :
    Linked next (assign prev h q) q h l := by
  cases l with
  | nil => exact hl
  | cons x xs =>
    obtain ⟨rfl, _, hrest⟩ := hl
    refine ⟨rfl, assign_self _ _, ?_⟩
    refine hrest.congr (fun _ _ => rfl) fun y hy => assign_of_ne _ _ ?_
    intro hxy
    rw [Option.some.inj hxy] at hnd
    exact (nodup_cons.mp hnd).1 hy

theorem Linked.linkFront (hl : Linked next prev none h l) (hnd : l.Nodup) (hx : x ∉ l) :
    Linked (update next x h) (assign (update prev x none) h (some x))
      none (some x) (x :: l) := by
  have hne : ∀ y ∈ l, y ≠ x := fun y hy hyx => hx (hyx ▸ hy)
  have hhead : h ≠ some x := by
    rw [hl.head_eq]
    exact fun hx' => hx (mem_of_mem_head? hx')
  refine ⟨rfl, ?_, ?_⟩
  · rw [assign_of_ne _ _ hhead, update_self]
  · rw [update_self]
    refine Linked.relink (hl.congr (fun y hy => ?_) fun y hy => ?_) hnd (some x)
    · exact update_of_ne (hne y hy) _ _
    · exact update_of_ne (hne y hy) _ _

theorem Linked.linkAfter (hl : Linked next prev p h (front ++ x :: back))
    (hnd : (front ++ x :: back).Nodup) (hy : y ∉ front ++ x :: back) :
    Linked (update (update next y (next x)) x (some y))
      (assign (update prev y (some x)) (next x) (some y)) p h
      (front ++ x :: y :: back) := by
  induction front generalizing p h with
  | nil =>
    obtain ⟨rfl, hprev, hrest⟩ := hl
    simp only [nil_append, mem_cons, not_or] at hy
    obtain ⟨hx, hback⟩ := nodup_cons.mp hnd
    have hhead : ∀ z, z ∉ back → next x ≠ some z := by
      intro z hz heq
      rw [hrest.head_eq] at heq
      exact hz (mem_of_mem_head? heq)
    refine ⟨rfl, ?_, ?_⟩
    · rw [assign_of_ne _ _ (hhead x hx), update_of_ne (Ne.symm hy.1), hprev]
    · rw [update_self]
      refine ⟨rfl, ?_, ?_⟩
      · rw [assign_of_ne _ _ (hhead y hy.2), update_self]
      · rw [update_of_ne hy.1, update_self]
        refine Linked.relink (hrest.congr (fun z hz => ?_) fun z hz => ?_) hback (some y)
        · rw [update_of_ne (ne_of_mem_of_not_mem hz hx),
            update_of_ne (ne_of_mem_of_not_mem hz hy.2)]
        · exact update_of_ne (ne_of_mem_of_not_mem hz hy.2) _ _
  | cons z zs ih =>
    obtain ⟨rfl, hprev, hrest⟩ := hl
    obtain ⟨hz, htail⟩ := nodup_cons.mp hnd
    simp only [cons_append, mem_cons, not_or] at hy
    have hzx : z ≠ x := fun heq => hz (by simp [heq])
    have hnext : next x ≠ some z := by
      rw [hrest.next_eq]
      exact fun hback => hz (by simp [mem_of_mem_head? hback])
    refine ⟨rfl, ?_, ?_⟩
    · rw [assign_of_ne _ _ hnext, update_of_ne (Ne.symm hy.1), hprev]
    · rw [update_of_ne hzx, update_of_ne (Ne.symm hy.1)]
      exact ih hrest htail hy.2

/-- The links around `x` after it was taken out; the entry moves on when it was `x`. -/
theorem Linked.bypass (hl : Linked next prev p h (front ++ x :: back))
    (hnd : (front ++ x :: back).Nodup) (hp : ∀ y, p = some y → y ∉ front ++ x :: back) :
    Linked (assign next (prev x) (next x)) (assign prev (next x) (prev x)) p
      (if front = [] then next x else h) (front ++ back) := by
  induction front generalizing p h with
  | nil =>
    obtain ⟨_, hprev, hrest⟩ := hl
    rw [if_pos rfl, nil_append, hprev]
    have hback : back.Nodup := (nodup_cons.mp hnd).2
    refine (hrest.relink hback p).congr (fun y hy => ?_) fun _ _ => rfl
    exact assign_of_ne _ _ fun hpy => hp y hpy (by simp [hy])
  | cons z zs ih =>
    obtain ⟨rfl, hprev, hrest⟩ := hl
    have hz : z ∉ zs ++ x :: back := (nodup_cons.mp hnd).1
    have htail : (zs ++ x :: back).Nodup := (nodup_cons.mp hnd).2
    have hih := ih hrest htail (by rintro y hy; rw [← Option.some.inj hy]; exact hz)
    have hnext : next x ≠ some z := by
      rw [hrest.next_eq]
      exact fun hback => hz (by simp [mem_of_mem_head? hback])
    rw [if_neg (by simp)]
    refine ⟨rfl, (assign_of_ne _ _ hnext).trans hprev, ?_⟩
    -- the `next` of `z` changes exactly when `z` stands right before `x`
    rcases hrest.prev_mem with ⟨hx, rfl⟩ | ⟨y, hy, hx⟩
    · rw [hx, assign_self]
      rw [hx, if_pos rfl] at hih
      exact hih
    · have hzs : zs ≠ [] := ne_nil_of_mem hy
      rw [if_neg hzs] at hih
      have hyz : prev x ≠ some z := by
        rw [hx]
        exact fun hyz => hz (by rw [← Option.some.inj hyz]; simp [hy])
      rw [assign_of_ne _ _ hyz]
      exact hih

/-- Taking a node out: the neighbours are linked to each other, and the entry moves on when the
    node was the first one. -/
theorem Linked.unlink (hl : Linked next prev none h l) (hnd : l.Nodup) (hx : x ∈ l) :
    let prev' := assign prev (next x) (prev x)
    let next' := assign next (prev' x) (next x)
    Linked next' prev' none (if h = some x then next' x else h) (l.erase x) := by
  intro prev' next'
  obtain ⟨front, back, rfl⟩ := append_of_mem hx
  obtain ⟨_, hback, hdisj⟩ := nodup_append.mp hnd
  have hfront : x ∉ front := fun hmem => hdisj x hmem x (by simp) rfl
  have hnext : next x ≠ some x := by
    rw [hl.next_eq]
    exact fun hx' => (nodup_cons.mp hback).1 (mem_of_mem_head? hx')
  have hprev : prev x ≠ some x := by
    rcases hl.prev_mem with ⟨hnone, _⟩ | ⟨y, hy, hsome⟩
    · rw [hnone]
      exact fun hx' => (by cases hx')
    · rw [hsome]
      exact fun hyx => hfront (Option.some.inj hyx ▸ hy)
  have hprev' : prev' x = prev x := assign_of_ne _ _ hnext
  have hnext' : next' x = next x := by
    show assign next (prev' x) (next x) x = next x
    rw [hprev', assign_of_ne _ _ hprev]
  have hhead : (if h = some x then next' x else h) = if front = [] then next x else h := by
    rw [hnext', hl.head_eq]
    cases front with
    | nil => simp
    | cons z zs => simp [show z ≠ x from fun hzx => hfront (by simp [hzx])]
  rw [hhead, erase_append_right _ hfront, erase_cons_head]
  show Linked (assign next (prev' x) (next x)) prev' none _ _
  rw [hprev']
  exact hl.bypass hnd (fun y hy => (by cases hy))

end CrystaxNdk.Lib
