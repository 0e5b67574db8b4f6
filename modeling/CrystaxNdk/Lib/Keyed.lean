import Mathlib

/-!
# Tables of records with a key

A table is a list of records that have a key each, the way a vector of pointers to objects is:
the key is the address, and what is stored behind it can change while the address stays. Two
operations change a table in place: `modifyKey` rewrites the record behind a key and
`removeKey` drops it. The lemmas say what they do to membership, to other attributes of the
records and to sums over the table. What records often have is a resource of their own; `Owned`, at
the end, is about that.
-/

namespace CrystaxNdk.Lib

open List

variable {α κ β : Type*} [DecidableEq κ]

/-- Rewrite the records stored behind the key `k`. -/
def modifyKey (key : α → κ) (k : κ) (f : α → α) (l : List α) : List α :=
  l.map fun x => if key x = k then f x else x

/-- Drop the first record stored behind the key `k`. -/
def removeKey (key : α → κ) (k : κ) (l : List α) : List α :=
  l.eraseP fun x => key x = k

variable {key : α → κ} {k : κ} {f : α → α} {l : List α}

/-! ## Membership -/

theorem mem_modifyKey {y : α} :
    y ∈ modifyKey key k f l ↔ ∃ x ∈ l, (if key x = k then f x else x) = y :=
  mem_map

theorem mem_modifyKey_self {x : α} (hx : x ∈ l) (hk : key x = k) :
    f x ∈ modifyKey key k f l :=
  mem_modifyKey.mpr ⟨x, hx, if_pos hk⟩

theorem mem_modifyKey_of_ne {x : α} (hx : x ∈ l) (hk : key x ≠ k) :
    x ∈ modifyKey key k f l :=
  mem_modifyKey.mpr ⟨x, hx, if_neg hk⟩

theorem mem_of_mem_modifyKey {x : α} (hx : x ∈ modifyKey key k f l) (hk : key x ≠ k)
    (hf : ∀ y, key (f y) = key y) : x ∈ l := by
  obtain ⟨y, hy, rfl⟩ := mem_modifyKey.mp hx
  by_cases hyk : key y = k
  · rw [if_pos hyk, hf] at hk
    exact absurd hyk hk
  · rw [if_neg hyk]
    exact hy

/-- An attribute that `f` leaves alone is left alone by the table operation. -/
theorem map_modifyKey {g : α → β} (hg : ∀ x, g (f x) = g x) :
    (modifyKey key k f l).map g = l.map g := by
  rw [modifyKey, map_map]
  refine map_congr_left fun x _ => ?_
  by_cases hx : key x = k
  · simp [hx, hg]
  · simp [hx]

theorem removeKey_sublist : (removeKey key k l).Sublist l := eraseP_sublist

theorem mem_removeKey_of_ne {x : α} (hx : x ∈ l) (hk : key x ≠ k) :
    x ∈ removeKey key k l :=
  (mem_eraseP_of_neg (by simpa using hk)).mpr hx

/-- In a table with unique keys, removing one is keeping the others. -/
theorem removeKey_eq_filter (hl : (l.map key).Nodup) :
    removeKey key k l = l.filter fun x => key x ≠ k := by
  induction l with
  | nil => rfl
  | cons y ys ih =>
    rw [map_cons, nodup_cons] at hl
    by_cases hy : key y = k
    · have hys : ∀ x ∈ ys, key x ≠ k := fun x hx hxk =>
        hl.1 (mem_map.mpr ⟨x, hx, hxk.trans hy.symm⟩)
      rw [removeKey, eraseP_cons_of_pos (by simpa using hy),
        filter_cons_of_neg (by simpa using hy)]
      exact (filter_eq_self.mpr fun x hx => by simpa using hys x hx).symm
    · rw [removeKey, eraseP_cons_of_neg (by simpa using hy),
        filter_cons_of_pos (by simpa using hy), ← ih hl.2, removeKey]

theorem modifyKey_of_forall_ne (h : ∀ x ∈ l, key x ≠ k) : modifyKey key k f l = l := by
  rw [modifyKey]
  conv_rhs => rw [← map_id l]
  exact map_congr_left fun x hx => if_neg (h x hx)

theorem removeKey_modifyKey (hl : (l.map key).Nodup) (hf : ∀ x, key (f x) = key x) :
    removeKey key k (modifyKey key k f l) = removeKey key k l := by
  have hmap : ((modifyKey key k f l).map key).Nodup := by
    rwa [map_modifyKey hf]
  rw [removeKey_eq_filter hmap, removeKey_eq_filter hl, modifyKey, filter_map]
  have hkey : ∀ x, key (if key x = k then f x else x) = key x := by
    intro x
    split
    · exact hf x
    · rfl
  have hfilter : (fun x => decide (key x ≠ k)) ∘ (fun x => if key x = k then f x else x) =
      fun x => decide (key x ≠ k) := by
    funext x
    simp only [Function.comp_apply, hkey]
  rw [hfilter]
  conv_rhs => rw [← map_id (l.filter fun x => decide (key x ≠ k))]
  refine map_congr_left fun x hx => if_neg ?_
  simpa using (mem_filter.mp hx).2

/-! ## Sums -/

section Sums

variable {M : Type*} [AddCommMonoid M] {g : α → M}

theorem sum_modifyKey (hl : (l.map key).Nodup) {x : α} (hx : x ∈ l) (hk : key x = k) :
    ((modifyKey key k f l).map g).sum + g x = (l.map g).sum + g (f x) := by
  induction l with
  | nil => simp at hx
  | cons y ys ih =>
    rw [map_cons, nodup_cons] at hl
    rcases mem_cons.mp hx with rfl | hx
    · -- the other keys differ, so the tail stays as it is
      have htail : modifyKey key k f ys = ys := by
        refine modifyKey_of_forall_ne fun z hz hzk => hl.1 ?_
        exact mem_map.mpr ⟨z, hz, hzk.trans hk.symm⟩
      have hhead : modifyKey key k f (x :: ys) = f x :: modifyKey key k f ys := by
        simp [modifyKey, hk]
      rw [hhead, htail, map_cons, map_cons, sum_cons, sum_cons]
      abel
    · have hy : key y ≠ k := fun hyk =>
        hl.1 (mem_map.mpr ⟨x, hx, hk.trans hyk.symm⟩)
      have hhead : modifyKey key k f (y :: ys) = y :: modifyKey key k f ys := by
        simp [modifyKey, hy]
      rw [hhead, map_cons, map_cons, sum_cons, sum_cons, add_assoc,
        ih hl.2 hx, add_assoc]

theorem sum_removeKey (hl : (l.map key).Nodup) {x : α} (hx : x ∈ l) (hk : key x = k) :
    ((removeKey key k l).map g).sum + g x = (l.map g).sum := by
  induction l with
  | nil => simp at hx
  | cons y ys ih =>
    rw [map_cons, nodup_cons] at hl
    rcases mem_cons.mp hx with rfl | hx
    · rw [removeKey, eraseP_cons_of_pos (by simpa using hk), map_cons, sum_cons,
        add_comm]
    · have hy : key y ≠ k := fun hyk =>
        hl.1 (mem_map.mpr ⟨x, hx, hk.trans hyk.symm⟩)
      rw [removeKey, eraseP_cons_of_neg (by simpa using hy), map_cons, map_cons,
        sum_cons, sum_cons, add_assoc]
      rw [show (ys.eraseP fun x => key x = k) = removeKey key k ys from rfl, ih hl.2 hx]

end Sums

/-!
## Resources and who holds them

Some things hold resources that are open, and no two hold the same one. A resource that is open but
held by nobody can be taken by a holder, or closed; one that a holder lets go is held by nobody.
-/

variable {η ρ : Type*} {holds holds' : η → Option ρ} {isOpen isOpen' : ρ → Prop} {r : ρ} {x : η}

/-- What is held is open, and has one holder. -/
structure Owned (holds : η → Option ρ) (isOpen : ρ → Prop) : Prop where
  isOpen : ∀ x r, holds x = some r → isOpen r
  unique : ∀ x y r, holds x = some r → holds y = some r → x = y

def Unheld (holds : η → Option ρ) (r : ρ) : Prop := ∀ x, holds x ≠ some r

theorem Owned.unheld_of_not_open (h : Owned holds isOpen) (hr : ¬isOpen r) : Unheld holds r :=
  fun x hx => hr (h.isOpen x r hx)

theorem Owned.mono (h : Owned holds isOpen)
    (hmono : ∀ y r, holds' y = some r → holds y = some r ∧ isOpen' r) : Owned holds' isOpen' where
  isOpen := fun y r hy => (hmono y r hy).2
  unique := fun y z r hy hz => h.unique y z r (hmono y r hy).1 (hmono z r hz).1

theorem Unheld.mono (h : Unheld holds r) (hmono : ∀ y r, holds' y = some r → holds y = some r) :
    Unheld holds' r :=
  fun y hy => h y (hmono y r hy)

theorem Owned.unheld_of_release (h : Owned holds isOpen) (hx : holds x = some r)
    (hrelease : ∀ y r, holds' y = some r → holds y = some r ∧ y ≠ x) : Unheld holds' r := by
  intro y hy
  obtain ⟨hbefore, hne⟩ := hrelease y r hy
  exact hne (h.unique y x r hbefore hx)

/-- A holder takes a resource that nobody holds, and leaves what it held. -/
theorem Owned.take (h : Owned holds isOpen) (hr : Unheld holds r) (hopen : isOpen' r)
    (hkeep : ∀ y r', holds y = some r' → isOpen' r') (hx : ∀ r', holds' x = some r' → r' = r)
    (hother : ∀ y r', y ≠ x → holds' y = some r' → holds y = some r') : Owned holds' isOpen' where
  isOpen := by
    intro y r' hy
    rcases eq_or_ne y x with rfl | hne
    · rwa [hx r' hy]
    · exact hkeep y r' (hother y r' hne hy)
  unique := by
    intro y z r' hy hz
    rcases eq_or_ne y x with rfl | hyx
    · rcases eq_or_ne z y with rfl | hzx
      · rfl
      · have hz' := hother z r' hzx hz
        rw [hx r' hy] at hz'
        exact absurd hz' (hr z)
    · have hy' := hother y r' hyx hy
      rcases eq_or_ne z x with rfl | hzx
      · rw [hx r' hz] at hy'
        exact absurd hy' (hr y)
      · exact h.unique y z r' hy' (hother z r' hzx hz)

end CrystaxNdk.Lib
