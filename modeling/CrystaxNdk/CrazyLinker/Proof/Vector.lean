import CrystaxNdk.CrazyLinker.Vector
import CrystaxNdk.Lib.Runs

/-!
# The containers against sequences and sets

A vector represents a list that its block begins with. `Room` ties the block to `capacity_`: it has
the items that `capacity_ * sizeof(T)` bytes are, which are fewer than `capacity_` once the product
wraps. A call refines the operation on lists exactly when what it leaves fits into that block.
-/

namespace CrystaxNdk.CrazyLinker

open Lib List

variable {α : Type}

/-! ## Numbers of items -/

namespace Items

variable {T : Items α} {n m : Nat}

theorem sizeT_of_lt (h : n < 2 ^ 32) : T.sizeT n = n := by
  refine Nat.mod_eq_of_lt (h.trans_le (Nat.pow_le_pow_right (by decide) ?_))
  cases T.arch <;> decide

theorem cells_le (n : Nat) : T.cells n ≤ n :=
  Nat.div_le_of_le_mul ((Nat.mod_le _ _).trans_eq (Nat.mul_comm _ _))

/-- The bytes of items that are in a block do not wrap. -/
theorem cells_of_le (h : n ≤ T.cells m) : T.cells n = n := by
  have hbytes := (Nat.le_div_iff_mul_le T.size_pos).mp h
  have hlt : T.sizeT (m * T.size) < 2 ^ (8 * T.arch.wordBytes) := Nat.mod_lt _ (Nat.two_pow_pos _)
  rw [cells, sizeT, Nat.mod_eq_of_lt (hbytes.trans_lt hlt), Nat.mul_div_cancel n T.size_pos]

end Items

theorem toInt_of_lt {n : Nat} (h : n < 2 ^ 31) : toInt n = n := by
  rw [toInt]
  omega

/-! ## The block -/

section Block

variable {items items' : List (Option α)} {l : List α} {dst src n : Nat} {x : α}

theorem length_realloc : (realloc items n).length = n := by
  simp only [realloc, length_append, length_take, length_replicate]
  omega

theorem prefix_realloc (h : l.map some <+: items) (hn : l.length ≤ n) :
    l.map some <+: realloc items n := by
  obtain ⟨rest, rfl⟩ := h
  rw [realloc, take_append, take_of_length_le (by simpa using hn), append_assoc]
  exact prefix_append _ _

theorem length_store {new : List (Option α)} (h : store items dst new = some items') :
    items'.length = items.length := by
  rw [store] at h
  split at h
  next hrange =>
    obtain rfl := Option.some.inj h
    obtain rfl | hrange := hrange
    · simp [blit]
    · exact length_blit hrange
  next => cases h

theorem length_memmove (h : memmove items dst src n = some items') :
    items'.length = items.length := by
  rw [memmove] at h
  split at h
  · exact length_store h
  · cases h

theorem take_of_prefix (h : l.map some <+: items) (hn : n ≤ l.length) :
    items.take n = (l.take n).map some := by
  obtain ⟨rest, rfl⟩ := h
  rw [take_append_of_le_length (by simpa using hn), map_take]

theorem store_of_prefix {new : List α} (h : l.map some <+: items) (hdst : dst ≤ l.length)
    (hroom : dst + new.length ≤ items.length) :
    ∃ items', store items dst (new.map some) = some items' ∧
      (l.take dst ++ new).map some <+: items' := by
  refine ⟨_, if_pos (Or.inr (by rwa [length_map])), ?_⟩
  rw [blit, take_of_prefix h hdst, ← map_append]
  exact prefix_append _ _

theorem drop_take_of_prefix (h : l.map some <+: items) :
    (items.drop src).take (l.length - src) = (l.drop src).map some := by
  obtain ⟨rest, rfl⟩ := h
  rw [drop_append, map_drop]
  exact take_left' (by simp)

theorem readItem_of_prefix (h : l.map some <+: items) (hn : n < l.length) :
    readItem items n = l[n]? := by
  obtain ⟨rest, rfl⟩ := h
  rw [readItem, getElem?_append_left (by simpa using hn)]
  simp [getElem?_eq_getElem hn]

/-- The items from `n` on move by one, and `x` is written in front of them. -/
theorem writeItem_blit (h : l.map some <+: items) (hn : n ≤ l.length)
    (hroom : l.length < items.length) (x : α) :
    ∃ items', writeItem (blit items (n + 1) ((l.drop n).map some)) n x = some items' ∧
      (l.take n ++ x :: l.drop n).map some <+: items' := by
  have hlength : (items.take (n + 1)).length = n + 1 := length_take_of_le (by omega)
  refine ⟨_, if_pos (Or.inr ?_), ?_⟩
  · rw [blit, append_assoc, length_append, hlength]
    exact Nat.le_add_right _ _
  · rw [blit, blit, append_assoc (items.take (n + 1)), length_singleton,
      drop_left' hlength, take_append_of_le_length (by omega), take_take,
      min_eq_left (by omega), take_of_prefix h hn, append_assoc, singleton_append,
      ← cons_append, ← append_assoc, map_append, map_cons]
    exact prefix_append _ _

theorem memmove_left (h : l.map some <+: items) (hn : n < l.length) :
    ∃ items', memmove items n (n + 1) (l.length - n - 1) = some items' ∧
      (l.eraseIdx n).map some <+: items' := by
  have hle := h.length_le
  rw [length_map] at hle
  rw [memmove, if_pos (by omega), Nat.sub_sub, drop_take_of_prefix h,
    eraseIdx_eq_take_drop_succ]
  exact store_of_prefix h hn.le (by rw [length_drop]; omega)

theorem memset_right (h : l.map some <+: items) (hn : l.length + n ≤ items.length) (zero : α) :
    ∃ items', memset items l.length n zero = some items' ∧
      (l ++ List.replicate n zero).map some <+: items' := by
  have hstore := store_of_prefix h le_rfl
    (show l.length + (List.replicate n zero).length ≤ _ by simpa using hn)
  rwa [map_replicate, take_length] at hstore

end Block

/-! ## The specification -/

namespace Vector

variable (T : Items α)

/-- A block that begins with the list, of which the vector knows the length; what is outside of the
    block is never accessed, so neither is what is not below `capacity_`. -/
structure Represents (v : Vector α) (l : List α) : Prop where
  count : v.count = l.length
  cells : l.map some <+: v.items
  count_le : v.count ≤ v.capacity
  cells_le : v.items.length ≤ v.capacity

/-- The operations on lists; there is nothing to pop from the empty list. -/
def spec [DecidableEq α] (l : List α) : Op α → Option (List α × Output α)
  | .pushBack item => some (l ++ [item], .nothing)
  | .insertAt index item =>
    let n := min index.toNat l.length
    some (l.take n ++ item :: l.drop n, .nothing)
  | .removeAt index => some (if index < 0 then l else l.eraseIdx index.toNat, .nothing)
  | .popFirst => l.head?.map fun item => (l.tail, .item item)
  | .popLast => l.getLast?.map fun item => (l.dropLast, .item item)
  | .resize newSize =>
    some (l.take newSize ++ List.replicate (newSize - l.length) T.zero, .nothing)
  | .indexOf item => some (l, .index (if item ∈ l then l.idxOf item else -1))

def grown (capacity count : Nat) : Nat :=
  if capacity ≤ count then T.sizeT (capacity + capacity / 2 + 4) else capacity

def capacityAfter (capacity : Nat) (l : List α) : Op α → Nat
  | .pushBack _ | .insertAt _ _ => grown T capacity l.length
  | .resize newSize => max capacity newSize
  | _ => capacity

def Enough (capacity : Nat) (l : List α) : Prop := l.length ≤ T.cells capacity

def Room (v : Vector α) : Prop := v.items.length = T.cells v.capacity

/-! ## One call -/

variable {T} {v v' : Vector α} {l l' : List α} {x : α} {index : Int} {n : Nat}

theorem Represents.enough (h : Represents v l) (hroom : Room T v) : Enough T v.capacity l := by
  have hle := h.cells.length_le
  rwa [length_map, hroom] at hle

theorem represents_of_room (hroom : Room T v) (hcount : v.count = l.length)
    (hcells : l.map some <+: v.items) : Represents v l where
  count := hcount
  cells := hcells
  count_le := by
    have hle := hcells.length_le
    rw [length_map, hroom] at hle
    exact hcount.trans_le (hle.trans (T.cells_le _))
  cells_le := hroom.trans_le (T.cells_le _)

theorem room_reserve : Room T (v.reserve T n) := length_realloc

theorem Represents.reserve (h : Represents v l) (hn : Enough T n l) :
    Represents (v.reserve T n) l := by
  refine represents_of_room room_reserve ?_ (prefix_realloc h.cells hn)
  rw [Vector.reserve, if_neg (not_lt.mpr (h.count.trans_le (hn.trans (T.cells_le n))))]
  exact h.count

/-- Where a call may grow the block first: it leaves a block for `capacity`, with the list `l'` in
    it if that fits. -/
structure Grows (T : Items α) (capacity : Nat) (l' : List α) (r : Option (Vector α)) : Prop where
  room : ∀ v', r = some v' → Room T v' ∧ v'.capacity = capacity
  fits : Enough T capacity l' → ∃ v', r = some v' ∧ Represents v' l'

theorem place_room (hroom : Room T v) (h : v.place T n x = some v') :
    Room T v' ∧ v'.capacity = v.capacity := by
  rw [place] at h
  obtain ⟨items, hmove, h⟩ := Option.bind_eq_some_iff.mp h
  obtain ⟨items', hwrite, h⟩ := Option.bind_eq_some_iff.mp h
  obtain rfl := Option.some.inj h
  refine ⟨(length_store hwrite).trans (Eq.trans ?_ hroom), rfl⟩
  split at hmove
  · exact congrArg List.length (Option.some.inj hmove).symm
  · exact length_memmove hmove

theorem place_spec (hroom : Room T v) (h : Represents v l) (hlen : l.length + 1 < 2 ^ 31)
    (hfits : l.length + 1 ≤ v.items.length) (n : Nat) (x : α) :
    ∃ v', v.place T n x = some v' ∧ Represents v'
      (l.take (min n l.length) ++ x :: l.drop (min n l.length)) := by
  have hmove : (if v.count < n then some v.items
      else memmove v.items (n + 1) n (T.cells (v.count - n))) =
      some (blit v.items (min n l.length + 1) ((l.drop (min n l.length)).map some)) := by
    rw [h.count]
    split
    next hn => simp [blit, min_eq_right hn.le]
    next hn =>
      have hcells : T.cells (l.length - n) = l.length - n :=
        T.cells_of_le (m := v.capacity) (by rw [← hroom]; omega)
      rw [memmove, hcells, if_pos (by omega), drop_take_of_prefix h.cells,
        min_eq_left (not_lt.mp hn)]
      exact if_pos (Or.inr (by simp only [length_map, length_drop]; omega))
  have hplace : (if v.count < n then v.count else n) = min n l.length := by
    rw [h.count]
    split <;> omega
  have hk : min n l.length ≤ l.length := min_le_right _ _
  generalize min n l.length = k at hmove hplace hk
  obtain ⟨items', hwrite, hcells⟩ := writeItem_blit h.cells hk hfits x
  have hplaced :
      v.place T n x = some { v with items := items', count := T.sizeT (v.count + 1) } := by
    rw [place, hmove, hplace, Option.bind_eq_bind, Option.bind_some, hwrite]
    rfl
  refine ⟨_, hplaced, represents_of_room (place_room hroom hplaced).1 ?_ hcells⟩
  rw [h.count, T.sizeT_of_lt (by omega)]
  simp only [length_append, length_cons, length_take, length_drop]
  omega

theorem fill_room (hroom : Room T v) (h : v.fill T n = some v') :
    Room T v' ∧ v'.capacity = v.capacity := by
  rw [fill] at h
  obtain ⟨items, hset, h⟩ := Option.bind_eq_some_iff.mp h
  obtain rfl := Option.some.inj h
  refine ⟨Eq.trans ?_ hroom, rfl⟩
  split at hset
  · exact length_store hset
  · exact congrArg List.length (Option.some.inj hset).symm

theorem fill_spec (hroom : Room T v) (h : Represents v l) (hfits : n ≤ v.items.length) :
    ∃ v', v.fill T n = some v' ∧
      Represents v' (l.take n ++ List.replicate (n - l.length) T.zero) := by
  have hset : ∃ items, (if v.count < n then memset v.items v.count (T.cells (n - v.count)) T.zero
      else some v.items) = some items ∧
      (l.take n ++ List.replicate (n - l.length) T.zero).map some <+: items := by
    rw [h.count]
    split
    next hn =>
      have hcells : T.cells (n - l.length) = n - l.length :=
        T.cells_of_le (m := v.capacity) (by rw [← hroom]; omega)
      rw [hcells, take_of_length_le hn.le]
      exact memset_right h.cells (by omega) T.zero
    next hn =>
      refine ⟨_, rfl, ?_⟩
      rw [Nat.sub_eq_zero_of_le (not_lt.mp hn), replicate_zero, append_nil]
      exact ((l.take_prefix n).map some).trans h.cells
  obtain ⟨items, hset, hcells⟩ := hset
  have hfilled : v.fill T n = some { v with items, count := n } := by
    rw [fill, hset]
    rfl
  refine ⟨_, hfilled, represents_of_room (fill_room hroom hfilled).1 ?_ hcells⟩
  simp only [length_append, length_take, length_replicate]
  omega

/-- A call that grows the block first if `full`, and then uses `f`. -/
theorem grows_of_reserve (hroom : Room T v) (h : Represents v l) (full : Prop) [Decidable full]
    {f : Vector α → Option (Vector α)}
    (hf : ∀ w, Room T w → ∀ v', f w = some v' → Room T v' ∧ v'.capacity = w.capacity)
    (hspec : ∀ w, Room T w → Represents w l → l'.length ≤ w.items.length →
      ∃ v', f w = some v' ∧ Represents v' l') (hle : full → l.length ≤ l'.length) :
    Grows T (if full then n else v.capacity) l' (f (if full then v.reserve T n else v)) := by
  split
  next hfull =>
    exact ⟨hf _ room_reserve, fun hfits =>
      hspec _ room_reserve (h.reserve ((hle hfull).trans hfits)) (hfits.trans_eq room_reserve.symm)⟩
  next => exact ⟨hf _ hroom, fun hfits => hspec _ hroom h (hfits.trans_eq hroom.symm)⟩

theorem insertAt_grows (hroom : Room T v) (h : Represents v l) (hlen : l.length + 1 < 2 ^ 31)
    (index : Int) (x : α) : Grows T (grown T v.capacity l.length)
      (l.take (min index.toNat l.length) ++ x :: l.drop (min index.toNat l.length))
      (v.insertAt T index x) := by
  have hlength : (l.take (min index.toNat l.length) ++
      x :: l.drop (min index.toNat l.length)).length = l.length + 1 := by
    simp only [length_append, length_cons, length_take, length_drop]
    omega
  have hgrown : grown T v.capacity l.length = if v.capacity ≤ v.count then
      T.sizeT (v.capacity + v.capacity / 2 + 4) else v.capacity := by
    rw [grown, h.count]
  rw [hgrown]
  refine grows_of_reserve hroom h _ (fun w hw v' => place_room hw) (fun w hw hrep hfits => ?_)
    fun _ => ?_
  · exact place_spec hw hrep hlen (hlength ▸ hfits) _ x
  · omega

theorem resize_grows (hroom : Room T v) (h : Represents v l) (n : Nat) :
    Grows T (max v.capacity n) (l.take n ++ List.replicate (n - l.length) T.zero)
      (v.resize T n) := by
  have hlength : (l.take n ++ List.replicate (n - l.length) T.zero).length = n := by
    simp only [length_append, length_take, length_replicate]
    omega
  have hmax : max v.capacity n = if v.capacity < n then n else v.capacity := by
    split <;> omega
  rw [hmax]
  refine grows_of_reserve hroom h _ (fun w hw v' => fill_room hw) (fun w hw hrep hfits => ?_)
    fun hfull => ?_
  · exact fill_spec hw hrep (hlength ▸ hfits)
  · have hcount := h.count.symm.trans_le h.count_le
    omega

theorem removeAt_spec (hroom : Room T v) (h : Represents v l) (index : Int) :
    ∃ v', v.removeAt T index = some v' ∧ Room T v' ∧ v'.capacity = v.capacity ∧
      Represents v' (if index < 0 then l else l.eraseIdx index.toNat) := by
  rw [removeAt, h.count]
  split
  next hout =>
    refine ⟨v, rfl, hroom, rfl, ?_⟩
    split
    next => exact h
    next hindex => rwa [eraseIdx_of_length_le (hout.resolve_left hindex)]
  next hin =>
    dsimp only
    obtain ⟨hindex, hn⟩ := not_or.mp hin
    have hcells : T.cells (l.length - index.toNat - 1) = l.length - index.toNat - 1 :=
      T.cells_of_le (m := v.capacity) (by have := h.enough hroom; rw [Enough] at this; omega)
    obtain ⟨items, hmove, hprefix⟩ := memmove_left h.cells (not_le.mp hn)
    have hroom' : Room T { v with items, count := l.length - 1 } :=
      (length_memmove hmove).trans hroom
    rw [hcells, hmove, if_neg hindex]
    refine ⟨_, rfl, hroom', rfl, ?_⟩
    refine represents_of_room hroom' ?_ hprefix
    rw [length_eraseIdx_of_lt (not_le.mp hn)]

theorem indexFrom_spec [DecidableEq α] {items : List (Option α)} (h : l.map some <+: items)
    (hlen : l.length < 2 ^ 31) (x : α) : ∀ rest n, n + rest = l.length →
    indexFrom items x rest n =
      some (if x ∈ l.drop n then ((n + (l.drop n).idxOf x : Nat) : Int) else -1) := by
  intro rest
  induction rest with
  | zero =>
    intro n hn
    rw [drop_of_length_le (by omega)]
    rfl
  | succ rest ih =>
    intro n hn
    have hlt : n < l.length := by omega
    rw [indexFrom, readItem_of_prefix h hlt, getElem?_eq_getElem hlt,
      drop_eq_getElem_cons hlt, Option.bind_eq_bind, Option.bind_some]
    split
    next heq => simp [heq, toInt_of_lt (hlt.trans hlen)]
    next hne =>
      rw [ih (n + 1) (by omega), idxOf_cons_ne _ hne]
      simp only [mem_cons, Ne.symm hne, false_or, Nat.add_assoc, Nat.add_comm 1]

theorem indexOf_spec [DecidableEq α] (h : Represents v l) (hlen : l.length < 2 ^ 31) (x : α) :
    v.indexOf x = some (if x ∈ l then (l.idxOf x : Int) else -1) := by
  rw [indexOf, indexFrom_spec h.cells hlen x v.count 0 (by rw [h.count, Nat.zero_add])]
  simp only [drop_zero, Nat.zero_add]

theorem pushBack_grows (hroom : Room T v) (h : Represents v l) (hlen : l.length + 1 < 2 ^ 31)
    (x : α) : Grows T (grown T v.capacity l.length) (l ++ [x]) (v.pushBack T x) := by
  have hindex : (toInt v.count).toNat = l.length := by
    rw [h.count, toInt_of_lt (by omega), Int.toNat_natCast]
  have hgrows := insertAt_grows hroom h hlen (toInt v.count) x
  rw [hindex, min_self, take_length, drop_length] at hgrows
  exact hgrows

theorem grows_of_some {r : Option (Vector α)} (h : ∃ v', r = some v' ∧ Room T v' ∧
    v'.capacity = n ∧ Represents v' l) : Grows T n l r := by
  obtain ⟨v', rfl, hroom, hcapacity, hrep⟩ := h
  refine ⟨fun w hw => ?_, fun _ => ⟨v', rfl, hrep⟩⟩
  obtain rfl := Option.some.inj hw
  exact ⟨hroom, hcapacity⟩

structure Holds (T : Items α) (v : Vector α) (l : List α) : Prop where
  room : Room T v
  represents : Represents v l
  length_lt : l.length < 2 ^ 31

theorem holds_empty : Holds T (empty : Vector α) [] where
  room := by simp [Room, empty, Items.cells, Items.sizeT]
  represents := ⟨rfl, nil_prefix, le_rfl, le_rfl⟩
  length_lt := Nat.two_pow_pos 31

/-- A call returns what the operation on lists does and has the block for `capacityAfter`. -/
theorem step_spec [DecidableEq α] (h : Holds T v l) {op : Op α} {out : Output α}
    (hlen : l'.length < 2 ^ 31) (hspec : spec T l op = some (l', out)) :
    ∃ r, step T v op = r.map (·, out) ∧ Grows T (capacityAfter T v.capacity l op) l' r := by
  obtain ⟨hroom, hrep, hlt⟩ := h
  cases op with
  | pushBack x =>
    obtain ⟨rfl, rfl⟩ := Prod.mk.inj (Option.some.inj hspec)
    rw [length_append, length_singleton] at hlen
    exact ⟨v.pushBack T x, rfl, pushBack_grows hroom hrep hlen x⟩
  | insertAt index x =>
    obtain ⟨rfl, rfl⟩ := Prod.mk.inj (Option.some.inj hspec)
    refine ⟨v.insertAt T index x, rfl, insertAt_grows hroom hrep ?_ index x⟩
    simp only [length_append, length_cons, length_take, length_drop] at hlen
    omega
  | removeAt index =>
    obtain ⟨rfl, rfl⟩ := Prod.mk.inj (Option.some.inj hspec)
    exact ⟨v.removeAt T index, rfl, grows_of_some (removeAt_spec hroom hrep index)⟩
  | popFirst =>
    obtain ⟨x, hx, hout⟩ := Option.map_eq_some_iff.mp hspec
    obtain ⟨rfl, rfl⟩ := Prod.mk.inj hout
    obtain ⟨t, rfl⟩ := head?_eq_some_iff.mp hx
    refine ⟨v.removeAt T 0, ?_, grows_of_some (removeAt_spec hroom hrep 0)⟩
    rw [step, popFirst, readItem_of_prefix hrep.cells (by simp)]
    cases v.removeAt T 0 <;> rfl
  | popLast =>
    obtain ⟨x, hx, hout⟩ := Option.map_eq_some_iff.mp hspec
    obtain ⟨rfl, rfl⟩ := Prod.mk.inj hout
    have hgrows := resize_grows hroom hrep (l.length - 1)
    have hcapacity := hrep.count.symm.trans_le hrep.count_le
    rw [max_eq_left (by omega), ← dropLast_eq_take, Nat.sub_eq_zero_of_le (by omega),
      replicate_zero, append_nil] at hgrows
    refine ⟨v.resize T (l.length - 1), ?_, hgrows⟩
    obtain ⟨t, rfl⟩ := getLast?_eq_some_iff.mp hx
    rw [step, popLast, hrep.count, readItem_of_prefix hrep.cells (by simp)]
    cases v.resize T ((t ++ [x]).length - 1) <;> simp
  | resize n =>
    obtain ⟨rfl, rfl⟩ := Prod.mk.inj (Option.some.inj hspec)
    exact ⟨v.resize T n, rfl, resize_grows hroom hrep n⟩
  | indexOf x =>
    obtain ⟨rfl, rfl⟩ := Prod.mk.inj (Option.some.inj hspec)
    refine ⟨some v, ?_, grows_of_some ⟨v, rfl, hroom, rfl, hrep⟩⟩
    rw [step, indexOf_spec hrep hlt]
    rfl

/-- A run of calls refines the operations on lists exactly when every list fits. -/
theorem refines_iff_enough [DecidableEq α] {ops : List (Op α)} (h : Holds T v l)
    (hops : Within (spec T) (fun l => l.length < 2 ^ 31) l ops) :
    Refines (step T) (spec T) Represents v l ops ↔
      Fits (spec T) (capacityAfter T) (Enough T) v.capacity l ops := by
  refine refines_iff_fits _ _ (Holds T) Vector.capacity (fun h hlen hspec => ?_) h hops
  obtain ⟨r, hstep, hgrows⟩ := step_spec h hlen hspec
  refine ⟨r, hstep, fun v' hv' hrep => ?_, fun hfits => ?_⟩
  · obtain ⟨hroom, hcapacity⟩ := hgrows.room v' hv'
    exact hcapacity ▸ hrep.enough hroom
  · obtain ⟨v', hv', hrep⟩ := hgrows.fits hfits
    obtain ⟨hroom, hcapacity⟩ := hgrows.room v' hv'
    exact ⟨v', hv', hrep, ⟨hroom, hrep, hlen⟩, hcapacity⟩

end Vector

/-! ## `Set` -/

namespace ItemSet

variable [DecidableEq α] (T : Items α)

/-- The vector has the members, each once. -/
def Represents (s : ItemSet α) (members : Finset α) : Prop :=
  ∃ l : List α, l.Nodup ∧ l.toFinset = members ∧ s.items.Represents l

def spec (members : Finset α) : Op α → Option (Finset α × Bool)
  | .add item => some (insert item members, decide (item ∉ members))
  | .del item => some (members.erase item, decide (item ∈ members))
  | .has item => some (members, decide (item ∈ members))

def capacityAfter (capacity : Nat) (members : Finset α) : Op α → Nat
  | .add item => if item ∈ members then capacity else Vector.grown T capacity members.card
  | _ => capacity

def Enough (capacity : Nat) (members : Finset α) : Prop := members.card ≤ T.cells capacity

variable {T} {s s' : ItemSet α} {members members' : Finset α}

structure Holds (T : Items α) (s : ItemSet α) (members : Finset α) : Prop where
  room : Vector.Room T s.items
  represents : Represents s members
  card_lt : members.card < 2 ^ 31

theorem Represents.enough (h : Represents s members) (hroom : Vector.Room T s.items) :
    Enough T s.items.capacity members := by
  obtain ⟨l, hnodup, rfl, hrep⟩ := h
  rw [Enough, toFinset_card_of_nodup hnodup]
  exact hrep.enough hroom

theorem step_spec (h : Holds T s members) {op : Op α} {out : Bool} (hlen : members'.card < 2 ^ 31)
    (hspec : spec members op = some (members', out)) :
    ∃ r l, step T s op = r.map (⟨·⟩, out) ∧ l.Nodup ∧ l.toFinset = members' ∧
      Vector.Grows T (capacityAfter T s.items.capacity members op) l r := by
  obtain ⟨hroom, ⟨l, hnodup, rfl, hrep⟩, hlt⟩ := h
  have hlt' := hlt
  rw [toFinset_card_of_nodup hnodup] at hlt'
  have hindex := fun x => Vector.indexOf_spec hrep hlt' x
  have hsame := Vector.grows_of_some ⟨s.items, rfl, hroom, rfl, hrep⟩
  cases op with
  | add x =>
    obtain ⟨rfl, rfl⟩ := Prod.mk.inj (Option.some.inj hspec)
    rw [capacityAfter, toFinset_card_of_nodup hnodup]
    simp only [step, add, hindex, mem_toFinset]
    by_cases hx : x ∈ l
    · refine ⟨some s.items, l, ?_, hnodup, ?_, ?_⟩
      · simp [hx]
      · simp [hx]
      · rwa [if_pos hx]
    · refine ⟨s.items.pushBack T x, l ++ [x], ?_, ?_, ?_, ?_⟩
      · simp only [hx, not_false_eq_true, decide_true]
        cases s.items.pushBack T x <;> rfl
      · exact hnodup.append (nodup_singleton x) (by simpa using hx)
      · rw [toFinset_append, Finset.union_comm]
        rfl
      · rw [if_neg hx]
        refine Vector.pushBack_grows hroom hrep ?_ x
        rwa [Finset.card_insert_of_notMem (by simpa using hx),
          toFinset_card_of_nodup hnodup] at hlen
  | del x =>
    obtain ⟨rfl, rfl⟩ := Prod.mk.inj (Option.some.inj hspec)
    simp only [step, del, hindex, mem_toFinset]
    by_cases hx : x ∈ l
    · refine ⟨s.items.removeAt T (l.idxOf x), l.erase x, ?_, hnodup.erase x, ?_, ?_⟩
      · have hidx : ¬ (l.idxOf x : Int) < 0 := by omega
        simp only [hx, if_true, decide_true, Option.bind_eq_bind, Option.bind_some, hidx, if_false]
        cases s.items.removeAt T (l.idxOf x) <;> rfl
      · ext y
        simp [hnodup.mem_erase_iff]
      · have hremove := Vector.removeAt_spec hroom hrep (l.idxOf x)
        rw [if_neg (by omega), Int.toNat_natCast, eraseIdx_idxOf_eq_erase] at hremove
        exact Vector.grows_of_some hremove
    · refine ⟨some s.items, l, ?_, hnodup, ?_, hsame⟩
      · simp [hx]
      · simp [hx]
  | has x =>
    obtain ⟨rfl, rfl⟩ := Prod.mk.inj (Option.some.inj hspec)
    refine ⟨some s.items, l, ?_, hnodup, rfl, hsame⟩
    rw [step, has, hindex]
    by_cases hx : x ∈ l <;> simp [hx]

theorem refines_iff_enough {ops : List (Op α)} (h : Holds T s members)
    (hops : Within spec (fun members => members.card < 2 ^ 31) members ops) :
    Refines (step T) spec Represents s members ops ↔
      Fits spec (capacityAfter T) (Enough T) s.items.capacity members ops := by
  refine refines_iff_fits _ _ (Holds T) (fun s => s.items.capacity) (fun h hlen hspec => ?_) h hops
  obtain ⟨r, l, hstep, hnodup, rfl, hgrows⟩ := step_spec h hlen hspec
  refine ⟨r.map ItemSet.mk, by rw [hstep, Option.map_map]; rfl, fun s' hs' hrep => ?_,
    fun hfits => ?_⟩
  · obtain ⟨v', hv', rfl⟩ := Option.map_eq_some_iff.mp hs'
    obtain ⟨hroom, hcapacity⟩ := hgrows.room v' hv'
    exact hcapacity ▸ hrep.enough hroom
  · rw [Enough, toFinset_card_of_nodup hnodup] at hfits
    obtain ⟨v', rfl, hrep⟩ := hgrows.fits hfits
    obtain ⟨hroom, hcapacity⟩ := hgrows.room v' rfl
    have hrep' : Represents ⟨v'⟩ l.toFinset := ⟨l, hnodup, rfl, hrep⟩
    exact ⟨⟨v'⟩, rfl, hrep', ⟨hroom, hrep', hlen⟩, hcapacity⟩

end ItemSet

/-! ## Both containers -/

/-- For every item type and every run that keeps fewer than `2^31` items and pops only from
    containers that are not empty: `Vector` refines sequences and `Set` refines sets exactly when,
    at each call, the items there are after it fit into the block that `capacity_ * sizeof(T)`
    bytes, computed in `size_t`, are. -/
theorem containers_refine_iff [DecidableEq α] (T : Items α) :
    (∀ ops, Within (Vector.spec T) (fun l => l.length < 2 ^ 31) [] ops →
      (Refines (Vector.step T) (Vector.spec T) Vector.Represents Vector.empty [] ops ↔
        Fits (Vector.spec T) (Vector.capacityAfter T) (Vector.Enough T) 0 [] ops)) ∧
    (∀ ops, Within ItemSet.spec (fun members : Finset α => members.card < 2 ^ 31) ∅ ops →
      (Refines (ItemSet.step T) ItemSet.spec ItemSet.Represents ItemSet.empty ∅ ops ↔
        Fits ItemSet.spec (ItemSet.capacityAfter T) (ItemSet.Enough T) 0 ∅ ops)) := by
  refine ⟨fun ops hops => Vector.refines_iff_enough Vector.holds_empty hops, fun ops hops => ?_⟩
  have hvector : Vector.Holds T (Vector.empty : Vector α) [] := Vector.holds_empty
  have hempty : ItemSet.Holds T (ItemSet.empty : ItemSet α) ∅ :=
    ⟨hvector.room, ⟨[], nodup_nil, rfl, hvector.represents⟩, Nat.two_pow_pos 31⟩
  exact ItemSet.refines_iff_enough hempty hops

def arm4 : Items Nat := ⟨.arm, 4, by decide, 0⟩

theorem containers_refine_iff_arm :
    Refines (Vector.step arm4) (Vector.spec arm4) Vector.Represents Vector.empty []
      [.pushBack 7, .popLast] := by
  refine ((containers_refine_iff arm4).1 [.pushBack 7, .popLast] ?_).mpr ?_
  · exact ⟨([7], .nothing), rfl, by decide, ([], .item 7), rfl, by decide, trivial⟩
  · rintro result hresult
    obtain rfl := Option.some.inj hresult
    refine ⟨show 1 ≤ 4 by decide, fun result hresult => ?_⟩
    obtain rfl := Option.some.inj hresult
    exact ⟨show 0 ≤ 4 by decide, trivial⟩

/-- `715827883` pointers fill their block; the next one asks `realloc` for `1073741828` pointers,
    which is 16 bytes. -/
theorem pushBack_wraps :
    Within (Vector.spec arm4) (fun l => l.length < 2 ^ 31) []
      [.resize 715827883, .pushBack 7] ∧
    ¬ Refines (Vector.step arm4) (Vector.spec arm4) Vector.Represents Vector.empty []
      [.resize 715827883, .pushBack 7] := by
  -- With the number as a variable, nothing can unfold the list of so many items.
  generalize hn : 715827883 = n
  have hresize : ∃ l, Vector.spec arm4 [] (.resize n) = some (l, .nothing) ∧ l.length = n :=
    ⟨_, rfl, by simp⟩
  obtain ⟨l, hl, hlength⟩ := hresize
  have hwithin : Within (Vector.spec arm4) (fun l => l.length < 2 ^ 31) []
      [.resize n, .pushBack 7] := by
    refine ⟨(l, .nothing), hl, ?_, (l ++ [7], .nothing), rfl, ?_, trivial⟩
    · exact hlength.trans_lt (by omega)
    · simp only [length_append, length_singleton]
      omega
  refine ⟨hwithin, fun hrefines => ?_⟩
  have hfits := (Vector.refines_iff_enough Vector.holds_empty hwithin).mp hrefines
  have henough := ((hfits _ hl).2 (l ++ [7], .nothing) rfl).1
  simp only [Vector.Enough, Vector.capacityAfter, length_append, length_singleton,
    hlength, Vector.empty, Nat.zero_max, Vector.grown, le_refl, if_true] at henough
  subst hn
  exact absurd henough (by decide)

end CrystaxNdk.CrazyLinker
