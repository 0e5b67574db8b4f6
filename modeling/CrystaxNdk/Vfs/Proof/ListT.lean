import CrystaxNdk.Lib.Runs
import CrystaxNdk.Vfs.ListT

/-!
# `list_t` and the sequence it should be

Taking out is right wherever the node is, and so is `push_back`. `push` forgets `ptail` if the node
comes after the last one, and `push_front` calls `push` with the first node, after which the new one
then comes. To an empty list a node is added without a look at its links. This is all that goes
wrong: a run keeps to the sequence exactly if it stays away from these cases.
-/

namespace CrystaxNdk.Vfs

open Lib List Function

variable {bits : Nat}

/-! ## The sequence -/

def insertAfter (b x : NodePtr bits) : List (NodePtr bits) → List (NodePtr bits)
  | [] => []
  | y :: ys => if y = b then y :: x :: ys else y :: insertAfter b x ys

namespace ListOp

def apply (l : List (NodePtr bits)) : ListOp bits → List (NodePtr bits)
  | .push before node => insertAfter before node l
  | .pushFront node => node :: l
  | .pushBack node => l ++ [node]
  | .pop node => l.erase node
  | .popFront => l.tail
  | .popBack => l.dropLast

/-- New nodes are not on the list, and other nodes are. -/
def Valid (l : List (NodePtr bits)) : ListOp bits → Prop
  | .push before node => before ∈ l ∧ node ∉ l
  | .pushFront node => node ∉ l
  | .pushBack node => node ∉ l
  | .pop node => node ∈ l
  | .popFront => True
  | .popBack => True

end ListOp

/-- The list is this sequence. -/
structure ListT.Represents (s : ListT bits) (l : List (NodePtr bits)) : Prop where
  linked : Linked s.next s.prev none s.phead l
  nodup : l.Nodup
  tail : s.ptail = l.getLast?
  size : s.sz.toNat = l.length

variable {s : ListT bits} {l front back : List (NodePtr bits)} {x b : NodePtr bits}

theorem insertAfter_append (h : b ∉ front) :
    insertAfter b x (front ++ b :: back) = front ++ b :: x :: back := by
  induction front with
  | nil => exact if_pos rfl
  | cons y ys ih =>
    rw [mem_cons, not_or] at h
    rw [cons_append, insertAfter, if_neg (Ne.symm h.1), ih h.2]
    rfl

theorem length_lt_of_nodup (h : l.Nodup) : l.length < 2 ^ bits := by
  have hnull : ¬ (⟨0, Nat.two_pow_pos bits⟩ : Fin (2 ^ bits)).val ≠ 0 := fun hne => hne rfl
  calc
    l.length ≤ Fintype.card (NodePtr bits) := h.length_le_card
    _ < Fintype.card (Fin (2 ^ bits)) := Fintype.card_subtype_lt hnull
    _ = 2 ^ bits := Fintype.card_fin _

theorem toNat_eq_length_iff (h : l.Nodup) {sz : BitVec bits} :
    sz.toNat = l.length ↔ sz = BitVec.ofNat bits l.length := by
  have hlt := length_lt_of_nodup h
  rw [← BitVec.toNat_inj, BitVec.toNat_ofNat, Nat.mod_eq_of_lt hlt]

theorem sz_add_one (h : s.Represents l) : s.sz + 1 = BitVec.ofNat bits (l.length + 1) := by
  rw [(toNat_eq_length_iff h.nodup).mp h.size, BitVec.ofNat_add]
  rfl

theorem sz_sub_one (h : s.Represents l) {k : Nat} (hk : l.length = k + 1) :
    s.sz - 1 = BitVec.ofNat bits k := by
  rw [(toNat_eq_length_iff h.nodup).mp h.size, hk, BitVec.ofNat_add]
  exact BitVec.add_sub_cancel _ _

/-! ## Adding a node -/

/-- A member has a part of the list before it and one after it. -/
theorem exists_split (hnd : l.Nodup) (hb : b ∈ l) :
    ∃ front back, l = front ++ b :: back ∧ b ∉ front ∧ b ∉ back := by
  obtain ⟨front, back, rfl⟩ := append_of_mem hb
  obtain ⟨_, hback, hdisj⟩ := nodup_append.mp hnd
  exact ⟨front, back, rfl, fun hmem => hdisj b hmem b (by simp) rfl, (nodup_cons.mp hback).1⟩

theorem linked_push (h : Linked s.next s.prev none s.phead (front ++ b :: back))
    (hnd : (front ++ b :: back).Nodup) (hx : x ∉ front ++ b :: back) :
    Linked (s.push (some b) (some x)).1.next (s.push (some b) (some x)).1.prev none s.phead
      (front ++ b :: x :: back) := by
  have hxb : x ≠ b := fun heq => hx (by simp [heq])
  have hafter : s.next b ≠ some x := h.next_ne (by simp) hx
  have hlink := h.linkAfter hnd hx
  have hnext : (s.push (some b) (some x)).1.next =
      update (update s.next x (s.next b)) b (some x) :=
    update_comm hxb.symm _ _ _
  have hprev : (s.push (some b) (some x)).1.prev =
      assign (update s.prev x (some b)) (s.next b) (some x) := by
    unfold ListT.push
    dsimp only
    cases hcase : s.next b with
    | none => rfl
    | some y =>
      have hyx : y ≠ x := fun heq => hafter (by rw [hcase, heq])
      exact update_comm hyx _ _ _
  rw [hnext, hprev]
  exact hlink

theorem nodup_insert (hnd : (front ++ b :: back).Nodup) (hx : x ∉ front ++ b :: back) :
    (front ++ b :: x :: back).Nodup := by
  have hperm : (x :: (front ++ b :: back)).Perm (front ++ b :: x :: back) := by
    have h₁ : (front ++ [b] ++ x :: back).Perm (x :: (front ++ [b] ++ back)) := perm_middle
    simpa using h₁.symm
  exact hperm.nodup_iff.mp (nodup_cons.mpr ⟨hx, hnd⟩)

theorem represents_push {ptail : Option (NodePtr bits)} (h : s.Represents (front ++ b :: back))
    (hx : x ∉ front ++ b :: back) :
    ListT.Represents { (s.push (some b) (some x)).1 with ptail := ptail }
        (front ++ b :: x :: back) ↔ ptail = (front ++ b :: x :: back).getLast? := by
  have hnd := nodup_insert h.nodup hx
  refine ⟨fun hrep => hrep.tail, fun htail => ⟨linked_push h.linked h.nodup hx, hnd, htail, ?_⟩⟩
  have hlen : (front ++ b :: x :: back).length = (front ++ b :: back).length + 1 := by
    simp [Nat.add_assoc]
  rw [toNat_eq_length_iff hnd, hlen]
  exact sz_add_one h

theorem getLast?_append_cons (y : NodePtr bits) (ys : List (NodePtr bits)) :
    (front ++ y :: ys).getLast? = (y :: ys).getLast? := by
  rw [getLast?_append, getLast?_eq_some_getLast (cons_ne_nil y ys), Option.some_or]

theorem push_iff (h : s.Represents l) (hb : b ∈ l) (hx : x ∉ l) :
    (s.step (.push b x)).Represents (insertAfter b x l) ↔ l.getLast? ≠ some b := by
  obtain ⟨front, back, rfl, hfront, hback⟩ := exists_split h.nodup hb
  rw [insertAfter_append hfront]
  have hpush : ListT.Represents { (s.push (some b) (some x)).1 with ptail := s.ptail }
      (front ++ b :: x :: back) ↔ s.ptail = (front ++ b :: x :: back).getLast? :=
    represents_push h hx
  refine hpush.trans ?_
  rw [h.tail]
  cases back with
  | nil =>
    have hxb : x ≠ b := fun heq => hx (by simp [heq])
    simp [Ne.symm hxb]
  | cons y ys =>
    have hlast : (front ++ b :: y :: ys).getLast? = (y :: ys).getLast? := by
      rw [getLast?_append_cons, getLast?_cons_cons]
    have hlast' : (front ++ b :: x :: y :: ys).getLast? = (y :: ys).getLast? := by
      rw [getLast?_append_cons, getLast?_cons_cons, getLast?_cons_cons]
    rw [hlast, hlast']
    exact iff_of_true rfl fun heq => hback (mem_of_getLast? heq)

theorem represents_single :
    ListT.Represents { s with phead := some x, ptail := some x, sz := 1 } [x] ↔
      s.next x = none ∧ s.prev x = none := by
  constructor
  · rintro ⟨⟨_, hprev, hnext⟩, _⟩
    exact ⟨hnext, hprev⟩
  · rintro ⟨hnext, hprev⟩
    refine ⟨⟨rfl, hprev, hnext⟩, nodup_singleton x, rfl, ?_⟩
    exact (toNat_eq_length_iff (nodup_singleton x)).mpr rfl

theorem pushFront_iff (h : s.Represents l) (hx : x ∉ l) :
    (s.step (.pushFront x)).Represents (x :: l) ↔
      l = [] ∧ s.next x = none ∧ s.prev x = none := by
  have hhead := h.linked.head_eq
  cases l with
  | nil =>
    have hstep : s.step (.pushFront x) = { s with phead := some x, ptail := some x, sz := 1 } := by
      unfold ListT.step ListT.pushFront
      rw [hhead]
      rfl
    rw [hstep, represents_single]
    simp
  | cons y ys =>
    refine iff_of_false (fun hrep => ?_) fun hnil => by simp at hnil
    have hphead : (s.step (.pushFront x)).phead = some y := by
      unfold ListT.step ListT.pushFront
      rw [hhead]
      exact hhead
    rw [hrep.linked.head_eq] at hphead
    obtain rfl : x = y := Option.some.inj hphead
    exact hx (by simp)

theorem pushBack_iff (h : s.Represents l) (hx : x ∉ l) :
    (s.step (.pushBack x)).Represents (l ++ [x]) ↔
      (l = [] → s.next x = none ∧ s.prev x = none) := by
  have hhead := h.linked.head_eq
  rcases eq_nil_or_concat' l with rfl | ⟨front, b, rfl⟩
  · have hstep : s.step (.pushBack x) = { s with phead := some x, ptail := some x, sz := 1 } := by
      unfold ListT.step ListT.pushBack
      rw [hhead]
      rfl
    rw [hstep, nil_append, represents_single]
    simp
  · have htail : s.ptail = some b := by rw [h.tail]; simp
    have hne : s.phead ≠ none := by
      rw [hhead]
      cases front <;> simp
    have hstep : s.step (.pushBack x) =
        { (s.push (some b) (some x)).1 with ptail := some x } := by
      show (s.pushBack (some x)).1 = _
      unfold ListT.pushBack
      rw [if_neg hne, htail]
      rfl
    rw [hstep, append_assoc]
    refine iff_of_true ((represents_push h hx).mpr ?_) (by simp)
    simp

/-! ## Taking a node out -/

section Pop

variable (h : s.Represents (front ++ x :: back)) (hfront : x ∉ front)

include h

theorem assign_next_self (value : Option (NodePtr bits)) :
    assign s.next (s.prev x) value x = s.next x :=
  assign_of_ne _ _ (h.linked.prev_ne_self h.nodup (by simp))

include hfront

theorem eq_phead_iff : some x = s.phead ↔ front = [] := by
  rw [h.linked.head_eq]
  cases front with
  | nil => simp
  | cons y ys =>
    have hxy : x ≠ y := fun heq => hfront (by simp [heq])
    simp [hxy]

theorem ptail_pop (hback : x ∉ back) (hne : front ++ back ≠ []) :
    (if some x = s.phead then s.ptail
      else if some x = s.ptail then assign s.prev (s.next x) (s.prev x) x else s.ptail) =
      (front ++ back).getLast? := by
  have hnext : s.next x = back.head? := h.linked.next_eq
  have hprev : s.prev x = front.getLast?.or none := h.linked.prev_eq
  simp only [eq_phead_iff h hfront, h.tail]
  cases back with
  | nil =>
    have hfront' : front ≠ [] := by simpa using hne
    have hlast : (front ++ [x]).getLast? = some x := by simp
    have hnext' : s.next x = none := hnext
    rw [if_neg hfront', if_pos hlast.symm, hnext', append_nil]
    exact hprev.trans (Option.or_none ..)
  | cons y ys =>
    have hlast : (front ++ x :: y :: ys).getLast? = (front ++ y :: ys).getLast? := by
      rw [getLast?_append_cons, getLast?_append_cons, getLast?_cons_cons]
    have hnot : some x ≠ (front ++ x :: y :: ys).getLast? := by
      rw [hlast, getLast?_append_cons]
      exact fun heq => hback (mem_of_getLast? heq.symm)
    rw [if_neg hnot, ite_self, hlast]

theorem ends_pop (hback : x ∉ back) :
    (s.pop (some x)).1.ptail = (front ++ back).getLast? ∧
      (s.pop (some x)).1.phead = (front ++ back).head? := by
  have hphead : (if some x = s.phead then s.next x else s.phead) = (front ++ back).head? := by
    rw [← (h.linked.bypass h.nodup fun y hy => by cases hy).head_eq]
    simp only [eq_phead_iff h hfront]
  unfold ListT.pop
  simp only [assign_next_self h, hphead]
  by_cases hnil : front ++ back = []
  · rw [hnil]
    exact ⟨rfl, rfl⟩
  · have hhead : (front ++ back).head? ≠ none := fun hnone => hnil (head?_eq_none_iff.mp hnone)
    have hlast : (front ++ back).getLast? ≠ none :=
      fun hnone => hnil (getLast?_eq_none_iff.mp hnone)
    rw [ptail_pop h hfront hback hnil, if_neg hhead, if_neg hlast]
    exact ⟨rfl, rfl⟩

theorem represents_pop (hback : x ∉ back) : (s.pop (some x)).1.Represents (front ++ back) := by
  have hx : x ∉ front ++ back := by simp [hfront, hback]
  have hnd : (front ++ back).Nodup :=
    h.nodup.sublist (List.Sublist.append_left (sublist_cons_self x back) front)
  have hsz : s.sz - 1 = BitVec.ofNat bits (front ++ back).length :=
    sz_sub_one h (by simp [Nat.add_assoc])
  obtain ⟨hptail, hphead⟩ := ends_pop h hfront hback
  refine ⟨?_, hnd, hptail, (toNat_eq_length_iff hnd).mpr hsz⟩
  have hbypass := h.linked.bypass h.nodup (fun y hy => by cases hy)
  have hhead := hbypass.head_eq
  rw [hhead] at hbypass
  rw [hphead]
  refine hbypass.congr (fun y hy => ?_) fun y hy => ?_
  · exact update_of_ne (ne_of_mem_of_not_mem hy hx) _ _
  · have hprev : (s.pop (some x)).1.prev =
        update (assign s.prev (s.next x) (s.prev x)) x none := by
      unfold ListT.pop
      simp only [assign_next_self h]
    rw [hprev]
    exact update_of_ne (ne_of_mem_of_not_mem hy hx) _ _

end Pop

theorem pop_represents (h : s.Represents l) (hx : x ∈ l) :
    (s.step (.pop x)).Represents (l.erase x) := by
  obtain ⟨front, back, rfl, hfront, hback⟩ := exists_split h.nodup hx
  rw [erase_append_right _ hfront, erase_cons_head]
  exact represents_pop h hfront hback

theorem popFront_represents (h : s.Represents l) : (s.step .popFront).Represents l.tail := by
  have hhead := h.linked.head_eq
  cases l with
  | nil =>
    have hstep : s.step .popFront = s := by
      show (s.pop s.phead).1 = s
      rw [hhead]
      rfl
    rw [hstep]
    exact h
  | cons x xs =>
    have hstep : s.step .popFront = (s.pop (some x)).1 := by
      show (s.pop s.phead).1 = _
      rw [hhead]
      rfl
    rw [hstep]
    have hpop : (s.pop (some x)).1.Represents ([] ++ xs) :=
      represents_pop h not_mem_nil (nodup_cons.mp h.nodup).1
    exact hpop

theorem popBack_represents (h : s.Represents l) : (s.step .popBack).Represents l.dropLast := by
  rcases eq_nil_or_concat' l with rfl | ⟨front, x, rfl⟩
  · have hstep : s.step .popBack = s := by
      show (s.pop s.ptail).1 = s
      rw [h.tail]
      rfl
    rw [hstep]
    exact h
  · have hstep : s.step .popBack = (s.pop (some x)).1 := by
      show (s.pop s.ptail).1 = _
      rw [h.tail, getLast?_concat]
    have hfront : x ∉ front := fun hmem => (nodup_append.mp h.nodup).2.2 x hmem x (by simp) rfl
    rw [hstep, dropLast_concat]
    have hpop : (s.pop (some x)).1.Represents (front ++ []) :=
      represents_pop h hfront not_mem_nil
    rwa [append_nil] at hpop

/-! ## Runs -/

/-- The cases in which a call is right. -/
def ListOp.Fits (s : ListT bits) (l : List (NodePtr bits)) : ListOp bits → Prop
  | .push before _ => l.getLast? ≠ some before
  | .pushFront node => l = [] ∧ s.next node = none ∧ s.prev node = none
  | .pushBack node => l = [] → s.next node = none ∧ s.prev node = none
  | _ => True

theorem step_represents_iff (h : s.Represents l) {op : ListOp bits} (hvalid : op.Valid l) :
    (s.step op).Represents (op.apply l) ↔ op.Fits s l := by
  cases op with
  | push b x => exact push_iff h hvalid.1 hvalid.2
  | pushFront x => exact pushFront_iff h hvalid
  | pushBack x => exact pushBack_iff h hvalid
  | pop x => exact iff_of_true (pop_represents h hvalid) trivial
  | popFront => exact iff_of_true (popFront_represents h) trivial
  | popBack => exact iff_of_true (popBack_represents h) trivial

def ListT.after (s : ListT bits) (ops : List (ListOp bits)) : ListT bits := ops.foldl ListT.step s

def sequenceAfter (ops : List (ListOp bits)) : List (NodePtr bits) := ops.foldl ListOp.apply []

/-- All calls are made with new nodes or with members. -/
def AllValid (ops : List (ListOp bits)) : Prop :=
  ∀ front op, front ++ [op] <+: ops → op.Valid (sequenceAfter front)

/-- None of the calls is made where it goes wrong. -/
def AllFit (s : ListT bits) (ops : List (ListOp bits)) : Prop :=
  ∀ front op, front ++ [op] <+: ops → op.Fits (s.after front) (sequenceAfter front)

theorem after_concat (s : ListT bits) (ops : List (ListOp bits)) (op : ListOp bits) :
    s.after (ops ++ [op]) = (s.after ops).step op := by
  simp [ListT.after]

theorem sequenceAfter_concat (ops : List (ListOp bits)) (op : ListOp bits) :
    sequenceAfter (ops ++ [op]) = op.apply (sequenceAfter ops) := by
  simp [sequenceAfter]

theorem new_represents (next prev : NodePtr bits → Option (NodePtr bits)) :
    (ListT.new next prev).Represents [] :=
  ⟨rfl, nodup_nil, rfl, by simp [ListT.new]⟩

/-- The list is the sequence all the time, exactly if no call is made where it goes wrong. -/
theorem refines_iff (next prev : NodePtr bits → Option (NodePtr bits)) {ops : List (ListOp bits)}
    (hvalid : AllValid ops) :
    (∀ front, front <+: ops → ((ListT.new next prev).after front).Represents (sequenceAfter front))
      ↔ AllFit (ListT.new next prev) ops := by
  constructor
  · intro hall front op hfront
    have hbefore := hall front ((prefix_append front [op]).trans hfront)
    have hafter := hall (front ++ [op]) hfront
    rw [after_concat, sequenceAfter_concat] at hafter
    exact (step_represents_iff hbefore (hvalid front op hfront)).mp hafter
  · intro hfit front
    induction front using List.reverseRecOn with
    | nil => exact fun _ => new_represents next prev
    | append_singleton front op ih =>
      intro hfront
      have hbefore := ih ((prefix_append front [op]).trans hfront)
      rw [after_concat, sequenceAfter_concat]
      exact (step_represents_iff hbefore (hvalid front op hfront)).mpr (hfit front op hfront)

instance ListOp.decidableValid (op : ListOp bits) : Decidable (op.Valid l) := by
  cases op <;> dsimp only [ListOp.Valid] <;> infer_instance

instance ListOp.decidableFits (op : ListOp bits) : Decidable (op.Fits s l) := by
  cases op <;> dsimp only [ListOp.Fits] <;> infer_instance

def node (k : Fin 255) : NodePtr 32 := ⟨⟨k.val + 1, by omega⟩, by simp⟩

/-- A list, where no node that is not on it has links. -/
def freshList : ListT 32 := .new (fun _ => none) (fun _ => none)

theorem refines_three :
    (freshList.after [.pushFront (node 0), .pushBack (node 1), .push (node 0) (node 2)]).Represents
      [node 0, node 2, node 1] := by
  have hvalid : AllValid [.pushFront (node 0), .pushBack (node 1), .push (node 0) (node 2)] := by
    unfold AllValid
    simp only [forall_concat_prefix_cons, forall_concat_prefix_nil, and_true]
    decide
  refine (refines_iff (fun _ => none) (fun _ => none) hvalid).mpr ?_ _ prefix_rfl
  unfold AllFit
  simp only [forall_concat_prefix_cons, forall_concat_prefix_nil, and_true]
  decide

/-- `push_front` puts a node second, and a node that is put after the last one is not the tail. -/
theorem not_refines_two :
    AllValid [.pushBack (node 0), .pushFront (node 1)] ∧
      (freshList.after [.pushBack (node 0), .pushFront (node 1)]).phead = some (node 0) ∧
      ¬ (freshList.after [.pushBack (node 0), .pushFront (node 1)]).Represents
        (sequenceAfter [.pushBack (node 0), .pushFront (node 1)]) ∧
      AllValid [.pushBack (node 0), .push (node 0) (node 1)] ∧
      (freshList.after [.pushBack (node 0), .push (node 0) (node 1)]).ptail = some (node 0) ∧
      ¬ (freshList.after [.pushBack (node 0), .push (node 0) (node 1)]).Represents
        (sequenceAfter [.pushBack (node 0), .push (node 0) (node 1)]) := by
  refine ⟨?_, by decide, fun hrep => ?_, ?_, by decide, fun hrep => ?_⟩
  · unfold AllValid
    simp only [forall_concat_prefix_cons, forall_concat_prefix_nil, and_true]
    decide
  · exact absurd hrep.linked.head_eq (by decide)
  · unfold AllValid
    simp only [forall_concat_prefix_cons, forall_concat_prefix_nil, and_true]
    decide
  · exact absurd hrep.tail (by decide)

end CrystaxNdk.Vfs
