import CrystaxNdk.Jutils.JHolder
import Mathlib.Data.List.Basic

/-!
# Every reference is deleted once

At any time a reference is in one place: nobody has taken it yet, a holder has it, `release` has
given it away, or it is deleted. Every operation but `reset` moves a reference from one of these to
another, which is all there is to prove about them. `reset` deletes its argument and then keeps it,
and forgets what the holder had.
-/

namespace CrystaxNdk.Jutils

open Function

/-! ## Where a reference is -/

inductive Place where
  | outside
  | held (h : Holder)
  | given
  | deleted
deriving DecidableEq

/-- The place after the holders were renamed. -/
def Place.mapHolder (f : Holder → Holder) : Place → Place
  | .held h => .held (f h)
  | p => p

/-- The state as a map from references to places. -/
structure JniState.Places (s : JniState) (place : Ref → Place) : Prop where
  held : ∀ h r, s.object h = some r ↔ place r = .held h
  owned : ∀ r, r ∈ s.owned ↔ place r ≠ .outside
  given : ∀ r, r ∈ s.given ↔ place r = .given
  deleted : ∀ r, s.deleted.count r = if place r = .deleted then 1 else 0

namespace JniState

variable {s : JniState} {place : Ref → Place} {h c : Holder} {obj fresh : Option Ref} {r : Ref}

theorem object_take : (s.take h obj).object = update s.object h obj := by
  funext x
  by_cases hx : x = h
  · subst hx
    simp [object, take]
  · simp [object, take, update_of_ne hx]

theorem object_destroy : (s.destroy h).object = update s.object h none := by
  funext x
  by_cases hx : x = h
  · subst hx
    simp [object, destroy]
  · simp [object, destroy, deleteRef, update_of_ne hx]

theorem object_release : (s.release h).object = update s.object h none := by
  funext x
  by_cases hx : x = h
  · subst hx
    simp [object, release]
  · simp [object, release, update_of_ne hx]

theorem object_swap (x : Holder) : (s.swap h c).object x = s.object (Equiv.swap h c x) := rfl

theorem mem_of_mem_newref (hr : r ∈ newref obj fresh) : r ∈ fresh := by
  unfold newref at hr
  split at hr
  · exact hr
  · cases hr

theorem places_init : init.Places fun _ => .outside := by
  constructor <;> simp [init, object]

namespace Places

section

variable (hp : s.Places place)
include hp

theorem raw_iff (r : Ref) : s.Raw r ↔ place r = .outside ∨ place r = .given := by
  unfold Raw
  rw [hp.owned, hp.given, not_not]

/-- A reference that no holder has comes to one that has nothing. -/
theorem held_in (hempty : s.object h = none) (hfree : ∀ c, place r ≠ .held c) (c : Holder)
    (q : Ref) : update s.object h (some r) c = some q ↔
      update place r (.held h) q = .held c := by
  by_cases hc : c = h
  · subst hc
    by_cases hq : q = r
    · subst hq
      simp
    · have hnot : place q ≠ .held c := fun heq => by
        rw [← hp.held, hempty] at heq
        cases heq
      simpa [update_of_ne hq, Ne.symm hq] using hnot
  · rw [update_of_ne hc, hp.held]
    by_cases hq : q = r
    · subst hq
      simpa [Ne.symm hc] using hfree c
    · rw [update_of_ne hq]

theorem held_out (hhas : s.object h = some r) {p : Place} (hpc : ∀ c, p ≠ .held c) (c : Holder)
    (q : Ref) : update s.object h none c = some q ↔
      update place r p q = .held c := by
  by_cases hq : q = r
  · subst hq
    rw [update_self]
    refine iff_of_false (fun heq => ?_) (hpc c)
    by_cases hc : c = h
    · subst hc
      simp at heq
    · rw [update_of_ne hc, hp.held, (hp.held h q).mp hhas] at heq
      cases heq
      exact hc rfl
  · rw [update_of_ne hq, ← hp.held]
    by_cases hc : c = h
    · subst hc
      simp [hhas, Ne.symm hq]
    · rw [update_of_ne hc]

/-! ## One step -/

theorem take_none (hempty : s.object h = none) : (s.take h none).Places place where
  held c q := by
    rw [object_take, ← hempty, update_eq_self, hp.held]
  owned q := by simpa [take] using hp.owned q
  given q := by simpa [take] using hp.given q
  deleted := hp.deleted

theorem take_some (hempty : s.object h = none) (hraw : s.Raw r) :
    (s.take h (some r)).Places (update place r (.held h)) := by
  have hplace := (hp.raw_iff r).mp hraw
  refine ⟨fun c q => ?_, fun q => ?_, fun q => ?_, fun q => ?_⟩
  · rw [object_take]
    refine hp.held_in hempty (fun c => ?_) c q
    rcases hplace with heq | heq <;> simp [heq]
  all_goals by_cases hq : q = r
  · subst hq
    simp [take]
  · simpa [take, hq] using hp.owned q
  · subst hq
    simp [take]
  · simpa [take, hq] using hp.given q
  · subst hq
    have hcount := hp.deleted q
    rcases hplace with heq | heq <;> simpa [take, heq] using hcount
  · simpa [take, hq] using hp.deleted q

theorem take_of_raw (hempty : s.object h = none) (hraw : ∀ r ∈ obj, s.Raw r) :
    ∃ place', (s.take h obj).Places place' := by
  cases obj with
  | none => exact ⟨place, hp.take_none hempty⟩
  | some r => exact ⟨_, hp.take_some hempty (hraw r rfl)⟩

/-- What a holder has is given away or deleted, and the holder has nothing then. -/
theorem leave {s' : JniState} {p : Place} (hp' : p = .given ∨ p = .deleted) (h : Holder)
    (hobject : s'.object = update s.object h none) (howned : s'.owned = s.owned)
    (hgiven : s'.given = s.given ++ if p = .given then (s.object h).toList else [])
    (hdeleted : s'.deleted = s.deleted ++ if p = .deleted then (s.object h).toList else []) :
    ∃ place', s'.Places place' := by
  cases hobj : s.object h with
  | none =>
    rw [hobj, Option.toList_none, ite_self, List.append_nil] at hgiven hdeleted
    refine ⟨place, fun c q => ?_, fun q => ?_, fun q => ?_, fun q => ?_⟩
    · rw [hobject, ← hobj, update_eq_self, hp.held]
    · rw [howned, hp.owned]
    · rw [hgiven, hp.given]
    · rw [hdeleted, hp.deleted]
  | some r =>
    have hplace := (hp.held h r).mp hobj
    rw [hobj, Option.toList_some] at hgiven hdeleted
    refine ⟨update place r p, fun c q => ?_, fun q => ?_, fun q => ?_, fun q => ?_⟩
    · rw [hobject]
      exact hp.held_out hobj (by rcases hp' with rfl | rfl <;> simp) c q
    · have hold := hp.owned q
      rw [howned]
      by_cases hq : q = r
      · subst hq
        rcases hp' with rfl | rfl <;> simpa [hplace] using hold
      · simpa [hq] using hold
    · have hold := hp.given q
      rw [hgiven]
      by_cases hq : q = r
      · subst hq
        rcases hp' with rfl | rfl
        · simp
        · simpa [hplace] using hold
      · rcases hp' with rfl | rfl <;> simpa [hq] using hold
    · have hold := hp.deleted q
      rw [hdeleted]
      by_cases hq : q = r
      · subst hq
        rcases hp' with rfl | rfl <;> simpa [hplace] using hold
      · rcases hp' with rfl | rfl <;> simpa [hq, Ne.symm hq] using hold

theorem destroyed (h : Holder) : ∃ place', (s.destroy h).Places place' :=
  hp.leave (Or.inr rfl) h object_destroy rfl (by simp [destroy, deleteRef]) rfl

theorem released (h : Holder) : ∃ place', (s.release h).Places place' :=
  hp.leave (Or.inl rfl) h object_release rfl rfl (by simp [release])

theorem swapped (h c : Holder) : ∃ place', (s.swap h c).Places place' := by
  refine ⟨fun r => (place r).mapHolder (Equiv.swap h c), fun x q => ?_, fun q => ?_, fun q => ?_,
    fun q => ?_⟩
  · rw [object_swap, hp.held]
    cases place q with
    | held y => simp [Place.mapHolder, Equiv.swap_apply_eq_iff]
    | outside => simp [Place.mapHolder]
    | given => simp [Place.mapHolder]
    | deleted => simp [Place.mapHolder]
  · show q ∈ s.owned ↔ _
    rw [hp.owned]
    cases place q <;> simp [Place.mapHolder]
  · show q ∈ s.given ↔ _
    rw [hp.given]
    cases place q <;> simp [Place.mapHolder]
  · show s.deleted.count q = _
    rw [hp.deleted]
    cases place q <;> simp [Place.mapHolder]

theorem assigned (htmp : s.holders none = none) (hfresh : ∀ r ∈ fresh, r ∉ s.owned) :
    ∃ place', (s.assign h c fresh).Places place' := by
  have hraw : ∀ r ∈ newref (s.object c) fresh, s.Raw r := by
    intro r hr
    exact Or.inl (hfresh r (mem_of_mem_newref hr))
  obtain ⟨place₁, hcopy⟩ := hp.take_of_raw (h := none) (by rw [object, htmp]; rfl) hraw
  obtain ⟨place₂, hswap⟩ := hcopy.swapped h none
  exact hswap.destroyed none

end

end Places

/-! ## Runs -/

/-- What owning a reference means. -/
structure Sound (s : JniState) : Prop where
  undeleted : ∀ h r, s.object h = some r → r ∉ s.deleted
  once : ∀ r, s.deleted.count r ≤ 1
  settled : ∀ r ∈ s.owned, r ∉ s.given → (∀ h, s.object h ≠ some r) → s.deleted.count r = 1
  kept : ∀ r ∈ s.given, r ∉ s.deleted

theorem Places.sound (hp : s.Places place) : s.Sound where
  undeleted h r hobj := by
    rw [← List.count_eq_zero, hp.deleted, (hp.held h r).mp hobj]
    rfl
  once r := by
    rw [hp.deleted]
    split <;> simp
  settled r howned hgiven hheld := by
    rw [hp.deleted]
    have hnotHeld : ∀ h, place r ≠ .held h := fun h => mt (hp.held h r).mpr (hheld h)
    rw [hp.owned] at howned
    rw [hp.given] at hgiven
    cases hplace : place r with
    | outside => exact absurd hplace howned
    | held h => exact absurd hplace (hnotHeld h)
    | given => exact absurd hplace hgiven
    | deleted => rfl
  kept r hgiven := by
    rw [← List.count_eq_zero, hp.deleted, (hp.given r).mp hgiven]
    rfl

/-- `reset` has nothing to delete and nothing to keep. -/
def Harmless (s : JniState) : Op → Prop
  | .reset h obj => obj = none ∧ s.object h = none
  | _ => True

/-- Every `reset` of the run is harmless when it comes. -/
def HarmlessRun (s : JniState) : List Op → Prop
  | [] => True
  | op :: ops => s.Harmless op ∧ (s.step op).HarmlessRun ops

/-- In every state of a run. -/
def Throughout (P : JniState → Prop) (s : JniState) : List Op → Prop
  | [] => P s
  | op :: ops => P s ∧ (s.step op).Throughout P ops

/-- Between operations. -/
def Tidy (s : JniState) : Prop := s.holders none = none ∧ ∃ place, s.Places place

theorem object_of_holders_none (hnone : s.holders h = none) : s.object h = none := by
  rw [object, hnone]
  rfl

theorem holders_step_none (htmp : s.holders none = none) (op : Op) :
    (s.step op).holders none = none := by
  cases op with
  | assign h c fresh => simp [step, assign, destroy]
  | _ => simpa [step, construct, copy, reset, release, destroy, take, deleteRef]

theorem Tidy.step {op : Op} (htidy : s.Tidy) (hlegal : s.Legal op) (hharmless : s.Harmless op) :
    (s.step op).Tidy := by
  obtain ⟨htmp, place, hp⟩ := htidy
  refine ⟨holders_step_none htmp op, ?_⟩
  cases op with
  | construct h obj => exact hp.take_of_raw (object_of_holders_none hlegal.1) hlegal.2
  | copy h c fresh =>
    refine hp.take_of_raw (object_of_holders_none hlegal.1) fun r hr => ?_
    exact Or.inl (hlegal.2.2 r (mem_of_mem_newref hr))
  | assign h c fresh => exact hp.assigned htmp hlegal.2.2
  | reset h obj =>
    obtain ⟨rfl, hempty⟩ := hharmless
    have hdelete : s.deleteRef none = s := by rw [deleteRef, Option.toList_none, List.append_nil]
    refine ⟨place, ?_⟩
    show ((s.deleteRef none).take h none).Places place
    rw [hdelete]
    exact hp.take_none hempty
  | release h => exact hp.released h
  | destroy h => exact hp.destroyed h

/-- A `reset` that is not harmless leaves a holder with a deleted reference, or a reference with
    nobody to delete it. -/
theorem Tidy.not_sound_reset {h : Nat} (htidy : s.Tidy)
    (hharm : ¬ s.Harmless (.reset h obj)) : ¬ (s.reset h obj).Sound := by
  obtain ⟨-, place, hp⟩ := htidy
  intro hsound
  cases obj with
  | some r =>
    have hobj : (s.reset h (some r)).object h = some r := by
      rw [reset, object_take, update_self]
    exact hsound.undeleted h r hobj (by simp [reset, take, deleteRef])
  | none =>
    cases hobj : s.object h with
    | none => exact hharm ⟨rfl, hobj⟩
    | some r =>
      have hplace := (hp.held h r).mp hobj
      have hcount := hsound.settled r ?_ ?_ ?_
      · rw [reset, take, deleteRef, Option.toList_none, List.append_nil, hp.deleted, hplace]
          at hcount
        cases hcount
      · simp [reset, take, deleteRef, hp.owned, hplace]
      · simp [reset, take, deleteRef, hp.given, hplace]
      · intro c heq
        rw [reset, object_take] at heq
        by_cases hc : c = h
        · subst hc
          simp at heq
        · rw [update_of_ne hc] at heq
          have hother := (hp.held c r).mp heq
          rw [hplace] at hother
          cases hother
          exact hc rfl

theorem Tidy.throughout_iff (htidy : s.Tidy) {ops : List Op} (hlegal : s.LegalRun ops) :
    s.Throughout Sound ops ↔ s.HarmlessRun ops := by
  induction ops generalizing s with
  | nil =>
    obtain ⟨-, place, hp⟩ := htidy
    exact iff_of_true hp.sound trivial
  | cons op ops ih =>
    obtain ⟨hop, hops⟩ := hlegal
    obtain ⟨-, place, hp⟩ := id htidy
    have hhead : s.Throughout Sound (op :: ops) ↔ (s.step op).Throughout Sound ops :=
      and_iff_right hp.sound
    rw [hhead]
    by_cases hharmless : s.Harmless op
    · rw [ih (htidy.step hop hharmless) hops]
      exact (and_iff_right hharmless).symm
    · refine iff_of_false (fun hthrough => ?_) fun hrun => hharmless hrun.1
      have hsound : (s.step op).Sound := by
        cases ops with
        | nil => exact hthrough
        | cons op' ops => exact hthrough.1
      cases op with
      | reset h obj => exact htidy.not_sound_reset hharmless hsound
      | _ => exact hharmless trivial

/-- **Ownership.** However holders are made, copied, assigned, reset, released and destroyed, every
    reference is deleted exactly once after its holder lost it, unless it was given away, and no
    holder has a deleted one, exactly if nothing but empty holders is ever reset, to nothing. -/
theorem throughout_sound_iff {ops : List Op} (hlegal : init.LegalRun ops) :
    init.Throughout Sound ops ↔ init.HarmlessRun ops :=
  Tidy.throughout_iff ⟨rfl, _, places_init⟩ hlegal

/-- A holder is copied and assigned to itself, the copy is released from, both are destroyed. -/
theorem sound_without_reset : init.Throughout Sound [.construct 0 (some 10), .copy 1 0 (some 11),
    .assign 0 0 (some 12), .release 1, .destroy 0, .destroy 1] := by
  refine (throughout_sound_iff (by decide)).mpr ?_
  exact ⟨trivial, trivial, trivial, trivial, trivial, trivial, trivial⟩

/-- A holder is reset to a new reference, and has a deleted one then. -/
theorem not_sound_reset_new :
    init.LegalRun [.construct 0 (some 10), .reset 0 (some 11)] ∧
      ((init.construct (some 0) (some 10)).reset (some 0) (some 11)).object (some 0) = some 11 ∧
      ((init.construct (some 0) (some 10)).reset (some 0) (some 11)).deleted = [11] ∧
      ¬ init.Throughout Sound [.construct 0 (some 10), .reset 0 (some 11)] := by
  refine ⟨by decide, by decide, rfl, ?_⟩
  rintro ⟨-, -, hsound⟩
  exact absurd (hsound.undeleted (some 0) 11 (by decide)) (by decide)

end JniState

end CrystaxNdk.Jutils
