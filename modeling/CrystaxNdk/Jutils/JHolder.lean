import Mathlib.Logic.Equiv.Basic

/-!
# `jholder` — owners of JNI references

The class template of `jutils/jholder.hpp`, over all holders of a process at once. The two
refcounters delete and make references in the same way, so that one model does for both. A reference
is its identity: the Java side never makes the same one twice. What it answers to a request for a
new one is part of the operation that asks, `none` if there is no memory for it. Three lists record
what a holder ever owned, what `release` has given away since, and what was deleted, in order.
-/

namespace CrystaxNdk.Jutils

abbrev Ref := Nat

/-- A `jholder`; `none` is the temporary in `operator=`. -/
abbrev Holder := Option Nat

structure JniState where
  /-- The member `object` of every holder there is; the null reference is `none`. -/
  holders : Holder → Option (Option Ref)
  owned : List Ref
  given : List Ref
  deleted : List Ref

namespace JniState

def init : JniState := ⟨fun _ => none, [], [], []⟩

def object (s : JniState) (h : Holder) : Option Ref := (s.holders h).join

/-- `Refcounter::newref`; `fresh` is what `NewLocalRef` or `NewGlobalRef` returns. -/
def newref (obj fresh : Option Ref) : Option Ref := if obj.isSome then fresh else none

/-- `Refcounter::release`. -/
def deleteRef (s : JniState) (obj : Option Ref) : JniState :=
  { s with deleted := s.deleted ++ obj.toList }

/-- A reference is stored as the `object` of a holder. -/
def take (s : JniState) (h : Holder) (obj : Option Ref) : JniState :=
  { s with
    holders := Function.update s.holders h (some obj)
    owned := s.owned ++ obj.toList
    given := s.given.filter (some · ≠ obj) }

def construct (s : JniState) (h : Holder) (obj : Option Ref) : JniState := s.take h obj

def copy (s : JniState) (h c : Holder) (fresh : Option Ref) : JniState :=
  s.take h (newref (s.object c) fresh)

def destroy (s : JniState) (h : Holder) : JniState :=
  let s := s.deleteRef (s.object h)
  { s with holders := Function.update s.holders h none }

def swap (s : JniState) (h c : Holder) : JniState :=
  { s with holders := fun x => s.holders (Equiv.swap h c x) }

def assign (s : JniState) (h c : Holder) (fresh : Option Ref) : JniState :=
  ((s.copy none c fresh).swap h none).destroy none

def reset (s : JniState) (h : Holder) (obj : Option Ref) : JniState :=
  (s.deleteRef obj).take h obj

def release (s : JniState) (h : Holder) : JniState :=
  { s with
    holders := Function.update s.holders h (some none)
    given := s.given ++ (s.object h).toList }

end JniState

inductive Op where
  | construct (h : Nat) (obj : Option Ref)
  | copy (h c : Nat) (fresh : Option Ref)
  | assign (h c : Nat) (fresh : Option Ref)
  | reset (h : Nat) (obj : Option Ref)
  | release (h : Nat)
  | destroy (h : Nat)

namespace JniState

def step (s : JniState) : Op → JniState
  | .construct h obj => s.construct h obj
  | .copy h c fresh => s.copy h c fresh
  | .assign h c fresh => s.assign h c fresh
  | .reset h obj => s.reset h obj
  | .release h => s.release h
  | .destroy h => s.destroy h

/-- A reference that code outside of the holders has: a new one, or one they gave away. -/
def Raw (s : JniState) (r : Ref) : Prop := r ∉ s.owned ∨ r ∈ s.given

instance (s : JniState) (r : Ref) : Decidable (s.Raw r) := inferInstanceAs (Decidable (_ ∨ _))

/-- What the language and the Java side take care of: holders are used between their construction
    and their destruction, a raw reference is the caller's, a fresh one is new. -/
def Legal (s : JniState) : Op → Prop
  | .construct h obj => s.holders h = none ∧ ∀ r ∈ obj, s.Raw r
  | .copy h c fresh => s.holders h = none ∧ s.holders c ≠ none ∧ ∀ r ∈ fresh, r ∉ s.owned
  | .assign h c fresh => s.holders h ≠ none ∧ s.holders c ≠ none ∧ ∀ r ∈ fresh, r ∉ s.owned
  | .reset h obj => s.holders h ≠ none ∧ ∀ r ∈ obj, s.Raw r
  | .release h => s.holders h ≠ none
  | .destroy h => s.holders h ≠ none

instance (s : JniState) (op : Op) : Decidable (s.Legal op) := by
  cases op <;> dsimp only [Legal] <;> infer_instance

/-- Operations one after the other, each of them legal. -/
def LegalRun (s : JniState) : List Op → Prop
  | [] => True
  | op :: ops => s.Legal op ∧ (s.step op).LegalRun ops

instance decidableLegalRun (s : JniState) : (ops : List Op) → Decidable (s.LegalRun ops)
  | [] => inferInstanceAs (Decidable True)
  | op :: ops =>
    have := decidableLegalRun (s.step op) ops
    inferInstanceAs (Decidable (s.Legal op ∧ (s.step op).LegalRun ops))

end JniState

end CrystaxNdk.Jutils
