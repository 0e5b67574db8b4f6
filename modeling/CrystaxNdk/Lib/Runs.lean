import Mathlib

/-!
# Runs of a system

A system is given by a step function: in a state, an action of one of its parts is possible or
not, and if it is, it leads to a state and can be seen from outside as an event. `Run` are the
traces of events and the states they end in, over all orders of actions. What holds of a run is
proved by what one step keeps. Step functions are often computations in `Except`; these are taken
apart with `bind_eq_ok`. The last section compares the runs of a machine with those of its model.
-/

namespace CrystaxNdk.Lib

open List

section Except

variable {ε : Type*} {α β : Type}

theorem bind_eq_ok {x : Except ε α} {f : α → Except ε β} {res : β} :
    (x >>= f) = .ok res ↔ ∃ a, x = .ok a ∧ f a = .ok res := by
  cases x with
  | error fault => simp [bind, Except.bind]
  | ok a => simp [bind, Except.bind]

theorem eq_ok_of_toOption {x : Except ε α} {a : α} (h : x.toOption = some a) : x = .ok a := by
  cases x with
  | error fault => cases h
  | ok b => exact congrArg _ (Option.some.inj h)

end Except

variable {σ α ε : Type*}

/-- The events of a run from `s₀`, and the state it ends in. -/
inductive Run (step : σ → α → Option (σ × ε)) (s₀ : σ) : List ε → σ → Prop
  | nil : Run step s₀ [] s₀
  | snoc {trace : List ε} {s s' : σ} {a : α} {e : ε} (h : Run step s₀ trace s)
      (hstep : step s a = some (s', e)) : Run step s₀ (trace ++ [e]) s'

def runActions (step : σ → α → Option (σ × ε)) : σ → List α → Option (List ε × σ)
  | s, [] => some ([], s)
  | s, a :: actions =>
    match step s a with
    | none => none
    | some (s', e) => (runActions step s' actions).map fun res => (e :: res.1, res.2)

variable {step : σ → α → Option (σ × ε)} {s₀ s : σ} {trace : List ε}

theorem Run.append {s₁ : σ} {trace' : List ε} (h : Run step s₀ trace s₁)
    (h' : Run step s₁ trace' s) : Run step s₀ (trace ++ trace') s := by
  induction h' with
  | nil => simpa using h
  | snoc _ hstep ih =>
    rw [← append_assoc]
    exact ih.snoc hstep

variable {actions : List α}

theorem run_of_runActions (h : runActions step s₀ actions = some (trace, s)) :
    Run step s₀ trace s := by
  induction actions generalizing s₀ trace with
  | nil => cases h; exact Run.nil
  | cons a actions ih =>
    rw [runActions] at h
    cases hstep : step s₀ a with
    | none => rw [hstep] at h; cases h
    | some next =>
      rw [hstep] at h
      obtain ⟨res, hrest, heq⟩ := Option.map_eq_some_iff.mp h
      cases heq
      exact (Run.nil.snoc hstep).append (ih hrest)

theorem runActions_concat {a : α} {trace' : List ε} {s' : σ} :
    runActions step s₀ (actions ++ [a]) = some (trace', s') ↔
      ∃ trace s e, runActions step s₀ actions = some (trace, s) ∧ step s a = some (s', e) ∧
        trace' = trace ++ [e] := by
  induction actions generalizing s₀ trace' with
  | nil =>
    rw [nil_append, runActions]
    cases hstep : step s₀ a with
    | none => simp [runActions, hstep]
    | some next =>
      obtain ⟨s₁, e⟩ := next
      simp [runActions, hstep, and_comm, eq_comm]
  | cons b actions ih =>
    rw [cons_append, runActions, runActions]
    cases hstep : step s₀ b with
    | none => simp
    | some next =>
      obtain ⟨s₁, e⟩ := next
      simp only [Option.map_eq_some_iff]
      constructor
      · rintro ⟨⟨trace₁, s₂⟩, hrest, heq⟩
        cases heq
        obtain ⟨trace, s, e', hactions, hlast, rfl⟩ := ih.mp hrest
        exact ⟨e :: trace, s, e', ⟨_, hactions, rfl⟩, hlast, rfl⟩
      · rintro ⟨trace, s, e', ⟨⟨trace₁, s₂⟩, hactions, heq⟩, hlast, rfl⟩
        cases heq
        exact ⟨_, ih.mpr ⟨trace₁, s₂, e', hactions, hlast, rfl⟩, rfl⟩

/-- What holds at each action of a run is checked from its first action on. -/
theorem forall_concat_prefix_cons {P : List α → α → Prop} {b : α} :
    (∀ front a, front ++ [a] <+: b :: actions → P front a) ↔
      P [] b ∧ ∀ front a, front ++ [a] <+: actions → P (b :: front) a := by
  constructor
  · intro h
    refine ⟨h [] b (by simp), fun front a hfront => h (b :: front) a ?_⟩
    rw [cons_append, cons_prefix_cons]
    exact ⟨rfl, hfront⟩
  · rintro ⟨hfirst, hrest⟩ front a hfront
    cases front with
    | nil =>
      rw [nil_append, cons_prefix_cons] at hfront
      rw [hfront.1]
      exact hfirst
    | cons c front =>
      rw [cons_append, cons_prefix_cons] at hfront
      rw [hfront.1]
      exact hrest front a hfront.2

theorem forall_concat_prefix_nil {P : List α → α → Prop} :
    (∀ front a, front ++ [a] <+: [] → P front a) ↔ True := by
  simp

theorem forall_of_runActions_iff {P : List ε → σ → Prop} [∀ trace s, Decidable (P trace s)] :
    (∀ trace s, runActions step s₀ actions = some (trace, s) → P trace s) ↔
      (runActions step s₀ actions).all (fun res => decide (P res.1 res.2)) = true := by
  cases runActions step s₀ actions with
  | none => simp
  | some res =>
    simp only [Option.some.injEq, Option.all_some, decide_eq_true_eq]
    constructor
    · intro h
      exact h res.1 res.2 rfl
    · rintro h trace s rfl
      exact h

theorem exists_runActions_iff {P : List ε → σ → Prop} [∀ trace s, Decidable (P trace s)] :
    (∃ trace s, runActions step s₀ actions = some (trace, s) ∧ P trace s) ↔
      (runActions step s₀ actions).any (fun res => decide (P res.1 res.2)) = true := by
  cases runActions step s₀ actions with
  | none => simp
  | some res =>
    simp only [Option.some.injEq, Option.any_some, decide_eq_true_eq]
    constructor
    · rintro ⟨trace, s, rfl, h⟩
      exact h
    · intro h
      exact ⟨res.1, res.2, rfl, h⟩

/-- What every step keeps that meets a condition holds after actions that all meet it. -/
theorem invariant_of_runActions {I : List ε → σ → Prop} {C : List ε → σ → α → Prop}
    (hstart : I [] s₀)
    (hstep : ∀ trace s a s' e, I trace s → C trace s a → step s a = some (s', e) →
      I (trace ++ [e]) s') (hactions : ∀ front a, front ++ [a] <+: actions → ∀ trace s,
      runActions step s₀ front = some (trace, s) → C trace s a)
    (hrun : runActions step s₀ actions = some (trace, s)) : I trace s := by
  induction actions using List.reverseRecOn generalizing trace s with
  | nil =>
    cases hrun
    exact hstart
  | append_singleton front a ih =>
    obtain ⟨trace', s₁, e, hfront, hlast, rfl⟩ := runActions_concat.mp hrun
    have hbefore := ih (fun front' a' hbegins => hactions front' a'
      (hbegins.trans (prefix_append front [a]))) hfront
    exact hstep trace' s₁ a s e hbefore
      (hactions front a (prefix_refl _) trace' s₁ hfront) hlast

variable {front back : List ε} {e : ε}

/-- An event of a trace that has just got a new last one. -/
theorem concat_eq_split {last : ε} (h : trace ++ [last] = front ++ e :: back) :
    (trace = front ∧ last = e ∧ back = []) ∨
      ∃ back', trace = front ++ e :: back' ∧ back = back' ++ [last] := by
  rcases eq_nil_or_concat back with rfl | ⟨back', x, rfl⟩
  · obtain ⟨htrace, hlast⟩ := append_inj' h rfl
    exact Or.inl ⟨htrace, by simpa using hlast, rfl⟩
  · have h' : trace ++ [last] = (front ++ e :: back') ++ [x] := by simpa using h
    obtain ⟨htrace, hlast⟩ := append_inj' h' rfl
    obtain rfl : last = x := by simpa using hlast
    exact Or.inr ⟨back', htrace, by simp⟩

/-- A trace that keeps to a fixed order of events has, before each of them, what the order has
    before it. -/
theorem eq_of_append_cons_prefix (before after : List ε) (hnd : (before ++ e :: after).Nodup)
    (h : front ++ e :: back <+: before ++ e :: after) :
    front = before := by
  obtain ⟨rest, hrest⟩ := h
  rw [append_assoc, cons_append] at hrest
  obtain ⟨-, hafter, hdisj⟩ := nodup_append.mp hnd
  have hbefore : e ∉ before := fun he => hdisj e he e (by simp) rfl
  have hnotAfter : e ∉ after := (nodup_cons.mp hafter).1
  exact ((append_cons_inj_of_notMem hbefore hnotAfter).mp hrest.symm).1.symm

/-- A run up to an event, the step of that event, and the rest. -/
theorem Run.split (h : Run step s₀ trace s) (heq : trace = front ++ e :: back) :
    ∃ s₁ a s₂, Run step s₀ front s₁ ∧ step s₁ a = some (s₂, e) ∧ Run step s₂ back s := by
  induction h generalizing back with
  | nil => simp at heq
  | @snoc trace s s' a last h hstep ih =>
    rcases concat_eq_split heq with ⟨rfl, rfl, rfl⟩ | ⟨back', htrace, rfl⟩
    · exact ⟨s, a, s', h, hstep, Run.nil⟩
    · obtain ⟨s₁, b, s₂, hfront, he, hback⟩ := ih htrace
      exact ⟨s₁, b, s₂, hfront, he, hback.snoc hstep⟩

/-!
## A machine and what it is for

A machine whose calls may have no result, its abstract model, and the relation between the states of
the two. When each call refines the model exactly where some resource of the machine suffices, a run
refines it exactly where the resource suffices at each call.
-/

variable {σ A C Op Out : Type*} (step : σ → Op → Option (σ × Out))
  (spec : A → Op → Option (A × Out))

/-- The calls are ones the model has, and keep it in `Domain`. -/
def Within (Domain : A → Prop) (a : A) : List Op → Prop
  | [] => True
  | op :: ops => ∃ result, spec a op = some result ∧ Domain result.1 ∧ Within Domain result.1 ops

/-- Every call has the model's output and leaves a state that represents the model's. -/
def Refines (Rep : σ → A → Prop) (s : σ) (a : A) : List Op → Prop
  | [] => True
  | op :: ops => ∃ s' a' out, step s op = some (s', out) ∧ spec a op = some (a', out) ∧ Rep s' a' ∧
      Refines Rep s' a' ops

/-- The resource, which a call changes by `next`, is enough for the model's state at each call. -/
def Fits (next : C → A → Op → C) (enough : C → A → Prop) (c : C) (a : A) : List Op → Prop
  | [] => True
  | op :: ops => ∀ result, spec a op = some result → enough (next c a op) result.1 ∧
      Fits next enough (next c a op) result.1 ops

theorem refines_iff_fits {Domain : A → Prop} {Rep : σ → A → Prop} {next : C → A → Op → C}
    {enough : C → A → Prop} (Inv : σ → A → Prop) (resource : σ → C)
    (hstep : ∀ {s a op a' out}, Inv s a → Domain a' → spec a op = some (a', out) →
      ∃ r : Option σ, step s op = r.map (·, out) ∧
        (∀ s', r = some s' → Rep s' a' → enough (next (resource s) a op) a') ∧
        (enough (next (resource s) a op) a' → ∃ s', r = some s' ∧ Rep s' a' ∧ Inv s' a' ∧
          resource s' = next (resource s) a op))
    {ops : List Op} : ∀ {s a}, Inv s a → Within spec Domain a ops →
      (Refines step spec Rep s a ops ↔ Fits spec next enough (resource s) a ops) := by
  induction ops with
  | nil => exact fun _ _ => Iff.rfl
  | cons op ops ih =>
    intro s a hinv hwithin
    obtain ⟨⟨a', out⟩, hspec, hdomain, hrest⟩ := hwithin
    obtain ⟨r, hr, hwrong, hright⟩ := hstep hinv hdomain hspec
    constructor
    · rintro ⟨s', a'', out', hcall, hspec', hrep, hrefines⟩ result hresult
      obtain ⟨rfl, rfl⟩ := Prod.mk.inj (Option.some.inj (hspec.symm.trans hspec'))
      obtain rfl := Option.some.inj (hspec.symm.trans hresult)
      obtain ⟨s₁, rfl, hs₁⟩ := Option.map_eq_some_iff.mp (hr.symm.trans hcall)
      obtain ⟨rfl, -⟩ := Prod.mk.inj hs₁
      obtain ⟨s', hs', -, hinv', hresource⟩ := hright (hwrong s₁ rfl hrep)
      obtain rfl := Option.some.inj hs'
      exact ⟨hwrong s₁ rfl hrep, hresource ▸ (ih hinv' hrest).mp hrefines⟩
    · intro hfits
      obtain ⟨henough, hfits'⟩ := hfits _ hspec
      obtain ⟨s', rfl, hrep, hinv', hresource⟩ := hright henough
      exact ⟨s', a', out, hr, hspec, hrep, (ih hinv' hrest).mpr (hresource ▸ hfits')⟩

end CrystaxNdk.Lib
