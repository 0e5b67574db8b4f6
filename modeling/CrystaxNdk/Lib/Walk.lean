import Mathlib

/-!
# Walks in a tree of directories

A directory is the list of the names that lead to it from the root. A walk is made of moves: stay,
go up, or go down to a name; up from the root is the root. Once the moves that cancel each other
are taken out, what is left of a walk is its course: so many times up, and then down some names.
-/

namespace CrystaxNdk.Lib

open List

variable {α : Type*}

inductive Move (α : Type*)
  | stay
  | up
  | down (name : α)
deriving DecidableEq

def Move.apply (dir : List α) : Move α → List α
  | .stay => dir
  | .up => dir.dropLast
  | .down name => dir ++ [name]

def walk (dir : List α) (moves : List (Move α)) : List α := moves.foldl Move.apply dir

/-- `ups` times up, and then down `downs`. -/
@[ext]
structure Course (α : Type*) where
  ups : Nat
  downs : List α
deriving DecidableEq

namespace Course

def start : Course α := ⟨0, []⟩

def move (c : Course α) : Move α → Course α
  | .stay => c
  | .up => if c.downs = [] then ⟨c.ups + 1, []⟩ else ⟨c.ups, c.downs.dropLast⟩
  | .down name => ⟨c.ups, c.downs ++ [name]⟩

def apply (c : Course α) (dir : List α) : List α := dir.rdrop c.ups ++ c.downs

def moves (c : Course α) : List (Move α) := List.replicate c.ups .up ++ c.downs.map .down

end Course

def course (moves : List (Move α)) : Course α := moves.foldl Course.move .start

section Walks

variable {dir : List α} {c : Course α} {moves moves' : List (Move α)} {m : Move α}

@[simp]
theorem walk_nil : walk dir [] = dir := rfl

@[simp]
theorem walk_cons : walk dir (m :: moves) = walk (m.apply dir) moves := rfl

theorem walk_append : walk dir (moves ++ moves') = walk (walk dir moves) moves' := by
  simp [walk]

theorem prefix_walk (h : .up ∉ moves) : dir <+: walk dir moves := by
  induction moves generalizing dir with
  | nil => exact prefix_refl dir
  | cons m moves ih =>
    simp only [mem_cons, not_or] at h
    refine List.IsPrefix.trans ?_ (ih h.2)
    cases m with
    | stay => exact prefix_refl dir
    | up => exact absurd rfl h.1
    | down name => exact prefix_append dir [name]

theorem prefix_walk_take (h : .up ∉ moves) (n : Nat) :
    walk dir (moves.take n) <+: walk dir moves := by
  have hdrop : .up ∉ moves.drop n := fun hup => h (mem_of_mem_drop hup)
  conv_rhs => rw [← take_append_drop n moves, walk_append]
  exact prefix_walk hdrop

/-- Every name on the way was there before, or was gone down to. -/
theorem mem_walk {name : α} (h : name ∈ walk dir moves) : name ∈ dir ∨ Move.down name ∈ moves := by
  induction moves generalizing dir with
  | nil => exact Or.inl h
  | cons m moves ih =>
    rw [walk_cons] at h
    rcases ih h with hdir | hdown
    · cases m with
      | stay => exact Or.inl hdir
      | up => exact Or.inl (dropLast_subset dir hdir)
      | down last =>
        rcases mem_append.mp hdir with hdir | hlast
        · exact Or.inl hdir
        · rw [mem_singleton.mp hlast]
          exact Or.inr mem_cons_self
    · exact Or.inr (mem_cons_of_mem m hdown)

@[simp]
theorem course_nil : course ([] : List (Move α)) = .start := rfl

@[simp]
theorem course_concat : course (moves ++ [m]) = (course moves).move m := by
  simp [course]

theorem dropLast_rdrop (n : Nat) : (dir.rdrop n).dropLast = dir.rdrop (n + 1) := by
  simp only [List.rdrop, dropLast_eq_take, length_take, take_take]
  congr 1
  omega

theorem Course.apply_move : (c.move m).apply dir = m.apply (c.apply dir) := by
  cases m with
  | stay => rfl
  | up =>
    by_cases hdowns : c.downs = []
    · simp [move, apply, Move.apply, hdowns, dropLast_rdrop]
    · simp [move, apply, Move.apply, hdowns, dropLast_append_of_ne_nil]
  | down name => simp [move, apply, Move.apply]

theorem walk_eq_apply : walk dir moves = (course moves).apply dir := by
  induction moves using List.reverseRecOn with
  | nil => simp [Course.start, Course.apply]
  | append_singleton moves m ih =>
    rw [course_concat, Course.apply_move, ← ih, walk_append]
    rfl

@[simp]
theorem Course.apply_nil : c.apply [] = c.downs := by
  simp [apply]

theorem foldl_move_downs (names : List α) :
    (names.map Move.down).foldl Course.move c = ⟨c.ups, c.downs ++ names⟩ := by
  induction names generalizing c with
  | nil => simp
  | cons name names ih => simp [ih, Course.move]

theorem foldl_move_ups (n k : Nat) :
    (List.replicate n Move.up).foldl Course.move ⟨k, ([] : List α)⟩ = ⟨k + n, []⟩ := by
  induction n generalizing k with
  | zero => rfl
  | succ n ih =>
    rw [replicate_succ, foldl_cons]
    simp [Course.move, ih, Nat.add_comm, Nat.add_left_comm]

@[simp]
theorem course_moves : course c.moves = c := by
  rw [course, Course.moves, foldl_append, Course.start, foldl_move_ups, foldl_move_downs]
  simp

/-- Courses with the same names that go up a different number of times are told apart by a
    directory that is deep enough. -/
theorem Course.apply_ne {c c' : Course α} (hdowns : c'.downs = c.downs) (hups : c'.ups < c.ups)
    (hdeep : c.ups ≤ dir.length) : c'.apply dir ≠ c.apply dir := by
  intro heq
  have hlength := congrArg List.length heq
  simp only [apply, List.rdrop, length_append, length_take, hdowns] at hlength
  omega

end Walks

end CrystaxNdk.Lib
