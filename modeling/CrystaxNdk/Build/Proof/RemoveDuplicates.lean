import CrystaxNdk.Build.Utils

/-!
# What `remove-duplicates` removes

`findstring` finds a word in the text collected so far when it is a part of one of the words there,
so a word also is removed when it is a part of an earlier one.
-/

namespace CrystaxNdk.Build

open Lib List

variable {eval : Eval} {list front : List Word} {w : Word} {text : List Char}

/-- The words that `eval` leaves as they are. -/
def Eval.Keeps (eval : Eval) (list : List Word) : Prop := ∀ w ∈ list, eval.reread w.chars = w.chars

theorem Eval.keeps_plain (h : ∀ w ∈ list, '$' ∉ w.chars ∧ '#' ∉ w.chars) : eval.Keeps list :=
  fun w hw => eval.reread_plain w.chars (h w hw).1 (h w hw).2

/-! ## One word -/

theorem findstring_iff : findstring w text = true ↔ w.chars <:+: text := by
  rw [findstring, any_eq_true, infix_iff_prefix_suffix]
  simp only [mem_tails, isPrefixOf_iff_prefix, and_comm]

theorem split_uniqAdd (hkeep : eval.reread w.chars = w.chars) :
    Word.split (uniqAdd eval text w) =
      Word.split text ++ if findstring w text then [] else [w] := by
  unfold uniqAdd
  split_ifs with hfound
  · rw [append_nil]
  · rw [hkeep, Word.split_append_blank rfl, Word.split_chars]

theorem infix_uniqAdd (hkeep : eval.reread w.chars = w.chars) :
    w.chars <:+: uniqAdd eval text w := by
  unfold uniqAdd
  split_ifs with hfound
  · exact findstring_iff.mp hfound
  · rw [hkeep]
    exact infix_append_of_infix_right (infix_cons (infix_refl _))

theorem infix_foldl_of_part (rest : List Word) (h : w.chars <:+: text) :
    w.chars <:+: rest.foldl (uniqAdd eval) text := by
  induction rest generalizing text with
  | nil => exact h
  | cons item rest ih =>
    refine ih ?_
    unfold uniqAdd
    split_ifs
    · exact h
    · exact infix_append_of_infix_left h

/-! ## The loop -/

theorem infix_foldl (hkeep : eval.Keeps front) (hw : w ∈ front) :
    w.chars <:+: front.foldl (uniqAdd eval) text := by
  induction front generalizing text with
  | nil => cases hw
  | cons item front ih =>
    rcases mem_cons.mp hw with rfl | hmem
    · exact infix_foldl_of_part front (infix_uniqAdd (hkeep w mem_cons_self))
    · exact ih (fun v hv => hkeep v (mem_cons_of_mem _ hv)) hmem

theorem mem_split_foldl (hkeep : eval.Keeps front)
    (hw : w ∈ Word.split (front.foldl (uniqAdd eval) text)) :
    w ∈ Word.split text ∨ w ∈ front ∧ ¬ w.chars <:+: text := by
  induction front generalizing text with
  | nil => exact Or.inl hw
  | cons item front ih =>
    have hitem := hkeep item mem_cons_self
    rcases ih (fun v hv => hkeep v (mem_cons_of_mem _ hv)) hw with hmem | ⟨hmem, hnot⟩
    · rw [split_uniqAdd hitem, mem_append] at hmem
      rcases hmem with hmem | hmem
      · exact Or.inl hmem
      · split_ifs at hmem with hfound
        · cases hmem
        · obtain rfl := mem_singleton.mp hmem
          exact Or.inr ⟨mem_cons_self, fun h => hfound (findstring_iff.mpr h)⟩
    · exact Or.inr ⟨mem_cons_of_mem _ hmem,
        fun h => hnot (infix_foldl_of_part [item] h)⟩

/-- At its first occurrence no word is a part of an earlier one. -/
def NoneInside (list : List Word) : Prop :=
  ∀ front w back, list = front ++ w :: back → w ∉ front → ∀ v ∈ front, ¬ w.chars <:+: v.chars

theorem eraseDups_concat (front : List Word) (w : Word) :
    (front ++ [w]).eraseDups = front.eraseDups ++ if w ∈ front then [] else [w] := by
  rw [eraseDups_append]
  by_cases hw : w ∈ front
  · simp [List.removeAll, hw]
  · simp [List.removeAll, hw, eraseDups_cons]

/-- The loop keeps the words of the text equal to the words met so far, without duplicates. -/
theorem NoneInside.split_foldl (hkeep : eval.Keeps list) (h : NoneInside list) :
    Word.split (list.foldl (uniqAdd eval) []) = list.eraseDups := by
  induction list using List.reverseRecOn with
  | nil => rfl
  | append_singleton front w ih =>
    have hfront : Word.split (front.foldl (uniqAdd eval) []) = front.eraseDups := by
      refine ih (fun v hv => hkeep v (mem_append_left _ hv)) ?_
      rintro before v back rfl
      exact h before v (back ++ [w]) (by simp)
    have hfound : findstring w (front.foldl (uniqAdd eval) []) = true ↔ w ∈ front := by
      rw [findstring_iff, Word.infix_iff_split, hfront]
      simp only [mem_eraseDups]
      constructor
      · rintro ⟨v, hv, hpart⟩
        by_contra hw
        exact h front w [] rfl hw v hv hpart
      · intro hw
        exact ⟨w, hw, infix_refl _⟩
    rw [foldl_append, foldl_cons, foldl_nil,
      split_uniqAdd (hkeep w (by simp)), hfront, eraseDups_concat]
    simp only [hfound]

/-- A word that is a part of an earlier one is not in the answer. -/
theorem not_mem_removeDuplicates {back : List Word} {v : Word}
    (hkeep : eval.Keeps (front ++ w :: back)) (hw : w ∉ front) (hv : v ∈ front)
    (hpart : w.chars <:+: v.chars) : w ∉ removeDuplicates eval (front ++ w :: back) := by
  have hfront : eval.Keeps front := fun u hu => hkeep u (mem_append_left _ hu)
  have hback : eval.Keeps (w :: back) := fun u hu => hkeep u (mem_append_right _ hu)
  -- `w` is found in the text from the front part on, so it is never appended
  have hfound : w.chars <:+: front.foldl (uniqAdd eval) [] :=
    hpart.trans (infix_foldl hfront hv)
  rw [removeDuplicates, foldl_append]
  intro hmem
  rcases mem_split_foldl hback hmem with hmem | ⟨-, hnot⟩
  · rcases mem_split_foldl hfront hmem with hmem | ⟨hmem, -⟩
    · cases hmem
    · exact hw hmem
  · exact hnot hfound

/-- `remove-duplicates` gives the distinct words of a list in the order of their first occurrences
    exactly when no word is, at its first occurrence, a part of an earlier one. -/
theorem removeDuplicates_eq_iff (eval : Eval) (list : List Word) (hkeep : eval.Keeps list) :
    removeDuplicates eval list = list.eraseDups ↔ NoneInside list := by
  constructor
  · rintro h front w back rfl hw v hv hpart
    have hlost := not_mem_removeDuplicates hkeep hw hv hpart
    rw [h, mem_eraseDups] at hlost
    exact hlost (by simp)
  · exact fun h => h.split_foldl hkeep

section Names

def libfoo : Word := Word.ofString "libfoo" (by simp [isBlank])

def foo : Word := ⟨['f', 'o', 'o'], by simp, by simp [isBlank]⟩

theorem removeDuplicates_foo_libfoo :
    removeDuplicates plainEval [foo, libfoo, foo] = [foo, libfoo, foo].eraseDups := by
  refine (removeDuplicates_eq_iff plainEval _ (Eval.keeps_plain (by decide))).mpr ?_
  have hlong : ¬ libfoo.chars <:+: foo.chars := fun h => absurd h.length_le (by decide)
  intro front w back heq hw v hv
  rcases front with _ | ⟨a, _ | ⟨b, front⟩⟩
  · cases hv
  · simp only [singleton_append, List.cons.injEq] at heq
    rwa [← heq.2.1, mem_singleton.mp hv, ← heq.1]
  · simp only [cons_append, List.cons.injEq] at heq
    have hlast : w ∈ [foo] := by
      rw [heq.2.2]
      simp
    rw [mem_singleton.mp hlast, ← heq.1] at hw
    exact absurd mem_cons_self hw

/-- `foo` is a part of `libfoo`, and is lost. -/
theorem removeDuplicates_libfoo_foo : foo ∉ removeDuplicates plainEval [libfoo, foo] ∧
    removeDuplicates plainEval [libfoo, foo] ≠ [libfoo, foo].eraseDups := by
  have hlost : foo ∉ removeDuplicates plainEval ([libfoo] ++ foo :: []) :=
    not_mem_removeDuplicates (Eval.keeps_plain (by decide)) (by decide) mem_cons_self
      ⟨['l', 'i', 'b'], [], by decide⟩
  refine ⟨hlost, fun h => hlost ?_⟩
  rw [singleton_append, h, mem_eraseDups]
  simp

example : removeDuplicates plainEval [foo, libfoo, foo] = [foo, libfoo] := by decide +kernel

end Names

end CrystaxNdk.Build
