import Mathlib

/-!
# Blocks of pages and of cells

A loop that goes through a range page by page, looks for the maximal blocks of pages with some
property and does something with each of them as a whole. `advance` is the inner loop and
`scanBlocks` the outer one. `scanBlocks_induct` is the rule for it: an invariant that tells how far
the loop is, that is kept by passing over pages without the property and by the action on a block of
pages with it, holds at the end of the range. The second section is about writing into a block.
-/

namespace CrystaxNdk.Lib

variable {σ : Type*}

/-- `while (p < size && cond(p)) p = next(p);` -/
def advance (next : Nat → Nat) (size : Nat) (cond : Nat → Bool) : Nat → Nat → Option Nat
  | 0, _ => none
  | fuel + 1, p =>
    if p < size ∧ cond p = true then advance next size cond fuel (next p) else some p

/-- Pages without the property are passed over, the action is taken on the block after them if it
    has pages, until the range is at its end or the action fails. -/
def scanBlocks (next : Nat → Nat) (size : Nat) (test : σ → Nat → Bool)
    (act : σ → Nat → Nat → σ × Bool) : Nat → σ → Nat → Option (σ × Bool)
  | 0, _, _ => none
  | fuel + 1, s, p =>
    (advance next size (fun q => !test s q) (fuel + 1) p).bind fun p =>
      (advance next size (test s) (fuel + 1) p).bind fun p2 =>
        let r := if p < p2 then act s p p2 else (s, true)
        if r.2 ∧ p2 < size then scanBlocks next size test act fuel r.1 p2 else some r

variable {next : Nat → Nat} {page size : Nat}

theorem add_le_of_dvd_of_lt {p q : Nat} (hp : page ∣ p) (hq : page ∣ q) (h : p < q) :
    p + page ≤ q := by
  obtain ⟨i, rfl⟩ := hp
  obtain ⟨j, rfl⟩ := hq
  have hij : i < j := lt_of_mul_lt_mul_left h (Nat.zero_le page)
  calc page * i + page = page * (i + 1) := by ring
    _ ≤ page * j := Nat.mul_le_mul_left page hij

theorem advance_spec (hsize : page ∣ size)
    (hnext : ∀ p, page ∣ p → p < size → next p = p + page) (cond : Nat → Bool) {fuel p : Nat}
    (hp : page ∣ p) (hle : p ≤ size) (hfuel : size < p + fuel * page) :
    ∃ p', advance next size cond fuel p = some p' ∧ page ∣ p' ∧ p ≤ p' ∧ p' ≤ size ∧
      (∀ q, page ∣ q → p ≤ q → q < p' → cond q = true) ∧ (p' < size → cond p' = false) := by
  induction fuel generalizing p with
  | zero => omega
  | succ fuel ih =>
    rw [advance]
    by_cases hgo : p < size ∧ cond p = true
    · have hle' := add_le_of_dvd_of_lt hp hsize hgo.1
      rw [if_pos hgo, hnext p hp hgo.1]
      obtain ⟨p', hp', hdvd, hge, hle'', hall, hstop⟩ := ih (p := p + page)
        (Dvd.dvd.add hp dvd_rfl) hle' (by rw [Nat.add_mul] at hfuel; omega)
      refine ⟨p', hp', hdvd, by omega, hle'', fun q hq hpq hqp' => ?_, hstop⟩
      rcases Nat.eq_or_lt_of_le hpq with rfl | hlt
      · exact hgo.2
      · exact hall q hq (add_le_of_dvd_of_lt hp hq hlt) hqp'
    · rw [if_neg hgo]
      refine ⟨p, rfl, hp, le_rfl, hle, fun q _ hpq hqp => absurd hqp (Nat.not_lt.mpr hpq), ?_⟩
      intro hlt
      simpa [hlt] using hgo

/-- All pages from `p` to `p'` have a property, or none of them. -/
def Uniform (page : Nat) (prop : Nat → Bool) (value : Bool) (p p' : Nat) : Prop :=
  ∀ q, page ∣ q → p ≤ q → q < p' → prop q = value

theorem scanBlocks_induct {test : σ → Nat → Bool} {act : σ → Nat → Nat → σ × Bool}
    {I : Nat → σ → Prop} {prop : Nat → Bool} (hsize : page ∣ size)
    (hnext : ∀ p, page ∣ p → p < size → next p = p + page)
    (htest : ∀ p s, I p s → ∀ q, page ∣ q → q < size → test s q = prop q)
    (hskip : ∀ p p' s, page ∣ p → page ∣ p' → p ≤ p' → p' ≤ size → Uniform page prop false p p' →
      I p s → I p' s)
    (hact : ∀ p p' s, page ∣ p → page ∣ p' → p < p' → p' ≤ size → Uniform page prop true p p' →
      I p s → (act s p p').2 = true ∧ I p' (act s p p').1)
    {fuel p : Nat} {s : σ} (hp : page ∣ p) (hlt : p < size) (hfuel : size < p + fuel * page)
    (hI : I p s) :
    ∃ s', scanBlocks next size test act fuel s p = some (s', true) ∧ I size s' := by
  induction fuel generalizing p s with
  | zero => omega
  | succ fuel ih =>
    obtain ⟨p₁, hp₁, hdvd₁, hge₁, hle₁, hall₁, hstop₁⟩ :=
      advance_spec hsize hnext (fun q => !test s q) hp hlt.le hfuel
    have hI₁ : I p₁ s := by
      refine hskip p p₁ s hp hdvd₁ hge₁ hle₁ (fun q hq hpq hqp => ?_) hI
      rw [← htest p s hI q hq (hqp.trans_le hle₁)]
      simpa using hall₁ q hq hpq hqp
    obtain ⟨p₂, hp₂, hdvd₂, hge₂, hle₂, hall₂, hstop₂⟩ :=
      advance_spec hsize hnext (test s) hdvd₁ hle₁ (hfuel.trans_le (Nat.add_le_add_right hge₁ _))
    have hstep : ∃ s₂, (if p₁ < p₂ then act s p₁ p₂ else (s, true)) = (s₂, true) ∧ I p₂ s₂ := by
      by_cases hblock : p₁ < p₂
      · have hsame : Uniform page prop true p₁ p₂ := by
          intro q hq hpq hqp
          rw [← htest p₁ s hI₁ q hq (hqp.trans_le hle₂)]
          exact hall₂ q hq hpq hqp
        obtain ⟨hok, hI₂⟩ := hact p₁ p₂ s hdvd₁ hdvd₂ hblock hle₂ hsame hI₁
        exact ⟨(act s p₁ p₂).1, by rw [if_pos hblock, ← hok], hI₂⟩
      · obtain rfl : p₁ = p₂ := Nat.le_antisymm hge₂ (Nat.not_lt.mp hblock)
        exact ⟨s, if_neg hblock, hI₁⟩
    obtain ⟨s₂, heq, hI₂⟩ := hstep
    rw [scanBlocks, hp₁, Option.bind_some, hp₂, Option.bind_some]
    dsimp only
    rw [heq]
    by_cases hmore : p₂ < size
    · rw [if_pos ⟨rfl, hmore⟩]
      -- A page was passed: `p` itself has the property or not.
      have hprogress : p < p₂ := by
        rcases Nat.lt_or_ge p p₂ with h | h
        · exact h
        · obtain rfl : p₁ = p := by omega
          obtain rfl : p₂ = p₁ := by omega
          have htrue := hstop₁ hlt
          rw [hstop₂ hmore] at htrue
          cases htrue
      refine ih hdvd₂ hmore ?_ hI₂
      have hpage := add_le_of_dvd_of_lt hp hdvd₂ hprogress
      rw [Nat.add_mul] at hfuel
      omega
    · obtain rfl : p₂ = size := Nat.le_antisymm hle₂ (Nat.not_lt.mp hmore)
      rw [if_neg fun h => hmore h.2]
      exact ⟨s₂, rfl, hI₂⟩

/-!
## Blocks of cells

A block of memory as the list of all its cells, those that nothing was written to included. `blit`
is `memcpy` and `memmove` with a destination inside the block: the length of the block stays, and
what stands in front of the place and behind the bytes is left alone. `idxOf?` is `memchr`.
-/

open List

variable {α : Type*}

def blit (cells : List α) (pos : Nat) (bytes : List α) : List α :=
  cells.take pos ++ bytes ++ cells.drop (pos + bytes.length)

variable {cells bytes : List α} {pos : Nat}

theorem length_blit (h : pos + bytes.length ≤ cells.length) :
    (blit cells pos bytes).length = cells.length := by
  simp only [blit, length_append, length_take, length_drop]
  omega

theorem take_blit {n : Nat} (h : pos ≤ cells.length) (hn : n = pos + bytes.length) :
    (blit cells pos bytes).take n = cells.take pos ++ bytes := by
  rw [blit]
  refine take_left' ?_
  rw [length_append, length_take, hn]
  omega

/-- The first place of `a` is behind the elements that are not `a`. -/
theorem idxOf?_append_cons [DecidableEq α] {a : α} {s : List α} (h : a ∉ s) (t : List α) :
    (s ++ a :: t).idxOf? a = some s.length := by
  rw [idxOf?_eq_some_iff]
  refine ⟨by simp, by simp, fun j hj => ?_⟩
  rw [getElem_append_left hj]
  exact fun hja => h (hja ▸ getElem_mem hj)

end CrystaxNdk.Lib
