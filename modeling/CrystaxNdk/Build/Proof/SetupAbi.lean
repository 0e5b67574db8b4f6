import CrystaxNdk.Build.SetupAbi
import CrystaxNdk.Lib.Digits

/-!
# The first level of an ABI

`subst` looks for the text of a level, and finds it in longer levels that begin with the same
digits. The levels that are replaced are not the beginnings of one another or of the minimum, so
that at most one of them is found in a platform and nothing is found in what comes out. That is
right for the level itself and wrong for the longer ones.
-/

namespace CrystaxNdk.Build

open Lib List

/-- A number that is left when the last digits of `n` are taken off, at least one. -/
def Begins (plat n : Nat) : Prop := ∃ k, n / 10 ^ (k + 1) = plat

/-! ## One list of levels -/

structure LevelList (levels : List Nat) (minimum : Nat) : Prop where
  pos : ∀ p ∈ levels, 3 ≤ p
  below : ∀ p ∈ levels, p < minimum
  near : minimum < 30
  complete : ∀ n < minimum, n ∈ levels ∨ n < 3 ∨ n = 6 ∨ n = 7
  apart : ∀ p ∈ levels, ∀ q ∈ levels, Nat.toDigits 10 p <+: Nat.toDigits 10 q → p = q
  stop : ∀ p ∈ levels, ¬ Nat.toDigits 10 p <+: Nat.toDigits 10 minimum ∧
    ¬ Nat.toDigits 10 minimum <+: Nat.toDigits 10 p

theorem levelList_below9 : LevelList levelsBelow9 9 := by
  constructor <;> decide

theorem levelList_below21 : LevelList levelsBelow21 21 := by
  constructor <;> decide

theorem toDigits_no_a (n : Nat) : 'a' ∉ Nat.toDigits 10 n := by
  intro h
  have hdigit := Nat.isDigit_of_mem_toDigits (by decide) (by decide) h
  exact absurd hdigit (by decide)

theorem platformText_cons (level : List Char) :
    platformText level = 'a' :: ("ndroid-".toList ++ level) := by
  have htext : "android-".toList = 'a' :: "ndroid-".toList := by decide
  unfold platformText
  rw [htext, cons_append]

theorem platformText_append (level rest : List Char) :
    platformText level ++ rest = platformText (level ++ rest) := by
  unfold platformText
  exact append_assoc _ _ _

theorem substitute_android (p q : Nat) {level : List Char} (h : 'a' ∉ level) :
    substitute (android p) (android q) (platformText level) =
      if Nat.toDigits 10 p <+: level then
        platformText (Nat.toDigits 10 q ++ level.drop (Nat.toDigits 10 p).length)
      else platformText level := by
  have htail : 'a' ∉ "ndroid-".toList ++ level := by simpa using h
  have hcommon : "ndroid-".toList ++ Nat.toDigits 10 p <+: "ndroid-".toList ++ level ↔
      Nat.toDigits 10 p <+: level := prefix_append_right_inj _
  rw [android, platformText_cons, platformText_cons level, substitute_cons htail]
  by_cases hmatch : Nat.toDigits 10 p <+: level
  · rw [if_pos hmatch, if_pos (hcommon.mpr hmatch), length_append,
      drop_length_add_append, android, platformText_append]
  · rw [if_neg hmatch, if_neg (mt hcommon.mp hmatch)]

theorem raisePlatform_unchanged {levels : List Nat} {minimum : Nat} {level : List Char}
    (h : 'a' ∉ level) (hnot : ∀ p ∈ levels, ¬ Nat.toDigits 10 p <+: level) :
    raisePlatform levels minimum (platformText level) = platformText level := by
  induction levels with
  | nil => rfl
  | cons p levels ih =>
    obtain ⟨hp, hlevels⟩ := forall_mem_cons.mp hnot
    rw [raisePlatform, foldl_cons, substitute_android p minimum h, if_neg hp]
    exact ih hlevels

section Raise

variable {levels : List Nat} {minimum : Nat} (hlist : LevelList levels minimum)
include hlist

theorem LevelList.not_prefix_minimum {p : Nat} (hp : p ∈ levels) (rest : List Char) :
    ¬ Nat.toDigits 10 p <+: Nat.toDigits 10 minimum ++ rest := by
  intro hmatch
  rcases prefix_or_prefix_of_prefix hmatch (prefix_append _ rest) with hle | hge
  · exact (hlist.stop p hp).1 hle
  · exact (hlist.stop p hp).2 hge

/-- A level that the platform begins with is replaced, and it is the only one. -/
theorem LevelList.raise_beginning {p : Nat} {rest : List Char} (hrest : 'a' ∉ rest)
    {sub : List Nat} (hsub : sub ⊆ levels) (hp : p ∈ sub) :
    raisePlatform sub minimum (platformText (Nat.toDigits 10 p ++ rest)) =
      platformText (Nat.toDigits 10 minimum ++ rest) := by
  have hlevel : ∀ n, 'a' ∉ Nat.toDigits 10 n ++ rest := by
    intro n
    rw [mem_append, not_or]
    exact ⟨toDigits_no_a n, hrest⟩
  have hmatch : Nat.toDigits 10 p <+: Nat.toDigits 10 p ++ rest := prefix_append _ _
  induction sub with
  | nil => cases hp
  | cons q sub ih =>
    obtain ⟨hq, hsub⟩ := cons_subset.mp hsub
    rw [raisePlatform, foldl_cons, substitute_android q minimum (hlevel p)]
    by_cases hqp : q = p
    · subst hqp
      rw [if_pos hmatch, drop_left]
      exact raisePlatform_unchanged (hlevel minimum) fun r hr =>
        hlist.not_prefix_minimum (hsub hr) rest
    · have hp : p ∈ sub := (mem_cons.mp hp).resolve_left (Ne.symm hqp)
      have hother : ¬ Nat.toDigits 10 q <+: Nat.toDigits 10 p ++ rest := by
        intro hmatch'
        rcases prefix_or_prefix_of_prefix hmatch' hmatch with hle | hge
        · exact hqp (hlist.apart q hq p (hsub hp) hle)
        · exact hqp (hlist.apart p (hsub hp) q hq hge).symm
      rw [if_neg hother]
      exact ih hsub hp

theorem LevelList.prefix_iff {p : Nat} (hp : p ∈ levels) (n : Nat) :
    Nat.toDigits 10 p <+: Nat.toDigits 10 n ↔ n = p ∨ Begins p n := by
  have hpos := hlist.pos p hp
  rw [toDigits_isPrefix_iff (by decide) (by decide) (by omega)]
  constructor
  · rintro ⟨k, hk⟩
    cases k with
    | zero => exact Or.inl (by rw [← hk, pow_zero, Nat.div_one])
    | succ k => exact Or.inr ⟨k, hk⟩
  · rintro (rfl | ⟨k, hk⟩)
    · exact ⟨0, by rw [pow_zero, Nat.div_one]⟩
    · exact ⟨k + 1, hk⟩

/-- Every level is at least as high as the minimum if a listed one begins it. -/
theorem LevelList.minimum_le {p n : Nat} (hp : p ∈ levels) (hbegins : Begins p n) :
    minimum ≤ n := by
  obtain ⟨k, hk⟩ := hbegins
  have hpos := hlist.pos p hp
  have hle : p * 10 ^ (k + 1) ≤ n := by
    rw [← hk]
    exact Nat.div_mul_le_self n _
  have hten : 10 ≤ 10 ^ (k + 1) := Nat.le_self_pow (Nat.succ_ne_zero k) 10
  have hthirty : 3 * 10 ≤ p * 10 ^ (k + 1) := Nat.mul_le_mul hpos hten
  have hnear := hlist.near
  omega

/-- A list of levels gives the right one exactly if none of them begins a longer one. -/
theorem LevelList.raise_right_iff {n : Nat} (h3 : 3 ≤ n) (h6 : n ≠ 6) (h7 : n ≠ 7) :
    raisePlatform levels minimum (android n) = android (max n minimum) ↔
      ∀ p ∈ levels, ¬ Begins p n := by
  constructor
  · intro hright p hp hbegins
    obtain ⟨rest, hrest⟩ := (hlist.prefix_iff hp n).mpr (Or.inr hbegins)
    have hno : 'a' ∉ rest := by
      intro ha
      exact toDigits_no_a n (hrest ▸ mem_append_right _ ha)
    rw [max_eq_left (hlist.minimum_le hp hbegins), android, ← hrest,
      hlist.raise_beginning hno (List.Subset.refl levels) hp] at hright
    have heq := append_cancel_right (append_cancel_left hright)
    have hmin := toDigits_injective (by decide) (by decide) heq
    exact absurd hmin (hlist.below p hp).ne'
  · intro hnone
    by_cases hn : n ∈ levels
    · have hraise := hlist.raise_beginning not_mem_nil (List.Subset.refl levels) hn
      rw [append_nil, append_nil] at hraise
      rw [max_eq_right (hlist.below n hn).le]
      exact hraise
    · have hmin : minimum ≤ n := by
        by_contra hlt
        rcases hlist.complete n (by omega) with hmem | hother
        · exact hn hmem
        · omega
      rw [max_eq_left hmin]
      refine raisePlatform_unchanged (toDigits_no_a n) fun p hp hmatch => ?_
      rcases (hlist.prefix_iff hp n).mp hmatch with rfl | hbegins
      · exact hn hp
      · exact hnone p hp hbegins

end Raise

/-! ## All ABIs -/

/-- The first level an ABI has; the 32-bit ABIs of ARM have all. -/
def firstLevel (abi : Word) : Nat :=
  if abi ∈ ndkKnownDeviceAbi64s then 21 else if abi = x86 ∨ abi = mips then 9 else 0

theorem filter_knownAbis : ∀ abi ∈ ndkKnownAbis,
    (Word.filter ndkKnownDeviceAbi64s [abi] ≠ [] ↔ abi ∈ ndkKnownDeviceAbi64s) ∧
    (Word.filter percentX86Mips [abi] ≠ [] ↔ abi = x86 ∨ abi = mips) ∧
    ¬ (abi ∈ ndkKnownDeviceAbi64s ∧ (abi = x86 ∨ abi = mips)) := by
  decide +kernel

theorem setupAbi_used {abi : Word} (habi : abi ∈ ndkKnownAbis) (platform : List Char) :
    (setupAbi abi platform).used =
      if abi ∈ ndkKnownDeviceAbi64s then raisePlatform levelsBelow21 21 platform
      else if abi = x86 ∨ abi = mips then raisePlatform levelsBelow9 9 platform
      else platform := by
  obtain ⟨h64, h32, hboth⟩ := filter_knownAbis abi habi
  unfold setupAbi
  simp only [h64, h32]
  split_ifs with hmem hlow
  · exact absurd ⟨hmem, hlow⟩ hboth
  all_goals rfl

theorem setupApp_eq (abis : List Word) (platform : List Char) :
    setupApp abis platform =
      (abis.map fun abi => (abi, (setupAbi abi platform).used), platform) := by
  have hfold : ∀ before : List (Word × List Char),
      abis.foldl
        (fun st abi => (st.1 ++ [(abi, (setupAbi abi st.2).used)], (setupAbi abi st.2).left))
        (before, platform) =
      (before ++ abis.map fun abi => (abi, (setupAbi abi platform).used), platform) := by
    induction abis with
    | nil => simp
    | cons abi abis ih =>
      intro before
      have hrest := ih (before ++ [(abi, (setupAbi abi platform).used)])
      rwa [append_assoc] at hrest
  exact hfold []

/-- Every ABI of an application is set up for the platform, or its first one if that is higher. -/
def PlatformsRight (n : Nat) : Prop :=
  ∀ abis ⊆ ndkKnownAbis, setupApp abis (android n) =
    (abis.map fun abi => (abi, android (max n (firstLevel abi))), android n)

theorem platformsRight_iff_forall {n : Nat} : PlatformsRight n ↔
    ∀ abi ∈ ndkKnownAbis, (setupAbi abi (android n)).used = android (max n (firstLevel abi)) := by
  constructor
  · intro hright abi habi
    have hsingle := hright [abi] (by simpa using habi)
    rw [setupApp_eq] at hsingle
    simpa using hsingle
  · intro hall abis habis
    rw [setupApp_eq]
    congr 1
    exact map_congr_left fun abi habi => by rw [hall abi (habis habi)]

/-- **Platform levels.** `setup-abi.mk` gives every ABI the right platform, and leaves the variable
    as it was, exactly for the levels that do not begin with a shorter one of those that are
    replaced. -/
theorem platformsRight_iff {n : Nat} (h3 : 3 ≤ n) (h6 : n ≠ 6) (h7 : n ≠ 7) :
    PlatformsRight n ↔ ∀ p ∈ levelsBelow21, ¬ Begins p n := by
  have hsub : levelsBelow9 ⊆ levelsBelow21 := by decide
  have h64 := levelList_below21.raise_right_iff h3 h6 h7
  have h32 := levelList_below9.raise_right_iff h3 h6 h7
  rw [platformsRight_iff_forall, ← h64]
  constructor
  · intro hall
    have harm64 := hall arm64V8a (by decide)
    rw [setupAbi_used (by decide), if_pos (by decide), firstLevel, if_pos (by decide)] at harm64
    exact harm64
  · intro hraise abi habi
    rw [setupAbi_used habi, firstLevel]
    split_ifs
    · exact hraise
    · exact h32.mpr fun p hp => h64.mp hraise p (hsub hp)
    · rw [Nat.max_zero]

theorem platformsRight_19 : PlatformsRight 19 := by
  refine (platformsRight_iff (by decide) (by decide) (by decide)).mpr ?_
  rintro p hp ⟨k, rfl⟩
  have hpos := levelList_below21.pos _ hp
  have hle : 19 / 10 ^ (k + 1) ≤ 19 / 10 :=
    Nat.div_le_div_left (Nat.le_self_pow (Nat.succ_ne_zero k) 10) (by decide)
  omega

/-- Level 30 comes out as 90 for x86 and as 210 for arm64. -/
theorem not_platformsRight_30 :
    (setupAbi x86 (android 30)).used = android 90 ∧
      (setupAbi arm64V8a (android 30)).used = android 210 ∧ ¬ PlatformsRight 30 := by
  refine ⟨by decide +kernel, by decide +kernel, ?_⟩
  rw [platformsRight_iff_forall]
  intro hall
  exact absurd (hall x86 (by decide)) (by decide +kernel)

end CrystaxNdk.Build
