import CrystaxNdk.Vfs.AssetDriver

/-!
# What a copy of an asset contains

However many rounds the loop of `copy_from_assets` makes and however much of each is written, all it
does is to replace the beginning of the file by zeros. It cannot know the asset, so it returns
`true` with the right contents only if these were there already and begin with enough zeros.
-/

namespace CrystaxNdk.Vfs

open List

def zeroed (content : List UInt8) (count : Nat) : List UInt8 :=
  List.replicate count 0 ++ content.drop count

section Zeros

variable {content : List UInt8} {count m : Nat}

theorem writeAt_zeroed (content : List UInt8) (offset count : Nat) :
    writeAt (zeroed content offset) offset (List.replicate count 0) =
      zeroed content (offset + count) := by
  have htake : (zeroed content offset).take offset = List.replicate offset 0 :=
    take_left' length_replicate
  have hdrop : (zeroed content offset).drop (offset + count) = content.drop (offset + count) := by
    rw [← drop_drop, zeroed, drop_left' length_replicate, drop_drop]
  rw [writeAt, htake, length_replicate, hdrop, ← replicate_add, zeroed]

theorem zeroed_eq_self : zeroed content count = content ↔ List.replicate count 0 <+: content := by
  constructor
  · intro h
    exact ⟨content.drop count, h⟩
  · rintro ⟨rest, rfl⟩
    rw [zeroed, drop_left' length_replicate]

theorem zeroed_of_le (h : List.replicate m 0 <+: content) (hle : count ≤ m) :
    zeroed content count = content := by
  refine zeroed_eq_self.mpr (List.IsPrefix.trans ?_ h)
  exact ⟨List.replicate (m - count) 0, by rw [← replicate_add, Nat.add_sub_of_le hle]⟩

end Zeros

/-! ## The loop -/

section Loop

variable {resets : Option Nat} {round : CopyRound} {rounds : List CopyRound}
  {file content : List UInt8} {offset : Nat} {file' : Option (List UInt8)}

theorem take_objArray {n : Int} {count : Nat} (hn : n ≤ bufSize) (h : (count : Int) ≤ n) :
    (objArray.take n.toNat).take count = List.replicate count 0 := by
  rw [objArray, take_replicate, take_replicate]
  congr 1
  omega

def zerosWritten : List CopyRound → Nat
  | [] => 0
  | round :: rounds => if round.n < 0 then 0 else round.written.elim 0 (· + zerosWritten rounds)

/-- However the loop ends, it has written zeros, and not more than its rounds do. If it returns
    `true`, `reset` has not thrown, which bounds their number too. -/
theorem copyLoop_zeroed {c : Copied}
    (h : copyLoop resets rounds (zeroed content offset) offset = .ok (some c)) :
    ∃ count ≤ zerosWritten rounds, c.file = some (zeroed content (offset + count)) ∧
      (c.errno = none → resets ≠ some 0 ∧ ∀ k, resets = some (k + 1) → count ≤ k * bufSize) := by
  induction rounds generalizing resets offset with
  | nil => cases h
  | cons round rounds ih =>
    rw [copyLoop] at h
    by_cases hthrows : resets = some 0
    · rw [if_pos hthrows] at h
      cases h
      exact ⟨0, Nat.zero_le _, rfl, nofun⟩
    rw [if_neg hthrows] at h
    by_cases hend : round.n < 0
    · rw [if_pos hend] at h
      cases h
      exact ⟨0, Nat.zero_le _, rfl, fun _ => ⟨hthrows, fun k _ => Nat.zero_le _⟩⟩
    rw [if_neg hend] at h
    by_cases hlong : (bufSize : Int) < round.n
    · rw [if_pos hlong] at h
      cases h
    rw [if_neg hlong] at h
    rw [zerosWritten, if_neg hend]
    cases hwritten : round.written with
    | none =>
      rw [hwritten] at h
      cases h
      exact ⟨0, Nat.zero_le _, rfl, nofun⟩
    | some count =>
      have hshort := round.short count hwritten
      rw [hwritten] at h
      simp only [take_objArray (not_lt.mp hlong) hshort, writeAt_zeroed] at h
      obtain ⟨count', hle, hfile, htrue⟩ := ih h
      refine ⟨count + count', Nat.add_le_add_left hle count, by rw [hfile, Nat.add_assoc],
        fun hnone => ⟨hthrows, ?_⟩⟩
      rintro k rfl
      obtain ⟨hthrows', hroom⟩ := htrue hnone
      -- the next call of `reset` has not thrown either
      cases k with
      | zero => exact absurd rfl hthrows'
      | succ k =>
        have hroom := hroom k rfl
        rw [Nat.succ_mul]
        omega

/-! ## Rounds that do so -/

def fullRound : CopyRound := ⟨4096, some 4096, by decide, by simp⟩

def lastRound : CopyRound := ⟨-1, none, by decide, by simp⟩

theorem copyLoop_fullRounds (m : Nat) (h : ∀ k ∈ resets, m < k) :
    copyLoop resets (List.replicate m fullRound ++ [lastRound]) (zeroed content offset) offset =
      .ok (some ⟨some (zeroed content (offset + m * bufSize)), none⟩) := by
  induction m generalizing resets offset with
  | zero =>
    have hthrows : resets ≠ some 0 := fun hzero => absurd (h 0 hzero) (lt_irrefl 0)
    rw [Nat.zero_mul]
    exact (if_neg hthrows).trans rfl
  | succ m ih =>
    have hthrows : resets ≠ some 0 := fun hzero => absurd (h 0 hzero) (Nat.not_lt_zero _)
    have hnext : ∀ k ∈ resets.map (· - 1), m < k := by
      intro k hk
      obtain ⟨k', hk', rfl⟩ := Option.mem_map.mp hk
      have hlt := h k' hk'
      omega
    have hstep : copyLoop resets (List.replicate (m + 1) fullRound ++ [lastRound])
        (zeroed content offset) offset =
        copyLoop (resets.map (· - 1)) (List.replicate m fullRound ++ [lastRound])
          (writeAt (zeroed content offset) offset ((objArray.take 4096).take 4096))
          (offset + bufSize) := (if_neg hthrows).trans rfl
    have hzeros : (objArray.take 4096).take 4096 = List.replicate bufSize 0 :=
      take_objArray (le_refl (4096 : Int)) (le_refl ((4096 : Nat) : Int))
    rw [hstep, hzeros, writeAt_zeroed, ih hnext, Nat.succ_mul, Nat.add_assoc,
      Nat.add_comm bufSize]

end Loop

/-! ## The copy -/

namespace CopySetting

variable {s : CopySetting} {rounds : List CopyRound} {file : Option (List UInt8)}

/-- If the result is `true`, then the file has the bytes of the asset. -/
def CopiesExactly (s : CopySetting) : Prop :=
  ∀ rounds file, copyFromAssets s rounds = .ok (some ⟨file, none⟩) → file = s.asset

/-- The copy fails before anything is written; or `reset` throws after a number of calls, and the
    file has the bytes of the asset already, which begin with as many zeros as could be written by
    then. -/
def Harmless (s : CopySetting) : Prop :=
  s.mkdirP = false ∨ s.asset = none ∨ s.opens = false ∨ s.resets = some 0 ∨
    ∃ k, s.resets = some (k + 1) ∧ s.asset = some (s.file.getD []) ∧
      List.replicate (k * bufSize) 0 <+: s.file.getD []

/-- `copy_from_assets` gets as far as to write to the file. -/
structure Starts (s : CopySetting) : Prop where
  mkdirP : s.mkdirP = true
  asset : s.asset ≠ none
  opens : s.opens = true

theorem Starts.copyFromAssets (h : s.Starts) (rounds : List CopyRound) :
    copyFromAssets s rounds = copyLoop s.resets rounds (zeroed (s.file.getD []) 0) 0 := by
  simp [Vfs.copyFromAssets, h.mkdirP, h.asset, h.opens, zeroed]

theorem starts_or {c : Copied} (h : Vfs.copyFromAssets s rounds = .ok (some c)) :
    c.file = s.file ∧ c.errno ≠ none ∨ s.Starts := by
  unfold Vfs.copyFromAssets at h
  split_ifs at h with hmkdir hasset hopens
  · cases h
    exact .inl ⟨rfl, by simp⟩
  · cases h
    exact .inl ⟨rfl, by simp⟩
  · cases h
    exact .inl ⟨rfl, by simp⟩
  · exact .inr ⟨by simpa using hmkdir, hasset, by simpa using hopens⟩

/-- What the file may become: any number of arrays of zeros, if `reset` does not throw first. -/
theorem CopiesExactly.zeroed (h : s.CopiesExactly) (hstarts : s.Starts) {m : Nat}
    (hm : ∀ k ∈ s.resets, m < k) :
    s.asset = some (Vfs.zeroed (s.file.getD []) (m * bufSize)) := by
  have hloop : copyLoop s.resets _ (Vfs.zeroed (s.file.getD []) 0) 0 = _ :=
    copyLoop_fullRounds m hm
  rw [Nat.zero_add, ← hstarts.copyFromAssets] at hloop
  exact (h _ _ hloop).symm

theorem CopiesExactly.harmless (h : s.CopiesExactly) (hstarts : s.Starts) : s.Harmless := by
  cases hresets : s.resets with
  | none =>
    -- more zeros than the file has bytes
    have hany : ∀ m, ∀ k ∈ s.resets, m < k := by simp [hresets]
    have hfile := h.zeroed hstarts (hany 0)
    have hlong := h.zeroed hstarts (hany ((s.file.getD []).length + 1))
    rw [hfile, Nat.zero_mul] at hlong
    have hbegins := (zeroed_eq_self.mp (Option.some.inj hlong).symm).length_le
    rw [length_replicate, Nat.succ_mul] at hbegins
    have hmul := Nat.le_mul_of_pos_right (s.file.getD []).length (by decide : 0 < bufSize)
    have hpos : 0 < bufSize := by decide
    omega
  | some k =>
    cases k with
    | zero => exact Or.inr (Or.inr (Or.inr (Or.inl hresets)))
    | succ k =>
      have hcalls : ∀ m ≤ k, ∀ k' ∈ s.resets, m < k' := by
        intro m hm k' hk'
        rw [hresets] at hk'
        cases hk'
        exact Nat.lt_succ_of_le hm
      have hfile := h.zeroed hstarts (hcalls 0 (Nat.zero_le k))
      have hzeros := h.zeroed hstarts (hcalls k le_rfl)
      rw [hfile, Nat.zero_mul] at hzeros
      rw [Nat.zero_mul] at hfile
      exact Or.inr (Or.inr (Or.inr (Or.inr
        ⟨k, hresets, hfile, zeroed_eq_self.mp (Option.some.inj hzeros).symm⟩)))

theorem Harmless.copiesExactly (h : s.Harmless) : s.CopiesExactly := by
  intro rounds file htrue
  have hstarts := (starts_or htrue).resolve_left fun h => h.2 rfl
  rw [hstarts.copyFromAssets] at htrue
  obtain ⟨count, -, hfile, hnone⟩ := copyLoop_zeroed htrue
  obtain ⟨hthrows, hroom⟩ := hnone rfl
  obtain rfl : file = _ := hfile
  rcases h with hmkdir | hasset | hopens | hresets | ⟨k, hresets, hasset, hzeros⟩
  · exact absurd hmkdir (by simp [hstarts.mkdirP])
  · exact absurd hasset hstarts.asset
  · exact absurd hopens (by simp [hstarts.opens])
  · exact absurd hresets hthrows
  · rw [hasset, Nat.zero_add, zeroed_of_le hzeros (hroom k hresets)]

/-- `copy_from_assets` can only be relied on where it does nothing. -/
theorem copiesExactly_iff (s : CopySetting) : s.CopiesExactly ↔ s.Harmless := by
  constructor
  · intro h
    by_cases hmkdir : s.mkdirP = false
    · exact Or.inl hmkdir
    by_cases hasset : s.asset = none
    · exact Or.inr (Or.inl hasset)
    by_cases hopens : s.opens = false
    · exact Or.inr (Or.inr (Or.inl hopens))
    exact h.harmless ⟨by simpa using hmkdir, hasset, by simpa using hopens⟩
  · exact Harmless.copiesExactly

/-- An asset of two bytes that has not been copied yet. -/
def twoBytes : CopySetting := ⟨some [104, 105], none, true, true, none⟩

theorem copyFromAssets_twoBytes :
    copyFromAssets twoBytes [lastRound] = .ok (some ⟨some [], none⟩) ∧ twoBytes.asset ≠ some [] :=
  ⟨rfl, by decide⟩

end CopySetting

end CrystaxNdk.Vfs
