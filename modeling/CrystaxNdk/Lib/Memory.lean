import Mathlib

/-!
# Machine words, pages and byte-addressed memory

Addresses are words of `w` bits and the arithmetic on them wraps. The lemmas translate it to natural
numbers where it does not, and say what remains where it does. Pages have 4096 bytes; `pageFloor`
and `pageCeil` round a number, `pageStart` and `pageEnd` a word, the latter modulo `2 ^ w`. An
address range is a start and a length and may wrap around as well.

A memory gives every address its byte, and `fill` is the one way to change it: the `n` bytes from an
address on become those of a stream. Reading a word is little-endian; `leNat` is the number behind
the first bytes of any stream, so the same decoder reads files and memory. Over that come programs
that change a memory word by word, and what becomes of them when the image is moved.
-/

namespace CrystaxNdk.Lib

variable {w : Nat}

/-! ## Sums and differences -/

variable {x y : BitVec w}

theorem toNat_add_of_lt (h : x.toNat + y.toNat < 2 ^ w) :
    (x + y).toNat = x.toNat + y.toNat := by
  rw [BitVec.toNat_add, Nat.mod_eq_of_lt h]

theorem toNat_sub_of_le (h : y.toNat ≤ x.toNat) :
    (x - y).toNat = x.toNat - y.toNat :=
  BitVec.toNat_sub_of_le h

variable {n : Nat}

theorem toNat_ofNat_of_lt (h : n < 2 ^ w) : (BitVec.ofNat w n).toNat = n := by
  rw [BitVec.toNat_ofNat, Nat.mod_eq_of_lt h]

theorem toNat_rebase {start base : BitVec w} (hbase : base.toNat ≤ x.toNat)
    (h : start.toNat + (x.toNat - base.toNat) < 2 ^ w) :
    (x + (start - base)).toNat = start.toNat + (x.toNat - base.toNat) := by
  have hswap : x + (start - base) = start + (x - base) := by
    rw [BitVec.sub_eq_add_neg, BitVec.sub_eq_add_neg, ← BitVec.add_assoc, ← BitVec.add_assoc,
      BitVec.add_comm x start]
  have hsub : (x - base).toNat = x.toNat - base.toNat := toNat_sub_of_le hbase
  rw [hswap, toNat_add_of_lt (by omega), hsub]

/-! ## Rounding to pages -/

def pageFloor (n : Nat) : Nat := n / 4096 * 4096

/-- The first start of a page that is not before `n`. -/
def pageCeil (n : Nat) : Nat := (n + 4095) / 4096 * 4096

def pageOffset (x : BitVec w) : BitVec w := x &&& BitVec.ofNat w 4095

def pageStart (x : BitVec w) : BitVec w := x &&& ~~~ BitVec.ofNat w 4095

def pageEnd (x : BitVec w) : BitVec w := pageStart (x + BitVec.ofNat w 4095)

theorem pageFloor_le (n : Nat) : pageFloor n ≤ n := by
  unfold pageFloor
  omega

theorem le_pageCeil (n : Nat) : n ≤ pageCeil n := by
  unfold pageCeil
  omega

variable {m : Nat}

theorem pageFloor_mono (h : m ≤ n) : pageFloor m ≤ pageFloor n := by
  unfold pageFloor
  omega

theorem pageCeil_mono (h : m ≤ n) : pageCeil m ≤ pageCeil n := by
  unfold pageCeil
  omega

theorem pageFloor_add (h : m % 4096 = 0) : pageFloor (m + n) = m + pageFloor n := by
  unfold pageFloor
  omega

theorem pageCeil_add (h : m % 4096 = 0) : pageCeil (m + n) = m + pageCeil n := by
  unfold pageCeil
  omega

/-! ## Rounding words -/

section Words

variable (hw : 12 ≤ w)

include hw in
theorem four_thousand_dvd : 4096 ∣ 2 ^ w := ⟨2 ^ (w - 12), by
  rw [show (4096 : Nat) = 2 ^ 12 from rfl, ← Nat.pow_add, Nat.add_sub_cancel' hw]⟩

include hw in
theorem four_thousand_le : 4096 ≤ 2 ^ w := Nat.le_of_dvd (Nat.two_pow_pos w) (four_thousand_dvd hw)

include hw in
theorem toNat_pageOffset (x : BitVec w) : (pageOffset x).toNat = x.toNat % 4096 := by
  have h4096 := four_thousand_le hw
  rw [pageOffset, BitVec.toNat_and, toNat_ofNat_of_lt (by omega)]
  exact Nat.and_two_pow_sub_one_eq_mod x.toNat 12

/-- A word is the start of its page and the offset in it. -/
theorem pageStart_add_pageOffset (x : BitVec w) : pageStart x + pageOffset x = x := by
  unfold pageStart pageOffset
  rw [BitVec.add_eq_or_of_and_eq_zero]
  · ext i hi
    simp only [BitVec.getElem_or, BitVec.getElem_and, BitVec.getElem_not]
    cases x[i] <;> cases (BitVec.ofNat w 4095)[i] <;> rfl
  · ext i hi
    simp only [BitVec.getElem_and, BitVec.getElem_not, BitVec.getElem_zero]
    cases x[i] <;> cases (BitVec.ofNat w 4095)[i] <;> rfl

include hw in
theorem toNat_pageStart (x : BitVec w) : (pageStart x).toNat = pageFloor x.toNat := by
  have hoff := toNat_pageOffset hw x
  have hle : (pageOffset x).toNat ≤ x.toNat := by
    rw [hoff]
    exact Nat.mod_le _ _
  have hstart : pageStart x = x - pageOffset x := by
    rw [BitVec.eq_sub_iff_add_eq]
    exact pageStart_add_pageOffset x
  rw [hstart, toNat_sub_of_le hle, hoff, pageFloor]
  omega

include hw in
theorem toNat_pageEnd (x : BitVec w) : (pageEnd x).toNat = pageCeil x.toNat % 2 ^ w := by
  obtain ⟨k, hk⟩ := four_thousand_dvd hw
  have h4096 := four_thousand_le hw
  rw [pageEnd, toNat_pageStart hw, BitVec.toNat_add, toNat_ofNat_of_lt (by omega), pageFloor,
    pageCeil, hk, Nat.mod_mul_right_div_self, ← Nat.mul_mod_mul_right, Nat.mul_comm k]

include hw in
theorem toNat_pageEnd_of_lt (h : pageCeil x.toNat < 2 ^ w) :
    (pageEnd x).toNat = pageCeil x.toNat := by
  rw [toNat_pageEnd hw, Nat.mod_eq_of_lt h]

include hw in
/-- The size of a range of pages, also when it ends with the address space. -/
theorem toNat_pageEnd_sub_pageStart (hyx : y.toNat ≤ x.toNat) (hne : pageEnd x - pageStart y ≠ 0) :
    (pageEnd x - pageStart y).toNat = pageCeil x.toNat - pageFloor y.toNat := by
  have hend := toNat_pageEnd hw x
  have hstart := toNat_pageStart hw y
  have hle : pageFloor y.toNat ≤ pageCeil x.toNat :=
    (pageFloor_le _).trans (hyx.trans (le_pageCeil _))
  rcases Nat.lt_or_ge (pageCeil x.toNat) (2 ^ w) with hlt | hge
  · rw [Nat.mod_eq_of_lt hlt] at hend
    rw [toNat_sub_of_le (by omega), hend, hstart]
  · have htop : pageCeil x.toNat = 2 ^ w := by
      obtain ⟨k, hk⟩ := four_thousand_dvd hw
      have hx := x.isLt
      unfold pageCeil at hge ⊢
      omega
    rw [htop, Nat.mod_self] at hend
    have hy : pageFloor y.toNat ≠ 0 := by
      intro hzero
      apply hne
      apply BitVec.eq_of_toNat_eq
      rw [BitVec.toNat_sub, hend, hstart, hzero]
      simp
    rw [BitVec.toNat_sub, hend, hstart, htop, Nat.add_zero, Nat.mod_eq_of_lt (by omega)]

include hw in
theorem pageEnd_sub_pageStart_aligned :
    (pageEnd x - pageStart y).toNat % 4096 = 0 := by
  obtain ⟨k, hk⟩ := four_thousand_dvd hw
  have hx := (toNat_pageEnd hw x).symm ▸ Nat.mod_mod_of_dvd (pageCeil x.toNat) ⟨k, hk⟩
  have hy := toNat_pageStart hw y
  rw [BitVec.toNat_sub, Nat.mod_mod_of_dvd _ ⟨k, hk⟩]
  unfold pageFloor at hy
  unfold pageCeil at hx
  omega

end Words

/-! ## Address ranges -/

def InRange (s : BitVec w) (n : Nat) (x : BitVec w) : Prop := (x - s).toNat < n

instance (s : BitVec w) (n : Nat) (x : BitVec w) : Decidable (InRange s n x) :=
  inferInstanceAs (Decidable (_ < _))

theorem inRange_iff {s : BitVec w} (h : s.toNat + n ≤ 2 ^ w) :
    InRange s n x ↔ s.toNat ≤ x.toNat ∧ x.toNat < s.toNat + n := by
  unfold InRange
  have hx := x.isLt
  by_cases hle : s.toNat ≤ x.toNat
  · rw [toNat_sub_of_le hle]
    omega
  · have hsub : (x - s).toNat = 2 ^ w - s.toNat + x.toNat := by
      rw [BitVec.toNat_sub, Nat.mod_eq_of_lt (by omega)]
    omega

theorem inRange_add {s : BitVec w} {i : Nat} (hi : i < n) (hn : n ≤ 2 ^ w) :
    InRange s n (s + BitVec.ofNat w i) := by
  unfold InRange
  rw [BitVec.add_comm, BitVec.add_sub_cancel, toNat_ofNat_of_lt (by omega)]
  exact hi

/-!
## Memory

A list of word updates with pairwise disjoint targets gives every target the value its own update
computes from the old word, and touches no other byte, whatever the order (`readWord_updatesAt`).
-/

variable {w : Nat}

abbrev Byte := BitVec 8

/-! ### Filling a range -/

section Fill

variable {α : Type*}

/-- The values at the `n` addresses from `s` on become those of `g`. -/
def fill (f : BitVec w → α) (s : BitVec w) (n : Nat) (g : Nat → α) : BitVec w → α :=
  fun x => if (x - s).toNat < n then g (x - s).toNat else f x

variable {f : BitVec w → α} {s x : BitVec w} {n : Nat} {g : Nat → α}

theorem fill_of_inRange (h : InRange s n x) : fill f s n g x = g (x - s).toNat := if_pos h

theorem fill_of_not_inRange (h : ¬ InRange s n x) : fill f s n g x = f x := if_neg h

theorem fill_add {i : Nat} (hi : i < n) (hn : n ≤ 2 ^ w) :
    fill f s n g (s + BitVec.ofNat w i) = g i := by
  rw [fill_of_inRange (inRange_add hi hn), BitVec.add_comm, BitVec.add_sub_cancel,
    toNat_ofNat_of_lt (by omega)]

end Fill

/-! ### Little-endian numbers -/

/-- The number whose little-endian digits are the first `n` bytes of a stream. -/
def leNat (f : Nat → Byte) : Nat → Nat
  | 0 => 0
  | n + 1 => leNat f n + (f n).toNat * 256 ^ n

theorem leNat_congr {f g : Nat → Byte} {n : Nat} (h : ∀ i < n, f i = g i) :
    leNat f n = leNat g n := by
  induction n with
  | zero => rfl
  | succ n ih =>
    rw [leNat, leNat, ih fun i hi => h i (by omega), h n (Nat.lt_succ_self n)]

def leByte (v i : Nat) : Byte := BitVec.ofNat 8 (v / 256 ^ i)

theorem leNat_leByte (v n : Nat) : leNat (leByte v) n = v % 256 ^ n := by
  induction n with
  | zero => rw [leNat, Nat.pow_zero, Nat.mod_one]
  | succ n ih =>
    have hbyte : (leByte v n).toNat = v / 256 ^ n % 256 := BitVec.toNat_ofNat _ _
    rw [leNat, ih, hbyte, Nat.mul_comm, ← Nat.mod_mul, ← Nat.pow_succ]

/-! ### Words in memory -/

section Words

variable {k : Nat}

/-- The `k` bytes at `p`, little-endian. -/
def readWord (m : BitVec w → Byte) (p : BitVec w) (k : Nat) : BitVec (8 * k) :=
  BitVec.ofNat (8 * k) (leNat (fun i => m (p + BitVec.ofNat w i)) k)

def writeWord (m : BitVec w → Byte) (p : BitVec w) (v : BitVec (8 * k)) : BitVec w → Byte :=
  fill m p k (leByte v.toNat)

variable {m m' : BitVec w → Byte} {p q x : BitVec w} {v : BitVec (8 * k)}

theorem readWord_congr (h : ∀ i < k, m (p + BitVec.ofNat w i) = m' (p + BitVec.ofNat w i)) :
    readWord m p k = readWord m' p k := by
  rw [readWord, readWord, leNat_congr h]

theorem readWord_writeWord (hk : k ≤ 2 ^ w) : readWord (writeWord m p v) p k = v := by
  have hbytes : leNat (fun i => writeWord m p v (p + BitVec.ofNat w i)) k =
      leNat (leByte v.toNat) k :=
    leNat_congr fun i hi => fill_add hi hk
  have hpow : 256 ^ k = 2 ^ (8 * k) := by
    rw [Nat.pow_mul]
  apply BitVec.eq_of_toNat_eq
  rw [readWord, hbytes, leNat_leByte, hpow, BitVec.toNat_ofNat, Nat.mod_mod,
    Nat.mod_eq_of_lt v.isLt]

theorem writeWord_of_not_inRange (h : ¬ InRange p k x) : writeWord m p v x = m x :=
  fill_of_not_inRange h

def WordsDisjoint (k : Nat) (p q : BitVec w) : Prop := ∀ x, InRange p k x → ¬ InRange q k x

theorem WordsDisjoint.symm (h : WordsDisjoint k p q) : WordsDisjoint k q p :=
  fun x hq hp => h x hp hq

theorem readWord_writeWord_of_disjoint (hk : k ≤ 2 ^ w) (h : WordsDisjoint k p q) :
    readWord (writeWord m q v) p k = readWord m p k :=
  readWord_congr fun _ hi => writeWord_of_not_inRange (h _ (inRange_add hi hk))

end Words

/-! ### Lists of word updates -/

section Updates

variable {k : Nat}

structure Update (w k : Nat) where
  target : BitVec w
  apply : BitVec (8 * k) → BitVec (8 * k)

def Update.run (u : Update w k) (m : BitVec w → Byte) : BitVec w → Byte :=
  writeWord m u.target (u.apply (readWord m u.target k))

def runUpdates (us : List (Update w k)) (m : BitVec w → Byte) : BitVec w → Byte :=
  us.foldl (fun m u => u.run m) m

variable {m : BitVec w → Byte} {us : List (Update w k)} {u : Update w k}

theorem runUpdates_cons : runUpdates (u :: us) m = runUpdates us (u.run m) := rfl

theorem runUpdates_append {vs : List (Update w k)} :
    runUpdates (us ++ vs) m = runUpdates vs (runUpdates us m) := List.foldl_append

theorem runUpdates_frame {x : BitVec w} (h : ∀ u ∈ us, ¬ InRange u.target k x) :
    runUpdates us m x = m x := by
  induction us generalizing m with
  | nil => rfl
  | cons u us ih =>
    rw [runUpdates_cons, ih fun v hv => h v (by simp [hv])]
    exact writeWord_of_not_inRange (h u (by simp))

/-- **Disjoint updates do not see each other**: every byte of a target comes from what its own
    update makes of the old word. -/
theorem runUpdates_of_inRange (hk : k ≤ 2 ^ w)
    (hdisj : us.Pairwise fun u v => WordsDisjoint k u.target v.target) (hu : u ∈ us)
    {x : BitVec w} (hx : InRange u.target k x) :
    runUpdates us m x = leByte (u.apply (readWord m u.target k)).toNat (x - u.target).toNat := by
  induction us generalizing m with
  | nil => exact absurd hu List.not_mem_nil
  | cons v us ih =>
    rw [List.pairwise_cons] at hdisj
    rw [runUpdates_cons]
    rcases List.mem_cons.mp hu with rfl | hu
    · rw [runUpdates_frame fun v hv => hdisj.1 v hv x hx]
      exact fill_of_inRange hx
    · rw [ih hdisj.2 hu, Update.run,
        readWord_writeWord_of_disjoint hk (hdisj.1 u hu).symm]

theorem readWord_runUpdates (hk : k ≤ 2 ^ w)
    (hdisj : us.Pairwise fun u v => WordsDisjoint k u.target v.target) (hu : u ∈ us) :
    readWord (runUpdates us m) u.target k = u.apply (readWord m u.target k) := by
  have hbytes : readWord (runUpdates us m) u.target k =
      readWord (writeWord m u.target (u.apply (readWord m u.target k))) u.target k := by
    apply readWord_congr
    intro i hi
    rw [runUpdates_of_inRange hk hdisj hu (inRange_add hi hk)]
    exact (fill_of_inRange (inRange_add hi hk)).symm
  rw [hbytes, readWord_writeWord hk]

end Updates

/-!
## Moving a section that has been updated

The same program of word updates is run on two copies of an image that lie a distance `delta`
apart. Some of the updates store a value that moves with the image, the others one that does not.
A copy of a section of the first result, in which the words of the first kind are then increased
by `delta`, is the section of the second result. Ranges are taken modulo `2 ^ w`, so all of this is
invariant under translation.
-/

variable {w k : Nat}

/-! ### Translations -/

theorem inRange_add_right {s x d : BitVec w} {n : Nat} :
    InRange (s + d) n (x + d) ↔ InRange s n x := by
  unfold InRange
  rw [add_sub_add_right_eq_sub]

theorem WordsDisjoint.add_right {p q : BitVec w} (h : WordsDisjoint k p q) (d : BitVec w) :
    WordsDisjoint k (p + d) (q + d) := by
  intro x hp hq
  rw [← sub_add_cancel x d, inRange_add_right] at hp hq
  exact h _ hp hq

theorem readWord_add_right {m m' : BitVec w → Byte} {p d : BitVec w}
    (h : ∀ i < k, m' (p + BitVec.ofNat w i + d) = m (p + BitVec.ofNat w i)) :
    readWord m' (p + d) k = readWord m p k := by
  unfold readWord
  congr 1
  apply leNat_congr
  intro i hi
  rw [← h i hi, add_right_comm]

/-- The `n` bytes at `p` in `m` are those at `q` in `m'`. -/
def SameBytes (n : Nat) (m : BitVec w → Byte) (p : BitVec w) (m' : BitVec w → Byte)
    (q : BitVec w) : Prop := ∀ i < n, m (p + BitVec.ofNat w i) = m' (q + BitVec.ofNat w i)

theorem fill_copy {m : BitVec w → Byte} {src d x : BitVec w} {n : Nat}
    (hx : InRange src n x) :
    fill m (src + d) n (fun i => m (src + BitVec.ofNat w i)) (x + d) = m x := by
  rw [fill_of_inRange (inRange_add_right.mpr hx), add_sub_add_right_eq_sub, BitVec.ofNat_toNat,
    BitVec.setWidth_eq, add_sub_cancel]

/-! ### Programs over an index -/

section Programs

variable {σ : Type*} {target : σ → BitVec w} {ss : List σ}
  {value : σ → BitVec (8 * k) → BitVec (8 * k)} {m : BitVec w → Byte} {x : BitVec w}

/-- The update of the word at `target s` by `value s`, for each `s`. -/
def updatesAt (target : σ → BitVec w) (value : σ → BitVec (8 * k) → BitVec (8 * k))
    (ss : List σ) : List (Update w k) :=
  ss.map fun s => { target := target s, apply := value s }

theorem runUpdates_updatesAt (hk : k ≤ 2 ^ w)
    (hdisj : ss.Pairwise fun s t => WordsDisjoint k (target s) (target t)) {s : σ} (hs : s ∈ ss)
    (hx : InRange (target s) k x) :
    runUpdates (updatesAt target value ss) m x =
      leByte (value s (readWord m (target s) k)).toNat (x - target s).toNat := by
  have hmem : { target := target s, apply := value s } ∈ updatesAt target value ss :=
    List.mem_map_of_mem hs
  exact runUpdates_of_inRange hk (List.pairwise_map.mpr hdisj) hmem hx

theorem readWord_updatesAt (hk : k ≤ 2 ^ w)
    (hdisj : ss.Pairwise fun s t => WordsDisjoint k (target s) (target t)) {s : σ}
    (hs : s ∈ ss) :
    readWord (runUpdates (updatesAt target value ss) m) (target s) k =
      value s (readWord m (target s) k) := by
  have hmem : { target := target s, apply := value s } ∈ updatesAt target value ss :=
    List.mem_map_of_mem hs
  exact readWord_runUpdates hk (List.pairwise_map.mpr hdisj) hmem

theorem runUpdates_updatesAt_frame (h : ∀ s ∈ ss, ¬ InRange (target s) k x) :
    runUpdates (updatesAt target value ss) m x = m x := by
  apply runUpdates_frame
  intro u hu
  obtain ⟨s, hs, rfl⟩ := List.mem_map.mp hu
  exact h s hs

end Programs

/-! ### The moved section -/

section Moved

variable {σ : Type*} {target : σ → BitVec w} {ss : List σ} {moved : σ → Bool}
  {before after : σ → BitVec (8 * k) → BitVec (8 * k)} {shift : BitVec (8 * k) → BitVec (8 * k)}
  {m m' : BitVec w → Byte} {src d delta x : BitVec w} {n : Nat}

/-- **A moved section.** The words of `ss` are disjoint, and each is in the section if its first
    byte is. -/
theorem runUpdates_moved (hk : k ≤ 2 ^ w)
    (hdisj : ss.Pairwise fun s t => WordsDisjoint k (target s) (target t))
    (hwhole : ∀ s ∈ ss, ∀ x, InRange (target s) k x →
      (InRange src n x ↔ InRange src n (target s)))
    (himage : ∀ x, InRange src n x → m' (x + delta) = m x)
    (hvalue : ∀ s ∈ ss, InRange src n (target s) → ∀ old,
      after s old = if moved s then shift (before s old) else before s old)
    (hx : InRange src n x) :
    runUpdates
      (updatesAt (fun s => target s + d) (fun _ => shift)
        (ss.filter fun s => moved s ∧ InRange src n (target s)))
      (fill (runUpdates (updatesAt target before ss) m) (src + d) n
        fun i => runUpdates (updatesAt target before ss) m (src + BitVec.ofNat w i)) (x + d) =
    runUpdates (updatesAt (fun s => target s + delta) after ss) m' (x + delta) := by
  have hdisj' : ss.Pairwise fun s t =>
      WordsDisjoint k (target s + delta) (target t + delta) := hdisj.imp fun h => h.add_right _
  by_cases hsite : ∃ s ∈ ss, InRange (target s) k x
  · obtain ⟨s, hs, hsx⟩ := hsite
    have hin : InRange src n (target s) := (hwhole s hs x hsx).mp hx
    have hbyte : ∀ i < k, InRange src n (target s + BitVec.ofNat w i) := fun i hi =>
      (hwhole s hs _ (inRange_add hi hk)).mpr hin
    have hword : readWord m' (target s + delta) k = readWord m (target s) k :=
      readWord_add_right fun i hi => himage _ (hbyte i hi)
    rw [runUpdates_updatesAt hk hdisj' hs (inRange_add_right.mpr hsx), hword,
      add_sub_add_right_eq_sub, hvalue s hs hin]
    by_cases hmoved : moved s = true
    · -- the copy of the word is shifted
      have hfilter : s ∈ ss.filter fun s => moved s ∧ InRange src n (target s) := by
        simp [hs, hmoved, hin]
      have hdisj'' : (ss.filter fun s => moved s ∧ InRange src n (target s)).Pairwise fun s t =>
          WordsDisjoint k (target s + d) (target t + d) :=
        (hdisj.filter _).imp fun h => h.add_right d
      rw [runUpdates_updatesAt hk hdisj'' hfilter (inRange_add_right.mpr hsx),
        readWord_add_right fun i hi => fill_copy (hbyte i hi), readWord_updatesAt hk hdisj hs,
        add_sub_add_right_eq_sub, if_pos hmoved]
    · -- no other word reaches it
      rw [runUpdates_updatesAt_frame, fill_copy hx, runUpdates_updatesAt hk hdisj hs hsx,
        if_neg hmoved]
      intro t ht
      have ht' : t ∈ ss ∧ moved t = true := by
        simp only [List.mem_filter, decide_eq_true_eq] at ht
        exact ⟨ht.1, ht.2.1⟩
      have hne : t ≠ s := by
        rintro rfl
        exact hmoved ht'.2
      rw [inRange_add_right]
      have hsymm : Std.Symm fun s t => WordsDisjoint k (target s) (target t) :=
        ⟨fun _ _ h => h.symm⟩
      intro htx
      exact hdisj.forall ht'.1 hs hne x htx hsx
  · have hnone : ∀ s ∈ ss, ¬ InRange (target s) k x := fun s hs hsx => hsite ⟨s, hs, hsx⟩
    rw [runUpdates_updatesAt_frame, fill_copy hx, runUpdates_updatesAt_frame hnone,
      runUpdates_updatesAt_frame, himage x hx]
    · intro s hs
      rw [inRange_add_right]
      exact hnone s hs
    · intro s hs
      rw [inRange_add_right]
      exact hnone s (List.mem_of_mem_filter hs)

end Moved

end CrystaxNdk.Lib
