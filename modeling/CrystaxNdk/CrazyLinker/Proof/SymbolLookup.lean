import CrystaxNdk.CrazyLinker.ElfSymbols
import CrystaxNdk.Lib.Topo
import CrystaxNdk.CrazyLinker.LibraryLookup

/-!
# Symbols by name, by address, and through the dependencies

Three lookups of the linker. The symbol of a name is found in the hash table of a library: a table
of the System V format has one chain for each remainder of the hash values, and a symbol is on the
chain of its own. `ElfHash` is written in another way than the format gives the hash, with the same
values; so the chain that `LookupByName` follows has all symbols of that name, and the first one the
loop accepts is the result. The symbol nearest to an address is found by going through all symbols,
and a symbol that several libraries may define by going through the libraries (`FindSymbolFrom`).
-/

namespace CrystaxNdk.CrazyLinker

open Lib Relation

/-! ## The hash -/

/-- One round of the hash function as the System V format defines it. -/
def sysvHashStep (h : BitVec 32) (c : Byte) : BitVec 32 :=
  let h := (h <<< 4) + c.setWidth 32
  let g := h &&& 0xf0000000
  let h := if g ≠ 0 then h ^^^ (g >>> 24) else h
  h &&& ~~~ g

def sysvHash (name : SymbolName) : BitVec 32 := name.bytes.foldl sysvHashStep 0

theorem clear_high_digit (h : BitVec 32) :
    h ^^^ (h &&& (0xf0000000 : BitVec 32)) ^^^ ((h &&& (0xf0000000 : BitVec 32)) >>> 24) =
      (h ^^^ ((h &&& (0xf0000000 : BitVec 32)) >>> 24)) &&&
        ~~~ (h &&& (0xf0000000 : BitVec 32)) := by
  apply BitVec.eq_of_getLsbD_eq
  intro i hi
  simp only [BitVec.getLsbD_xor, BitVec.getLsbD_and, BitVec.getLsbD_not,
    BitVec.getLsbD_ushiftRight, hi, decide_true, Bool.true_and]
  interval_cases i <;> simp

theorem elfHashStep_eq (h : BitVec 32) (c : Byte) : elfHashStep h c = sysvHashStep h c := by
  unfold elfHashStep sysvHashStep
  dsimp only
  generalize (h <<< 4) + c.setWidth 32 = x
  have hshift : (if x &&& (0xf0000000 : BitVec 32) ≠ 0 then
      x ^^^ ((x &&& (0xf0000000 : BitVec 32)) >>> 24) else x) =
        x ^^^ ((x &&& (0xf0000000 : BitVec 32)) >>> 24) := by
    split
    next => rfl
    next hg => rw [not_not.mp hg]; simp
  rw [hshift, clear_high_digit]

theorem elfHash_eq (name : SymbolName) : elfHash name = sysvHash name := by
  unfold elfHash sysvHash
  congr 1
  funext h c
  exact elfHashStep_eq h c

/-! ## Names -/

def IsString (string : Nat → Byte) (name : List Byte) : Prop :=
  (∀ i (h : i < name.length), string i = name[i]) ∧ string name.length = 0

theorem sameString_iff {string : Nat → Byte} {name : List Byte} :
    sameString string name = true ↔ IsString string name := by
  induction name generalizing string with
  | nil => simp [sameString, IsString]
  | cons c cs ih =>
    rw [sameString, Bool.and_eq_true, decide_eq_true_eq, ih, IsString, IsString, ← and_assoc]
    refine and_congr_left fun _ => ⟨fun hfirst i hi => ?_, fun hall => ⟨?_, fun i hi => ?_⟩⟩
    · cases i with
      | zero => exact hfirst.1
      | succ i => exact hfirst.2 i (Nat.lt_of_succ_lt_succ hi)
    · exact hall 0 (Nat.zero_lt_succ _)
    · exact hall (i + 1) (Nat.succ_lt_succ hi)

namespace SymbolTables

variable {a : Arch} {t : SymbolTables a} {name : SymbolName} {n : Nat}

def HasName (t : SymbolTables a) (n : Nat) (name : SymbolName) : Prop :=
  IsString (fun i => t.stringTable ((t.symbolTable n).stName.toNat + i)) name.bytes

/-- A symbol of the table that is a definition of a name for other libraries. -/
structure Provides (t : SymbolTables a) (name : SymbolName) (n : Nat) : Prop where
  pos : n ≠ 0
  lt : n < t.hashChainSize
  hasName : t.HasName n name
  defined : (t.symbolTable n).stShndx ≠ SHN_UNDEF
  bound : (t.symbolTable n).bind = STB_GLOBAL ∨ (t.symbolTable n).bind = STB_WEAK

theorem accepts_iff : t.accepts name n = true ↔ t.HasName n name ∧
    (t.symbolTable n).stShndx ≠ SHN_UNDEF ∧
      ((t.symbolTable n).bind = STB_GLOBAL ∨ (t.symbolTable n).bind = STB_WEAK) := by
  unfold accepts nameIs HasName
  rw [Bool.and_eq_true, Bool.and_eq_true, Bool.or_eq_true, decide_eq_true_eq, decide_eq_true_eq,
    decide_eq_true_eq, sameString_iff, and_assoc]

theorem provides_iff (hpos : n ≠ 0) (hlt : n < t.hashChainSize) :
    t.accepts name n = true ↔ t.Provides name n := by
  rw [accepts_iff]
  refine ⟨fun h => ⟨hpos, hlt, h.1, h.2.1, h.2.2⟩, fun h => ⟨h.hasName, h.defined, h.bound⟩⟩

/-! ## Chains -/

def chainOf (t : SymbolTables a) (hash : BitVec 32) : Option Nat :=
  index? (t.hashBucket (hash.toNat % t.hashBucketSize))

/-- A hash table for the symbols: buckets and chains hold indices of symbols, no chain comes back to
    a symbol, and every symbol is on the chain of its own hash. -/
structure Hashed (t : SymbolTables a) : Prop where
  bucket_pos : 0 < t.hashBucketSize
  bucket_lt : ∀ b < t.hashBucketSize, ∀ n, index? (t.hashBucket b) = some n → n < t.hashChainSize
  chain_lt : ∀ m < t.hashChainSize, ∀ n, t.chainNext m = some n → n < t.hashChainSize
  acyclic : Acyclic fun m n => t.chainNext m = some n ∧ m < t.hashChainSize
  placed : ∀ n, n ≠ 0 → n < t.hashChainSize → ∀ name, t.HasName n name →
    ∃ first, t.chainOf (sysvHash name) = some first ∧
      ReflTransGen (fun m n => t.chainNext m = some n) first n

theorem ne_zero_of_index? {w : BitVec 32} (h : index? w = some n) : n ≠ 0 := by
  unfold index? at h
  split at h
  · cases h
  next hw =>
    intro hzero
    apply hw
    apply BitVec.eq_of_toNat_eq
    rw [Option.some.inj h, hzero]
    rfl

theorem Hashed.exists_chain (h : t.Hashed) (hash : BitVec 32) :
    ∃ chain, Visits t.chainNext (t.chainOf hash) chain ∧ chain.length ≤ t.hashChainSize ∧
      ∀ n ∈ chain, n ≠ 0 ∧ n < t.hashChainSize := by
  have hfirst : ∀ n, t.chainOf hash = some n → n ≠ 0 ∧ n < t.hashChainSize := fun n hn =>
    ⟨ne_zero_of_index? hn, h.bucket_lt _ (Nat.mod_lt _ h.bucket_pos) n hn⟩
  have hnext : ∀ m n, m ≠ 0 ∧ m < t.hashChainSize → t.chainNext m = some n →
      n ≠ 0 ∧ n < t.hashChainSize := fun m n hm hmn =>
    ⟨ne_zero_of_index? hmn, h.chain_lt m hm.2 n hmn⟩
  obtain ⟨rank, hrank⟩ := h.acyclic.exists_rank (Finset.range t.hashChainSize)
    fun m n hmn => Finset.mem_range.mpr hmn.2
  have hstep : ∀ m n, m ≠ 0 ∧ m < t.hashChainSize → t.chainNext m = some n →
      (n ≠ 0 ∧ n < t.hashChainSize) ∧ rank n < rank m := fun m n hm hmn =>
    ⟨hnext m n hm hmn, hrank m n ⟨hmn, hm.2⟩⟩
  obtain ⟨chain, hchain⟩ := exists_visits rank hstep hfirst
  have hmem := hchain.forall_mem hfirst hnext
  refine ⟨chain, hchain, ?_, hmem⟩
  have hsub : chain ⊆ List.range t.hashChainSize := fun n hn => List.mem_range.mpr (hmem n hn).2
  simpa using ((Visits.nodup rank hstep hfirst hchain).subperm hsub).length_le

/-- A symbol of a name is on the chain for the name. -/
theorem Hashed.mem_chain (h : t.Hashed) {chain : List Nat}
    (hchain : Visits t.chainNext (t.chainOf (sysvHash name)) chain) (hn : t.Provides name n) :
    n ∈ chain := by
  obtain ⟨first, hfirst, hreach⟩ := h.placed n hn.pos hn.lt name hn.hasName
  rw [hfirst] at hchain
  exact hchain.mem_of_reach hreach

theorem lookupByName_eq {chain : List Nat}
    (hchain : Visits t.chainNext (t.chainOf (sysvHash name)) chain) {fuel : Nat}
    (hfuel : chain.length < fuel) :
    t.lookupByName name fuel = some (chain.find? (t.accepts name)) := by
  have hhead : t.chainHead name = t.chainOf (sysvHash name) := by
    rw [chainHead, elfHash_eq]
    rfl
  rw [lookupByName, hhead, hchain.follow_eq _ _ hfuel, visitAll_search _ fun n => n,
    Option.or_none, Option.map_id']

theorem Hashed.lookupByName_returns (h : t.Hashed) (name : SymbolName) :
    ∃ result, t.lookupByName name (t.hashChainSize + 1) = some result ∧
      ∀ n, result = some n →
        (t.symbolTable n).bind = STB_GLOBAL ∨ (t.symbolTable n).bind = STB_WEAK := by
  obtain ⟨chain, hchain, hlength, -⟩ := h.exists_chain (sysvHash name)
  refine ⟨_, lookupByName_eq hchain (Nat.lt_succ_of_le hlength), fun n hn => ?_⟩
  exact (accepts_iff.mp (List.find?_some hn)).2.2

/-- **The lookup by name.** `LookupByName` returns, and the result is the first symbol on the chain
    of the name's hash that provides the name, if there is one in the table. -/
theorem lookupByName_spec (h : t.Hashed) (name : SymbolName) :
    ∃ chain result, Visits t.chainNext (t.chainOf (sysvHash name)) chain ∧
      (∀ fuel, t.hashChainSize < fuel → t.lookupByName name fuel = some result) ∧
      (result = none ↔ ∀ n, ¬ t.Provides name n) ∧
      ∀ n, result = some n → t.Provides name n ∧
        ∃ before after, chain = before ++ n :: after ∧ ∀ m ∈ before, ¬ t.Provides name m := by
  obtain ⟨chain, hchain, hlength, hmem⟩ := h.exists_chain (sysvHash name)
  have haccepts : ∀ n ∈ chain, (t.accepts name n = true ↔ t.Provides name n) :=
    fun n hn => provides_iff (hmem n hn).1 (hmem n hn).2
  refine ⟨chain, chain.find? (t.accepts name), hchain,
    fun fuel hfuel => lookupByName_eq hchain (hlength.trans_lt hfuel), ?_, fun n hn => ?_⟩
  · rw [List.find?_eq_none]
    refine ⟨fun hnone n hn => ?_, fun hnone n hn hacc => hnone n ((haccepts n hn).mp hacc)⟩
    have hn' := h.mem_chain hchain hn
    exact hnone n hn' ((haccepts n hn').mpr hn)
  · obtain ⟨hacc, before, after, rfl, hbefore⟩ := List.find?_eq_some_iff_append.mp hn
    refine ⟨(haccepts n (by simp)).mp hacc, before, after, rfl, fun m hm hm' => ?_⟩
    have hfails := hbefore m hm
    rw [(haccepts m (by simp [hm])).mpr hm'] at hfails
    cases hfails

/-- The symbols `a` and `b`, the second one weak, in one bucket. -/
def oneBucket : SymbolTables .arm where
  symbolTable n :=
    { stName := if n = 1 then 1 else if n = 2 then 3 else 0
      stInfo := if n = 1 then 0x12 else 0x22
      stShndx := if n = 0 then 0 else 1
      stValue := 0, stSize := 0 }
  stringTable i := [0, 0x61, 0, 0x62, 0].getD i 0
  hashBucket _ := 1
  hashBucketSize := 1
  hashChain n := if n = 1 then 2 else 0
  hashChainSize := 3

theorem chainNext_oneBucket {m n : Nat} : oneBucket.chainNext m = some n ↔ m = 1 ∧ n = 2 := by
  unfold chainNext index? oneBucket
  by_cases hm : m = 1
  · simp [hm, eq_comm]
  · simp [hm]

theorem hashed_oneBucket : oneBucket.Hashed where
  bucket_pos := by decide
  bucket_lt := by
    intro b _ n hn
    obtain rfl : 1 = n := Option.some.inj hn
    decide
  chain_lt := by
    intro m _ n hn
    rw [(chainNext_oneBucket.mp hn).2]
    decide
  acyclic := by
    refine Acyclic.of_rank (fun n => 3 - n) fun m n hmn => ?_
    obtain ⟨rfl, rfl⟩ := chainNext_oneBucket.mp hmn.1
    decide
  placed := by
    intro n hpos hlt name _
    have hlt : n < 3 := hlt
    refine ⟨1, rfl, ?_⟩
    interval_cases n
    · exact absurd rfl hpos
    · exact ReflTransGen.refl
    · exact ReflTransGen.single (chainNext_oneBucket.mpr ⟨rfl, rfl⟩)

theorem lookupByName_oneBucket :
    ∃ fuel result, oneBucket.lookupByName ⟨[0x62], by decide⟩ fuel = some result ∧
      (result = none ↔ ∀ n, ¬ oneBucket.Provides ⟨[0x62], by decide⟩ n) := by
  obtain ⟨-, result, -, hfuel, hnone, -⟩ :=
    lookupByName_spec hashed_oneBucket ⟨[0x62], by decide⟩
  exact ⟨4, result, hfuel 4 (by decide), hnone⟩

end SymbolTables

/-!
## The symbol nearest to an address

`LookupNearestByAddress` keeps the nearest symbol so far and its distance, and leaves the loop at a
symbol that has the address. The distance to a symbol is that to the nearer end of its range. The
loop gives up a symbol only for one that is nearer, so what it ends with is as near as any; where it
leaves early it stands at the symbol `LookupByAddress` returns, since both go through the table in
the same order.
-/

open List

namespace SymbolTables

variable {a : Arch} {t : SymbolTables a} {elfAddr : Addr a} {n : Nat}

/-- A symbol of the table that has a definition. -/
def Defined (t : SymbolTables a) (n : Nat) : Prop :=
  n < t.hashChainSize ∧ (t.symbolTable n).stShndx ≠ SHN_UNDEF

def symbolEnd (t : SymbolTables a) (n : Nat) : Nat :=
  (t.symbolTable n).stValue.toNat + (t.symbolTable n).stSize.toNat

/-- The distance to the nearer end of a symbol; 0 in between. -/
def distance (t : SymbolTables a) (elfAddr : Addr a) (n : Nat) : Nat :=
  max ((t.symbolTable n).stValue.toNat - elfAddr.toNat) (elfAddr.toNat - t.symbolEnd n)

instance (n : Nat) : Decidable (t.Defined n) := inferInstanceAs (Decidable (_ ∧ _))

/-! ### One symbol -/

theorem infDist_Icc {lo hi x : ℝ} (h : lo ≤ hi) :
    Metric.infDist x (Set.Icc lo hi) = max (max (lo - x) (x - hi)) 0 := by
  apply le_antisymm
  · rcases le_total x lo with hlo | hlo
    · refine (Metric.infDist_le_dist_of_mem (Set.left_mem_Icc.mpr h)).trans ?_
      rw [Real.dist_eq, abs_sub_comm, abs_of_nonneg (by linarith)]
      exact le_max_of_le_left (le_max_left _ _)
    · rcases le_total x hi with hhi | hhi
      · rw [Metric.infDist_zero_of_mem (Set.mem_Icc.mpr ⟨hlo, hhi⟩)]
        exact le_max_right _ _
      · refine (Metric.infDist_le_dist_of_mem (Set.right_mem_Icc.mpr h)).trans ?_
        rw [Real.dist_eq, abs_of_nonneg (by linarith)]
        exact le_max_of_le_left (le_max_right _ _)
  · refine (Metric.le_infDist (Set.nonempty_Icc.mpr h)).mpr ?_
    rintro y ⟨hlo, hhi⟩
    rw [Real.dist_eq]
    refine max_le (max_le ?_ ?_) (abs_nonneg _)
    · exact le_trans (by linarith) (neg_le_abs (x - y))
    · exact le_trans (by linarith) (le_abs_self (x - y))

theorem cast_tsub_eq_max (m k : Nat) : ((m - k : Nat) : ℝ) = max ((m : ℝ) - k) 0 := by
  rcases le_total k m with h | h
  · have hle : (k : ℝ) ≤ m := by exact_mod_cast h
    rw [Nat.cast_sub h, max_eq_left (by linarith)]
  · have hle : (m : ℝ) ≤ k := by exact_mod_cast h
    rw [Nat.sub_eq_zero_of_le h, Nat.cast_zero, max_eq_right (by linarith)]

/-- The distance is that between a point and the half-open range, on the line. -/
theorem distance_eq_infDist (hpos : 0 < (t.symbolTable n).stSize.toNat) :
    (t.distance elfAddr n : ℝ) = Metric.infDist (elfAddr.toNat : ℝ)
      (Set.Ico ((t.symbolTable n).stValue.toNat : ℝ) (t.symbolEnd n : ℝ)) := by
  have hlt : ((t.symbolTable n).stValue.toNat : ℝ) < (t.symbolEnd n : ℝ) := by
    unfold symbolEnd
    exact_mod_cast Nat.lt_add_of_pos_right hpos
  rw [← Metric.infDist_closure, closure_Ico hlt.ne, infDist_Icc hlt.le, distance, Nat.cast_max,
    cast_tsub_eq_max, cast_tsub_eq_max, max_max_max_comm, max_self]

section Symbol

variable (hend : t.symbolEnd n < 2 ^ (8 * a.wordBytes))

include hend

theorem inside_iff : t.inside elfAddr n = true ↔
    (t.symbolTable n).stValue.toNat ≤ elfAddr.toNat ∧ elfAddr.toNat < t.symbolEnd n := by
  unfold inside
  rw [Bool.and_eq_true, decide_eq_true_eq, decide_eq_true_eq, BitVec.le_def, BitVec.lt_def,
    toNat_add_of_lt hend]
  rfl

theorem distance_of_inside (h : t.inside elfAddr n = true) : t.distance elfAddr n = 0 := by
  rw [inside_iff hend] at h
  unfold distance
  omega

theorem toNat_diff (h : ¬ t.inside elfAddr n = true) :
    (t.diff elfAddr n).toNat = t.distance elfAddr n := by
  rw [inside_iff hend] at h
  unfold diff distance
  unfold symbolEnd at h ⊢
  split
  next hlt =>
    rw [BitVec.lt_def] at hlt
    rw [toNat_sub_of_le hlt.le]
    omega
  next hlt =>
    rw [BitVec.lt_def] at hlt
    have hsub : (elfAddr - (t.symbolTable n).stValue).toNat =
        elfAddr.toNat - (t.symbolTable n).stValue.toNat := toNat_sub_of_le (by omega)
    rw [toNat_sub_of_le (by omega), hsub]
    omega

end Symbol

/-! ### The loop -/

/-- What the variables of the loop say about the symbols it has passed. -/
structure Passed (t : SymbolTables a) (elfAddr : Addr a) (passed : List Nat)
    (nearestSym : Option Nat) (nearestDiff : Addr a) : Prop where
  outside : ∀ n ∈ passed, (t.symbolTable n).stShndx ≠ SHN_UNDEF → ¬ t.inside elfAddr n = true
  far : ∀ n ∈ passed, (t.symbolTable n).stShndx ≠ SHN_UNDEF →
    nearestDiff.toNat ≤ t.distance elfAddr n
  found : ∀ n, nearestSym = some n → n ∈ passed ∧ (t.symbolTable n).stShndx ≠ SHN_UNDEF ∧
    nearestDiff.toNat = t.distance elfAddr n
  notFound : nearestSym = none → nearestDiff = ~~~ 0

theorem passed_nil : t.Passed elfAddr [] none (~~~ 0) where
  outside n hn := absurd hn not_mem_nil
  far n hn := absurd hn not_mem_nil
  found n hn := by cases hn
  notFound _ := rfl

section Steps

variable {passed : List Nat} {nearestSym : Option Nat} {nearestDiff : Addr a}
  (h : t.Passed elfAddr passed nearestSym nearestDiff)

include h

theorem Passed.keep (hoff : (t.symbolTable n).stShndx ≠ SHN_UNDEF →
      ¬ t.inside elfAddr n = true ∧ nearestDiff.toNat ≤ t.distance elfAddr n) :
    t.Passed elfAddr (passed ++ [n]) nearestSym nearestDiff where
  outside := forall_mem_append.mpr
    ⟨h.outside, forall_mem_singleton.mpr fun hdef => (hoff hdef).1⟩
  far := forall_mem_append.mpr
    ⟨h.far, forall_mem_singleton.mpr fun hdef => (hoff hdef).2⟩
  found m hm := by
    obtain ⟨hmem, hdef, hdiff⟩ := h.found m hm
    exact ⟨mem_append_left _ hmem, hdef, hdiff⟩
  notFound := h.notFound

theorem Passed.take (hdef : (t.symbolTable n).stShndx ≠ SHN_UNDEF)
    (hend : t.symbolEnd n < 2 ^ (8 * a.wordBytes)) (hout : ¬ t.inside elfAddr n = true)
    (hlt : t.diff elfAddr n < nearestDiff) :
    t.Passed elfAddr (passed ++ [n]) (some n) (t.diff elfAddr n) where
  outside := forall_mem_append.mpr ⟨h.outside, forall_mem_singleton.mpr fun _ => hout⟩
  far := by
    have hdiff := toNat_diff hend hout
    rw [BitVec.lt_def] at hlt
    refine forall_mem_append.mpr ⟨fun m hm hm' => ?_, ?_⟩
    · exact hlt.le.trans (h.far m hm hm')
    · exact forall_mem_singleton.mpr fun _ => hdiff.le
  found m hm := by
    cases hm
    exact ⟨by simp, hdef, toNat_diff hend hout⟩
  notFound hm := by cases hm

end Steps

/-- What the loop ends with, for the symbols `all`. -/
structure IsNearest (t : SymbolTables a) (elfAddr : Addr a) (all : List Nat)
    (result : Option Nat) : Prop where
  found : ∀ n, result = some n → n ∈ all ∧ (t.symbolTable n).stShndx ≠ SHN_UNDEF ∧
    ∀ m ∈ all, (t.symbolTable m).stShndx ≠ SHN_UNDEF → t.distance elfAddr n ≤ t.distance elfAddr m
  notFound : result = none → ∀ m ∈ all, (t.symbolTable m).stShndx ≠ SHN_UNDEF →
    2 ^ (8 * a.wordBytes) - 1 ≤ t.distance elfAddr m
  inside : ∀ m, (all.find? fun n => decide ((t.symbolTable n).stShndx ≠ SHN_UNDEF) &&
    t.inside elfAddr n) = some m → result = some m

/-- The loop is left at a symbol that has the address. -/
theorem Passed.isNearest_of_inside {passed rest : List Nat} {nearestSym : Option Nat}
    {nearestDiff : Addr a} (h : t.Passed elfAddr passed nearestSym nearestDiff)
    (hend : t.symbolEnd n < 2 ^ (8 * a.wordBytes))
    (hdef : (t.symbolTable n).stShndx ≠ SHN_UNDEF) (hin : t.inside elfAddr n = true) :
    t.IsNearest elfAddr (passed ++ n :: rest) (some n) where
  found m hm := by
    cases hm
    refine ⟨by simp, hdef, fun m _ _ => ?_⟩
    rw [distance_of_inside hend hin]
    exact Nat.zero_le _
  notFound hnone := by cases hnone
  inside m hm := by
    have hpassed : (passed.find? fun n => decide ((t.symbolTable n).stShndx ≠ SHN_UNDEF) &&
        t.inside elfAddr n) = none := by
      rw [find?_eq_none]
      intro k hk hboth
      rw [Bool.and_eq_true, decide_eq_true_eq] at hboth
      exact h.outside k hk hboth.1 hboth.2
    rw [find?_append, hpassed, Option.none_or, find?_cons_of_pos (by simp [hdef, hin])]
      at hm
    exact hm

/-- **The loop**, from any point on. -/
theorem Passed.isNearest {passed rest : List Nat} {nearestSym : Option Nat} {nearestDiff : Addr a}
    (h : t.Passed elfAddr passed nearestSym nearestDiff)
    (hends : ∀ n ∈ rest, (t.symbolTable n).stShndx ≠ SHN_UNDEF →
      t.symbolEnd n < 2 ^ (8 * a.wordBytes)) :
    t.IsNearest elfAddr (passed ++ rest) (t.nearest elfAddr rest nearestSym nearestDiff) := by
  induction rest generalizing passed nearestSym nearestDiff with
  | nil =>
    rw [append_nil, nearest]
    refine ⟨fun n hn => ?_, fun hnone m hm hdef => ?_, fun m hm => ?_⟩
    · obtain ⟨hmem, hdef, hdiff⟩ := h.found n hn
      exact ⟨hmem, hdef, fun m hm hm' => hdiff ▸ h.far m hm hm'⟩
    · have hfar := h.far m hm hdef
      rw [h.notFound hnone] at hfar
      simpa using hfar
    · have hm' := find?_some hm
      rw [Bool.and_eq_true, decide_eq_true_eq] at hm'
      exact absurd hm'.2 (h.outside m (mem_of_find?_eq_some hm) hm'.1)
  -- the branches of the loop: not defined here, around the address, nearer, or not
  | cons n rest ih =>
    have hn := hends n mem_cons_self
    have hrest := fun m hm => hends m (mem_cons_of_mem n hm)
    rw [nearest, append_cons]
    split
    next hundef => exact ih (h.keep fun hdef => absurd hundef hdef) hrest
    next hdef =>
      split
      next hin =>
        rw [← append_cons]
        exact h.isNearest_of_inside (hn hdef) hdef hin
      next hout =>
        split
        next hlt => exact ih (h.take hdef (hn hdef) hout hlt) hrest
        next hge =>
          refine ih (h.keep fun _ => ⟨hout, ?_⟩) hrest
          rw [BitVec.lt_def, toNat_diff (hn hdef) hout] at hge
          omega

/-- Two functions with a gap, from `0x1000` and from `0x2000` on. -/
def twoFunctions : SymbolTables .arm where
  symbolTable n :=
    { stName := BitVec.ofNat 32 n, stInfo := 0x12, stShndx := if n = 0 then 0 else 1
      stValue := if n = 1 then 0x1000 else 0x2000, stSize := 0x100 }
  stringTable _ := 0
  hashBucket _ := 0
  hashBucketSize := 1
  hashChain _ := 0
  hashChainSize := 3

end SymbolTables

/-!
## The order of a symbol search

`FindSymbolFrom` asks the libraries layer by layer: the one it starts from, those that it needs,
those that these need, and so on, in each layer in the order of the `DT_NEEDED` entries. A library
that the start is needed by puts the start into the queue again. It has nothing new to say then.
-/

open List

variable {a : Arch}

/-- The symbols of libraries with hash tables. -/
def SymbolSource.ofTables (tables : LibPtr → SymbolTables a) (hashed : ∀ lib, (tables lib).Hashed)
    (loadBias : LibPtr → Addr a) (dlsym : Nat → SymbolName → Addr a) : SymbolSource a where
  lookupSymbolEntry lib name :=
    ((tables lib).lookupByName name ((tables lib).hashChainSize + 1)).join.map
      (tables lib).symbolTable
  loadBias := loadBias
  dlsym := dlsym
  bound := by
    intro lib name sym hsym
    obtain ⟨result, hresult, hbound⟩ := (hashed lib).lookupByName_returns name
    rw [hresult] at hsym
    obtain ⟨n, hn, rfl⟩ := Option.map_eq_some_iff.mp hsym
    exact hbound n hn

namespace SymbolSource

variable (source : SymbolSource a) (symbol : SymbolName)

/-- The address of a strong definition in a library: a global symbol of a crazy library, anything
    in a system library. -/
def strong? (lib : LibraryView) : Option (Addr a) :=
  match lib.type with
  | .crazy ptr _ =>
    ((source.lookupSymbolEntry ptr symbol).filter (·.bind = STB_GLOBAL)).map
      (source.loadBias ptr + ·.stValue)
  | .system handle => some (source.dlsym handle symbol) |>.filter (· ≠ 0)
  | .none => none

/-- The address of a weak definition in a library. -/
def weak? (lib : LibraryView) : Option (Addr a) :=
  match lib.type with
  | .crazy ptr _ =>
    ((source.lookupSymbolEntry ptr symbol).filter (·.bind = STB_WEAK)).map
      (source.loadBias ptr + ·.stValue)
  | _ => none

/-- The definition that libraries in this order give: the first strong one, or else the first weak
    one, or else `NULL`. -/
def resolve (order : List LibraryView) : Addr a :=
  ((order.findSome? (source.strong? symbol)).or (order.findSome? (source.weak? symbol))).getD 0

end SymbolSource

namespace SymbolLookupState

variable {source : SymbolSource a} {symbol : SymbolName} {lib : LibraryView}
  {state : SymbolLookupState a}

theorem visit_of_strong {addr : Addr a} (h : source.strong? symbol lib = some addr) :
    state.visit source symbol lib = ({ state with foundAddr := some addr }, true) := by
  unfold SymbolSource.strong? at h
  unfold visit
  cases htype : lib.type with
  | none =>
    rw [htype] at h
    cases h
  | system handle =>
    rw [htype] at h
    obtain ⟨haddr, hne⟩ := Option.filter_eq_some_iff.mp h
    rw [← Option.some.inj haddr] at hne ⊢
    simp only [decide_eq_true_eq] at hne
    simp only [if_pos hne]
  | crazy ptr shared =>
    rw [htype] at h
    obtain ⟨entry, hentry, rfl⟩ := Option.map_eq_some_iff.mp h
    obtain ⟨hlookup, hglobal⟩ := Option.filter_eq_some_iff.mp hentry
    simp only [checkSymbol, hlookup, if_pos (of_decide_eq_true hglobal)]

def weak (state : SymbolLookupState a) : Option (Addr a) :=
  if 1 ≤ state.weakCount then some state.weakAddr else none

theorem visit_of_not_strong (state : SymbolLookupState a) (h : source.strong? symbol lib = none) :
    (state.visit source symbol lib).2 = false ∧
      (state.visit source symbol lib).1.foundAddr = state.foundAddr ∧
      (state.visit source symbol lib).1.weak = state.weak.or (source.weak? symbol lib) := by
  unfold SymbolSource.strong? at h
  unfold visit SymbolSource.weak?
  cases htype : lib.type with
  | none => simp
  | system handle =>
    rw [htype] at h
    have hzero : source.dlsym handle symbol = 0 := by simpa using h
    simp [hzero]
  | crazy ptr shared =>
    rw [htype] at h
    cases hlookup : source.lookupSymbolEntry ptr symbol with
    | none => simp [checkSymbol, hlookup]
    | some entry =>
      have hglobal : entry.bind ≠ STB_GLOBAL := by simpa [hlookup] using h
      have hweak : entry.bind = STB_WEAK :=
        (source.bound ptr symbol entry hlookup).resolve_left hglobal
      simp only [checkSymbol, hlookup, if_neg hglobal]
      by_cases hcount : state.weakCount = 0
      · simp [weak, hcount, hweak]
      · have hpos : 1 ≤ state.weakCount := Nat.one_le_iff_ne_zero.mpr hcount
        simp [weak, hcount, hpos]

theorem result_of_not_found (hfound : state.foundAddr = none) :
    state.result = state.weak.getD 0 := by
  unfold result weak
  rw [hfound]
  dsimp only
  by_cases hcount : 1 ≤ state.weakCount
  · rw [if_pos hcount, if_pos hcount, Option.getD_some]
  · rw [if_neg hcount, if_neg hcount, Option.getD_none]

theorem result_visitAll (hfound : state.foundAddr = none) (order : List LibraryView) :
    (visitAll (visit source symbol) state order).result =
      ((order.findSome? (source.strong? symbol)).or
        (state.weak.or (order.findSome? (source.weak? symbol)))).getD 0 := by
  induction order generalizing state with
  | nil =>
    rw [visitAll, result_of_not_found hfound]
    simp
  | cons lib order ih =>
    rw [visitAll, findSome?_cons, findSome?_cons]
    cases hstrong : source.strong? symbol lib with
    | some addr => simp [visit_of_strong hstrong, result]
    | none =>
      obtain ⟨hgoes, hnone, hweak⟩ := visit_of_not_strong state hstrong
      rw [hgoes, if_neg (by simp), ih (hnone.trans hfound), hweak]
      cases source.weak? symbol lib <;> simp

end SymbolLookupState

namespace LibraryList

variable (st : LibraryList)

/-- The known libraries in the order of a breadth-first search from `lib`, as far as layer `k`. -/
def breadthFirst (lib : LibraryView) (k : Nat) : List LibraryView :=
  layered st.dependencies k [lib] [lib]

theorem dependencies_subset (lib : LibraryView) : st.dependencies lib ⊆ st.knownLibraries := by
  intro v hv
  obtain ⟨name, -, hname⟩ := mem_filterMap.mp hv
  exact mem_of_find?_eq_some hname

theorem breadthFirst_explored (lib : LibraryView) {k : Nat} (hk : st.knownLibraries.length < k) :
    Explored st.dependencies [lib] (st.breadthFirst lib k) [] := by
  have hsub : ∀ v, st.dependencies v ⊆ lib :: st.knownLibraries := fun v =>
    subset_cons_of_subset _ (st.dependencies_subset v)
  obtain ⟨hdrains, -⟩ := drains_layered (k := k) hsub (nodup_singleton lib) (by simp)
    (by rw [length_cons, length_singleton]; omega) [lib]
  have hstart : Explored st.dependencies [lib] [] [lib] :=
    explored_start (nodup_singleton lib)
  exact Drains.explored hdrains hstart

/-- Two libraries that need each other; the second one also needs one that is not there. -/
def mutualViews : List LibraryView :=
  [⟨1, .crazy 2 ⟨"a".toList, 0, ["b".toList]⟩, "a".toList, 1⟩,
    ⟨3, .crazy 4 ⟨"b".toList, 0, ["c".toList, "a".toList]⟩, "b".toList, 1⟩]

def mutualLibraries : LibraryList := { LibraryList.empty with knownLibraries := mutualViews }

/-- The first library has a weak definition of `b` only. -/
def mutualSource : SymbolSource .arm :=
  .ofTables (fun _ => .oneBucket) (fun _ => SymbolTables.hashed_oneBucket) (fun lib => 16 * lib)
    fun _ _ => 0

end LibraryList

end CrystaxNdk.CrazyLinker
