import Mathlib

/-!
# Numbers in text and in C

Hexadecimal numbers as `printf` writes them and as `strtoumax` reads them. A number is followed by
something that is no digit, or by the end of the text, and leading zeros do not count. Then come
numerals that other numerals begin with, and integers of C in expressions of mixed types.
-/

namespace CrystaxNdk.Lib

open List

def hexValue (c : Char) : Option Nat :=
  if '0' ≤ c ∧ c ≤ '9' then some (c.toNat - '0'.toNat)
  else if 'a' ≤ c ∧ c ≤ 'f' then some (c.toNat - 'a'.toNat + 10)
  else if 'A' ≤ c ∧ c ≤ 'F' then some (c.toNat - 'A'.toNat + 10)
  else none

/-- Reads digits as long as there are some. -/
def readHex (acc : Nat) : List Char → Nat
  | [] => acc
  | c :: cs =>
    match hexValue c with
    | none => acc
    | some d => readHex (16 * acc + d) cs

def hexPadded (width n : Nat) : List Char :=
  let digits := Nat.toDigits 16 n
  List.replicate (width - digits.length) '0' ++ digits

theorem hexValue_digitChar {d : Nat} (h : d < 16) : hexValue d.digitChar = some d := by
  interval_cases d <;> rfl

theorem exists_digitChar_of_mem_toDigits {n : Nat} {c : Char} (h : c ∈ Nat.toDigits 16 n) :
    ∃ d, d < 16 ∧ c = d.digitChar := by
  induction n using Nat.strong_induction_on with
  | _ n ih =>
    rw [Nat.toDigits_eq_if (by decide)] at h
    split_ifs at h with hlt
    · exact ⟨n, hlt, mem_singleton.mp h⟩
    · rcases mem_append.mp h with h | h
      · exact ih (n / 16) (Nat.div_lt_self (by omega) (by decide)) h
      · exact ⟨n % 16, Nat.mod_lt n (by decide), mem_singleton.mp h⟩

theorem exists_digitChar_of_mem_hexPadded {width n : Nat} {c : Char} (h : c ∈ hexPadded width n) :
    ∃ d, d < 16 ∧ c = d.digitChar := by
  rcases mem_append.mp h with h | h
  · exact ⟨0, by decide, eq_of_mem_replicate h⟩
  · exact exists_digitChar_of_mem_toDigits h

theorem hexPadded_ne_nil (width n : Nat) : hexPadded width n ≠ [] :=
  append_ne_nil_of_right_ne_nil _ Nat.toDigits_ne_nil

theorem readHex_append {digits : List Char} (h : ∀ c ∈ digits, ∃ d, d < 16 ∧ c = d.digitChar)
    (acc : Nat) (rest : List Char) :
    readHex acc (digits ++ rest) = readHex (readHex acc digits) rest := by
  induction digits generalizing acc with
  | nil => rfl
  | cons c digits ih =>
    obtain ⟨d, hd, rfl⟩ := h c mem_cons_self
    rw [cons_append, readHex, readHex, hexValue_digitChar hd]
    exact ih (fun c hc => h c (mem_cons_of_mem _ hc)) _

theorem readHex_toDigits (n : Nat) : readHex 0 (Nat.toDigits 16 n) = n := by
  induction n using Nat.strong_induction_on with
  | _ n ih =>
    rw [Nat.toDigits_eq_if (by decide)]
    split_ifs with hlt
    · rw [readHex, hexValue_digitChar hlt]
      exact Nat.zero_add n
    · rw [readHex_append fun c hc => exists_digitChar_of_mem_toDigits hc,
        ih (n / 16) (Nat.div_lt_self (by omega) (by decide)), readHex,
        hexValue_digitChar (Nat.mod_lt n (by decide))]
      exact Nat.div_add_mod n 16

theorem readHex_replicate (count : Nat) : readHex 0 (List.replicate count '0') = 0 := by
  induction count with
  | zero => rfl
  | succ count ih => exact ih

/-- A number is read back, if what follows it is no digit. -/
theorem readHex_hexPadded (width n : Nat) {rest : List Char}
    (h : ∀ c ∈ rest.head?, hexValue c = none) : readHex 0 (hexPadded width n ++ rest) = n := by
  have hzeros : ∀ c ∈ List.replicate (width - (Nat.toDigits 16 n).length) '0',
      ∃ d, d < 16 ∧ c = d.digitChar :=
    fun c hc => ⟨0, by decide, eq_of_mem_replicate hc⟩
  rw [readHex_append fun c hc => exists_digitChar_of_mem_hexPadded hc, hexPadded,
    readHex_append hzeros, readHex_replicate, readHex_toDigits]
  cases rest with
  | nil => rfl
  | cons c rest => rw [readHex, h c rfl]

/-! ## Numerals that begin with another -/

section Numerals

variable {b m n : Nat} (hb : 1 < b) (hb' : b ≤ 10)
include hb hb'

theorem toDigits_injective : Function.Injective (Nat.toDigits b) := by
  intro m n heq
  rw [← Nat.ofDigitChars_toDigits (n := m) hb hb', heq, Nat.ofDigitChars_toDigits hb hb']

/-- What is left of a number when its last digits are taken off. -/
theorem toDigits_isPrefix_iff (hm : 0 < m) :
    Nat.toDigits b m <+: Nat.toDigits b n ↔ ∃ k, n / b ^ k = m := by
  induction n using Nat.strong_induction_on with
  | _ n ih =>
    rw [Nat.toDigits_eq_if (n := n) hb]
    split
    next hlt =>
      constructor
      · intro hmatch
        have hsingle : Nat.toDigits b n = [n.digitChar] := by
          rw [Nat.toDigits_eq_if hb, if_pos hlt]
        rw [← nil_append [n.digitChar], prefix_concat_iff, prefix_nil,
          nil_append, ← hsingle] at hmatch
        rcases hmatch with heq | hnil
        · exact ⟨0, by rw [toDigits_injective hb hb' heq, pow_zero, Nat.div_one]⟩
        · exact absurd hnil Nat.toDigits_ne_nil
      · rintro ⟨k, rfl⟩
        cases k with
        | zero => rw [pow_zero, Nat.div_one, Nat.toDigits_eq_if hb, if_pos hlt]
        | succ k =>
          have hzero : n / b ^ (k + 1) = 0 :=
            Nat.div_eq_of_lt (hlt.trans_le (Nat.le_self_pow (Nat.succ_ne_zero k) b))
          omega
    next hge =>
      have hdiv : n / b < n := Nat.div_lt_self (by omega) hb
      have hnumeral : Nat.toDigits b n = Nat.toDigits b (n / b) ++ [(n % b).digitChar] := by
        rw [Nat.toDigits_eq_if hb, if_neg hge]
      rw [prefix_concat_iff, ih (n / b) hdiv, ← hnumeral]
      constructor
      · rintro (heq | ⟨k, hk⟩)
        · exact ⟨0, by rw [toDigits_injective hb hb' heq, pow_zero, Nat.div_one]⟩
        · exact ⟨k + 1, by rw [pow_succ', ← Nat.div_div_eq_div_mul, hk]⟩
      · rintro ⟨k, rfl⟩
        cases k with
        | zero => exact Or.inl (by rw [pow_zero, Nat.div_one])
        | succ k => exact Or.inr ⟨k, by rw [pow_succ', Nat.div_div_eq_div_mul]⟩

end Numerals

/-!
## Signed and unsigned integers in one expression of C

The signed type has 64 bits, the unsigned one 32 or 64. An expression with operands of both types
is computed in a common type. If the unsigned type has 32 bits, this is the signed one, and a value
that it does not have is undefined. If it has 64 bits, it is the unsigned one, and values are taken
modulo `2 ^ 64`.
-/

inductive Width
  | bits32
  | bits64
deriving DecidableEq

def Width.bits : Width → Nat
  | .bits32 => 32
  | .bits64 => 64

abbrev Unsigned (w : Width) := Fin (2 ^ w.bits)

def IsSigned (x : Int) : Prop := -2 ^ 63 ≤ x ∧ x < 2 ^ 63

abbrev Signed := { x : Int // IsSigned x }

instance {x : Int} : Decidable (IsSigned x) := inferInstanceAs (Decidable (_ ∧ _))

def Unsigned.wrap (w : Width) (x : Int) : Unsigned w :=
  ⟨(x % 2 ^ w.bits).toNat, by cases w <;> simp only [Width.bits] <;> omega⟩

def Signed.wrap (x : Int) : Signed :=
  ⟨(x + 2 ^ 63) % 2 ^ 64 - 2 ^ 63, by unfold IsSigned; omega⟩

/-- The value of a signed expression whose exact result is `x`. -/
def signed (x : Int) : Option Signed := if h : IsSigned x then some ⟨x, h⟩ else none

/-- The value, in the common type, of an expression whose exact result is `x`. -/
def common (w : Width) (x : Int) : Option Int :=
  match w with
  | .bits32 => if IsSigned x then some x else none
  | .bits64 => some (x % 2 ^ 64)

theorem Unsigned.lt_two_pow {w : Width} (x : Unsigned w) : (x.val : Int) < 2 ^ w.bits := by
  exact_mod_cast x.isLt

theorem Unsigned.val_wrap (w : Width) (x : Int) :
    ((Unsigned.wrap w x).val : Int) = x % 2 ^ w.bits := by
  have hpos : (2 : Int) ^ w.bits ≠ 0 := by positivity
  exact Int.toNat_of_nonneg (Int.emod_nonneg x hpos)

theorem Unsigned.val_wrap_of_lt {w : Width} {x : Int} (h0 : 0 ≤ x) (h : x < 2 ^ w.bits) :
    ((Unsigned.wrap w x).val : Int) = x := by
  rw [Unsigned.val_wrap, Int.emod_eq_of_lt h0 h]

theorem Unsigned.val_wrap_bits32 (x : Int) : ((Unsigned.wrap .bits32 x).val : Int) = x % 2 ^ 32 :=
  Unsigned.val_wrap .bits32 x

theorem Unsigned.val_wrap_bits64 (x : Int) : ((Unsigned.wrap .bits64 x).val : Int) = x % 2 ^ 64 :=
  Unsigned.val_wrap .bits64 x

theorem Signed.val_wrap_of_isSigned {x : Int} (h : IsSigned x) : (Signed.wrap x).val = x := by
  unfold Signed.wrap IsSigned at *
  dsimp only
  omega

/-- A signed value that is not negative survives the conversion to the common type. -/
theorem common_of_nonneg {w : Width} {x : Int} (h0 : 0 ≤ x) (h : IsSigned x) :
    common w x = some x := by
  cases w with
  | bits32 => exact if_pos h
  | bits64 =>
    unfold IsSigned at h
    unfold common
    rw [Int.emod_eq_of_lt h0 (by omega)]

end CrystaxNdk.Lib
