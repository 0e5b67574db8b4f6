import CrystaxNdk.Vfs.AssetDriver
import Mathlib.Tactic.NormNum

/-!
# Where `lseek64` lands in an asset

The position should be that of the offset from the beginning, the current position or the end, or
the end of the asset that is nearer if it is outside. `SEEK_SET` does that, and `SEEK_END` does if
the offset can be negated. In `SEEK_CUR` the sum with the position is unsigned if `size_t` has 64
bits, and never negative; and if it has 32 bits, the negated position is positive. Either way, what
should be the beginning is the end.
-/

namespace CrystaxNdk.Vfs

open Lib

/-- `base + offset`, or the end of the asset that is nearer. -/
def seekTarget (base offset size : Int) : Int := max 0 (min (base + offset) size)

/-! ## The three cases -/

theorem seekSet_eq {w : Width} (size : Unsigned w) (offset : Signed) :
    ∃ p, seekSet size offset = some p ∧ (p.val : Int) = seekTarget 0 offset.val size.val := by
  have hsize := Unsigned.lt_two_pow size
  obtain ⟨o, ho, hval⟩ : ∃ o : Signed, (if offset.val < 0 then .wrap 0 else offset) = o ∧
      o.val = max 0 offset.val := by
    split
    case isTrue h => exact ⟨_, rfl, by rw [max_eq_left h.le]; decide⟩
    case isFalse h => exact ⟨_, rfl, by rw [max_eq_right (by omega)]⟩
  have hsigned := o.2
  unfold IsSigned at hsigned
  have hmin : (if (size.val : Int) < o.val then Signed.wrap size else o).val =
      min o.val size.val := by
    split
    case isTrue h => rw [Signed.val_wrap_of_isSigned ⟨by omega, by omega⟩, min_eq_right h.le]
    case isFalse h => rw [min_eq_left (by omega)]
  unfold seekSet
  simp only [ho, common_of_nonneg (w := w) (by omega) o.2, Option.bind_eq_bind, Option.bind_some]
  refine ⟨_, rfl, ?_⟩
  rw [hmin, Unsigned.val_wrap_of_lt (by omega) (by omega), hval, seekTarget]
  omega

/-- With 64 bits the sum is only known modulo `2 ^ 64`. -/
theorem seekCur_bits64 {pos size : Unsigned .bits64} (hpos : pos ≤ size) (offset : Signed) :
    ∃ p, seekCur pos size offset = some p ∧
      (p.val : Int) = min ((pos.val + offset.val : Int) % 2 ^ 64) (size.val : Int) := by
  have hsize : (size.val : Int) < 2 ^ 64 := Unsigned.lt_two_pow size
  have hle : pos.val ≤ size.val := hpos
  have hsum : ¬ (pos.val + offset.val : Int) % 2 ^ 64 < 0 := by omega
  unfold seekCur
  simp only [common, Option.bind_eq_bind, Option.bind_some, if_neg hsum]
  refine ⟨_, rfl, ?_⟩
  rw [Unsigned.val_wrap_bits64]
  split
  case isTrue h =>
    rw [Unsigned.val_wrap_bits64]
    unfold Signed.wrap
    dsimp only
    omega
  case isFalse h => omega

theorem seekCur_overflow {pos size : Unsigned .bits32} {offset : Signed}
    (h : 2 ^ 63 ≤ (pos.val + offset.val : Int)) : seekCur pos size offset = none := by
  have hsum : ¬ IsSigned (pos.val + offset.val) := by
    unfold IsSigned
    omega
  unfold seekCur
  simp only [common, if_neg hsum]
  rfl

/-- With 32 bits `-pos` is positive, so a position before the beginning becomes the end. -/
theorem seekCur_bits32 {pos size : Unsigned .bits32} {offset : Signed} (hpos : pos ≤ size)
    (h : (pos.val + offset.val : Int) < 2 ^ 63) :
    ∃ p, seekCur pos size offset = some p ∧ (p.val : Int) =
      if (pos.val + offset.val : Int) < 0 ∧ pos.val ≠ 0 then (size.val : Int)
      else seekTarget pos offset.val size := by
  have hsize : (size.val : Int) < 2 ^ 32 := Unsigned.lt_two_pow size
  have hle : pos.val ≤ size.val := hpos
  have hoffset := offset.2
  unfold IsSigned at hoffset
  have hsum : IsSigned (pos.val + offset.val) := ⟨by omega, h⟩
  obtain ⟨o, ho, hval⟩ : ∃ o : Signed,
      (if (pos.val + offset.val : Int) < 0 then .wrap (Unsigned.wrap .bits32 (-pos)) else offset) =
        o ∧
      o.val =
        if (pos.val + offset.val : Int) < 0 then (-pos.val : Int) % 2 ^ 32 else offset.val := by
    split
    case isTrue =>
      refine ⟨_, rfl, ?_⟩
      rw [Unsigned.val_wrap_bits32, Signed.val_wrap_of_isSigned ⟨by omega, by omega⟩]
    case isFalse => exact ⟨_, rfl, rfl⟩
  have hsum' : IsSigned (pos.val + o.val) := by
    unfold IsSigned
    split at hval <;> omega
  obtain ⟨o', ho', hval'⟩ : ∃ o' : Signed,
      (if (size.val : Int) < pos.val + o.val then
        .wrap (Unsigned.wrap .bits32 (size.val - pos.val)) else o) = o' ∧
        o'.val = min o.val (size.val - pos.val) := by
    split
    case isTrue =>
      refine ⟨_, rfl, ?_⟩
      rw [Unsigned.val_wrap_bits32, Signed.val_wrap_of_isSigned ⟨by omega, by omega⟩]
      omega
    case isFalse => exact ⟨_, rfl, by omega⟩
  have hsum'' : IsSigned (pos.val + o'.val) := by
    unfold IsSigned
    split at hval <;> omega
  unfold seekCur
  simp only [common, if_pos hsum, Option.bind_eq_bind, Option.bind_some, ho, if_pos hsum', ho',
    if_pos hsum'']
  refine ⟨_, rfl, ?_⟩
  rw [Unsigned.val_wrap_bits32, seekTarget]
  split at hval <;> split <;> omega

theorem seekEnd_overflow {w : Width} (size : Unsigned w) {offset : Signed}
    (h : offset.val = -2 ^ 63) : seekEnd size offset = none := by
  have hneg : ¬ IsSigned (-offset.val) := by
    rw [h]
    decide
  unfold seekEnd
  simp only [if_neg (show ¬ 0 < offset.val by omega), signed, dif_neg hneg]
  rfl

theorem seekEnd_eq {w : Width} (size : Unsigned w) {offset : Signed}
    (h : offset.val ≠ -2 ^ 63) :
    ∃ p, seekEnd size offset = some p ∧
      (p.val : Int) = seekTarget size.val offset.val size.val := by
  have hsize := Unsigned.lt_two_pow size
  have hoffset := offset.2
  unfold IsSigned at hoffset
  obtain ⟨o, ho, hval⟩ : ∃ o : Signed, (if 0 < offset.val then .wrap 0 else offset) = o ∧
      o.val = min 0 offset.val := by
    split
    case isTrue h => exact ⟨_, rfl, by rw [min_eq_left h.le]; decide⟩
    case isFalse h => exact ⟨_, rfl, by rw [min_eq_right (by omega)]⟩
  have hneg : IsSigned (-o.val) := ⟨by omega, by omega⟩
  unfold seekEnd
  simp only [ho, signed, dif_pos hneg, Option.bind_eq_bind, Option.bind_some,
    common_of_nonneg (w := w) (by omega) hneg]
  cases w with
  | bits32 =>
    have hsize : (size.val : Int) < 2 ^ 32 := Unsigned.lt_two_pow size
    have hmax : (if (size.val : Int) < -o.val then
        Signed.wrap (Unsigned.wrap .bits32 (-size)) else o).val =
        if (size.val : Int) < -o.val then (-size.val : Int) % 2 ^ 32 else o.val := by
      split
      case isTrue =>
        rw [Unsigned.val_wrap_bits32, Signed.val_wrap_of_isSigned ⟨by omega, by omega⟩]
      case isFalse => rfl
    have hsum : IsSigned (size.val + (if (size.val : Int) < -o.val then
        Signed.wrap (Unsigned.wrap .bits32 (-size)) else o).val) := by
      rw [hmax]
      unfold IsSigned
      split <;> omega
    simp only [common, if_pos hsum, Option.bind_some]
    refine ⟨_, rfl, ?_⟩
    rw [hmax, Unsigned.val_wrap_bits32, seekTarget]
    split <;> omega
  | bits64 =>
    have hsize : (size.val : Int) < 2 ^ 64 := Unsigned.lt_two_pow size
    simp only [common, Option.bind_some]
    refine ⟨_, rfl, ?_⟩
    rw [Unsigned.val_wrap_bits64, seekTarget]
    split
    case isTrue =>
      rw [Unsigned.val_wrap_bits64]
      unfold Signed.wrap
      dsimp only
      omega
    case isFalse => omega

/-! ## The position -/

def Whence.base (pos size : Int) : Whence → Int
  | .seekSet => 0
  | .seekCur => pos
  | .seekEnd => size
  | .other _ => pos

def SumFits : (w : Width) → (pos size : Unsigned w) → Signed → Prop
  | .bits32, pos, _, offset =>
    (pos.val + offset.val : Int) < 2 ^ 63 ∧ (0 ≤ (pos.val + offset.val : Int) ∨ pos.val = 0)
  | .bits64, pos, size, offset =>
    (pos.val + offset.val : Int) < 2 ^ 64 ∧ (0 ≤ (pos.val + offset.val : Int) ∨ size.val = 0)

/-- Where the new position is right. -/
def SeekFits {w : Width} (pos size : Unsigned w) (offset : Signed) : Whence → Prop
  | .seekSet => True
  | .seekCur => SumFits w pos size offset
  | .seekEnd => offset.val ≠ -2 ^ 63
  | .other _ => True

theorem seekCur_iff {w : Width} {pos size : Unsigned w} (hpos : pos ≤ size) (offset : Signed) :
    (∃ p, seekCur pos size offset = some p ∧ (p.val : Int) = seekTarget pos.val offset.val size.val)
      ↔ SumFits w pos size offset := by
  have hle : pos.val ≤ size.val := hpos
  have hoffset := offset.2
  unfold IsSigned at hoffset
  cases w with
  | bits32 =>
    by_cases hover : 2 ^ 63 ≤ (pos.val + offset.val : Int)
    · refine iff_of_false ?_ fun hfits => not_lt.mpr hover hfits.1
      rintro ⟨p, hp, _⟩
      rw [seekCur_overflow hover] at hp
      cases hp
    · obtain ⟨p, hp, hval⟩ := seekCur_bits32 hpos (not_le.mp hover)
      rw [hp]
      simp only [Option.some.injEq, exists_eq_left', hval, SumFits, seekTarget]
      split <;> omega
  | bits64 =>
    have hsize : (size.val : Int) < 2 ^ 64 := Unsigned.lt_two_pow size
    obtain ⟨p, hp, hval⟩ := seekCur_bits64 hpos offset
    rw [hp]
    simp only [Option.some.injEq, exists_eq_left', hval, SumFits, seekTarget]
    omega

theorem seekTo_iff {w : Width} {pos size : Unsigned w} (hpos : pos ≤ size) (offset : Signed)
    {whence : Whence} (hwhence : whence ∈ [.seekSet, .seekCur, .seekEnd]) :
    (∃ p, seekTo pos size offset whence = some p ∧
      (p.val : Int) = seekTarget (whence.base pos.val size.val) offset.val size.val) ↔
      SeekFits pos size offset whence := by
  cases whence with
  | seekSet => exact iff_of_true (seekSet_eq size offset) trivial
  | seekCur => exact seekCur_iff hpos offset
  | seekEnd =>
    constructor
    · rintro ⟨p, hp, _⟩ hmin
      rw [seekTo, seekEnd_overflow size hmin] at hp
      cases hp
    · exact seekEnd_eq size
  | other k => simp at hwhence

/-! ## The call -/

variable {w : Width} {n : Nat} {world : SeekWorld} {t : AssetTable w n} {fd : Int}
  {e : AssetEntry w} {offset : Signed} {whence : Whence}

/-- The call returns the right position, and has set it. -/
def SeeksTo (world : SeekWorld) (t : AssetTable w n) (fd : Int) (offset : Signed)
    (whence : Whence) (target : Int) : Prop :=
  ∃ pos : Unsigned w, (pos.val : Int) = target ∧ ∃ result : Signed, result.val = target ∧
    lseek64 world t fd offset whence = .ok ⟨t.update fd pos, result, none⟩

def SeekWorld.Works (world : SeekWorld) : Prop := world.reset = true ∧ ∀ n, world.skip n ≠ none

section Stream

variable (hworks : world.Works) (he : t.resolve fd = some e) (hext : e.extfd = -1)
  (hobj : e.obj ≠ none)

include he hext

theorem lseek64_of_none (hseek : seekTo e.pos e.size offset whence = none) :
    lseek64 world t fd offset whence = .error .overflow := by
  unfold lseek64
  rw [he]
  simp only [hext, ne_eq, not_true_eq_false, if_false, hseek]

include hworks hobj

theorem lseek64_of_some {pos : Unsigned w} (hseek : seekTo e.pos e.size offset whence = some pos) :
    lseek64 world t fd offset whence = .ok ⟨t.update fd pos, .wrap pos, none⟩ := by
  unfold lseek64
  rw [he]
  simp only [hext, ne_eq, not_true_eq_false, if_false, hseek, hobj, hworks.1, reduceCtorEq,
    hworks.2]

end Stream

theorem AssetTable.update_inj {pos pos' : Unsigned w} (he : t.resolve fd = some e)
    (h : t.update fd pos = t.update fd pos') : pos = pos' := by
  obtain ⟨i, hi, _⟩ := AssetTable.slot_of_resolve he
  rw [AssetTable.update_of_slot hi, AssetTable.update_of_slot hi] at h
  have hentry := congrFun h i
  rw [Function.update_self, Function.update_self] at hentry
  exact congrArg AssetEntry.pos hentry

/-- The call moves to the right position, exactly if this is the one that the sums give and can be
    returned. -/
theorem seeksTo_iff (hworks : world.Works) (he : t.resolve fd = some e) (hext : e.extfd = -1)
    (hobj : e.obj ≠ none) (hpos : e.pos ≤ e.size)
    (hwhence : whence ∈ [.seekSet, .seekCur, .seekEnd]) :
    SeeksTo world t fd offset whence
        (seekTarget (whence.base e.pos.val e.size.val) offset.val e.size.val) ↔
      SeekFits e.pos e.size offset whence ∧
        seekTarget (whence.base e.pos.val e.size.val) offset.val e.size.val < 2 ^ 63 := by
  have h0 : 0 ≤ seekTarget (whence.base e.pos.val e.size.val) offset.val e.size.val :=
    le_max_left _ _
  rw [← seekTo_iff hpos offset hwhence]
  constructor
  · rintro ⟨pos, hval, result, hresult, hcall⟩
    have hlt := result.2.2
    rw [hresult] at hlt
    cases hseek : seekTo e.pos e.size offset whence with
    | none =>
      rw [lseek64_of_none he hext hseek] at hcall
      cases hcall
    | some p =>
      rw [lseek64_of_some hworks he hext hobj hseek] at hcall
      have htable := congrArg Sought.table (Except.ok.inj hcall)
      exact ⟨⟨p, rfl, AssetTable.update_inj he htable ▸ hval⟩, hlt⟩
  · rintro ⟨⟨pos, hseek, hval⟩, hlt⟩
    refine ⟨pos, hval, .wrap pos, ?_, lseek64_of_some hworks he hext hobj hseek⟩
    rw [hval, Signed.val_wrap_of_isSigned ⟨by omega, hlt⟩]

theorem not_seeksTo_of_result {s : Sought w n} {target : Int}
    (h : lseek64 world t fd offset whence = .ok s) (hresult : s.result.val ≠ target) :
    ¬ SeeksTo world t fd offset whence target := by
  rintro ⟨pos, _, result, hval, hcall⟩
  obtain rfl := Except.ok.inj (h.symm.trans hcall)
  exact hresult hval

/-- A stream whose methods do what they are asked to. -/
def readyStream : SeekWorld := ⟨true, fun n => some n, fun _ _ _ => (-1, some (.underlying 9))⟩

/-- Descriptor 0 is at position 3 of an asset of 10 bytes. -/
def atThree (w : Width) : AssetTable w 1 :=
  fun _ => ⟨some 0, .wrap w 3, .wrap w 10, -1, some ['/', 'a']⟩

theorem readyStream_works : readyStream.Works := ⟨rfl, fun _ => Option.some_ne_none _⟩

theorem seeksTo_seven :
    SeeksTo readyStream (atThree .bits32) 0 (.wrap 4) .seekCur 7 ∧
      SeeksTo readyStream (atThree .bits64) 0 (.wrap 4) .seekCur 7 := by
  constructor
  · refine (seeksTo_iff (e := atThree .bits32 0) readyStream_works rfl rfl ?_ ?_ ?_).mpr ?_
    · decide
    · decide
    · decide
    · exact ⟨⟨by decide, .inl (by decide)⟩, by decide⟩
  · refine (seeksTo_iff (e := atThree .bits64 0) readyStream_works rfl rfl ?_ ?_ ?_).mpr ?_
    · decide
    · decide
    · decide
    · exact ⟨⟨by decide, .inl (by decide)⟩, by decide⟩

/-- Four bytes back from position 3 is the end. -/
theorem not_seeksTo_start :
    lseek64 readyStream (atThree .bits32) 0 (.wrap (-4)) .seekCur =
        .ok ⟨(atThree .bits32).update 0 (.wrap .bits32 10), .wrap 10, none⟩ ∧
      lseek64 readyStream (atThree .bits64) 0 (.wrap (-4)) .seekCur =
        .ok ⟨(atThree .bits64).update 0 (.wrap .bits64 10), .wrap 10, none⟩ ∧
      seekTarget 3 (-4) 10 = 0 ∧
      ¬ SeeksTo readyStream (atThree .bits32) 0 (.wrap (-4)) .seekCur 0 ∧
      ¬ SeeksTo readyStream (atThree .bits64) 0 (.wrap (-4)) .seekCur 0 := by
  have h32 : lseek64 readyStream (atThree .bits32) 0 (.wrap (-4)) .seekCur =
      .ok ⟨(atThree .bits32).update 0 (.wrap .bits32 10), .wrap 10, none⟩ := rfl
  have h64 : lseek64 readyStream (atThree .bits64) 0 (.wrap (-4)) .seekCur =
      .ok ⟨(atThree .bits64).update 0 (.wrap .bits64 10), .wrap 10, none⟩ := rfl
  exact ⟨h32, h64, by decide, not_seeksTo_of_result h32 (by decide),
    not_seeksTo_of_result h64 (by decide)⟩

end CrystaxNdk.Vfs
