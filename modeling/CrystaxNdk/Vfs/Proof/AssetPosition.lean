import CrystaxNdk.Vfs.Proof.AssetSeek

/-!
# The recorded position and that of the stream

`read` adds to both what it has read, and `lseek64` sends the stream back to the beginning and on to
the position it records. The two stay together as long as the position is in the asset, and that it
is, as long as the size that `open` has recorded is the size of the asset. `open` asks one `skip`
for it, which cannot tell more than `INT_MAX`.
-/

namespace CrystaxNdk.Vfs

open Lib List

variable {w : Width} {n : Nat}

/-! ## `lseek64` stays inside -/

/-- The sums of the call have a result. -/
def NoOverflow (pos : Unsigned w) (offset : Signed) : Whence → Prop
  | .seekCur => w = .bits32 → (pos.val + offset.val : Int) < 2 ^ 63
  | .seekEnd => offset.val ≠ -2 ^ 63
  | _ => True

theorem seekTarget_le {size : Int} (base offset : Int) (hsize : 0 ≤ size) :
    seekTarget base offset size ≤ size :=
  max_le hsize (min_le_right _ _)

variable {pos : Unsigned w} {offset : Signed} {whence : Whence}

theorem seekTo_of_noOverflow {size : Unsigned w} (hpos : pos ≤ size)
    (hfits : NoOverflow pos offset whence) :
    ∃ p, seekTo pos size offset whence = some p ∧ p ≤ size := by
  have hsize : (0 : Int) ≤ size.val := Int.natCast_nonneg _
  have hle : ∀ p : Unsigned w, (p.val : Int) ≤ size.val → p ≤ size :=
    fun p hp => Fin.le_def.mpr (by exact_mod_cast hp)
  cases whence with
  | seekSet =>
    obtain ⟨p, hp, hval⟩ := seekSet_eq size offset
    exact ⟨p, hp, hle p (hval ▸ seekTarget_le _ _ hsize)⟩
  | seekCur =>
    cases w with
    | bits32 =>
      obtain ⟨p, hp, hval⟩ := seekCur_bits32 hpos (hfits rfl)
      refine ⟨p, hp, hle p ?_⟩
      rw [hval]
      split
      · exact le_rfl
      · exact seekTarget_le _ _ hsize
    | bits64 =>
      obtain ⟨p, hp, hval⟩ := seekCur_bits64 hpos offset
      exact ⟨p, hp, hle p (hval ▸ min_le_right _ _)⟩
  | seekEnd =>
    obtain ⟨p, hp, hval⟩ := seekEnd_eq size hfits
    exact ⟨p, hp, hle p (hval ▸ seekTarget_le _ _ hsize)⟩
  | other k => exact ⟨pos, rfl, hpos⟩

theorem seekTo_overflow {size : Unsigned w} (hfits : ¬ NoOverflow pos offset whence) :
    seekTo pos size offset whence = none := by
  cases whence with
  | seekSet => exact absurd trivial hfits
  | seekCur =>
    obtain ⟨rfl, hover⟩ := Classical.not_imp.mp hfits
    exact seekCur_overflow (not_lt.mp hover)
  | seekEnd => exact seekEnd_overflow size (not_not.mp hfits)
  | other k => exact absurd trivial hfits

variable {count : Unsigned w}

namespace Overlay

/-! ## One call -/

structure HasStream (s : Overlay w n) (fd : Int) (e : AssetEntry w) (obj : Jobject) (st : Stream) :
    Prop where
  resolve : s.table.resolve fd = some e
  noExt : e.extfd = -1
  object : e.obj = some obj
  stream : s.streams[obj]? = some st

/-- The recorded position of the asset is that of the stream, and not behind the recorded size. -/
def InStep (s : Overlay w n) (fd : Int) (bytes : List UInt8) (pos : Nat) : Prop :=
  ∃ e obj, s.HasStream fd e obj ⟨bytes, pos⟩ ∧ e.pos.val = pos ∧ pos ≤ e.size.val

/-- The same, where the recorded size is that of the asset. -/
def Tracks (s : Overlay w n) (fd : Int) (bytes : List UInt8) (e : AssetEntry w) : Prop :=
  e.size.val = bytes.length ∧ e.pos ≤ e.size ∧ ∃ obj, s.HasStream fd e obj ⟨bytes, e.pos.val⟩

variable {s s' : Overlay w n} {fd : Int} {e : AssetEntry w} {obj : Jobject} {st : Stream}
  {bytes : List UInt8}

theorem Tracks.inStep (h : s.Tracks fd bytes e) : s.InStep fd bytes e.pos.val := by
  obtain ⟨-, hpos, obj, hstream⟩ := h
  exact ⟨e, obj, hstream, rfl, hpos⟩

theorem resolve_update {t : AssetTable w n} (he : t.resolve fd = some e) (pos : Unsigned w) :
    (t.update fd pos).resolve fd = some { e with pos := pos } := by
  obtain ⟨i, hi, rfl⟩ := AssetTable.slot_of_resolve he
  rw [AssetTable.update_of_slot hi, AssetTable.resolve, hi, Option.map_some, Function.update_self]

/-- What both calls do: a new position in the record and in the stream. -/
theorem HasStream.moved (h : s.HasStream fd e obj st) (pos : Unsigned w) (st' : Stream) :
    HasStream { s with table := s.table.update fd pos, streams := s.streams.set obj st' } fd
      { e with pos := pos } obj st' where
  resolve := resolve_update h.resolve pos
  noExt := h.noExt
  object := h.object
  stream := by
    obtain ⟨hlt, -⟩ := List.getElem?_eq_some_iff.mp h.stream
    exact getElem?_set_self hlt

structure ReadRight (bytes : List UInt8) (pos : Nat) (count : Unsigned w) (out : List UInt8) :
    Prop where
  content : out <+: bytes.drop pos
  length : out.length ≤ count.val
  progress : out = [] → arrayLength count ≤ 0 ∨ bytes.length ≤ pos

theorem arrayLength_le (count : Unsigned w) : arrayLength count ≤ count.val := by
  unfold arrayLength
  omega

theorem Tracks.moved (h : s.Tracks fd bytes e) (hobj : e.obj = some obj) (hpos : pos ≤ e.size) :
    Tracks { s with
      table := s.table.update fd pos
      streams := s.streams.set obj ⟨bytes, pos.val⟩ } fd bytes { e with pos := pos } := by
  obtain ⟨hsize, -, obj', hstream⟩ := h
  obtain rfl : obj = obj' := Option.some.inj (hobj.symm.trans hstream.object)
  exact ⟨hsize, hpos, obj, hstream.moved pos _⟩

theorem Tracks.readStream (h : s.Tracks fd bytes e) (hobj : e.obj = some obj)
    (length taken : Nat) :
    ∃ s' out e', s.readStream fd e obj ⟨bytes, e.pos.val⟩ length taken = (s', out) ∧
      s'.Tracks fd bytes e' ∧ out = (bytes.drop e.pos.val).take (min length (max 1 taken)) := by
  obtain ⟨hsize, hpos, -⟩ := id h
  have hle : e.pos.val ≤ e.size.val := hpos
  set out := (bytes.drop e.pos.val).take (min length (max 1 taken)) with hout
  have hlt := e.size.isLt
  have hsum : e.pos.val + out.length ≤ e.size.val := by
    rw [hout, length_take, length_drop]
    omega
  have hval : ((Unsigned.wrap w (e.pos.val + out.length)).val : Int) = e.pos.val + out.length :=
    Unsigned.val_wrap_of_lt (by omega) (by exact_mod_cast hsum.trans_lt hlt)
  have hnat : (Unsigned.wrap w (e.pos.val + out.length)).val = e.pos.val + out.length := by
    exact_mod_cast hval
  have hmoved := h.moved hobj (Fin.le_def.mpr (hnat ▸ hsum))
  rw [hnat] at hmoved
  exact ⟨_, out, _, rfl, hmoved, rfl⟩

theorem HasStream.read_eq (h : s.HasStream fd e obj st) (hcount : count.val ≠ 0)
    (hlength : 0 ≤ arrayLength count) (taken : Nat) :
    s.read fd count taken = some (s.readStream fd e obj st (arrayLength count).toNat taken) := by
  unfold Overlay.read
  rw [if_neg hcount, h.resolve]
  dsimp only
  rw [if_neg (not_not.mpr h.noExt), if_neg (not_lt.mpr hlength)]
  simp only [h.object, Option.bind_eq_bind, Option.bind_some, h.stream]

theorem HasStream.read_nothing (h : s.HasStream fd e obj st)
    (hlength : count.val = 0 ∨ arrayLength count < 0) (taken : Nat) :
    s.read fd count taken = some (s, []) := by
  unfold Overlay.read
  split
  next => rfl
  next hcount =>
    rw [h.resolve]
    dsimp only
    rw [if_neg (not_not.mpr h.noExt), if_pos (hlength.resolve_left hcount)]

theorem Tracks.read (h : s.Tracks fd bytes e) (count : Unsigned w) (taken : Nat) :
    ∃ s' out e', s.read fd count taken = some (s', out) ∧ s'.Tracks fd bytes e' ∧
      ReadRight bytes e.pos.val count out := by
  obtain ⟨hsize, hpos, obj, hstream⟩ := id h
  have hle := arrayLength_le count
  by_cases hlength : count.val = 0 ∨ arrayLength count < 0
  · refine ⟨s, [], e, hstream.read_nothing hlength taken, h, nil_prefix, Nat.zero_le _, ?_⟩
    intro _
    exact Or.inl (by omega)
  · rw [not_or, not_lt] at hlength
    have hnat : ((arrayLength count).toNat : Int) = arrayLength count :=
      Int.toNat_of_nonneg hlength.2
    rw [hstream.read_eq hlength.1 hlength.2]
    obtain ⟨s', out, e', hread, htracks, hout⟩ :=
      h.readStream hstream.object (arrayLength count).toNat taken
    generalize (arrayLength count).toNat = length at hnat hread hout ⊢
    rw [hread]
    refine ⟨s', out, e', rfl, htracks, hout ▸ take_prefix _ _, ?_, fun hnil => ?_⟩
    · rw [hout, length_take]
      omega
    · rw [hout, take_eq_nil_iff, drop_eq_nil_iff] at hnil
      rcases hnil with hnone | hend
      · exact Or.inl (by omega)
      · exact Or.inr hend

theorem Tracks.lseek64 (h : s.Tracks fd bytes e) (hfits : NoOverflow e.pos offset whence) :
    ∃ s' e', s.lseek64 fd offset whence = some s' ∧ s'.Tracks fd bytes e' := by
  obtain ⟨hsize, hpos, obj, hstream⟩ := id h
  obtain ⟨p, hseek, hp⟩ := seekTo_of_noOverflow hpos hfits
  have hp' : p.val ≤ bytes.length := hsize ▸ hp
  unfold Overlay.lseek64
  rw [hstream.resolve]
  dsimp only
  rw [if_neg (not_not.mpr hstream.noExt)]
  simp only [hstream.object, Option.bind_eq_bind, Option.bind_some, hstream.stream]
  rw [lseek64_of_some ⟨rfl, fun _ => Option.some_ne_none _⟩ hstream.resolve hstream.noExt
    (by simp [hstream.object]) hseek]
  simp only [Except.toOption, Option.bind_some, resolve_update hstream.resolve]
  refine ⟨_, { e with pos := p }, rfl, ?_⟩
  have hmove : Stream.moveTo ⟨bytes, e.pos.val⟩ (p.val : Int) = ⟨bytes, p.val⟩ := by
    simp [Stream.moveTo, hp']
  rw [hmove]
  exact h.moved hstream.object hp

theorem Tracks.lseek64_overflow (h : s.Tracks fd bytes e)
    (hfits : ¬ NoOverflow e.pos offset whence) : s.lseek64 fd offset whence = none := by
  obtain ⟨-, -, obj, hstream⟩ := h
  unfold Overlay.lseek64
  rw [hstream.resolve]
  dsimp only
  rw [if_neg (not_not.mpr hstream.noExt)]
  simp only [hstream.object, Option.bind_eq_bind, Option.bind_some, hstream.stream]
  rw [lseek64_of_none hstream.resolve hstream.noExt (seekTo_overflow hfits)]
  rfl

end Overlay

/-! ## Runs -/

namespace PositionCall

def Right (bytes : List UInt8) (pos : Nat) (out : List UInt8) : PositionCall w → Prop
  | .read count _ => Overlay.ReadRight bytes pos count out
  | .lseek64 _ _ => True

def Fits (pos : Unsigned w) : PositionCall w → Prop
  | .read _ _ => True
  | .lseek64 offset whence => NoOverflow pos offset whence

end PositionCall

namespace Overlay

variable {s s₀ : Overlay w n} {fd : Int} {e : AssetEntry w} {path : CString} {bytes : List UInt8}

/-- Every call returns, with the bytes at the position it found; and before and after each of them
    the recorded position is that of the stream and not behind the recorded size. -/
def PositionsRight (fd : Int) (bytes : List UInt8) : Overlay w n → List (PositionCall w) → Prop
  | s, [] => ∃ pos, s.InStep fd bytes pos
  | s, c :: cs => ∃ pos, s.InStep fd bytes pos ∧
    ∃ s' out, s.position fd c = some (s', out) ∧ c.Right bytes pos out ∧
      PositionsRight fd bytes s' cs

def NoOverflows (fd : Int) : Overlay w n → List (PositionCall w) → Prop
  | _, [] => True
  | s, c :: cs => (∀ e, s.table.resolve fd = some e → c.Fits e.pos) ∧
    ∀ s' out, s.position fd c = some (s', out) → NoOverflows fd s' cs

theorem Tracks.position (h : s.Tracks fd bytes e) {c : PositionCall w} (hfits : c.Fits e.pos) :
    ∃ s' out e', s.position fd c = some (s', out) ∧ s'.Tracks fd bytes e' ∧
      c.Right bytes e.pos.val out := by
  cases c with
  | read count taken => exact h.read count taken
  | lseek64 offset whence =>
    obtain ⟨s', e', hseek, htracks⟩ := h.lseek64 hfits
    exact ⟨s', [], e', by rw [Overlay.position, hseek]; rfl, htracks, trivial⟩

theorem Tracks.position_overflow (h : s.Tracks fd bytes e) {c : PositionCall w}
    (hfits : ¬ c.Fits e.pos) : s.position fd c = none := by
  cases c with
  | read count taken => exact absurd trivial hfits
  | lseek64 offset whence =>
    rw [Overlay.position, h.lseek64_overflow hfits]
    rfl

theorem Tracks.positions_iff (h : s.Tracks fd bytes e) (calls : List (PositionCall w)) :
    PositionsRight fd bytes s calls ↔ NoOverflows fd s calls := by
  induction calls generalizing s e with
  | nil => exact iff_of_true ⟨_, h.inStep⟩ trivial
  | cons c cs ih =>
    obtain ⟨-, -, obj, hstream⟩ := id h
    have hentry : (∀ e', s.table.resolve fd = some e' → c.Fits e'.pos) ↔ c.Fits e.pos := by
      rw [hstream.resolve]
      exact ⟨fun hall => hall e rfl, fun hfits e' heq => Option.some.inj heq ▸ hfits⟩
    by_cases hfits : c.Fits e.pos
    · obtain ⟨s', out, e', hposition, htracks, hright⟩ := h.position hfits
      constructor
      · rintro ⟨pos, -, s₁, out₁, hposition₁, -, hrest⟩
        refine ⟨hentry.mpr hfits, fun s₂ out₂ hposition₂ => ?_⟩
        cases hposition.symm.trans hposition₁
        cases hposition.symm.trans hposition₂
        exact (ih htracks).mp hrest
      · rintro ⟨-, hrest⟩
        exact ⟨_, h.inStep, s', out, hposition, hright, (ih htracks).mpr (hrest s' out hposition)⟩
    · refine iff_of_false ?_ fun hall => hfits (hentry.mp hall.1)
      rintro ⟨pos, -, s', out, hposition, -⟩
      rw [h.position_overflow hfits] at hposition
      cases hposition

/-! ## Opening -/

/-- The record of an asset that has just been opened. -/
def openedEntry (w : Width) (s : Overlay w n) (path : CString) (bytes : List UInt8) :
    AssetEntry w :=
  ⟨some s.streams.length, .wrap w 0, skipped w bytes, -1, some path⟩

theorem hasStream_openStream (h : s₀.openStream path (some bytes) = (s, fd)) (hfd : 0 ≤ fd) :
    s.HasStream fd (openedEntry w s₀ path bytes) s₀.streams.length ⟨bytes, 0⟩ := by
  unfold openStream AssetTable.allocObj AssetTable.store at h
  cases hfree : s₀.table.freeSlot with
  | none =>
    rw [hfree] at h
    cases h
    exact absurd hfd (by decide)
  | some slot =>
    rw [hfree] at h
    dsimp only at h
    rw [if_neg (by omega)] at h
    cases h
    have hslot : AssetTable.slot (n := n) (slot.val : Int) = some slot := by
      simp [AssetTable.slot]
    refine ⟨?_, rfl, rfl, getElem?_concat_length⟩
    rw [AssetTable.resolve, hslot, Option.map_some]
    exact congrArg some (Function.update_self ..)

theorem skipped_val (w : Width) (bytes : List UInt8) :
    (skipped w bytes).val = min bytes.length (2 ^ 31 - 1) := by
  have hbits : (2 : Int) ^ 31 < 2 ^ w.bits := by cases w <;> decide
  have hval : ((skipped w bytes).val : Int) = min (bytes.length : Int) (2 ^ 31 - 1) :=
    Unsigned.val_wrap_of_lt (by omega) (by omega)
  omega

theorem tracks_openStream (h : s₀.openStream path (some bytes) = (s, fd)) (hfd : 0 ≤ fd)
    (hbytes : bytes.length < 2 ^ 31) : s.Tracks fd bytes (openedEntry w s₀ path bytes) := by
  have hzero : (Unsigned.wrap w 0).val = 0 := by cases w <;> rfl
  have hstream := hasStream_openStream h hfd
  refine ⟨?_, Fin.le_def.mpr ?_, s₀.streams.length, ?_⟩
  · rw [openedEntry, skipped_val]
    omega
  · rw [openedEntry, hzero]
    exact Nat.zero_le _
  · rw [← hzero] at hstream
    exact hstream

/-- **The position of an asset.** For an asset that `open` can measure, in every sequence of `read`
    and `lseek64` the recorded position is that of the stream and inside the asset, and `read`
    returns the bytes there, exactly if no sum of `lseek64` overflows. -/
theorem positionsRight_iff (h : s₀.openStream path (some bytes) = (s, fd)) (hfd : 0 ≤ fd)
    (hbytes : bytes.length < 2 ^ 31) (calls : List (PositionCall w)) :
    PositionsRight fd bytes s calls ↔ NoOverflows fd s calls :=
  (tracks_openStream h hfd hbytes).positions_iff calls

/-! ## Assets of two gigabytes -/

/-- A `read` of a stream that returns as much as it was asked for. -/
theorem HasStream.read_all {st : Stream} {obj : Jobject} (h : s.HasStream fd e obj st) {k : Nat}
    (hk : arrayLength count = k) (hpos : 0 < k) (hcount : count.val ≠ 0)
    (hrest : st.pos + k ≤ st.bytes.length) :
    ∃ s' out, s.read fd count k = some (s', out) ∧
      s'.HasStream fd { e with pos := .wrap w (e.pos.val + k) } obj ⟨st.bytes, st.pos + k⟩ := by
  rw [h.read_eq hcount (by omega), hk, Int.toNat_natCast]
  have hout : ((st.bytes.drop st.pos).take (min k (max 1 k))).length = k := by
    rw [length_take, length_drop]
    omega
  refine ⟨_, _, rfl, ?_⟩
  rw [hout]
  exact h.moved (.wrap w (e.pos.val + k)) ⟨st.bytes, st.pos + k⟩

theorem arrayLength_wrap {k : Nat} (hk : k < 2 ^ 31) :
    (Unsigned.wrap w k).val = k ∧ arrayLength (Unsigned.wrap w k) = k := by
  have hbits : (2 : Int) ^ 31 < 2 ^ w.bits := by cases w <;> decide
  have hval : ((Unsigned.wrap w k).val : Int) = k := Unsigned.val_wrap_of_lt (by omega) (by omega)
  refine ⟨by exact_mod_cast hval, ?_⟩
  unfold arrayLength
  rw [hval]
  omega

def readsPast (w : Width) (size : Nat) : List (PositionCall w) :=
  [.read (.wrap w size) size, .read (.wrap w (1 : Nat)) 1]

theorem not_positionsRight_of_long (h : s₀.openStream path (some bytes) = (s, fd)) (hfd : 0 ≤ fd)
    {size : Nat} (hintMax : size = 2 ^ 31 - 1) (hlong : size < bytes.length) :
    ¬ PositionsRight fd bytes s (readsPast w size) := by
  rintro ⟨-, -, s₁, out₁, hread₁, -, -, -, s₂, out₂, hread₂, -, pos, e, obj, hstream, -, hle⟩
  have hopened := hasStream_openStream h hfd
  have hsize : (skipped w bytes).val = min bytes.length size := hintMax ▸ skipped_val w bytes
  obtain ⟨hval₁, hlength₁⟩ := arrayLength_wrap (w := w) (k := size) (by omega)
  obtain ⟨hval₂, hlength₂⟩ := arrayLength_wrap (w := w) (k := 1) (by omega)
  obtain ⟨s₁', out₁', heq₁, hstream₁⟩ :=
    hopened.read_all hlength₁ (by omega) (by omega) (by dsimp only; omega)
  cases heq₁.symm.trans hread₁
  obtain ⟨s₂', out₂', heq₂, hstream₂⟩ :=
    hstream₁.read_all hlength₂ (by omega) (by omega) (by dsimp only; omega)
  cases heq₂.symm.trans hread₂
  obtain rfl := Option.some.inj (hstream.resolve.symm.trans hstream₂.resolve)
  obtain rfl := Option.some.inj (hstream.object.symm.trans hstream₂.object)
  have hpos := congrArg Stream.pos (Option.some.inj (hstream.stream.symm.trans hstream₂.stream))
  dsimp only [openedEntry] at hpos hle
  omega

theorem openStream_started (w : Width) (disk : Disk CString) (path : CString)
    (bytes : List UInt8) :
    ∃ s, (started disk : Overlay w 1).openStream path (some bytes) = (s, 0) :=
  ⟨_, rfl⟩

/-- To the end, back to the beginning, and five bytes. -/
theorem positionsRight_five :
    ∃ s, (started ⟨fun _ => none, fun _ => none⟩ : Overlay .bits64 1).openStream ['/', 'a']
        (some [1, 2, 3, 4, 5, 6]) = (s, 0) ∧
      PositionsRight 0 [1, 2, 3, 4, 5, 6] s
        [.lseek64 (.wrap 0) .seekEnd, .lseek64 (.wrap 0) .seekSet, .read (.wrap .bits64 5) 5] := by
  obtain ⟨s, hopen⟩ := openStream_started .bits64 ⟨fun _ => none, fun _ => none⟩ ['/', 'a']
    [1, 2, 3, 4, 5, 6]
  refine ⟨s, hopen, (positionsRight_iff hopen le_rfl (by decide) _).mpr ?_⟩
  refine ⟨fun _ _ => ?_, fun _ _ _ => ⟨fun _ _ => trivial, fun _ _ _ => ?_⟩⟩
  · show (Signed.wrap 0).val ≠ -2 ^ 63
    decide
  · exact ⟨fun _ _ => trivial, fun _ _ _ => trivial⟩

/-- The position goes past the size that was recorded for an asset of two gigabytes. -/
theorem not_positionsRight_two_gigabytes :
    ∃ s, (started ⟨fun _ => none, fun _ => none⟩ : Overlay .bits64 1).openStream ['/', 'a']
        (some (List.replicate (2 ^ 31) 0)) = (s, 0) ∧
      NoOverflows 0 s (readsPast .bits64 (2 ^ 31 - 1)) ∧
      ¬ PositionsRight 0 (List.replicate (2 ^ 31) 0) s (readsPast .bits64 (2 ^ 31 - 1)) := by
  obtain ⟨s, hopen⟩ := openStream_started .bits64 ⟨fun _ => none, fun _ => none⟩ ['/', 'a']
    (List.replicate (2 ^ 31) 0)
  refine ⟨s, hopen, ?_, not_positionsRight_of_long hopen le_rfl rfl ?_⟩
  · exact ⟨fun _ _ => trivial, fun _ _ _ => ⟨fun _ _ => trivial, fun _ _ _ => trivial⟩⟩
  · rw [length_replicate]
    omega

end Overlay

end CrystaxNdk.Vfs
