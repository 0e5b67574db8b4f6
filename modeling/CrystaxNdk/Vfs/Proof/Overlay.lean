import CrystaxNdk.Lib.Runs
import CrystaxNdk.Vfs.Proof.AssetCopy

/-!
# What stays of the data written to a mount of assets

Data that was written is in a file of the driver below, and it is this file that is read from then
on. But each `open` for writing copies the asset again, into the same file, and what
`copy_from_assets` writes is zeros. So data stays as long as the zeros do not reach it. Beside that,
a descriptor that was opened for reading before there was a file goes on reading the asset.
-/

namespace CrystaxNdk.Vfs

open Lib List Function

/-! ## The data that was written -/

/-- The last write to a position of a file: the byte, the descriptor, and whether this has been
    closed since. -/
structure LastWrite where
  byte : UInt8
  fd : Int
  closed : Bool
deriving DecidableEq

namespace LastWrite

def follow (path : CString) (i : Nat) (last : Option LastWrite) : OverlayEvent → Option LastWrite
  | .wrote fd p pos bytes =>
    if p = path ∧ pos ≤ i then (bytes[i - pos]?.map (⟨·, fd, false⟩)).or last else last
  | .closed fd => last.map fun l => if l.fd = fd then { l with closed := true } else l
  | _ => last

end LastWrite

def lastWrite (events : List OverlayEvent) (path : CString) (i : Nat) : Option LastWrite :=
  events.foldl (LastWrite.follow path i) none

variable {events : List OverlayEvent} {path : CString} {i : Nat} {l : LastWrite}

theorem lastWrite_concat (events : List OverlayEvent) (e : OverlayEvent) (path : CString)
    (i : Nat) :
    lastWrite (events ++ [e]) path i = LastWrite.follow path i (lastWrite events path i) e := by
  rw [lastWrite, foldl_append]
  rfl

/-- The files have all the data. -/
def Held (files : CString → Option (List UInt8)) (events : List OverlayEvent) : Prop :=
  ∀ path i l, lastWrite events path i = some l →
    ∃ file, files path = some file ∧ file[i]? = some l.byte

variable {files files' : CString → Option (List UInt8)}

theorem Held.concat {e : OverlayEvent} (h : Held files events)
    (he : ∀ fd path pos bytes, e ≠ .wrote fd path pos bytes) : Held files (events ++ [e]) := by
  intro path i l hl
  rw [lastWrite_concat] at hl
  cases e with
  | wrote fd p pos bytes => exact absurd rfl (he fd p pos bytes)
  | closed fd =>
    obtain ⟨l', hl', rfl⟩ := Option.map_eq_some_iff.mp hl
    have hbyte : (if l'.fd = fd then { l' with closed := true } else l').byte = l'.byte := by
      split <;> rfl
    rw [hbyte]
    exact h path i l' hl'
  | opened p fd => exact h path i l hl
  | got p pos count bytes => exact h path i l hl
  | nothing => exact h path i l hl

/-- Another file in one place has the data if it has what was written there. -/
theorem Held.update {file : Option (List UInt8)} (h : Held files events)
    (hfile : ∀ i l, lastWrite events path i = some l →
      ∃ content, file = some content ∧ content[i]? = some l.byte) :
    Held (update files path file) events := by
  intro p i l hl
  by_cases hp : p = path
  · subst hp
    rw [update_self]
    exact hfile i l hl
  · rw [update_of_ne hp]
    exact h p i l hl

theorem Held.touched (h : Held files events) (path : CString) :
    Held (Function.update files path (some ((files path).getD []))) events := by
  refine h.update fun i l hl => ?_
  obtain ⟨file, hfile, hbyte⟩ := h path i l hl
  exact ⟨file, by rw [hfile]; rfl, hbyte⟩

variable {pos : Nat} {bytes : List UInt8}

theorem Held.write {fd : Int} (h : Held files events) :
    Held (Function.update files path (some (overwrite ((files path).getD []) pos bytes)))
      (events ++ [.wrote fd path pos bytes]) := by
  intro p i l hl
  rw [lastWrite_concat, LastWrite.follow] at hl
  by_cases hp : path = p
  · subst hp
    refine ⟨_, update_self .., ?_⟩
    by_cases hpos : pos ≤ i
    · rw [if_pos ⟨rfl, hpos⟩] at hl
      cases hbyte : bytes[i - pos]? with
      | some b =>
        rw [hbyte] at hl
        cases hl
        have hat : (overwrite ((files path).getD []) pos bytes)[pos + (i - pos)]? = some b :=
          getElem?_overwrite_of_mem hbyte
        rwa [Nat.add_sub_of_le hpos] at hat
      | none =>
        rw [hbyte] at hl
        obtain ⟨file, hfile, hold⟩ := h path i l hl
        rw [hfile]
        have hlen := List.getElem?_eq_none_iff.mp hbyte
        exact getElem?_overwrite_of_not_mem (.inr (by omega)) hold
    · rw [if_neg (fun hcond => hpos hcond.2)] at hl
      obtain ⟨file, hfile, hold⟩ := h path i l hl
      rw [hfile]
      exact getElem?_overwrite_of_not_mem (.inl (by omega)) hold
  · rw [if_neg (fun hcond => hp hcond.1)] at hl
    rw [update_of_ne (Ne.symm hp)]
    exact h p i l hl

/-! ## The copy -/

variable {count : Nat}

theorem getElem?_zeroed {content : List UInt8} {i : Nat} :
    (zeroed content count)[i]? = if i < count then some 0 else content[i]? := by
  unfold zeroed
  split
  case isTrue h =>
    rw [getElem?_append_left (by rwa [length_replicate]), getElem?_replicate_of_lt h]
  case isFalse h =>
    rw [getElem?_append_right (by rw [length_replicate]; omega), length_replicate,
      getElem?_drop]
    congr 1
    omega

theorem copyFromAssets_file {s : CopySetting} {rounds : List CopyRound} {c : Copied}
    (h : copyFromAssets s rounds = .ok (some c)) :
    c.file = s.file ∨ s.Starts ∧ ∃ count ≤ zerosWritten rounds,
      c.file = some (zeroed (s.file.getD []) count) := by
  rcases CopySetting.starts_or h with ⟨hfile, -⟩ | hstarts
  · exact .inl hfile
  · rw [hstarts.copyFromAssets] at h
    obtain ⟨count, hle, hfile, -⟩ := copyLoop_zeroed h
    rw [Nat.zero_add] at hfile
    exact .inr ⟨hstarts, count, hle, hfile⟩

/-! ## The two tables -/

variable {w : Width} {n : Nat} {world : AssetWorld} {t : AssetTable w n} {disk : Disk CString}

/-- Each descriptor with a file below has one of its own, that is open for the same path. -/
structure Paired (t : AssetTable w n) (opened : Nat → Option (OpenFile CString)) : Prop where
  opened : ∀ fd, (t fd).extfd ≠ -1 → ∃ (x : Nat) (f : OpenFile CString),
    (t fd).extfd = x ∧ opened x = some f ∧ (t fd).path = some f.path
  distinct : ∀ fd fd', (t fd).extfd ≠ -1 → (t fd).extfd = (t fd').extfd → fd = fd'

namespace Paired

variable {opened : Nat → Option (OpenFile CString)} {fd : Fin n} {x : Nat} {f : OpenFile CString}
  {e : AssetEntry w}

theorem started : Paired (fun _ => .free : AssetTable w n) opened where
  opened _ h := absurd rfl h
  distinct _ _ h := absurd rfl h

theorem without (h : Paired t opened) (he : e.extfd = -1) :
    Paired (update t fd e) opened where
  opened fd' hfd' := by
    by_cases heq : fd' = fd
    · subst heq
      rw [update_self] at hfd'
      exact absurd he hfd'
    · rw [update_of_ne heq] at hfd' ⊢
      exact h.opened fd' hfd'
  distinct fd₁ fd₂ h₁ heq := by
    by_cases h₁' : fd₁ = fd
    · subst h₁'
      rw [update_self] at h₁
      exact absurd he h₁
    · rw [update_of_ne h₁'] at h₁ heq
      by_cases h₂' : fd₂ = fd
      · subst h₂'
        rw [update_self, he] at heq
        exact absurd heq h₁
      · rw [update_of_ne h₂'] at heq
        exact h.distinct fd₁ fd₂ h₁ heq

theorem seeks (h : Paired t opened) (fd : Fin n) (pos : Unsigned w) :
    Paired (update t fd { t fd with pos := pos }) opened := by
  have hsame : ∀ fd', (update t fd { t fd with pos := pos } fd').extfd = (t fd').extfd ∧
      (update t fd { t fd with pos := pos } fd').path = (t fd').path := by
    intro fd'
    by_cases heq : fd' = fd
    · subst heq
      rw [update_self]
      exact ⟨rfl, rfl⟩
    · rw [update_of_ne heq]
      exact ⟨rfl, rfl⟩
  constructor
  · intro fd' hfd'
    rw [(hsame fd').1] at hfd' ⊢
    rw [(hsame fd').2]
    exact h.opened fd' hfd'
  · intro fd₁ fd₂ h₁ heq
    rw [(hsame fd₁).1] at h₁ heq
    rw [(hsame fd₂).1] at heq
    exact h.distinct fd₁ fd₂ h₁ heq

theorem opens (h : Paired t opened) (hx : opened x = none) (he : e.extfd = x)
    (hpath : e.path = some f.path) :
    Paired (update t fd e) (update opened x (some f)) := by
  have hother : ∀ fd', (t fd').extfd ≠ x := by
    intro fd' heq
    obtain ⟨x', f', hx', hopen, _⟩ := h.opened fd' (by omega)
    obtain rfl : x' = x := by omega
    rw [hx] at hopen
    cases hopen
  constructor
  · intro fd' hfd'
    by_cases heq : fd' = fd
    · subst heq
      rw [update_self]
      exact ⟨x, f, he, update_self .., hpath⟩
    · rw [update_of_ne heq] at hfd' ⊢
      obtain ⟨x', f', hx', hopen, hpath'⟩ := h.opened fd' hfd'
      refine ⟨x', f', hx', ?_, hpath'⟩
      rw [update_of_ne ?_, hopen]
      rintro rfl
      exact hother fd' hx'
  · intro fd₁ fd₂ h₁ heq
    by_cases h₁' : fd₁ = fd <;> by_cases h₂' : fd₂ = fd
    · rw [h₁', h₂']
    · subst h₁'
      rw [update_self, update_of_ne h₂', he] at heq
      exact absurd heq.symm (hother fd₂)
    · subst h₂'
      rw [update_self, update_of_ne h₁', he] at heq
      exact absurd heq (hother fd₁)
    · rw [update_of_ne h₁'] at h₁ heq
      rw [update_of_ne h₂'] at heq
      exact h.distinct fd₁ fd₂ h₁ heq

theorem moves (h : Paired t opened) (hx : opened x = some f) {f' : OpenFile CString}
    (hpath : f'.path = f.path) : Paired t (update opened x (some f')) where
  opened fd hfd := by
    obtain ⟨x', f'', hx', hopen, hpath'⟩ := h.opened fd hfd
    by_cases heq : x' = x
    · subst heq
      obtain rfl := Option.some.inj (hx.symm.trans hopen)
      exact ⟨x', f', hx', update_self .., hpath'.trans (by rw [hpath])⟩
    · exact ⟨x', f'', hx', by rw [update_of_ne heq, hopen], hpath'⟩
  distinct := h.distinct

theorem closes (h : Paired t opened) (hx : (t fd).extfd = x) :
    Paired (update t fd .free) (update opened x none) where
  opened fd' hfd' := by
    have hne : fd' ≠ fd := by
      rintro rfl
      rw [update_self] at hfd'
      exact hfd' rfl
    rw [update_of_ne hne] at hfd' ⊢
    obtain ⟨x', f', hx', hopen, hpath'⟩ := h.opened fd' hfd'
    refine ⟨x', f', hx', ?_, hpath'⟩
    rw [update_of_ne ?_, hopen]
    rintro rfl
    exact hne (h.distinct fd' fd hfd' (hx'.trans hx.symm))
  distinct := (h.without rfl).distinct

end Paired

theorem AssetTable.store_cases (t : AssetTable w n) (e : AssetEntry w) :
    t.store e = (t, -1) ∨ ∃ i : Fin n, t.store e = (Function.update t i e, (i.val : Int)) := by
  unfold AssetTable.store
  cases t.freeSlot with
  | none => exact .inl rfl
  | some i => exact .inr ⟨i, rfl⟩

/-! ## What one call does -/

/-- The data is there, and the descriptors belong together. -/
structure Keeps (s : Overlay w n) (events : List OverlayEvent) : Prop where
  held : Held s.disk.files events
  paired : Paired s.table s.disk.opened

namespace Keeps

variable {s s' : Overlay w n} {flags : OpenFlags} {answer : Option Nat} {fd : Int}

theorem openBelow (h : Keeps s events) (htrunc : flags.trunc = false) :
    Keeps (s.openBelow path flags answer).1 events := by
  unfold Overlay.openBelow
  split
  case h_1 disk hopen =>
    rw [Disk.openFile_eq_none hopen]
    exact h
  case h_2 disk x hopen =>
    obtain ⟨hx, hfiles, hopened⟩ := Disk.openFile_eq_some hopen htrunc
    have hheld : Held disk.files events := by
      rw [hfiles]
      exact h.held.touched path
    have hext : s.table.allocExt x path =
        s.table.store ⟨none, .wrap w 0, .wrap w 0, x, some path⟩ := if_neg (by omega)
    rw [hext]
    rcases s.table.store_cases ⟨none, .wrap w 0, .wrap w 0, x, some path⟩ with hfull | ⟨i, hstore⟩
    · -- no record is free, and the file is closed again
      have hclosed : (disk.close x).opened = s.disk.opened := by
        unfold Disk.close
        rw [hopened, update_idem, ← hx, update_eq_self]
      rw [hfull]
      exact ⟨hheld, hclosed ▸ h.paired⟩
    · have hpaired : Paired
          (update s.table i ⟨none, .wrap w 0, .wrap w 0, x, some path⟩)
          (update s.disk.opened x (some ⟨path, 0, flags⟩)) := h.paired.opens hx rfl rfl
      rw [hstore]
      dsimp only
      rw [if_neg (by omega)]
      exact ⟨hheld, hopened ▸ hpaired⟩

theorem openStream (h : Keeps s events) (bytes : Option (List UInt8)) :
    Keeps (s.openStream path bytes).1 events := by
  unfold Overlay.openStream
  cases bytes with
  | none => exact h
  | some bytes =>
    dsimp only
    unfold AssetTable.allocObj
    rcases s.table.store_cases ⟨some s.streams.length, .wrap w 0, Overlay.skipped w bytes, -1,
      some path⟩ with hfull | ⟨i, hstore⟩
    · rw [hfull]
      exact h
    · rw [hstore]
      dsimp only
      rw [if_neg (by omega)]
      exact ⟨h.held, h.paired.without rfl⟩

theorem copied {a : OpenAnswers} {copy : Copied} (h : Keeps s events)
    (hcopied : s.copied world path a = some copy)
    (hzeros : ¬ (a.mkdirP = true ∧ world.assets path ≠ none ∧ a.opens = true) ∨
      ∀ i < zerosWritten a.rounds, ∀ l, lastWrite events path i = some l → l.byte = 0) :
    Keeps { s with disk.files := update s.disk.files path copy.file } events := by
  refine ⟨h.held.update fun i l hl => ?_, h.paired⟩
  obtain ⟨file, hfile, hbyte⟩ := h.held path i l hl
  have hok := eq_ok_of_toOption (Option.join_eq_some_iff.mp hcopied)
  rcases copyFromAssets_file hok with hsame | ⟨hstarts, count, hle, hzeroed⟩
  · exact ⟨file, hsame.trans hfile, hbyte⟩
  · refine ⟨_, hzeroed, ?_⟩
    rw [getElem?_zeroed]
    split
    case isTrue hi =>
      rcases hzeros with hnot | hzero
      · exact absurd ⟨hstarts.mkdirP, hstarts.asset, hstarts.opens⟩ hnot
      · rw [hzero i (by omega) l hl]
    case isFalse =>
      rw [show s.disk.files path = some file from hfile]
      exact hbyte

theorem close {e : AssetEntry w} (h : Keeps s events) (he : s.table.resolve fd = some e) :
    Keeps (s.close fd e) (events ++ [.closed fd]) := by
  obtain ⟨i, hi, rfl⟩ := AssetTable.slot_of_resolve he
  refine ⟨?_, ?_⟩
  · have hfiles : (s.close fd (s.table i)).disk.files = s.disk.files := by
      unfold Overlay.close
      dsimp only
      split <;> rfl
    rw [hfiles]
    exact h.held.concat (by simp)
  · unfold Overlay.close
    dsimp only
    rw [AssetTable.freeFd_of_slot hi]
    by_cases hext : (s.table i).extfd = -1
    · rw [if_neg (by omega)]
      exact h.paired.without rfl
    · obtain ⟨x, f, hx, _⟩ := h.paired.opened i hext
      rw [if_pos (by omega), hx]
      exact h.paired.closes hx

theorem below {e : AssetEntry w} (h : Keeps s events) (he : s.table.resolve fd = some e)
    (hext : e.extfd ≠ -1) :
    ∃ (x : Nat) (f : OpenFile CString), e.extfd = x ∧ s.disk.opened x = some f ∧
      e.path = some f.path := by
  obtain ⟨i, _, rfl⟩ := AssetTable.slot_of_resolve he
  exact h.paired.opened i hext

theorem write {e : AssetEntry w} {f : OpenFile CString} (h : Keeps s events)
    (he : s.table.resolve fd = some e) (hf : s.disk.opened e.extfd.toNat = some f)
    (hwrite : s.write e bytes answer = (s', some count)) :
    Keeps s' (events ++
      [.wrote fd (e.path.getD []) (s.disk.writePos f) (bytes.take count)]) := by
  unfold Overlay.write at hwrite
  split at hwrite
  · cases hwrite
  case isFalse hneg =>
    obtain ⟨x, f', hx, hopened, hpath⟩ := h.below he (by omega)
    rw [hx, Int.toNat_natCast] at hf hwrite
    obtain rfl := Option.some.inj (hopened.symm.trans hf)
    obtain ⟨hdisk, hcount⟩ := Prod.ext_iff.mp hwrite
    obtain ⟨f'', hf'', _, hfiles, hopened'⟩ :=
      Disk.write_eq_some (Prod.ext (rfl : _ = (s.disk.write x bytes answer).1) hcount)
    obtain rfl := Option.some.inj (hf''.symm.trans hopened)
    subst hdisk
    refine ⟨?_, ?_⟩
    · rw [hpath]
      exact hfiles ▸ h.held.write
    · exact hopened' ▸ h.paired.moves hopened rfl

end Keeps

/-! ## What is read -/

/-- A call of `read` returns what was written by descriptors that have been closed. -/
def ReadsBack (events : List OverlayEvent) : OverlayEvent → Prop
  | .got path pos count bytes =>
    (∀ j b l, bytes[j]? = some b → lastWrite events path (pos + j) = some l → l.closed = true →
      b = l.byte) ∧
    (bytes = [] → count = 0 ∨
      ∀ i l, pos ≤ i → lastWrite events path i = some l → l.closed = false)
  | _ => True

theorem readsBack_of_file {file : List UInt8} (hheld : Held files events)
    (hfile : (files path).getD [] = file) :
    ReadsBack events (.got path pos count ((file.drop pos).take count)) := by
  constructor
  · intro j b l hb hl _
    obtain ⟨file', hfile', hbyte⟩ := hheld path (pos + j) l hl
    rw [hfile'] at hfile
    obtain rfl : file' = file := hfile
    have hj := (List.getElem?_eq_some_iff.mp hb).1
    rw [length_take] at hj
    rw [getElem?_take_of_lt (by omega), getElem?_drop, hbyte] at hb
    exact (Option.some.inj hb).symm
  · intro hnil
    by_cases hcount : count = 0
    · exact .inl hcount
    refine .inr fun i l hi hl => ?_
    obtain ⟨file', hfile', hbyte⟩ := hheld path i l hl
    rw [hfile'] at hfile
    obtain rfl : file' = file := hfile
    have hlt := (List.getElem?_eq_some_iff.mp hbyte).1
    have hlen := congrArg List.length hnil
    rw [length_take, length_drop, length_nil] at hlen
    omega

/-! ## Runs -/

def OverlayCall.NoTrunc : OverlayCall → Prop
  | .openPath _ flags _ => flags.trunc = false
  | _ => True

/-- An `open` for writing does not copy zeros over data that was written, and a `read` is not made
    from an asset when something was written to its path and closed. The latter leaves out reads
    that do no harm: those that do not come to the bytes that were written, or that find the same
    bytes in the asset. -/
def OverlayCall.Harmless (world : AssetWorld) (events : List OverlayEvent) (s : Overlay w n) :
    OverlayCall → Prop
  | .openPath path flags a =>
    flags.access = .rdonly ∨ ¬ (a.mkdirP = true ∧ world.assets path ≠ none ∧ a.opens = true) ∨
      ∀ i < zerosWritten a.rounds, ∀ l, lastWrite events path i = some l → l.byte = 0
  | .read fd _ _ => ∀ e, s.table.resolve fd = some e → e.extfd = -1 →
      ∀ i l, lastWrite events (e.path.getD []) i = some l → l.closed = false
  | _ => True

namespace Keeps

variable {s s' : Overlay w n} {flags : OpenFlags} {a : OpenAnswers} {e : OverlayEvent} {fd : Int}

theorem concat (h : Keeps s events) (he : ∀ fd path pos bytes, e ≠ .wrote fd path pos bytes) :
    Keeps s (events ++ [e]) :=
  ⟨h.held.concat he, h.paired⟩

theorem openPath {res : Overlay w n × Int} (h : Keeps s events) (htrunc : flags.trunc = false)
    (hharmless : (OverlayCall.openPath path flags a).Harmless world events s)
    (hres : s.openPath world path flags a = some res) : Keeps res.1 events := by
  unfold Overlay.openPath at hres
  split at hres
  · cases hres
    exact h
  · split at hres
    · split at hres
      · cases hres
        exact h.openBelow htrunc
      · cases hres
        exact h.openStream _
    case isFalse hwritable =>
      obtain ⟨copy, hcopied, rfl⟩ := Option.map_eq_some_iff.mp hres
      have hcopy := h.copied hcopied (hharmless.resolve_left hwritable)
      dsimp only
      split
      · exact hcopy.openBelow htrunc
      · exact hcopy

theorem readBelow {entry : AssetEntry w} (h : Keeps s events) (he : s.table.resolve fd = some entry)
    (hext : entry.extfd ≠ -1) :
    Keeps (s.readBelow entry count).1 (events ++ [(s.readBelow entry count).2]) ∧
      ReadsBack events (s.readBelow entry count).2 := by
  obtain ⟨x, f, hx, hopened, hpath⟩ := h.below he hext
  unfold Overlay.readBelow
  rw [hx, Int.toNat_natCast, hopened]
  cases hread : s.disk.read x count with
  | mk disk bytes =>
    cases bytes with
    | none => exact ⟨h.concat (by simp), trivial⟩
    | some bytes =>
      obtain ⟨f', hf', hbytes, hfiles, hopened'⟩ := Disk.read_eq_some hread
      obtain rfl := Option.some.inj (hf'.symm.trans hopened)
      dsimp only
      rw [hpath, hbytes]
      refine ⟨⟨?_, hopened' ▸ h.paired.moves hopened rfl⟩, readsBack_of_file h.held rfl⟩
      exact hfiles ▸ h.held.concat (by simp)

theorem readStream {entry : AssetEntry w} {obj : Jobject} {st : Stream} {taken : Nat}
    (h : Keeps s events) (he : s.table.resolve fd = some entry) :
    Keeps (s.readStream fd entry obj st count taken).1 events := by
  obtain ⟨i, hi, rfl⟩ := AssetTable.slot_of_resolve he
  unfold Overlay.readStream
  dsimp only
  rw [AssetTable.update_of_slot hi]
  exact ⟨h.held, h.paired.seeks i _⟩

end Keeps

theorem readsBack_of_unwritten (h : ∀ i l, lastWrite events path i = some l → l.closed = false) :
    ReadsBack events (.got path pos count bytes) := by
  constructor
  · intro j b l _ hl hclosed
    rw [h _ l hl] at hclosed
    cases hclosed
  · exact fun _ => .inr fun i l _ hl => h i l hl

theorem Keeps.step {s s' : Overlay w n} {call : OverlayCall} {e : OverlayEvent}
    (h : Keeps s events) (htrunc : call.NoTrunc) (hharmless : call.Harmless world events s)
    (hstep : s.step world call = some (s', e)) : Keeps s' (events ++ [e]) ∧ ReadsBack events e := by
  cases call with
  | openPath path flags a =>
    obtain ⟨res, hres, heq⟩ := Option.map_eq_some_iff.mp hstep
    cases heq
    have hopen := h.openPath htrunc hharmless hres
    split
    · exact ⟨hopen.concat (by simp), trivial⟩
    · exact ⟨hopen.concat (by simp), trivial⟩
  | read fd count taken =>
    simp only [Overlay.step] at hstep
    split at hstep
    · cases hstep
      exact ⟨h.concat (by simp), trivial⟩
    · split at hstep
      · cases hstep
        exact ⟨h.concat (by simp), trivial⟩
      case h_2 entry hentry =>
        split at hstep
        -- a file of the driver below, or else a stream, which has the bytes of the asset
        case isTrue hext =>
          have hread : s.readBelow entry count = (s', e) := Option.some.inj hstep
          have hkeeps : Keeps (s.readBelow entry count).1
              (events ++ [(s.readBelow entry count).2]) ∧
              ReadsBack events (s.readBelow entry count).2 := h.readBelow hentry hext
          rwa [hread] at hkeeps
        case isFalse hext =>
          obtain ⟨obj, _, hstep⟩ := Option.bind_eq_some_iff.mp hstep
          obtain ⟨st, _, hstep⟩ := Option.bind_eq_some_iff.mp hstep
          cases hstep
          refine ⟨(h.readStream hentry).concat (by simp), readsBack_of_unwritten ?_⟩
          exact hharmless entry hentry (not_not.mp hext)
  | write fd bytes answer =>
    simp only [Overlay.step] at hstep
    split at hstep
    · cases hstep
      exact ⟨h.concat (by simp), trivial⟩
    case h_2 entry hentry =>
      split at hstep
      case h_1 f s₁ count hf hwrite =>
        cases hstep
        exact ⟨h.write hentry hf hwrite, trivial⟩
      case h_2 =>
        cases hstep
        exact ⟨h.concat (by simp), trivial⟩
  | close fd =>
    simp only [Overlay.step] at hstep
    split at hstep
    · cases hstep
      exact ⟨h.concat (by simp), trivial⟩
    case h_2 entry hentry =>
      cases hstep
      exact ⟨h.close hentry, trivial⟩

/-- The calls of a list are all harmless where they are made. -/
def AllHarmless (world : AssetWorld) (s : Overlay w n) (calls : List OverlayCall) : Prop :=
  ∀ front call, front ++ [call] <+: calls → ∀ events s',
    runActions (Overlay.step world) s front = some (events, s') → call.Harmless world events s'

/-- What was written and closed is read back, in every call of `read`. -/
def Persists (world : AssetWorld) (s : Overlay w n) (calls : List OverlayCall) : Prop :=
  ∀ events s', runActions (Overlay.step world) s calls = some (events, s') →
    ∀ front e back, events = front ++ e :: back → ReadsBack front e

def greeting : CString := ['/', 'a']

def oneAsset : AssetWorld :=
  ⟨fun _ => true, fun path => if path = greeting then some [104, 105] else none⟩

def emptyDisk : Disk CString := ⟨fun _ => none, fun _ => none⟩

def toWrite : OpenFlags := ⟨.wronly, true, false, false, false⟩

def toRead : OpenFlags := ⟨.rdonly, false, false, false, false⟩

/-- Everything can be opened, and the loop of the copy has these rounds. -/
def answering (rounds : List CopyRound) : OpenAnswers := ⟨true, true, none, rounds, false, some 3⟩

/-- A byte is written, the file is opened for writing again and closed, and then read. -/
def writeTwice (rounds : List CopyRound) : List OverlayCall :=
  [.openPath greeting toWrite (answering [lastRound]), .write 0 [7] (some 1), .close 0,
    .openPath greeting toWrite (answering rounds), .close 0,
    .openPath greeting toRead (answering []), .read 0 1 1]

def oneByteRound : CopyRound := ⟨1, some 1, by decide, by simp⟩

theorem writeTwice_noTrunc (rounds : List CopyRound) :
    ∀ call ∈ writeTwice rounds, call.NoTrunc := by
  simp [writeTwice, OverlayCall.NoTrunc, toWrite, toRead]

theorem writeTwice_allHarmless :
    AllHarmless oneAsset (Overlay.started emptyDisk : Overlay .bits64 2)
      (writeTwice [lastRound]) := by
  unfold AllHarmless writeTwice
  simp only [forall_concat_prefix_cons, forall_concat_prefix_nil, and_true]
  have hzeros : zerosWritten [lastRound] = 0 := rfl
  refine ⟨?_, fun _ _ _ => trivial, fun _ _ _ => trivial, ?_, fun _ _ _ => trivial,
    fun _ _ _ => .inl rfl, ?_⟩
  · exact fun _ _ _ => .inr (.inr fun i hi => absurd hi (by simp [answering, hzeros]))
  · exact fun _ _ _ => .inr (.inr fun i hi => absurd hi (by simp [answering, hzeros]))
  · intro events s' hrun e he hext
    cases hrun
    cases he
    exact absurd hext (by decide)

def rewritten : List OverlayEvent :=
  [.opened greeting 0, .wrote 0 greeting 0 [7], .closed 0, .opened greeting 0, .closed 0,
    .opened greeting 0]

end CrystaxNdk.Vfs
