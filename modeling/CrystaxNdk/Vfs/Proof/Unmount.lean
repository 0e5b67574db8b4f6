import CrystaxNdk.Vfs.Proof.Calls
import CrystaxNdk.Vfs.Proof.Dispatch
import CrystaxNdk.Vfs.Proof.Owners

/-!
# Records of an unloaded driver

`umount` does not look at the descriptor table. Which records refer to a driver can be told from the
calls: for each slot, the last call that returned its descriptor or directory handle, unless this
was `open` and the descriptor has been closed. Closing does not free the record of a directory of
the assets.
-/

namespace CrystaxNdk.Vfs

open Lib List Function

/-- What a slot was last used for, and through which driver. -/
inductive Use
  | file (driver : DriverPtr)
  | directory (driver : DriverPtr)
deriving DecidableEq

namespace Use

def driver : Use → DriverPtr
  | .file driver => driver
  | .directory driver => driver

def closed : Option Use → Option Use
  | some (.file _) => none
  | use => use

end Use

/-- The calls of one who mounts, opens and closes. -/
def FileCall.mountsOrOpens : FileCall → Bool
  | .open _ _ _ => true
  | .close _ => true
  | .opendir _ _ _ => true
  | .closedir _ _ => true
  | .mount _ _ _ _ => true
  | .umount _ _ => true
  | _ => false

namespace World

variable {n bits : Nat}

def asked (w : World n) : FileCall → Option DriverPtr
  | .open cwd path _ => (findDriver (cwd.map Cwd.path) w.mounts.drivers path).toOption.join
  | .opendir cwd path _ => (findDriver (cwd.map Cwd.path) w.mounts.drivers path).toOption.join
  | _ => none

def traced (bits : Nat) (w : World n) (c : FileCall) :
    Option (World n × Event × Option DriverPtr) :=
  (w.step bits c).map fun res => (res.1, res.2, w.asked c)

end World

/-- The last use of each slot. -/
abbrev LastUses (n : Nat) := Fin n → Option Use

namespace LastUses

variable {n : Nat}

def started : LastUses n := fun slot => if slot.val < 3 then some (.file .system) else none

def after (m : LastUses n) (event : World.Event × Option DriverPtr) : LastUses n := fun slot =>
  match event.1.call, event.1.returned, event.2 with
  | .open _ _ _, .int fd, some driver => if fd = slot.val then some (.file driver) else m slot
  | .opendir _ _ _, .dirp dirp, some driver =>
    if dirp = dirpOf slot then some (.directory driver) else m slot
  | .close fd, _, _ => if fd = slot.val then Use.closed (m slot) else m slot
  | _, _, _ => m slot

def ofTrace (trace : List (World.Event × Option DriverPtr)) : LastUses n :=
  trace.foldl after started

end LastUses

namespace World

variable {n bits : Nat} {w : World n} {out : Outcome n} {m : LastUses n}

/-- What a call can do to a record and to the last use of its slot. -/
inductive SlotChange (c : FileCall) (slot : Nat) :
    FdRecord → Option Use → FdRecord → Option Use → Prop
  | same {r : FdRecord} {use : Option Use} : SlotChange c slot r use r use
  | file {r : FdRecord} {use : Option Use} {extfd : Int} {driver : DriverPtr}
      {path : Option CString} (hpos : 0 ≤ extfd) :
      SlotChange c slot r use ⟨0, extfd, 0, some driver, path⟩ (some (.file driver))
  | directory {r : FdRecord} {use : Option Use} {answer : DirAnswer} {extdirp : DirPtr}
      {driver : DriverPtr} {path : Option CString} :
      SlotChange c slot r use ⟨dirpOf slot, dirfdAnswer answer driver, extdirp, some driver, path⟩
        (some (.directory driver))
  | close {r : FdRecord} {use : Option Use} (hpos : 0 ≤ r.extfd) :
      SlotChange c slot r use .free (Use.closed use)
  | keep {r : FdRecord} {use : Option Use} (hneg : r.extfd < 0) :
      SlotChange c slot r use r (Use.closed use)
  | closedir {r : FdRecord} {use : Option Use} {result : Int} (hc : c = .closedir r.dirp result)
      (hpos : 0 ≤ r.extfd) : SlotChange c slot r use .free use

def Changes (w : World n) (c : FileCall) (out : Outcome n) (m : LastUses n) (slot : Fin n) : Prop :=
  SlotChange c slot (w.fds.record slot) (m slot) (out.world.fds.record slot)
    (m.after (⟨c, out.returned, out.created⟩, w.asked c) slot)

theorem changes_open {cwd : Option Cwd} {path : Option CString} {routes : List Route}
    (hcall : w.openCall cwd path routes = .ok out) (m : LastUses n) (slot : Fin n) :
    Changes w (.open cwd path routes) out m slot := by
  have hfails : ∀ created asked,
      m.after (⟨.open cwd path routes, .int (-1), created⟩, asked) slot = m slot := by
    intro created asked
    cases asked with
    | none => rfl
    | some driver =>
      have hne : (-1 : Int) ≠ slot.val := by omega
      simp only [LastUses.after, if_neg hne]
  unfold Changes
  rcases openCall_cases hcall with rfl |
    ⟨driver, s, extfd, hfind, hopen, ⟨-, rfl⟩ | ⟨hne, stored, halloc⟩⟩
  · rw [returns, hfails]
    exact .same
  · rw [returns, hfails]
    exact .same
  · rcases allocOrClose_cases halloc with ⟨taken, -, rfl⟩ | ⟨s', res, -, rfl⟩
    · have hasked : w.asked (.open cwd path routes) = some driver := by
        simp [asked, hfind, Except.toOption]
      rw [hasked]
      simp only [LastUses.after, FdTable.store]
      rcases eq_or_ne slot taken with rfl | hslot
      · rw [if_pos rfl, update_self]
        exact .file ((Descriptors.openFile_nonneg hopen).resolve_left hne)
      · rw [if_neg fun heq => hslot (Fin.ext (by omega)), update_of_ne hslot]
        exact .same
    · rw [returns, hfails]
      exact .same

theorem changes_close {fd : Int} (hcall : w.closeCall bits fd = .ok out) (m : LastUses n)
    (slot : Fin n) : Changes w (.close fd) out m slot := by
  unfold Changes
  simp only [LastUses.after]
  rcases closeCall_cases hcall with ⟨rfl, houtside⟩ |
    ⟨freed, driver, t, s, res, -, -, hfree, -, rfl⟩
  · rw [if_neg (houtside slot)]
    exact .same
  · have hrecord := FdTable.freeFd_record hfree slot
    by_cases hslot : fd = slot.val
    · rw [if_pos hslot]
      by_cases hin : w.fds.InUse slot
      · rw [if_pos ⟨hslot, hin⟩] at hrecord
        simp only [returns, hrecord]
        exact .close hin
      · rw [if_neg fun hand => hin hand.2] at hrecord
        simp only [returns, hrecord]
        exact .keep (not_le.mp hin)
    · rw [if_neg fun hand => hslot hand.1] at hrecord
      simp only [returns, hrecord, if_neg hslot]
      exact .same

theorem changes_opendir {cwd : Option Cwd} {path : Option CString} {answer : DirAnswer}
    (hcall : w.opendirCall cwd path answer = .ok out) (m : LastUses n) (slot : Fin n) :
    Changes w (.opendir cwd path answer) out m slot := by
  have hfails : ∀ created asked,
      m.after (⟨.opendir cwd path answer, .dirp 0, created⟩, asked) slot = m slot := by
    intro created asked
    cases asked with
    | none => rfl
    | some driver => exact if_neg (FdTable.dirpOf_ne_zero slot).symm
  unfold Changes
  rcases opendirCall_cases hcall with rfl | ⟨driver, stored, rfl, hfind⟩
  · rw [hfails]
    exact .same
  · rcases allocDir_cases w stored answer.extdirp (dirfdAnswer answer driver) driver with
      heq | ⟨taken, -, heq⟩
    · rw [heq, hfails]
      exact .same
    · have hasked : w.asked (.opendir cwd path answer) = some driver := by
        simp [asked, hfind, Except.toOption]
      rw [heq, hasked]
      simp only [LastUses.after, FdTable.store]
      rcases eq_or_ne slot taken with rfl | hslot
      · rw [if_pos rfl, update_self]
        exact .directory
      · rw [if_neg fun heq => hslot (FdTable.dirpOf_inj heq).symm, update_of_ne hslot]
        exact .same

theorem changes_closedir {dirp : DirPtr} {result : Int}
    (hcall : w.closedirCall bits dirp result = .ok out) (m : LastUses n) (slot : Fin n) :
    Changes w (.closedir dirp result) out m slot := by
  unfold Changes
  simp only [LastUses.after]
  rcases closedirCall_cases hcall with ⟨rfl, -⟩ | ⟨t, hfree, rfl⟩
  · exact .same
  · rcases FdTable.freeDirp_cases hfree with rfl | ⟨freed, -, hdirp, hin, hrecord⟩
    · exact .same
    · simp only [returns, hrecord]
      rcases eq_or_ne slot freed with rfl | hslot
      · rw [update_self]
        exact .closedir (by rw [hdirp]) hin
      · rw [update_of_ne hslot]
        exact .same

theorem changes_of_call {c : FileCall} (hc : c.mountsOrOpens = true)
    (hcall : w.call bits c = .ok out) (m : LastUses n) (slot : Fin n) : Changes w c out m slot := by
  cases c with
  | «open» cwd path routes => exact changes_open hcall m slot
  | close fd => exact changes_close hcall m slot
  | opendir cwd path answer => exact changes_opendir hcall m slot
  | closedir dirp result => exact changes_closedir hcall m slot
  | mount cwd jvm source target =>
    obtain ⟨mounted, -, heq⟩ := bind_eq_ok.mp hcall
    cases heq
    exact .same
  | umount cwd target =>
    obtain ⟨left, -, heq⟩ := bind_eq_ok.mp hcall
    cases heq
    exact .same
  -- the other calls are not among those of the run
  | _ => cases hc

/-! ## Records and last uses -/

section Uses

variable {c : FileCall} {slot : Nat} {r r' : FdRecord} {use use' : Option Use}

theorem closed_eq_some {u : Use} (h : Use.closed use = some u) :
    use = some u ∧ ∃ driver, u = .directory driver := by
  rcases use with _ | _ | driver
  · cases h
  · cases h
  · cases h
    exact ⟨rfl, driver, rfl⟩

/-- A record that refers to a driver has been used for it last. -/
def Refers (r : FdRecord) (use : Option Use) : Prop :=
  ∀ addr, r.driver = some (.loaded addr) →
    (use = some (.file (.loaded addr)) ∧ 0 ≤ r.extfd) ∨
      (use = some (.directory (.loaded addr)) ∧ r.extfd < 0)

theorem SlotChange.refers (h : SlotChange c slot r use r' use') (hr : Refers r use) :
    Refers r' use' := by
  intro addr hdriver
  cases h with
  | same => exact hr addr hdriver
  | file hpos =>
    cases hdriver
    exact Or.inl ⟨rfl, hpos⟩
  | directory =>
    cases hdriver
    exact Or.inr ⟨rfl, (by decide : (-1 : Int) < 0)⟩
  | close hpos => cases hdriver
  | keep hneg =>
    rcases hr addr hdriver with ⟨-, hpos⟩ | ⟨rfl, -⟩
    · omega
    · exact Or.inr ⟨rfl, hneg⟩
  | closedir hc hpos => cases hdriver

/-- A slot that has been used for a driver last has a record that refers to it. -/
structure Kept (r : FdRecord) (use : Option Use) : Prop where
  file : ∀ addr, use = some (.file (.loaded addr)) → r.driver = some (.loaded addr) ∧ r.dirp = 0
  directory : ∀ addr, use = some (.directory (.loaded addr)) →
    r.driver = some (.loaded addr) ∧ r.extfd < 0

theorem SlotChange.kept (h : SlotChange c slot r use r' use')
    (hnull : ∀ result, c ≠ .closedir 0 result) (hr : Kept r use) : Kept r' use' := by
  constructor
  · intro addr huse
    cases h with
    | same => exact hr.file addr huse
    | file hpos =>
      cases huse
      exact ⟨rfl, rfl⟩
    | directory => cases huse
    | close hpos =>
      obtain ⟨-, driver, hdir⟩ := closed_eq_some huse
      cases hdir
    | keep hneg =>
      obtain ⟨-, driver, hdir⟩ := closed_eq_some huse
      cases hdir
    | closedir hc hpos =>
      rw [(hr.file addr huse).2] at hc
      exact absurd hc (hnull _)
  · intro addr huse
    cases h with
    | same => exact hr.directory addr huse
    | file hpos => cases huse
    | directory =>
      cases huse
      exact ⟨rfl, (by decide : (-1 : Int) < 0)⟩
    | close hpos =>
      have hneg := (hr.directory addr (closed_eq_some huse).1).2
      omega
    | keep hneg => exact hr.directory addr (closed_eq_some huse).1
    | closedir hc hpos =>
      have hneg := (hr.directory addr huse).2
      omega

end Uses

/-! ## Unloading -/

/-- The driver that `umount` would unload: the last one that is mounted at the path. -/
def targetDriver (t : MountTable) (cwd : Option Cwd) (target : Option CString) : Option Driver :=
  match absolutize (cwd.map Cwd.path) target with
  | .ok abspath => t.drivers.reverse.find? fun d => d.root = abspath
  | .error _ => none

theorem removeDriver_done {cwd abspath : Option CString} {ds rest : List Driver}
    (h : removeDriver cwd abspath ds = .ok (rest, .done)) :
    ∃ front d back, ds = front ++ d :: back ∧ rest = front ++ back ∧
      ds.find? (fun d => d.root = abspath) = some d := by
  induction ds generalizing rest with
  | nil => cases h
  | cons first below ih =>
    obtain ⟨isBusy, -, h⟩ := bind_eq_ok.mp h
    cases isBusy with
    | true => cases h
    | false =>
      simp only [Bool.false_eq_true, if_false] at h
      split_ifs at h with hroot
      · cases h
        exact ⟨[], first, below, rfl, rfl, by simp [hroot]⟩
      · obtain ⟨⟨rest', result⟩, hrest, heq⟩ := bind_eq_ok.mp h
        cases heq
        obtain ⟨front, d, back, hbelow, hrest', hfind⟩ := ih hrest
        refine ⟨first :: front, d, back, by rw [hbelow]; rfl, by rw [hrest']; rfl, ?_⟩
        rw [find?_cons_of_neg (by simpa using hroot)]
        exact hfind

theorem umount_done {t t' : MountTable} {cwd : Option Cwd} {target : Option CString}
    (h : umount (cwd.map Cwd.path) t target = .ok (t', .done)) :
    ∃ front d back, t.drivers.reverse = front ++ d :: back ∧ t'.drivers.reverse = front ++ back ∧
      targetDriver t cwd target = some d := by
  rcases target with _ | _ | ⟨first, rest⟩
  · cases h
  · cases h
  · simp only [umount] at h
    obtain ⟨abspath, habspath, h⟩ := bind_eq_ok.mp h
    obtain ⟨⟨drivers, result⟩, hremove, heq⟩ := bind_eq_ok.mp h
    cases heq
    obtain ⟨front, d, back, hdrivers, hrest, hfind⟩ := removeDriver_done hremove
    refine ⟨front, d, back, hdrivers, by rw [reverse_reverse, hrest], ?_⟩
    rw [targetDriver, habspath]
    exact hfind

/-- The driver at this address has been unloaded. -/
def Unloaded (t t' : MountTable) (addr : Nat) : Prop :=
  addr ∈ t.drivers.map Driver.addr ∧ addr ∉ t'.drivers.map Driver.addr

theorem unloaded_iff {t t' : MountTable} (hwf : t.WellFormed) {cwd : Option Cwd}
    {target : Option CString} (h : umount (cwd.map Cwd.path) t target = .ok (t', .done))
    (addr : Nat) :
    Unloaded t t' addr ↔ ∃ d, targetDriver t cwd target = some d ∧ d.addr = addr := by
  obtain ⟨front, d, back, hbefore, hafter, htarget⟩ := umount_done h
  have hmem : ∀ u : MountTable, addr ∈ u.drivers.map Driver.addr ↔
      addr ∈ u.drivers.reverse.map Driver.addr := fun u => by simp
  have hnodup : (d.addr :: (front ++ back).map Driver.addr).Nodup := by
    have hreverse : (t.drivers.reverse.map Driver.addr).Nodup := by
      rw [map_reverse, nodup_reverse]
      exact hwf.nodup
    rw [hbefore] at hreverse
    refine (List.Perm.nodup_iff ?_).mp hreverse
    rw [← map_cons]
    exact perm_middle.map Driver.addr
  have hsplit : addr ∈ t.drivers.reverse.map Driver.addr ↔
      d.addr = addr ∨ addr ∈ (front ++ back).map Driver.addr := by
    rw [hbefore]
    simp only [map_append, map_cons, mem_append, mem_cons, eq_comm (a := addr)]
    tauto
  rw [Unloaded, hmem, hmem, hafter, hsplit, htarget]
  constructor
  · rintro ⟨heq | hleft, hgone⟩
    · exact ⟨d, rfl, heq⟩
    · exact absurd hleft hgone
  · rintro ⟨d', hsome, rfl⟩
    cases hsome
    exact ⟨Or.inl rfl, (nodup_cons.mp hnodup).1⟩

/-! ## Every run -/

section Run

variable {calls : List FileCall} {trace : List (Event × Option DriverPtr)} {mounts : MountTable}
  {kernel : Finset Nat}

theorem wellFormed_of_call {c : FileCall} (hc : c.mountsOrOpens = true)
    (hcall : w.call bits c = .ok out) (h : w.mounts.WellFormed) : out.world.mounts.WellFormed := by
  cases c with
  | «open» cwd path routes =>
    rcases openCall_cases hcall with rfl |
      ⟨driver, s, extfd, -, -, ⟨-, rfl⟩ | ⟨-, stored, halloc⟩⟩
    · exact h
    · exact h
    · rcases allocOrClose_cases halloc with ⟨slot, -, rfl⟩ | ⟨s', res, -, rfl⟩
      · exact h
      · exact h
  | close fd =>
    rcases closeCall_cases hcall with ⟨rfl, -⟩ | ⟨slot, driver, t, s, res, -, -, -, -, rfl⟩
    · exact h
    · exact h
  | opendir cwd path answer =>
    rcases opendirCall_cases hcall with rfl | ⟨driver, stored, rfl, -⟩
    · exact h
    · exact h
  | closedir dirp result =>
    rcases closedirCall_cases hcall with ⟨rfl, -⟩ | ⟨t, -, rfl⟩
    · exact h
    · exact h
  | mount cwd jvm source target =>
    obtain ⟨mounted, hmount, heq⟩ := bind_eq_ok.mp hcall
    cases heq
    exact h.mount (checkPath_eq_ok.mp hmount)
  | umount cwd target =>
    obtain ⟨left, humount, heq⟩ := bind_eq_ok.mp hcall
    cases heq
    obtain ⟨hsublist, hnext⟩ := umount_sublist (checkPath_eq_ok.mp humount)
    exact h.sublist hsublist hnext
  -- the other calls are not among those of the run
  | _ => cases hc

theorem outcome_of_traced {c : FileCall} {w' : World n} {event : Event × Option DriverPtr}
    (h : w.traced bits c = some (w', event)) :
    ∃ out, w.call bits c = .ok out ∧ w' = out.world ∧
      event = (⟨c, out.returned, out.created⟩, w.asked c) := by
  obtain ⟨⟨w₁, event₁⟩, hstep, heq⟩ := Option.map_eq_some_iff.mp h
  cases heq
  obtain ⟨out, hcall, rfl, rfl⟩ := outcome_of_step hstep
  exact ⟨out, hcall, rfl, rfl⟩

theorem run_refers (hmounts : mounts.WellFormed) (hcalls : ∀ c ∈ calls, c.mountsOrOpens = true)
    (hrun : runActions (traced bits) (started mounts kernel : World n) calls = some (trace, w)) :
    w.mounts.WellFormed ∧ ∀ slot, Refers (w.fds.record slot) (LastUses.ofTrace trace slot) := by
  refine invariant_of_runActions
    (I := fun trace (w : World n) => w.mounts.WellFormed ∧
      ∀ slot, Refers (w.fds.record slot) (LastUses.ofTrace trace slot))
    (C := fun _ _ c => c.mountsOrOpens = true) ⟨hmounts, fun slot addr hdriver => ?_⟩ ?_
    (fun front c hbegins _ _ _ => hcalls c (hbegins.subset (by simp))) hrun
  · simp only [started, FdTable.started] at hdriver
    split_ifs at hdriver <;> cases hdriver
  · rintro trace w c w' event ⟨hwf, hrefers⟩ hc hstep
    obtain ⟨out, hcall, rfl, rfl⟩ := outcome_of_traced hstep
    refine ⟨wellFormed_of_call hc hcall hwf, fun slot => ?_⟩
    rw [LastUses.ofTrace, foldl_append]
    exact (changes_of_call hc hcall _ slot).refers (hrefers slot)

theorem run_kept (hcalls : ∀ c ∈ calls, c.mountsOrOpens = true)
    (hnull : ∀ result, .closedir 0 result ∉ calls)
    (hrun : runActions (traced bits) (started mounts kernel : World n) calls = some (trace, w))
    (slot : Fin n) : Kept (w.fds.record slot) (LastUses.ofTrace trace slot) := by
  refine invariant_of_runActions
    (I := fun trace (w : World n) => Kept (w.fds.record slot) (LastUses.ofTrace trace slot))
    (C := fun _ _ c => c.mountsOrOpens = true ∧ ∀ result, c ≠ .closedir 0 result) ?_ ?_
    (fun front c hbegins _ _ _ => ?_) hrun
  · simp only [LastUses.ofTrace, foldl_nil, LastUses.started]
    split_ifs <;> constructor <;> intro addr huse <;> cases huse
  · rintro trace w c w' event hkept ⟨hc, hnull⟩ hstep
    obtain ⟨out, hcall, rfl, rfl⟩ := outcome_of_traced hstep
    rw [LastUses.ofTrace, foldl_append]
    exact (changes_of_call hc hcall _ slot).kept hnull hkept
  · have hmem : c ∈ calls := hbegins.subset (by simp)
    refine ⟨hcalls c hmem, fun result heq => hnull result ?_⟩
    rwa [← heq]

/-- No slot has been used last for the driver that `umount` would unload. -/
def TargetUnused (w : World n) (cwd : Option Cwd) (target : Option CString) (m : LastUses n) :
    Prop :=
  ∀ d, targetDriver w.mounts cwd target = some d →
    ∀ slot use, m slot = some use → use.driver ≠ .loaded d.addr

instance {cwd : Option Cwd} {target : Option CString} : Decidable (w.TargetUnused cwd target m) :=
  inferInstanceAs (Decidable (∀ d ∈ targetDriver w.mounts cwd target, ∀ slot : Fin n,
    ∀ use ∈ m slot, use.driver ≠ .loaded d.addr))

/-- No record refers to a driver that has been unloaded. -/
def SafelyUnloaded (w w' : World n) : Prop :=
  ∀ addr, Unloaded w.mounts w'.mounts addr →
    ∀ slot, (w'.fds.record slot).driver ≠ some (.loaded addr)

/-- After a `umount` that succeeds, no record refers to the driver if no slot has been used for it
    last; and only then, unless `closedir` has been called with the null pointer. -/
theorem safelyUnloaded_iff (mounts : MountTable) (hmounts : mounts.Reachable) (kernel : Finset Nat)
    (calls : List FileCall) (hcalls : ∀ c ∈ calls, c.mountsOrOpens = true)
    (trace : List (Event × Option DriverPtr)) (w : World n)
    (hrun : runActions (traced bits) (started mounts kernel) calls = some (trace, w))
    (cwd : Option Cwd) (target : Option CString) (out : Outcome n)
    (humount : w.call bits (.umount cwd target) = .ok out)
    (hdone : out.returned = .mounted .done) :
    (w.TargetUnused cwd target (.ofTrace trace) → SafelyUnloaded w out.world) ∧
      ((∀ result, .closedir 0 result ∉ calls) →
        (SafelyUnloaded w out.world ↔ w.TargetUnused cwd target (.ofTrace trace))) := by
  obtain ⟨hwf, hrefers⟩ := run_refers hmounts.wellFormed hcalls hrun
  obtain ⟨⟨t', result⟩, hleft, heq⟩ := bind_eq_ok.mp humount
  cases heq
  cases hdone
  have hunloaded := unloaded_iff hwf (checkPath_eq_ok.mp hleft)
  have hsafe : w.TargetUnused cwd target (.ofTrace trace) →
      SafelyUnloaded w ⟨t', w.fds, w.drivers⟩ := by
    intro hunused addr haddr slot hdriver
    obtain ⟨d, htarget, rfl⟩ := (hunloaded addr).mp haddr
    rcases hrefers slot d.addr hdriver with ⟨huse, -⟩ | ⟨huse, -⟩
    · exact hunused d htarget slot _ huse rfl
    · exact hunused d htarget slot _ huse rfl
  refine ⟨hsafe, fun hnull => ⟨fun hsafely d htarget slot use huse hdriver => ?_, hsafe⟩⟩
  have hkept := run_kept hcalls hnull hrun slot
  refine hsafely d.addr ((hunloaded d.addr).mpr ⟨d, htarget, rfl⟩) slot ?_
  cases use with
  | file driver =>
    obtain rfl : driver = .loaded d.addr := hdriver
    exact (hkept.file d.addr huse).1
  | directory driver =>
    obtain rfl : driver = .loaded d.addr := hdriver
    exact (hkept.directory d.addr huse).1

end Run

/-- A file of the assets is closed before they are unmounted. -/
def closeAndUmount : List FileCall :=
  [.mount none true (some "/dev/assets".toList) (some "/mnt/a".toList),
    .open none (some "/mnt/a/x".toList) [.stream], .opendir none (some "/".toList) ⟨4096, 5⟩,
    .close 3]

theorem safelyUnloaded_closeAndUmount :
    ∃ trace w out, runActions (traced 32) (started .empty {0, 1, 2} : World 8) closeAndUmount =
        some (trace, w) ∧
      w.call 32 (.umount none (some "/mnt/a".toList)) = .ok out ∧
      out.returned = .mounted .done ∧ SafelyUnloaded w out.world := by
  have hend : ∃ trace w, runActions (traced 32) (started .empty {0, 1, 2} : World 8)
      closeAndUmount = some (trace, w) ∧
      (w.call 32 (.umount none (some "/mnt/a".toList))).toOption.map Outcome.returned =
        some (.mounted .done) ∧
      w.TargetUnused none (some "/mnt/a".toList) (.ofTrace trace) :=
    exists_runActions_iff.mpr (by decide +kernel)
  obtain ⟨trace, w, hrun, hreturned, hunused⟩ := hend
  obtain ⟨out, hcall, hdone⟩ := Option.map_eq_some_iff.mp hreturned
  have humount := eq_ok_of_toOption hcall
  exact ⟨trace, w, out, hrun, humount, hdone,
    (safelyUnloaded_iff .empty ⟨[], Run.nil⟩ {0, 1, 2} closeAndUmount (by decide) trace w hrun none
      (some "/mnt/a".toList) out humount hdone).1 hunused⟩

/-- Assets are unmounted while a file of theirs is open. -/
theorem record_of_unloaded :
    ∃ trace w out, runActions (traced 32) (started .empty {0, 1, 2} : World 8)
        [.mount none true (some "/dev/assets".toList) (some "/mnt/a".toList),
          .open none (some "/mnt/a/x".toList) [.stream]] = some (trace, w) ∧
      w.call 32 (.umount none (some "/mnt/a".toList)) = .ok out ∧
      out.returned = .mounted .done ∧ ¬SafelyUnloaded w out.world := by
  have hend : ∃ trace w, runActions (traced 32) (started .empty {0, 1, 2} : World 8)
      [.mount none true (some "/dev/assets".toList) (some "/mnt/a".toList),
        .open none (some "/mnt/a/x".toList) [.stream]] = some (trace, w) ∧
      (w.call 32 (.umount none (some "/mnt/a".toList))).toOption.map (fun out =>
        (out.returned, w.mounts.drivers.map Driver.addr, out.world.mounts.drivers.map Driver.addr,
          (out.world.fds.record 3).driver)) =
        some (.mounted .done, [0], [], some (.loaded 0)) :=
    exists_runActions_iff.mpr (by decide +kernel)
  obtain ⟨trace, w, hrun, hmap⟩ := hend
  obtain ⟨out, hcall, heq⟩ := Option.map_eq_some_iff.mp hmap
  simp only [Prod.mk.injEq] at heq
  obtain ⟨hdone, hbefore, hafter, hdriver⟩ := heq
  refine ⟨trace, w, out, hrun, eq_ok_of_toOption hcall, hdone, fun hsafely => ?_⟩
  exact hsafely 0 ⟨by simp [hbefore], by simp [hafter]⟩ 3 hdriver

end World

end CrystaxNdk.Vfs
