import CrystaxNdk.Vfs.Proof.Dispatch

/-!
# The drivers below the mounted ones

A driver works on top of the one that was responsible for its root when it was mounted, and keeps a
pointer to it. `umount` goes through the table from the driver mounted last, and gives up when it
meets one whose root is below the path it is given. So it never takes away a driver that another
one stands on.
-/

namespace CrystaxNdk.Vfs

open Lib List

def Driver.dir (d : Driver) : Option (List CString) := d.root.map directory

/-- The driver stands on that of the system, or on one of these that is responsible for its
    directory. -/
def Driver.StandsOn (d : Driver) (below : List Driver) : Prop :=
  d.underlying = .system ∨
    ∃ base ∈ below, d.underlying = .loaded base.addr ∧ base.covers d.dir = true

/-- From the driver mounted last, each stands on those mounted before it. -/
def Stacked : List Driver → Prop
  | [] => True
  | d :: below => d.StandsOn below ∧ Stacked below

section Remove

variable {cwd abspath : Option CString} {ds ds' : List Driver} {d base : Driver}
  {result : MountResult}

theorem Driver.StandsOn.mono (h : d.StandsOn ds)
    (hkept : ∀ base ∈ ds, base.covers d.dir = true → base ∈ ds') : d.StandsOn ds' := by
  rcases h with hsystem | ⟨base, hbase, hunder, hcovers⟩
  · exact Or.inl hsystem
  · exact Or.inr ⟨base, hkept base hbase hcovers, hunder, hcovers⟩

/-- Only a driver that is mounted at the path itself is taken away. -/
theorem mem_of_removeDriver (h : removeDriver cwd abspath ds = .ok (ds', result)) (hd : d ∈ ds) :
    d ∈ ds' ∨ d.root = abspath := by
  induction ds generalizing ds' result with
  | nil => cases hd
  | cons first below ih =>
    rw [removeDriver] at h
    obtain ⟨isBusy, -, h⟩ := bind_eq_ok.mp h
    split_ifs at h with hbusy hroot
    · cases h
      exact Or.inl hd
    · cases h
      rcases mem_cons.mp hd with rfl | hd
      · exact Or.inr hroot
      · exact Or.inl hd
    · obtain ⟨rest, hrest, heq⟩ := bind_eq_ok.mp h
      cases heq
      rcases mem_cons.mp hd with rfl | hd
      · exact Or.inl mem_cons_self
      · exact (ih hrest hd).imp_left (mem_cons_of_mem first)

/-- A driver that stands on one mounted at the path is mounted there too, or is in the way. -/
theorem busy_of_covers (cwd : Option CString) (hbase : base.Rooted) (hd : d.Rooted)
    (hcovers : base.covers d.dir = true) (hne : d.root ≠ base.root) :
    busy cwd d base.root = .ok true := by
  cases hbaseRoot : base.root with
  | none => simp [Driver.covers, hbaseRoot] at hcovers
  | some rootText =>
    cases hroot : d.root with
    | none => simp [Driver.covers, Driver.dir, hroot] at hcovers
    | some text =>
      obtain ⟨root, rfl, hplainRoot⟩ := hbase rootText hbaseRoot
      obtain ⟨names, rfl, hplain⟩ := hd text hroot
      have hbegins : root.isPrefixOf names = true := by
        simpa [Driver.covers, Driver.dir, hbaseRoot, hroot, directory_absolute hplainRoot,
          directory_absolute hplain] using hcovers
      have hlength : (absolute root).length < (absolute names).length := by
        obtain ⟨rest, rfl⟩ := isPrefixOf_iff_prefix.mp hbegins
        have hrest : rest ≠ [] := by
          rintro rfl
          exact hne (by simp [hroot, hbaseRoot])
        have hjoin := join_ne_nil
          (fun name hname => (hplain name (mem_append_right root hname)).ne.1) hrest
        rcases eq_or_ne root [] with rfl | hroot'
        · simpa [absolute] using length_pos_iff.mpr hjoin
        · simp [absolute, join_append hroot' hrest]
      simp only [busy, pathLength, hroot]
      rw [if_pos hlength, isSubpath_absolute cwd hplainRoot hplain, hbegins]

theorem Stacked.removeDriver (h : Stacked ds) (hrooted : ∀ d ∈ ds, d.Rooted)
    (hremove : Vfs.removeDriver cwd abspath ds = .ok (ds', result)) : Stacked ds' := by
  induction ds generalizing ds' result with
  | nil =>
    cases hremove
    exact h
  | cons d below ih =>
    simp only [mem_cons, forall_eq_or_imp] at hrooted
    rw [Vfs.removeDriver] at hremove
    obtain ⟨isBusy, hbusy, hremove⟩ := bind_eq_ok.mp hremove
    split_ifs at hremove with hisBusy hroot
    · cases hremove
      exact h
    · cases hremove
      exact h.2
    · obtain ⟨rest, hrest, heq⟩ := bind_eq_ok.mp hremove
      cases heq
      refine ⟨h.1.mono fun base hbase hcovers => ?_, ih h.2 hrooted.2 hrest⟩
      rcases mem_of_removeDriver hrest hbase with hkept | habspath
      · exact hkept
      · -- the base would be gone, but then `d` is below it and `umount` gave up
        have hinWay := busy_of_covers cwd (hrooted.2 base hbase) hrooted.1 hcovers
          (by rwa [habspath])
        rw [habspath, hbusy] at hinWay
        exact absurd (Except.ok.inj hinWay) hisBusy

theorem Stacked.mem_underlying (h : Stacked ds) (hd : d ∈ ds) :
    d.underlying = .system ∨ ∃ base ∈ ds, d.underlying = .loaded base.addr := by
  induction ds with
  | nil => cases hd
  | cons first below ih =>
    rcases mem_cons.mp hd with rfl | hd
    · rcases h.1 with hsystem | ⟨base, hbase, hunder, -⟩
      · exact Or.inl hsystem
      · exact Or.inr ⟨base, mem_cons_of_mem _ hbase, hunder⟩
    · rcases ih h.2 hd with hsystem | ⟨base, hbase, hunder⟩
      · exact Or.inl hsystem
      · exact Or.inr ⟨base, mem_cons_of_mem _ hbase, hunder⟩

end Remove

/-! ## Mounting -/

section Mount

variable {ds : List Driver} {d : Driver}

theorem covers_of_dispatch {dir : Option (List CString)} {addr : Nat}
    (h : dispatch ds dir = .loaded addr) :
    ∃ base ∈ ds, addr = base.addr ∧ base.covers dir = true := by
  unfold dispatch at h
  cases hfind : ds.find? (·.covers dir) with
  | none => simp [hfind] at h
  | some base =>
    rw [hfind] at h
    cases h
    have hcovers := find?_some hfind
    exact ⟨base, mem_of_find?_eq_some hfind, rfl, hcovers⟩

/-- A new driver is mounted at the directory that its base was looked up for. -/
theorem standsOn_of_mount {cwd : Option Cwd} {target abspath root : Option CString}
    {underlying : DriverPtr} {addr : Nat} (hrooted : ∀ d ∈ ds, d.Rooted)
    (habspath : absolutize (cwd.map Cwd.path) target = .ok abspath)
    (hunder : searchUnderlying (cwd.map Cwd.path) abspath ds = .ok underlying)
    (hroot : normalize abspath = .ok root) : Driver.StandsOn ⟨addr, root, underlying⟩ ds := by
  obtain ⟨dir, rfl, hplain, hlen⟩ : ∃ dir : Option (List CString), abspath = dir.map absolute ∧
      (∀ names, dir = some names → ∀ name ∈ names, Plain name) ∧
      ∀ names, dir = some names → ∀ name ∈ names, name.length ≤ nameMax := by
    cases abspath with
    | none => exact ⟨none, rfl, by simp, by simp⟩
    | some p =>
      obtain ⟨path, rfl⟩ := exists_of_absolutize habspath
      obtain ⟨names, hlocate, rfl, hplain⟩ := absolutize_spec habspath
      obtain ⟨text, -, rfl⟩ := Option.map_eq_some_iff.mp hlocate
      exact ⟨some (located text), rfl, by simpa using hplain,
        by simpa using fun name hname => length_le_of_mem_located hname⟩
  rw [searchUnderlying_eq _ dir hrooted hplain] at hunder
  have hdir : root.map directory = dir := by
    cases dir with
    | none =>
      cases hroot
      rfl
    | some names =>
      obtain ⟨rfl, -⟩ := normalize_absolute_eq rfl hroot
      rw [located_absolute (hplain names rfl) (hlen names rfl), Option.map_some,
        directory_absolute (hplain names rfl)]
  obtain rfl := Except.ok.inj hunder
  cases hbase : dispatch ds dir with
  | system => exact Or.inl rfl
  | loaded addr' =>
    obtain ⟨base, hmem, rfl, hcovers⟩ := covers_of_dispatch hbase
    exact Or.inr ⟨base, hmem, rfl, by rwa [Driver.dir, hdir]⟩

end Mount

/-! ## Every run -/

namespace MountTable

/-- The drivers that the calls mount, in the order they mount them. -/
def mountOrder : MountTable → List Call → List Driver
  | _, [] => []
  | t, call :: calls =>
    match t.step call with
    | none => []
    | some (t', _) => t'.drivers.drop t.drivers.length ++ mountOrder t' calls

variable {t t' : MountTable}

theorem step_stacked {call : Call} {result : MountResult} (hwf : t.WellFormed)
    (h : Stacked t.drivers.reverse) (hstep : t.step call = some (t', result)) :
    Stacked t'.drivers.reverse := by
  have hrooted : ∀ d ∈ t.drivers.reverse, d.Rooted :=
    fun d hd => hwf.rooted d (mem_reverse.mp hd)
  cases call with
  | mount cwd jvm source target =>
    rcases mount_cases (eq_ok_of_toOption hstep) with
      ⟨rfl, -⟩ | ⟨abspath, underlying, root, habspath, hunder, hroot, rfl⟩
    · exact h
    · rw [reverse_append]
      exact ⟨standsOn_of_mount hrooted habspath hunder hroot, h⟩
  | umount cwd target =>
    have humount := eq_ok_of_toOption hstep
    rcases target with _ | _ | ⟨first, rest⟩
    · cases humount
      exact h
    · cases humount
      exact h
    · simp only [umount] at humount
      obtain ⟨abspath, -, humount⟩ := bind_eq_ok.mp humount
      obtain ⟨removed, hremove, heq⟩ := bind_eq_ok.mp humount
      cases heq
      rw [reverse_reverse]
      exact h.removeDriver hrooted hremove

/-- A call adds a driver at the end, or takes some away. -/
theorem step_cases {call : Call} {result : MountResult} (hstep : t.step call = some (t', result)) :
    (∃ d, d.addr = t.nextAddr ∧ t'.drivers = t.drivers ++ [d] ∧ t'.nextAddr = t.nextAddr + 1) ∨
      t'.drivers.Sublist t.drivers ∧ t'.nextAddr = t.nextAddr := by
  cases call with
  | mount cwd jvm source target =>
    rcases mount_cases (eq_ok_of_toOption hstep) with
      ⟨rfl, -⟩ | ⟨abspath, underlying, root, -, -, -, rfl⟩
    · exact Or.inr ⟨List.Sublist.refl _, rfl⟩
    · exact Or.inl ⟨_, rfl, rfl, rfl⟩
  | umount cwd target => exact Or.inr (umount_sublist (eq_ok_of_toOption hstep))

theorem drop_of_sublist (h : t'.drivers.Sublist t.drivers) :
    t'.drivers.drop t.drivers.length = [] :=
  drop_eq_nil_of_le h.length_le

/-- What is left in the table stands in the order of mounting. -/
theorem sublist_mountOrder {calls : List Call} {results : List MountResult}
    (h : runActions step t calls = some (results, t')) :
    t'.drivers.Sublist (t.drivers ++ mountOrder t calls) := by
  induction calls generalizing t results with
  | nil =>
    cases h
    simp [mountOrder]
  | cons call calls ih =>
    rw [runActions] at h
    rw [mountOrder]
    cases hstep : t.step call with
    | none =>
      rw [hstep] at h
      cases h
    | some next =>
      obtain ⟨t₁, result⟩ := next
      rw [hstep] at h
      obtain ⟨⟨results', t₂⟩, hrest, heq⟩ := Option.map_eq_some_iff.mp h
      cases heq
      refine (ih hrest).trans ?_
      rcases step_cases hstep with ⟨d, -, hdrivers, -⟩ | ⟨hsublist, -⟩
      · simp [hdrivers]
      · simpa [drop_of_sublist hsublist] using hsublist

/-- Each driver is mounted once, and later drivers have greater addresses. -/
theorem pairwise_mountOrder (t : MountTable) (calls : List Call) :
    (∀ d ∈ mountOrder t calls, t.nextAddr ≤ d.addr) ∧
      (mountOrder t calls).Pairwise (fun d d' => d.addr < d'.addr) := by
  induction calls generalizing t with
  | nil => simp [mountOrder]
  | cons call calls ih =>
    rw [mountOrder]
    cases hstep : t.step call with
    | none => simp
    | some next =>
      obtain ⟨t₁, result⟩ := next
      obtain ⟨hge, hpairwise⟩ := ih t₁
      rcases step_cases hstep with ⟨d, haddr, hdrivers, hnext⟩ | ⟨hsublist, hnext⟩
      · simp only [hdrivers, drop_left, singleton_append, mem_cons,
          forall_eq_or_imp, pairwise_cons]
        refine ⟨⟨haddr.ge, fun d' hd' => ?_⟩, fun d' hd' => ?_, hpairwise⟩
        · have := hge d' hd'
          omega
        · have := hge d' hd'
          omega
      · simp only [drop_of_sublist hsublist, nil_append]
        exact ⟨fun d hd => hnext ▸ hge d hd, hpairwise⟩

theorem run_stacked {results : List MountResult} (h : Run step empty results t) :
    t.WellFormed ∧ Stacked t.drivers.reverse := by
  induction h with
  | nil => exact ⟨Reachable.wellFormed ⟨_, Run.nil⟩, trivial⟩
  | snoc h hstep ih => exact ⟨Reachable.wellFormed ⟨_, h.snoc hstep⟩, step_stacked ih.1 ih.2 hstep⟩

/-- After any calls of `mount` and `umount`, each driver that is left stands on that of the system
    or on one that is left too, and they are in the order in which they were mounted. -/
theorem mountStack_sound (calls : List Call) (results : List MountResult) (t : MountTable)
    (h : runActions step empty calls = some (results, t)) :
    (∀ d ∈ t.drivers, d.underlying = .system ∨
      ∃ base ∈ t.drivers, d.underlying = .loaded base.addr) ∧
    t.drivers.Sublist (mountOrder empty calls) ∧
    ((mountOrder empty calls).map Driver.addr).Nodup := by
  refine ⟨fun d hd => ?_, ?_, ?_⟩
  · have hstacked := (run_stacked (run_of_runActions h)).2
    simpa using hstacked.mem_underlying (mem_reverse.mpr hd)
  · simpa [empty] using sublist_mountOrder h
  · have hpairwise := (pairwise_mountOrder empty calls).2
    exact pairwise_map.mpr (hpairwise.imp fun hlt => hlt.ne)

/-- Three drivers are mounted one below the other; the one in the middle cannot be taken away, and
    then the last one is. -/
def nestedCalls : List Call :=
  [.mount none true (some "/dev/assets".toList) (some "/a".toList),
   .mount none true (some "/dev/assets".toList) (some "/a/b".toList),
   .mount none true (some "/dev/assets".toList) (some "/a/b/c".toList),
   .umount none (some "/a/b".toList),
   .umount none (some "/a/b/c".toList)]

theorem mountStack_sound_nested :
    ∃ results t, runActions step empty nestedCalls = some (results, t) ∧
      results = [.done, .done, .done, .failed .ebusy, .done] ∧
      (∀ d ∈ t.drivers, d.underlying = .system ∨
        ∃ base ∈ t.drivers, d.underlying = .loaded base.addr) ∧
      t.drivers.map Driver.underlying = [.system, .loaded 0] := by
  have hrun : runActions step empty nestedCalls =
      some ([.done, .done, .done, .failed .ebusy, .done],
        ⟨[⟨0, some "/a".toList, .system⟩, ⟨1, some "/a/b".toList, .loaded 0⟩], 3⟩) := by
    decide +kernel
  exact ⟨_, _, hrun, rfl, (mountStack_sound _ _ _ hrun).1, rfl⟩

end MountTable

end CrystaxNdk.Vfs
