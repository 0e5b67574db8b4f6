import CrystaxNdk.Vfs.FdTable
import Mathlib.Data.Fintype.Basic

/-!
# `select` and the sets of the caller

`select` gets sets of descriptors of the library and asks a driver, which only knows its own. So the
members have to go through the table twice: on the way in each is replaced by the descriptor that
the driver knows it by, and on the way out the sets the driver has left are to be brought back to
the members of the caller. The code only does the first.

Its loop goes through the descriptors below `maxfd`, and for each of them through the three sets.
`Gathers` is the invariant. It has a bound for each set, up to which the members were entered, since
in the middle of a round the sets are at different places; `gathers_of_gather` carries it over the
whole loop. So the driver is asked about the right sets (`Gathers.given_eq`), with the right number
of descriptors (`Gathers.extmaxfd_eq`). Its answer stays in the sets that were made for it. Those of
the caller are as they were, so they are right exactly if nothing was to be taken out of them
(`select_translated_iff`).
-/

namespace CrystaxNdk.Vfs

open Lib Function

variable {n m : Nat}

variable {fd : Nat}

namespace FdTable

/-- `fd` is a descriptor of the driver: its record is in use and has this driver. -/
def LiveOf (t : FdTable n) (d : DriverPtr) (fd : Nat) : Prop :=
  ∃ h : fd < n, (t.record ⟨fd, h⟩).driver = some d ∧ 0 ≤ (t.record ⟨fd, h⟩).extfd

/-- What the driver of a descriptor calls it; outside the table there is nothing. -/
def extfd (t : FdTable n) (fd : Nat) : Int := if h : fd < n then (t.record ⟨fd, h⟩).extfd else -1

theorem LiveOf.resolve {t : FdTable n} {d : DriverPtr} (h : t.LiveOf d fd) :
    ∃ r, t.resolve fd = .ok (some r) ∧ r.driver = some d ∧ r.extfd = t.extfd fd := by
  obtain ⟨hn, hdriver, _⟩ := h
  refine ⟨t.record ⟨fd, hn⟩, ?_, hdriver, ?_⟩
  · rw [FdTable.resolve, if_neg (by omega), dif_pos (by omega)]
    rfl
  · rw [FdTable.extfd, dif_pos hn]

end FdTable

/-! ## The sets of the driver -/

/-- The descriptors of the driver for the members below a bound. -/
def extSet (t : FdTable n) (fds : FdSet m) (below : Nat) : FdSet m :=
  Finset.univ.filter fun e => ∃ fd ∈ fds, fd.val < below ∧ t.extfd fd = e.val

/-- One more than the greatest descriptor in the sets. -/
def setsTop (ext : SelectKind → FdSet m) : Nat :=
  let top := fun kind => (ext kind).sup fun e => e.val + 1
  max (top .read) (max (top .write) (top .except))

variable {fds : FdSet m} {e : Fin m}

theorem mem_extSet {t : FdTable n} {below : Nat} :
    e ∈ extSet t fds below ↔ ∃ fd ∈ fds, fd.val < below ∧ t.extfd fd = e.val := by
  simp [extSet]

theorem extSet_empty (t : FdTable n) (below : Nat) : extSet t (∅ : FdSet m) below = ∅ := by
  simp [extSet]

theorem extSet_zero (t : FdTable n) (fds : FdSet m) : extSet t fds 0 = ∅ := by
  simp [extSet]

theorem extSet_succ_of_notMem {t : FdTable n} {fd : Fin m} (h : fd ∉ fds) :
    extSet t fds (fd + 1) = extSet t fds fd := by
  ext e
  simp only [mem_extSet]
  refine exists_congr fun c => and_congr_right fun hc => and_congr_left fun _ => ?_
  have hne : c.val ≠ fd.val := fun heq => h (Fin.ext heq ▸ hc)
  omega

theorem extSet_succ_of_mem {t : FdTable n} {fd : Fin m} (h : fd ∈ fds) (he : t.extfd fd = e.val) :
    extSet t fds (fd + 1) = insert e (extSet t fds fd) := by
  ext x
  simp only [mem_extSet, Finset.mem_insert]
  constructor
  · rintro ⟨c, hc, hlt, hx⟩
    rcases Nat.lt_succ_iff_lt_or_eq.mp hlt with hlt | heq
    · exact .inr ⟨c, hc, hlt, hx⟩
    · obtain rfl := Fin.ext heq
      exact .inl (Fin.ext (by omega))
  · rintro (rfl | ⟨c, hc, hlt, hx⟩)
    · exact ⟨fd, h, Nat.lt_succ_self _, he⟩
    · exact ⟨c, hc, Nat.lt_succ_of_lt hlt, hx⟩

theorem setsTop_insert (ext : SelectKind → FdSet m) (kind : SelectKind) (e : Fin m) :
    setsTop (update ext kind (insert e (ext kind))) = max (setsTop ext) (e + 1) := by
  unfold setsTop
  cases kind <;>
    simp only [update_self, update_of_ne, ne_eq, reduceCtorEq, not_false_eq_true,
      Finset.sup_insert] <;>
    grind

/-! ## The loop -/

/-- Of each set the members below a bound have been gone through: the sets for the driver have what
    it calls them, `extmaxfd` is one more than the greatest of these, and the driver is the one of
    the members, or there were none so far. -/
structure Gathers (t : FdTable n) (sets : FdSets m) (d : DriverPtr) (below : SelectKind → Nat)
    (g : Gathered m) : Prop where
  driver : g.driver = some d ∨
    g.driver = none ∧ ∀ kind, ∀ fd ∈ (sets kind).getD ∅, below kind ≤ fd.val
  extmaxfd : g.extmaxfd = setsTop g.ext
  ext : ∀ kind, g.ext kind = extSet t ((sets kind).getD ∅) (below kind)

/-- All members are descriptors of the driver. -/
def FdSets.OfDriver (sets : FdSets m) (t : FdTable n) (d : DriverPtr) : Prop :=
  ∀ kind, ∀ fd ∈ (sets kind).getD ∅, t.LiveOf d fd

theorem gathers_start (t : FdTable n) (sets : FdSets m) (d : DriverPtr) :
    Gathers t sets d (fun _ => 0) .start where
  driver := .inr ⟨rfl, fun _ _ _ => Nat.zero_le _⟩
  extmaxfd := by simp [Gathered.start, setsTop]
  ext kind := by rw [extSet_zero]; rfl

theorem Gathered.add_eq_ok {g g' : Gathered m} {kind : SelectKind} {r : FdRecord}
    (h : g.add kind r = .ok g') :
    ∃ e : Fin m, r.extfd = e.val ∧ g'.driver = r.driver ∧
      g'.extmaxfd = max g.extmaxfd (e + 1) ∧
      g'.ext = update g.ext kind (insert e (g.ext kind)) := by
  unfold Gathered.add at h
  split at h
  · cases h
  · split at h
    case isTrue hRange =>
      cases h
      refine ⟨⟨r.extfd.toNat, by omega⟩, by simp [hRange.1], rfl, ?_, rfl⟩
      simp only [Int.toNat_of_nonneg hRange.1]
      split <;> omega
    case isFalse => cases h

variable {t : FdTable n} {sets : FdSets m} {d : DriverPtr} {below : SelectKind → Nat}
  {g g' : Gathered m} {kind : SelectKind}

/-- The bound of a set can be raised past a descriptor that is not in it. -/
theorem Gathers.skip (hg : Gathers t sets d below g)
    (h : ∀ fd ∈ (sets kind).getD ∅, fd.val ≠ below kind)
    (hExt : extSet t ((sets kind).getD ∅) (below kind + 1) =
      extSet t ((sets kind).getD ∅) (below kind)) :
    Gathers t sets d (update below kind (below kind + 1)) g where
  driver := by
    refine hg.driver.imp_right fun hnone => ⟨hnone.1, fun k fd hfd => ?_⟩
    have hle := hnone.2 k fd hfd
    by_cases hk : k = kind
    · subst hk
      have hne := h fd hfd
      rw [update_self]
      omega
    · rwa [update_of_ne hk]
  extmaxfd := hg.extmaxfd
  ext k := by
    by_cases hk : k = kind
    · subst hk
      rw [update_self, hExt, hg.ext]
    · rw [update_of_ne hk, hg.ext]

/-- The member at the bound of a set is entered under the name that the driver has for it. -/
theorem Gathers.add {fd : Fin m} (hg : Gathers t sets d below g) (hsets : sets kind = some fds)
    (hfd : fd ∈ fds) (hbelow : below kind = fd) (he : t.extfd fd = e.val)
    (hdriver : g'.driver = some d) (htop : g'.extmaxfd = max g.extmaxfd (e + 1))
    (hext : g'.ext = update g.ext kind (insert e (g.ext kind))) :
    Gathers t sets d (update below kind (below kind + 1)) g' where
  driver := .inl hdriver
  extmaxfd := by
    rw [htop, hext, setsTop_insert, hg.extmaxfd]
    push_cast
    rfl
  ext k := by
    rw [hext]
    by_cases hk : k = kind
    · subst hk
      rw [update_self, update_self, hg.ext, hsets, hbelow]
      exact (extSet_succ_of_mem hfd he).symm
    · rw [update_of_ne hk, update_of_ne hk, hg.ext]

/-- One set is asked about one descriptor. The bound of that set goes up, those of the others stay,
    so that the three calls of a round can be put together. -/
theorem Gathers.selectSet (hOf : sets.OfDriver t d) (hg : Gathers t sets d below g)
    (hbelow : below kind = fd) (h : selectSet t sets fd kind g = .ok g') :
    Gathers t sets d (update below kind (fd + 1)) g' := by
  subst hbelow
  unfold Vfs.selectSet at h
  split at h
  case h_1 hnone =>
    -- a null pointer in place of the set: nothing is entered
    cases h
    have hempty : (sets kind).getD ∅ = (∅ : FdSet m) := by rw [hnone]; rfl
    refine hg.skip ?_ ?_
    · simp [hempty]
    · rw [hempty, extSet_empty, extSet_empty]
  case h_2 fds hsome =>
    have hfds : (sets kind).getD ∅ = fds := by rw [hsome]; rfl
    split at h
    case isFalse => cases h
    case isTrue hlt =>
      split at h
      case isTrue hmem =>
        -- all members are of the driver, so `resolve` finds a record, and no second driver
        obtain ⟨r, hresolve, hdriver, hextfd⟩ := (hOf kind _ (hfds ▸ hmem)).resolve
        rw [hresolve] at h
        obtain ⟨e, he, hdriver', htop, hext⟩ := Gathered.add_eq_ok h
        exact hg.add hsome hmem rfl (by rw [← he, hextfd]) (hdriver'.trans hdriver) htop hext
      case isFalse hmem =>
        cases h
        refine hg.skip ?_ ?_
        · intro fd hfd heq
          have hfd' : fd = ⟨below kind, hlt⟩ := Fin.ext heq
          rw [hfds, hfd'] at hfd
          exact hmem hfd
        · rw [hfds]
          exact extSet_succ_of_notMem hmem

/-- One descriptor is looked for in the three sets. -/
theorem Gathers.selectFd (hOf : sets.OfDriver t d) (hg : Gathers t sets d (fun _ => fd) g)
    (h : selectFd t sets fd g = .ok g') :
    Gathers t sets d (fun _ => fd + 1) g' := by
  obtain ⟨g₁, hread, h⟩ := bind_eq_ok.mp h
  obtain ⟨g₂, hwrite, hexcept⟩ := bind_eq_ok.mp h
  have hg₁ := hg.selectSet hOf rfl hread
  have hg₂ := hg₁.selectSet hOf rfl hwrite
  have hg₃ := hg₂.selectSet hOf rfl hexcept
  -- the bounds were raised one after the other, and are equal again
  convert hg₃ using 1
  funext kind
  cases kind <;> rfl

/-- The loop, by induction on the number of descriptors it has gone through. -/
theorem gathers_of_gather (hOf : sets.OfDriver t d) (h : gather t sets fd = .ok g) :
    Gathers t sets d (fun _ => fd) g := by
  induction fd generalizing g with
  | zero =>
    cases h
    exact gathers_start t sets d
  | succ fd ih =>
    obtain ⟨g₀, h₀, h⟩ := bind_eq_ok.mp h
    exact (ih h₀).selectFd hOf h

/-! ## What the driver is asked -/

namespace SelectCall

/-- The sets that the driver has to be asked about. -/
def asked (c : SelectCall m) (t : FdTable n) : FdSets m :=
  fun kind => (c.sets kind).map fun fds => extSet t fds c.maxfd.toNat

/-- What the driver answers when it is asked as it should be. -/
def answer (c : SelectCall m) (t : FdTable n) (d : DriverPtr)
    (drivers : DriverPtr → Int → FdSets m → Option Timeval → DriverAnswer m) : DriverAnswer m :=
  drivers d (setsTop fun kind => (c.asked t kind).getD ∅) (c.asked t) c.tv

end SelectCall

variable {c : SelectCall m}

theorem Gathers.given_eq (hg : Gathers t c.sets d (fun _ => c.maxfd.toNat) g) :
    g.given c.sets = c.asked t := by
  funext kind
  unfold Gathered.given SelectCall.asked
  rw [hg.ext]
  cases c.sets kind with
  | none => rfl
  | some fds => rfl

theorem Gathers.extmaxfd_eq (hg : Gathers t c.sets d (fun _ => c.maxfd.toNat) g) :
    g.extmaxfd = setsTop fun kind => (c.asked t kind).getD ∅ := by
  have hext : g.ext = fun kind => (c.asked t kind).getD ∅ := by
    funext kind
    unfold SelectCall.asked
    rw [hg.ext]
    cases c.sets kind with
    | none => exact extSet_empty t _
    | some fds => rfl
  rw [hg.extmaxfd, hext]

/-! ## What the caller gets -/

def FdSets.Has (sets : FdSets m) (kind : SelectKind) (fd : Int) : Prop :=
  ∃ x ∈ (sets kind).getD ∅, (x.val : Int) = fd

instance {sets : FdSets m} {kind : SelectKind} {fd : Int} : Decidable (sets.Has kind fd) :=
  inferInstanceAs (Decidable (∃ x ∈ (sets kind).getD ∅, _))

namespace SelectCall

/-- The sets of the caller, with the members that the driver left in its own sets. -/
def translated (c : SelectCall m) (t : FdTable n) (left : FdSets m) : FdSets m :=
  fun kind => (c.sets kind).map fun fds =>
    fds.filter fun fd => (fd.val : Int) < c.maxfd ∧ left.Has kind (t.extfd fd)

/-- Nothing is to be taken out of the sets. -/
def Kept (c : SelectCall m) (t : FdTable n) (left : FdSets m) : Prop :=
  ∀ kind, ∀ fd ∈ (c.sets kind).getD ∅, (fd.val : Int) < c.maxfd ∧ left.Has kind (t.extfd fd)

theorem sets_eq_translated_iff {left : FdSets m} :
    c.sets = c.translated t left ↔ c.Kept t left := by
  rw [funext_iff]
  refine forall_congr' fun kind => ?_
  unfold translated
  cases c.sets kind with
  | none => simp
  | some fds =>
    rw [Option.map_some, Option.some_inj, eq_comm, Finset.filter_eq_self]
    rfl

end SelectCall

variable {drivers : DriverPtr → Int → FdSets m → Option Timeval → DriverAnswer m}

/-- The driver is asked, or there is nothing to ask about; the sets of the caller stay. -/
theorem select_eq_ok {r : Selected m} (hOf : c.sets.OfDriver t d) (h : select t drivers c = .ok r)
    (hcount : 0 ≤ r.count) :
    r.sets = c.sets ∧ (r.ext = (c.answer t d drivers).sets ∨
      ∀ kind, ∀ fd ∈ (c.sets kind).getD ∅, c.maxfd ≤ fd.val) := by
  unfold select at h
  split at h
  · cases h
  · cases h
    have hneg : (0 : Int) ≤ -1 := hcount
    omega
  case h_3 g hgather =>
    have hg := gathers_of_gather hOf hgather
    rcases hg.driver with hsome | ⟨hnone, hmembers⟩
    · rw [hsome] at h
      cases h
      refine ⟨rfl, .inl ?_⟩
      rw [hg.given_eq, hg.extmaxfd_eq]
      rfl
    · -- without a driver `select` returns 0 at once
      rw [hnone] at h
      cases h
      refine ⟨rfl, .inr fun kind fd hfd => ?_⟩
      have hle := hmembers kind fd hfd
      omega

/-- The sets of the caller are what they should be, exactly if all members were below `maxfd` and
    the driver left all of theirs. -/
theorem select_translated_iff {c : SelectCall m} {r : Selected m} (hOf : c.sets.OfDriver t d)
    (h : select t drivers c = .ok r) (hcount : 0 ≤ r.count) :
    r.sets = c.translated t r.ext ↔ c.Kept t (c.answer t d drivers).sets := by
  obtain ⟨hsets, hext | hmembers⟩ := select_eq_ok hOf h hcount
  · rw [hsets, hext]
    exact SelectCall.sets_eq_translated_iff
  · -- no member is below `maxfd`, so it makes no difference what a driver would have left
    rw [hsets, SelectCall.sets_eq_translated_iff]
    refine forall_congr' fun kind => forall₂_congr fun fd hfd => ?_
    have hle := hmembers kind fd hfd
    have hlt : ¬ (fd.val : Int) < c.maxfd := by omega
    simp only [hlt, false_and]

/-- Descriptor 3 of the caller, which its driver knows as 1. -/
def tableOfOne : FdTable 4 := (FdTable.started.allocFd none 1 (.loaded 0)).1

/-- A call that waits until descriptor 3 can be read. -/
def readThree : SelectCall 4 := ⟨4, fun kind => if kind = .read then some {3} else none, none⟩

theorem readThree_ofDriver : readThree.sets.OfDriver tableOfOne (.loaded 0) := by
  intro kind fd hfd
  cases kind with
  | read =>
    obtain rfl := Finset.mem_singleton.mp hfd
    exact ⟨by decide, by decide, by decide⟩
  | write => cases hfd
  | except => cases hfd

def allReady (_ : DriverPtr) (_ : Int) (sets : FdSets 4) (tv : Option Timeval) : DriverAnswer 4 :=
  ⟨1, none, sets, tv⟩

def noneReady (_ : DriverPtr) (_ : Int) (sets : FdSets 4) (tv : Option Timeval) : DriverAnswer 4 :=
  ⟨0, none, fun kind => (sets kind).map fun _ => ∅, tv⟩

theorem select_translated_ready :
    ∃ r : Selected 4, select tableOfOne allReady readThree = .ok r ∧ r.count = 1 ∧
      r.sets = readThree.translated tableOfOne r.ext := by
  obtain ⟨r, hr, hcount⟩ :
      ∃ r : Selected 4, select tableOfOne allReady readThree = .ok r ∧ r.count = 1 := ⟨_, rfl, rfl⟩
  refine ⟨r, hr, hcount, (select_translated_iff readThree_ofDriver hr (by omega)).mpr ?_⟩
  intro kind fd hfd
  cases kind with
  | read =>
    obtain rfl := Finset.mem_singleton.mp hfd
    decide
  | write => cases hfd
  | except => cases hfd

/-- The time is over and the driver has emptied its sets, but descriptor 3 still looks ready. -/
theorem select_not_translated :
    ∃ r : Selected 4, readThree.sets.OfDriver tableOfOne (.loaded 0) ∧
      select tableOfOne noneReady readThree = .ok r ∧ r.count = 0 ∧
      r.ext .read = some ∅ ∧ r.sets .read = some {3} ∧
      r.sets ≠ readThree.translated tableOfOne r.ext := by
  refine ⟨_, readThree_ofDriver, rfl, rfl, rfl, rfl, ?_⟩
  intro h
  exact absurd (congrFun h .read) (by decide)

end CrystaxNdk.Vfs
