import CrystaxNdk.Vfs.AssetDriver
import CrystaxNdk.Vfs.Proof.Dispatch

/-!
# Metadata that is saved and loaded again

Reading a record calls `absolutize` twice for its path, which leaves a path as it is that it has
made before. So what has been saved is loaded, and of a file that was cut off somewhere all records
that are whole.
-/

namespace CrystaxNdk.Vfs

open Lib List

/-- An entry with a path, as the constructor of `metadata_entry_t` makes it, in bytes. -/
structure AbsEntry where
  path : CString
  removed : Bool
  made : ∃ (cwd : Option Cwd) (source : CString),
    absolutize (cwd.map Cwd.path) (some source) = .ok (some path)
  bytes : ∀ c ∈ path, 0 < c.toNat ∧ c.toNat < 256

namespace AbsEntry

def entry (e : AbsEntry) : MetadataEntry := ⟨some e.path, e.removed⟩

theorem length_path (e : AbsEntry) : e.path.length ≤ pathMax := by
  obtain ⟨names, -, -, -, hlen⟩ := exists_absolutize_iff.mp e.made
  exact hlen

theorem absolutize_path (e : AbsEntry) (cwd : Option CString) :
    absolutize cwd (some e.path) = .ok (some e.path) := by
  obtain ⟨names, hpath, hplain, hnames, hlen⟩ := exists_absolutize_iff.mp e.made
  rw [hpath] at hlen ⊢
  exact absolutize_absolute cwd hplain hnames hlen

theorem length_bytesOf (path : CString) : (bytesOf path).length = path.length := length_map _

theorem stringOf_bytesOf (e : AbsEntry) : stringOf (bytesOf e.path) = e.path := by
  have hbytes := e.bytes
  generalize e.path = path at hbytes
  induction path with
  | nil => rfl
  | cons c path ih =>
    obtain ⟨hpos, hlt⟩ := hbytes c mem_cons_self
    have htoNat : (UInt8.ofNat c.toNat).toNat = c.toNat := by
      rw [UInt8.toNat_ofNat', Nat.mod_eq_of_lt hlt]
    have hne : UInt8.ofNat c.toNat ≠ 0 := by
      intro hzero
      rw [hzero] at htoNat
      exact absurd htoNat.symm hpos.ne'
    have hrest := ih fun d hd => hbytes d (mem_cons_of_mem c hd)
    rw [stringOf, bytesOf, map_cons, takeWhile_cons_of_pos (by simpa using hne),
      map_cons, htoNat, Char.ofNat_toNat]
    exact congrArg (c :: ·) hrest

/-! ## One record -/

theorem writeMetadataEntry_eq (e : AbsEntry) : writeMetadataEntry e.entry =
    [metadataV1] ++ (littleEndian 4 e.path.length ++
      (bytesOf e.path ++ [if e.removed then 1 else 0])) := by
  rw [← length_bytesOf]
  rfl

theorem ofLittleEndian_length (e : AbsEntry) :
    ofLittleEndian (littleEndian 4 e.path.length) = e.path.length := by
  have hlen := e.length_path
  exact ofLittleEndian_littleEndian (hlen.trans_lt (by decide))

theorem length_no_wrap (e : AbsEntry) (file : List UInt8) :
    ¬(e.path.length + 1 = 2 ^ 32 ∧ file ≠ []) := by
  have hlen := e.length_path
  have hmax : pathMax + 1 < 2 ^ 32 := by decide
  omega

theorem readMetadataEntry_append (e : AbsEntry) (cwd : Option CString) (rest : List UInt8) :
    readMetadataEntry cwd (writeMetadataEntry e.entry ++ rest) = .ok (some (e.entry, rest)) := by
  have hflag : decide ([if e.removed then (1 : UInt8) else 0] ≠ [0]) = e.removed := by
    cases e.removed <;> rfl
  rw [writeMetadataEntry_eq, readMetadataEntry]
  simp only [append_assoc, takeField_append _ (length_singleton), ne_eq,
    not_true_eq_false, if_false, takeField_append _ (length_littleEndian 4 _),
    ofLittleEndian_length, if_neg (e.length_no_wrap _), takeField_append _ (length_bytesOf e.path),
    stringOf_bytesOf, absolutize_path]
  exact congrArg (fun removed => Except.ok (some (MetadataEntry.mk (some e.path) removed, rest)))
    hflag

theorem readMetadataEntry_short (e : AbsEntry) (cwd : Option CString) {file : List UInt8}
    (h : file <+: writeMetadataEntry e.entry)
    (hlt : file.length < (writeMetadataEntry e.entry).length) :
    readMetadataEntry cwd file = .ok none := by
  rw [writeMetadataEntry_eq] at h hlt
  rw [readMetadataEntry]
  -- the field in which the file ends
  rcases prefix_append_cases h with ⟨-, hshort⟩ | ⟨file₁, rfl, h₁⟩
  · rw [length_singleton] at hshort
    rw [takeField_short hshort]
  rw [takeField_append _ length_singleton]
  simp only [ne_eq, not_true_eq_false, if_false]
  rcases prefix_append_cases h₁ with ⟨-, hshort⟩ | ⟨file₂, rfl, h₂⟩
  · rw [length_littleEndian] at hshort
    rw [takeField_short hshort]
  rw [takeField_append _ (length_littleEndian 4 _)]
  simp only [ofLittleEndian_length, if_neg (e.length_no_wrap _)]
  rcases prefix_append_cases h₂ with ⟨-, hshort⟩ | ⟨file₃, rfl, h₃⟩
  · rw [length_bytesOf] at hshort
    rw [takeField_short hshort]
  rw [takeField_append _ (length_bytesOf e.path)]
  have hshort : file₃.length < 1 := by
    simp only [length_append, length_singleton] at hlt
    omega
  simp only [takeField_short hshort]

end AbsEntry

/-! ## The file -/

section Files

variable {cwd : Option CString} {file : List UInt8} {metadata : List MetadataEntry}

theorem loadEntries_of_none (h : readMetadataEntry cwd file = .ok none) :
    loadEntries cwd file metadata = .ok metadata := by
  rw [loadEntries]
  split
  · simp_all
  · rfl
  · simp_all

theorem loadEntries_of_some {rest : List UInt8} {e : AbsEntry}
    (h : readMetadataEntry cwd file = .ok (some (e.entry, rest))) :
    loadEntries cwd file metadata = loadEntries cwd rest (metadata ++ [e.entry]) := by
  rw [loadEntries]
  split
  · simp_all
  · simp_all
  · rename_i entry rest' hread
    rw [h] at hread
    cases hread
    rw [AbsEntry.entry, AbsEntry.absolutize_path]
    rfl

theorem loadEntries_append (cwd : Option CString) (entries : List AbsEntry) (file : List UInt8)
    (metadata : List MetadataEntry) :
    loadEntries cwd (saveMetadata (entries.map AbsEntry.entry) ++ file) metadata =
      loadEntries cwd file (metadata ++ entries.map AbsEntry.entry) := by
  induction entries generalizing metadata with
  | nil => simp [saveMetadata]
  | cons e entries ih =>
    have hread := e.readMetadataEntry_append cwd
      (saveMetadata (entries.map AbsEntry.entry) ++ file)
    rw [← append_assoc] at hread
    refine (loadEntries_of_some hread).trans ?_
    rw [ih, append_assoc]
    rfl

/-- A file cut off anywhere is loaded as far as its records are whole. -/
theorem loadEntries_of_prefix {entries : List AbsEntry}
    (h : file <+: saveMetadata (entries.map AbsEntry.entry)) :
    ∃ k, loadEntries cwd file metadata =
      .ok (metadata ++ (entries.take k).map AbsEntry.entry) := by
  rw [saveMetadata, flatMap_map] at h
  obtain ⟨k, last, rfl, hlast⟩ := prefix_flatMap_cases h
  have hread : readMetadataEntry cwd last = .ok none := by
    rcases hlast with rfl | ⟨e, -, hbegins, hlt⟩
    · rfl
    · exact e.readMetadataEntry_short cwd hbegins hlt
  refine ⟨k, ?_⟩
  rw [← flatMap_map]
  exact (loadEntries_append cwd _ last metadata).trans (loadEntries_of_none hread)

end Files

/-- What has been saved is loaded, and a beginning of it as a beginning. -/
theorem loadMetadata_saveMetadata (cwd : Option CString) (entries : List AbsEntry) :
    loadMetadata cwd (some (saveMetadata (entries.map AbsEntry.entry))) [] =
        .ok (entries.map AbsEntry.entry) ∧
      ∀ file, file <+: saveMetadata (entries.map AbsEntry.entry) →
        ∃ loaded, loadMetadata cwd (some file) [] = .ok loaded ∧
          loaded <+: entries.map AbsEntry.entry := by
  constructor
  · have happend := loadEntries_append cwd entries [] []
    rw [append_nil] at happend
    exact happend.trans (loadEntries_of_none rfl)
  · intro file h
    obtain ⟨k, hload⟩ := loadEntries_of_prefix h
    exact ⟨_, hload, (List.take_prefix k entries).map AbsEntry.entry⟩

/-- `/a`, removed, and `/a/b`, as made from `/a/./b`. -/
def twoEntries : List AbsEntry :=
  [⟨['/', 'a'], true, ⟨none, ['/', 'a'], rfl⟩, by simp⟩,
    ⟨['/', 'a', '/', 'b'], false, ⟨none, "/a/./b".toList, by decide +kernel⟩, by simp⟩]

theorem loadMetadata_twoEntries_cut :
    ∃ loaded,
      loadMetadata none (some [1, 2, 0, 0, 0, 47, 97, 1, 1, 4, 0, 0, 0, 47]) [] = .ok loaded ∧
      loaded <+: twoEntries.map AbsEntry.entry :=
  (loadMetadata_saveMetadata none twoEntries).2 _ (by decide)

end CrystaxNdk.Vfs
