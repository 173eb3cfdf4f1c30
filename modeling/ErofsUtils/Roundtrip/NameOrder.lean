import ErofsUtils.Build.Represents
import ErofsUtils.Roundtrip.Names
import ErofsUtils.Roundtrip.Order

/-! # The order of the names a build stores

A build sorts the entries of a directory by their names and stores the strings these are
converted to. Names that are no text can change their order on the way. -/
namespace ErofsUtils.Roundtrip
open ErofsUtils.Rust ErofsUtils.Metadata ErofsUtils.Build ErofsUtils.Text ErofsUtils.Store

/-- The strings of the names are larger than `..` and in the order of the names. -/
structure StringsInOrder (entries : List (List UInt8 × Source)) : Prop where
  above : ∀ e ∈ entries, dotdot < toStringLossy e.1
  kept : ∀ e ∈ entries, ∀ f ∈ entries, e.1 < f.1 → toStringLossy e.1 < toStringLossy f.1

/-- The names of a directory are sorted strictly. -/
theorem LinuxNames.sorted {entries : List (List UInt8 × Source)} (h : LinuxNames entries) :
    ((sortByFileName entries).map Prod.fst).Pairwise (· < ·) := by
  have hnodup : ((sortByFileName entries).map Prod.fst).Nodup :=
    ((sortByFileName_perm entries).map Prod.fst).nodup_iff.mpr h.distinct
  have hle : ((sortByFileName entries).map Prod.fst).Pairwise fun a b => ¬ b < a :=
    List.pairwise_map.mpr (sortByFileName_sorted entries)
  refine hle.imp₂ (fun a b hab hne => ?_) hnodup
  exact (List.le_iff_lt_or_eq.mp (List.not_lt.mp hab)).resolve_right hne

theorem stringsInOrder_iff {inodes : List InodeInfo} {dir : Source} {idx : Nat} {inode : InodeInfo}
    (hrec : Recorded inodes dir idx) (hi : inodes[idx]? = some inode)
    (hlinux : LinuxNames dir.entries) {nids : Nat → Nat} (hnids : ∀ i, nids i < 2 ^ 64)
    {selfNid parentNid : Nat} (hself : selfNid < 2 ^ 64) (hparent : parentNid < 2 ^ 64) :
    StoredInOrder (storedChildren nids inode.data.children) selfNid parentNid ↔
      StringsInOrder dir.entries := by
  have hperm := sortByFileName_perm dir.entries
  obtain @⟨_, _, inode', hi', hentries, -, -⟩ := hrec
  cases hi.symm.trans hi'
  have hnames := names_of_entries hentries
  have hstrings : inode.data.children.map DirEntry.name =
      ((sortByFileName dir.entries).map Prod.fst).map toStringLossy := by
    rw [hnames, List.map_map]
    rfl
  rw [storedInOrder_children_iff (hlinux.storable hnames hnids) hself hparent,
    names_storedChildren, hstrings, pairwise_lt_map_iff hlinux.sorted]
  have hmem : ∀ {P : List UInt8 → Prop}, (∀ name ∈ (sortByFileName dir.entries).map Prod.fst,
      P name) ↔ ∀ e ∈ dir.entries, P e.1 := by
    intro P
    rw [List.forall_mem_map]
    exact ⟨fun h e he => h e (hperm.mem_iff.mpr he), fun h e he => h e (hperm.mem_iff.mp he)⟩
  rw [List.forall_mem_map, hmem, hmem]
  simp only [hmem]
  exact ⟨fun h => ⟨h.1, h.2⟩, fun h => ⟨h.above, h.kept⟩⟩

/-- **The order of the names a build stores.** A directory is stored in order exactly when the
strings of its names are larger than `..` and in the order of the names. -/
theorem storedInOrder_iff {hash : List UInt8 → Digest} {source dir : Source} {w w' : BlobWriter}
    {inodes : List InodeInfo} {idx : Nat} {inode : InodeInfo}
    (hbuild : buildTree hash source w = .ok (inodes, w')) (hroot : source.isDir = true)
    (hdir : RecordedAs inodes source dir idx) (hi : inodes[idx]? = some inode)
    (hlinux : LinuxNames dir.entries) {nids : Nat → Nat} (hnids : ∀ i, nids i < 2 ^ 64)
    {selfNid parentNid : Nat} (hself : selfNid < 2 ^ 64) (hparent : parentNid < 2 ^ 64) :
    StoredInOrder (storedChildren nids inode.data.children) selfNid parentNid ↔
      StringsInOrder dir.entries :=
  stringsInOrder_iff (hdir.recorded (buildTree_recorded hbuild hroot)) hi hlinux hnids hself hparent

/-- Both files are stored behind `..`, in their order. -/
theorem storedInOrder_textNames : ∃ inodes w' inode,
    buildTree noDigest (filesDir textNames) emptyBlob = .ok (inodes, w') ∧
      inodes[0]? = some inode ∧ inode.data.children.length = 2 ∧
      StoredInOrder (storedChildren (fun i => i % 2 ^ 64) inode.data.children) 0 0 := by
  have hfiles : ∀ e ∈ textNames, ∃ ino, e.2 = plainFile ino := by simp [textNames]
  obtain ⟨inodes, w', hbuild⟩ := buildTree_filesDir hfiles noDigest (by decide)
  have hroot := filesDir_isDir textNames
  have hlinux : LinuxNames textNames := ⟨by simp [textNames]; decide, by decide⟩
  obtain @⟨_, _, inode, hi, hentries, -, -⟩ := buildTree_recorded hbuild hroot
  have hone : ∀ e ∈ textNames, e.1 = [97] ∨ e.1 = [98] := by simp [textNames]
  have htext : ∀ e ∈ textNames, toStringLossy e.1 = e.1 := by
    intro e he
    rcases hone e he with h | h <;> rw [h]
    · exact toStringLossy_of_isUtf8 ⟨[97], by simp [IsScalar], rfl⟩
    · exact toStringLossy_of_isUtf8 ⟨[98], by simp [IsScalar], rfl⟩
  refine ⟨inodes, w', inode, hbuild, hi, hentries.length_eq.symm.trans
    (sortByFileName_perm textNames).length_eq, ?_⟩
  refine (storedInOrder_iff hbuild hroot .root hi hlinux (fun i => Nat.mod_lt _ (by decide))
    (by decide) (by decide)).mpr ⟨?_, ?_⟩
  · intro e he
    rw [htext e he]
    rcases hone e he with h | h <;> rw [h] <;> decide
  · intro e he f hf hlt
    rwa [htext e he, htext f hf]

/-- The file `-` is stored behind `..`, which is larger. -/
theorem not_storedInOrder_dash : ∃ inodes w' inode,
    buildTree noDigest (filesDir [([45], plainFile 2)]) emptyBlob = .ok (inodes, w') ∧
      RecordedAs inodes (filesDir [([45], plainFile 2)]) (filesDir [([45], plainFile 2)]) 0 ∧
      inodes[0]? = some inode ∧ LinuxNames [([45], plainFile 2)] ∧
      ¬ StoredInOrder (storedChildren (fun i => i % 2 ^ 64) inode.data.children) 0 0 := by
  have hfiles : ∀ e ∈ [(([45] : List UInt8), plainFile 2)], ∃ ino, e.2 = plainFile ino := by simp
  obtain ⟨inodes, w', hbuild⟩ := buildTree_filesDir hfiles noDigest (by decide)
  have hroot := filesDir_isDir [([45], plainFile 2)]
  have hlinux : LinuxNames [([45], plainFile 2)] := ⟨by simp; decide, by simp⟩
  have hrec := buildTree_recorded hbuild hroot
  obtain @⟨_, _, inode, hi, -, -, -⟩ := id hrec
  refine ⟨inodes, w', inode, hbuild, .root, hi, hlinux, ?_⟩
  rw [stringsInOrder_iff hrec hi hlinux (fun i => Nat.mod_lt _ (by decide)) (by decide) (by decide)]
  intro hs
  have hlt : dotdot < toStringLossy [45] := hs.above ([45], plainFile 2) List.mem_cons_self
  have htext : toStringLossy [45] = [45] := toStringLossy_of_isUtf8 ⟨[45], by simp [IsScalar], rfl⟩
  rw [htext] at hlt
  exact absurd hlt (by decide)

end ErofsUtils.Roundtrip
