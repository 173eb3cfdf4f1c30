import ErofsUtils.Build.Returns
import ErofsUtils.Roundtrip.Order
import ErofsUtils.Roundtrip.Tree

/-! # File names on their way into a directory

A name is converted to a string before it is stored. What is no text comes out changed, and
then no lookup of the name finds the file. -/
namespace ErofsUtils.Roundtrip
open ErofsUtils.Rust ErofsUtils.Bytes ErofsUtils.Metadata ErofsUtils.Build ErofsUtils.Fs
open ErofsUtils.Text ErofsUtils.Store

/-- The names of a directory as the kernel lists them. -/
structure LinuxNames (entries : List (List UInt8 × Source)) : Prop where
  name : ∀ e ∈ entries, e.1 ≠ [] ∧ e.1.length ≤ 255 ∧ (0 : UInt8) ∉ e.1 ∧ (47 : UInt8) ∉ e.1 ∧
    e.1 ≠ dot ∧ e.1 ≠ dotdot
  distinct : (entries.map Prod.fst).Nodup

/-- The entries that are serialized, the inodes having these NIDs. -/
def storedChildren (nids : Nat → Nat) (children : List DirEntry) : List DirChild :=
  children.map fun de => { name := de.name, nid := nids de.inodeIdx, fileType := de.fileType }

/-- The directory recorded at `idx` has the names of the source: its children carry them, its
data lists them, and looking one up in the data finds a child with the inode of that file. -/
def NamesSurvive (inodes : List InodeInfo) (idx : Nat) (dir : Source) : Prop :=
  ∃ inode, inodes[idx]? = some inode ∧
    inode.data.children.map DirEntry.name = (sortByFileName dir.entries).map Prod.fst ∧
    (inode.data.children.map DirEntry.name).Nodup ∧
    ∀ (nids : Nat → Nat) (selfNid parentNid : Nat), (∀ i, nids i < 2 ^ 64) → selfNid < 2 ^ 64 →
      parentNid < 2 ^ 64 → ∃ data es,
        serializeDirectory (storedChildren nids inode.data.children) selfNid parentNid = .ok data ∧
        parseDirEntries data data.length ErofsReader.collect 0 [] = .ok es ∧
        es.map CachedDirEntry.name = dot :: dotdot :: (sortByFileName dir.entries).map Prod.fst ∧
        ∀ e ∈ dir.entries, ∃ de ∈ inode.data.children, FileAt inodes e.2 de.inodeIdx ∧
          parseDirEntries data data.length (ErofsFs.findName e.1) 0 none =
            .ok (some (nids de.inodeIdx))

variable {inodes : List InodeInfo} {source dir : Source} {idx : Nat}

theorem names_storedChildren (nids : Nat → Nat) (children : List DirEntry) :
    (storedChildren nids children).map DirChild.name = children.map DirEntry.name := by
  rw [storedChildren, List.map_map]
  rfl

theorem exists_related {α β : Type} {R : α → β → Prop} {as : List α} {bs : List β}
    (h : List.Forall₂ R as bs) : ∀ a ∈ as, ∃ b ∈ bs, R a b := by
  induction h with
  | nil => exact fun a ha => absurd ha List.not_mem_nil
  | cons hab _ ih =>
    intro a ha
    rcases List.mem_cons.mp ha with rfl | ha
    · exact ⟨_, List.mem_cons_self, hab⟩
    · obtain ⟨b, hb, hr⟩ := ih a ha
      exact ⟨b, List.mem_cons_of_mem _ hb, hr⟩

/-! ## Names that are no text change -/

theorem isUtf8_of_namesSurvive (hrec : Recorded inodes dir idx) (h : NamesSurvive inodes idx dir) :
    ∀ e ∈ dir.entries, IsUtf8 e.1 := by
  obtain ⟨hi, hentries, -, -⟩ := hrec
  obtain ⟨inode, hi', hsame, -⟩ := h
  rw [hi] at hi'
  cases hi'
  intro e he
  have hmem := (sortByFileName_perm dir.entries).mem_iff.mpr he
  rw [names_of_entries hentries] at hsame
  exact toStringLossy_eq_self_iff.mp (List.map_inj_left.mp hsame e hmem)

/-! ## Names that are text stay -/

/-- The strings of the names can be stored. -/
theorem LinuxNames.storable {entries : List (List UInt8 × Source)} (h : LinuxNames entries)
    {children : List DirEntry}
    (hnames : children.map DirEntry.name =
      (sortByFileName entries).map fun e => toStringLossy e.1)
    {nids : Nat → Nat} (hnids : ∀ i, nids i < 2 ^ 64) :
    ∀ c ∈ storedChildren nids children, Storable c := by
  intro c hc
  obtain ⟨de, hde, rfl⟩ := List.mem_map.mp hc
  have hmem : de.name ∈ (sortByFileName entries).map fun e => toStringLossy e.1 :=
    hnames ▸ List.mem_map.mpr ⟨de, hde, rfl⟩
  obtain ⟨e, he, heq⟩ := List.mem_map.mp hmem
  obtain ⟨hne, hlen, hnul, -⟩ := h.name e ((sortByFileName_perm entries).mem_iff.mp he)
  have hle := length_toStringLossy_le e.1
  refine ⟨⟨?_, ?_, ?_⟩, hnids _⟩
  · exact heq ▸ toStringLossy_ne_nil hne
  · intro hzero
    have hzero' : (0 : UInt8) ∈ toStringLossy e.1 := heq ▸ hzero
    exact (mem_toStringLossy hzero').elim hnul (by decide)
  · show 12 + de.name.length ≤ 4096
    rw [← heq]
    omega

theorem LinuxNames.nodup {entries : List (List UInt8 × Source)} (h : LinuxNames entries) :
    (dot :: dotdot :: (sortByFileName entries).map Prod.fst).Nodup := by
  have hperm := sortByFileName_perm entries
  have hother : ∀ name ∈ (sortByFileName entries).map Prod.fst, name ≠ dot ∧ name ≠ dotdot := by
    intro name hname
    obtain ⟨e, he, rfl⟩ := List.mem_map.mp hname
    obtain ⟨-, -, -, -, hdot, hdotdot⟩ := h.name e (hperm.mem_iff.mp he)
    exact ⟨hdot, hdotdot⟩
  have hdots : dot ≠ dotdot := by decide
  refine List.nodup_cons.mpr ⟨?_, List.nodup_cons.mpr
    ⟨fun hmem => (hother _ hmem).2 rfl, (hperm.map Prod.fst).nodup_iff.mpr h.distinct⟩⟩
  intro hmem
  rcases List.mem_cons.mp hmem with heq | hmem
  · exact hdots heq
  · exact (hother _ hmem).1 rfl

/-- A lookup in a serialized directory finds the child of the name. -/
theorem parse_findName {children : List DirChild} {selfNid parentNid : Nat}
    (hall : ∀ e ∈ dirEntryList children selfNid parentNid, Storable e)
    (hnodup : (dot :: dotdot :: children.map DirChild.name).Nodup) {data : List UInt8}
    (hdata : serializeDirectory children selfNid parentNid = .ok data) :
    ∀ c ∈ children,
      parseDirEntries data data.length (ErofsFs.findName c.name) 0 none = .ok (some c.nid) := by
  intro c hc
  obtain ⟨data', hdata', -, -, hparse⟩ := parse_serializeBlocks _ hall
  rw [serializeDirectory, hdata'] at hdata
  cases hdata
  have hmem : cached c ∈ (dirEntryList children selfNid parentNid).map cached :=
    List.mem_map.mpr ⟨c, List.mem_cons_of_mem _ (List.mem_cons_of_mem _ hc), rfl⟩
  rw [← names_dirEntryList children selfNid parentNid] at hnodup
  have hfind := find?_name hnodup hmem
  rw [show (cached c).name = c.name from rfl] at hfind
  rw [hparse, runCallback, runScan_findName, hfind]
  rfl

theorem namesSurvive_of_isUtf8 (hrec : Recorded inodes dir idx) (hlinux : LinuxNames dir.entries)
    (h : ∀ e ∈ dir.entries, IsUtf8 e.1) : NamesSurvive inodes idx dir := by
  have hperm := sortByFileName_perm dir.entries
  obtain @⟨_, _, inode, hi, hentries, -, -⟩ := hrec
  have hsame : inode.data.children.map DirEntry.name =
      (sortByFileName dir.entries).map Prod.fst := by
    rw [names_of_entries hentries]
    exact List.map_congr_left fun e he =>
      toStringLossy_of_isUtf8 (h e (hperm.mem_iff.mp he))
  have hnodup := hlinux.nodup
  rw [← hsame] at hnodup
  refine ⟨inode, hi, hsame, (List.nodup_cons.mp (List.nodup_cons.mp hnodup).2).2, ?_⟩
  intro nids selfNid parentNid hnids hself hparent
  have hall := hlinux.storable (names_of_entries hentries) hnids
  obtain ⟨data, hdata, hread⟩ := read_serializeDirectory hall hself hparent
  rw [← names_storedChildren nids] at hnodup
  refine ⟨data, _, hdata, hread, ?_, ?_⟩
  · rw [names_dirEntryList, names_storedChildren, hsame]
  · intro e he
    obtain ⟨de, hde, hof⟩ := exists_related hentries e (hperm.mem_iff.mpr he)
    have hname : de.name = e.1 := hof.name.trans (toStringLossy_of_isUtf8 (h e he))
    have hlookup := parse_findName (storable_dirEntryList hall hself hparent) hnodup hdata
      { name := de.name, nid := nids de.inodeIdx, fileType := de.fileType }
      (List.mem_map.mpr ⟨de, hde, rfl⟩)
    exact ⟨de, hde, hof.file, hname ▸ hlookup⟩

/-- **Names of files.** A build records every directory of the source, and the names of one
survive exactly when all of them are UTF-8. -/
theorem namesSurvive_iff {hash : List UInt8 → Digest} {w w' : BlobWriter}
    (hbuild : buildTree hash source w = .ok (inodes, w')) (hroot : source.isDir = true) :
    (∀ dir, Within source dir → ∃ idx, RecordedAs inodes source dir idx) ∧
      ∀ dir idx, RecordedAs inodes source dir idx → LinuxNames dir.entries →
        (NamesSurvive inodes idx dir ↔ ∀ e ∈ dir.entries, IsUtf8 e.1) := by
  have hrec := buildTree_recorded hbuild hroot
  exact ⟨fun dir h => h.recordedAs hrec, fun dir idx h hlinux =>
    ⟨isUtf8_of_namesSurvive (h.recorded hrec), namesSurvive_of_isUtf8 (h.recorded hrec) hlinux⟩⟩

/-! ## Two files with their names -/

/-- The files `a` and `b`. -/
def textNames : List (List UInt8 × Source) := [([97], plainFile 2), ([98], plainFile 3)]

theorem namesSurvive_textNames : ∃ inodes w',
    buildTree noDigest (filesDir textNames) emptyBlob = .ok (inodes, w') ∧
      (∀ dir, Within (filesDir textNames) dir →
        ∃ idx, RecordedAs inodes (filesDir textNames) dir idx) ∧
      ∀ dir idx, RecordedAs inodes (filesDir textNames) dir idx → LinuxNames dir.entries →
        (NamesSurvive inodes idx dir ↔ ∀ e ∈ dir.entries, IsUtf8 e.1) := by
  have hfiles : ∀ e ∈ textNames, ∃ ino, e.2 = plainFile ino := by simp [textNames]
  obtain ⟨inodes, w', hbuild⟩ := buildTree_filesDir hfiles noDigest (by decide)
  exact ⟨inodes, w', hbuild, namesSurvive_iff hbuild
    (show ((0o040755 : UInt32) &&& 0o170000 == 0o040000) = true by decide)⟩

theorem toStringLossy_ff : toStringLossy [0xFF] = replacement := by
  rw [toStringLossy, dif_neg (by decide), if_neg (by decide),
    show ([0xFF] : List UInt8).drop (scanChar [0xFF]).1 = [] by decide, toStringLossy, dif_pos rfl,
    List.append_nil]

/-- Two files whose names are one byte each, and no text. -/
def byteNames : List (List UInt8 × Source) := [([0xFE], plainFile 2), ([0xFF], plainFile 3)]

theorem not_namesSurvive_byteNames : ∃ inodes w',
    buildTree noDigest (filesDir byteNames) emptyBlob = .ok (inodes, w') ∧
      RecordedAs inodes (filesDir byteNames) (filesDir byteNames) 0 ∧
      LinuxNames (filesDir byteNames).entries ∧ ¬ NamesSurvive inodes 0 (filesDir byteNames) := by
  have hfiles : ∀ e ∈ byteNames, ∃ ino, e.2 = plainFile ino := by simp [byteNames]
  obtain ⟨inodes, w', hbuild⟩ := buildTree_filesDir hfiles noDigest (by decide)
  have hrec := buildTree_recorded hbuild
    (show ((0o040755 : UInt32) &&& 0o170000 == 0o040000) = true by decide)
  have hlinux : LinuxNames byteNames := ⟨by simp [byteNames]; decide, by decide⟩
  refine ⟨inodes, w', hbuild, .root, hlinux, ?_⟩
  intro h
  have hutf8 := isUtf8_of_namesSurvive hrec h ([0xFF], plainFile 3) (by simp [filesDir, byteNames])
  have hsame := toStringLossy_of_isUtf8 hutf8
  rw [toStringLossy_ff] at hsame
  cases hsame

end ErofsUtils.Roundtrip
