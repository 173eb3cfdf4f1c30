import ErofsUtils.Build.DirBlocks
import ErofsUtils.Build.TreeBlob
import ErofsUtils.Roundtrip.Names
import ErofsUtils.Roundtrip.Xattrs

/-! # What a build makes of a source that an image can hold

Not every source has an image that tells the truth of it: names are stored as text, counts and
sizes have fields of fixed widths, a link target has to be shorter than a block. A source
within these limits is built into an inode list of the shape of a tree, in which every path
of the source has an inode with its metadata and its data. -/
namespace ErofsUtils.Roundtrip
open ErofsUtils.Rust ErofsUtils.Bytes ErofsUtils.Metadata ErofsUtils.Build ErofsUtils.Fs
open ErofsUtils.Text ErofsUtils.Store

/-- The metadata of a path as the kernel reports it. -/
structure StatFits (stat : FileStat) : Prop where
  mode : stat.mode.toNat < 2 ^ 16
  links : 1 ≤ stat.nlink.toNat ∧ stat.nlink.toNat < 2 ^ 32
  size : stat.size.toNat < 2 ^ 63

/-- The entries of a directory: names of files that are text, and take less than 4 GiB. -/
structure EntriesFit (entries : List (List UInt8 × Source)) : Prop where
  linux : LinuxNames entries
  utf8 : ∀ e ∈ entries, IsUtf8 e.1
  size : dirBlocks ((sortByFileName entries).map Prod.fst) * erofsBlockSize < 2 ^ 32

/-- A million entries always fit. -/
theorem EntriesFit.of_few {entries : List (List UInt8 × Source)} (h : LinuxNames entries)
    (hutf8 : ∀ e ∈ entries, IsUtf8 e.1) (hfew : entries.length + 2 < 2 ^ 20) : EntriesFit entries := by
  have hperm := sortByFileName_perm entries
  refine ⟨h, hutf8, ?_⟩
  have hle : dirBlocks ((sortByFileName entries).map Prod.fst) ≤ entries.length + 2 := by
    rw [← hperm.length_eq, ← List.length_map (f := Prod.fst)]
    refine dirBlocks_le fun name hname => ?_
    obtain ⟨e, he, rfl⟩ := List.mem_map.mp hname
    have := (h.name e (hperm.mem_iff.mp he)).2.1
    omega
  rw [erofsBlockSize]
  omega

/-- A path that answers, and that an image can hold. -/
structure NodeFits (node : Source) : Prop where
  answers : node.Answers
  stat : ∀ stat, node.stat = .ok stat → StatFits stat
  target : ∀ stat target, node.stat = .ok stat → stat.isSymlink = true → node.link = .ok target →
    1 ≤ target.length ∧ target.length ≤ 4095
  xattr : ∀ x ∈ readXattrsFromPath node.xattrs, EntryFits x
  xattrs : xattrIbodySize (readXattrsFromPath node.xattrs) ≤ 262148
  entries : node.isDir = true → EntriesFit node.entries

def FitsImage (root : Source) : Prop := ∀ p node, Occurs root p node → NodeFits node

/-! ## Kinds -/

/-- Cutting a mode to sixteen bits keeps its format. -/
theorem toUInt16_and_fmt (mode : UInt32) (t : UInt16) :
    mode.toUInt16 &&& 0o170000 = t ↔ mode &&& 0o170000 = t.toUInt32 := by
  have hmask : ∀ m : Nat, m % 2 ^ 16 &&& 61440 = m &&& 61440 := by
    intro m
    rw [← Nat.and_two_pow_sub_one_eq_mod, Nat.and_assoc]
    rfl
  rw [← UInt16.toNat_inj, ← UInt32.toNat_inj, UInt16.toNat_and, UInt32.toNat_and,
    UInt32.toNat_toUInt16, UInt16.toNat_toUInt32]
  show mode.toNat % 2 ^ 16 &&& 61440 = t.toNat ↔ mode.toNat &&& 61440 = t.toNat
  rw [hmask]

theorem modeToFileType_dir (mode : UInt16) :
    modeToFileType mode = erofsFtDir ↔ mode &&& 0o170000 = 0o040000 := by
  constructor
  · intro h
    by_contra hne
    unfold modeToFileType at h
    dsimp only at h
    rw [if_neg hne] at h
    revert h
    repeat' split
    all_goals decide
  · intro h
    unfold modeToFileType
    dsimp only
    rw [if_neg (by rw [h]; decide), if_pos h]

theorem isDir_iff_modeToFileType (stat : FileStat) :
    stat.isDir = true ↔ modeToFileType stat.mode.toUInt16 = erofsFtDir := by
  rw [modeToFileType_dir, toUInt16_and_fmt, FileStat.isDir, beq_iff_eq]
  rfl

theorem isDirectory_eq_isDir (inode : InodeInfo) : inode.data.isDirectory = inode.isDir := by
  unfold InodeInfo.isDir
  cases inode.data <;> rfl

/-! ## Built trees -/

/-- A build of a source that an image can hold. -/
structure Built (hash : List UInt8 → Digest) (w₀ : BlobWriter) (root : Source)
    (os : List (List Nat × Source)) (inodes : List InodeInfo) (w : BlobWriter) : Prop where
  dir : root.isDir = true
  snapshot : Snapshot root
  fits : FitsImage root
  complete : Complete root os inodes
  fed : Fed hash w₀ os inodes w

variable {hash : List UInt8 → Digest} {w₀ w : BlobWriter} {root node dir : Source}
  {os : List (List Nat × Source)} {inodes : List InodeInfo} {p : List Nat} {i : Nat}
  {inode : InodeInfo}

/-- A path that answers the same has the same inode made for it. -/
theorem MadeFor.congr {other : Source} (h : inode.MadeFor node) (hstat : node.stat = other.stat)
    (hlink : node.link = other.link) (hxattrs : node.xattrs = other.xattrs) :
    inode.MadeFor other := by
  obtain ⟨stat, ino, size, data, hs, rfl, hdata⟩ := h
  rw [hstat] at hs
  rw [hxattrs]
  refine ⟨stat, ino, size, data, hs, rfl, ?_⟩
  cases hdata with
  | directory hdir => exact .directory hdir
  | file hdir hfile => exact .file hdir hfile
  | link hdir hfile hl htarget => exact .link hdir hfile hl (hlink ▸ htarget)
  | special hdir hfile hl hdata => exact .special hdir hfile hl hdata

section
variable (h : Built hash w₀ root os inodes w)
include h

theorem Built.represents : RepresentsAt root inodes os := h.complete.represents h.snapshot.static

/-- Every inode was made for the path at its place. -/
theorem Built.path_at (hinode : inodes[i]? = some inode) : ∃ p node, os[i]? = some (p, node) ∧
    Occurs root p node ∧ inode.MadeFor node ∧ inode.data.table.isSome = node.call.isSome ∧
      inode.isDir = node.isDir := by
  have hlt := h.complete.length ▸ (List.getElem?_eq_some_iff.mp hinode).1
  obtain ⟨o, ho⟩ : ∃ o, os[i]? = some o := ⟨_, List.getElem?_eq_getElem hlt⟩
  have hmade := h.complete.made i o inode ho hinode
  obtain ⟨hfor, htable⟩ := (List.forall₂_iff_get.mp h.fed.each).2 i hlt
    (List.getElem?_eq_some_iff.mp hinode).1
  rw [List.get_eq_getElem, List.get_eq_getElem, (List.getElem?_eq_some_iff.mp ho).2,
    (List.getElem?_eq_some_iff.mp hinode).2] at hfor htable
  exact ⟨o.1, o.2, ho, hmade.occurs, hfor, htable, (isDirectory_eq_isDir inode).symm.trans hmade.isDir⟩

/-- A path has an inode that was made as for itself. -/
theorem Built.inode_of (hocc : Occurs root p node) (hidx : IndexOf os (p, node) i) :
    ∃ o inode, os[i]? = some o ∧ inodes[i]? = some inode ∧ inode.MadeFor node ∧
      inode.data.table.isSome = o.2.call.isSome ∧ inode.isDir = node.isDir ∧
      o.2.stat = node.stat ∧ o.2.file = node.file := by
  obtain ⟨o, ho, hid, -⟩ := hidx
  obtain ⟨inode, hinode, hmade⟩ := h.complete.made_at ho
  obtain ⟨hstat, hfile, hlink, hxattrs⟩ := h.snapshot.same hmade.occurs hocc hid
  obtain ⟨_, _, ho', -, hfor, htable, hdir⟩ := h.path_at hinode
  rw [ho] at ho'
  cases ho'
  refine ⟨_, inode, ho, hinode, MadeFor.congr hfor hstat hlink hxattrs, htable, ?_, hstat, hfile⟩
  rw [hdir, Source.isDir, Source.isDir, hstat]

/-- The children of a directory and its entries. -/
theorem Built.children (hat : os[i]? = some (p, dir)) (hdir : dir.isDir = true)
    (hinode : inodes[i]? = some inode) : ChildrenOf os inodes p dir inode.data.children :=
  h.represents.children i p dir inode hat hdir hinode

theorem Built.entriesFit (hat : os[i]? = some (p, dir)) (hdir : dir.isDir = true) :
    EntriesFit dir.entries := by
  obtain ⟨inode, -, hmade⟩ := h.complete.made_at hat
  exact (h.fits p dir hmade.occurs).entries hdir

/-- The children have the names of the entries. -/
theorem Built.names (hat : os[i]? = some (p, dir)) (hdir : dir.isDir = true)
    (hinode : inodes[i]? = some inode) :
    inode.data.children.map DirEntry.name = (sortByFileName dir.entries).map Prod.fst := by
  obtain ⟨-, hperm, hlen, heach⟩ := h.children hat hdir hinode
  have hfits := h.entriesFit hat hdir
  refine List.ext_getElem (by rw [List.length_map, List.length_map, hlen]) ?_
  intro k hk hk'
  rw [List.length_map] at hk hk'
  have hchild := heach k _ _ (List.getElem?_eq_getElem hk') (List.getElem?_eq_getElem hk)
  rw [List.getElem_map, List.getElem_map, hchild.name]
  exact toStringLossy_of_isUtf8 (hfits.utf8 _ (hperm.mem_iff.mp (List.getElem_mem hk')))

/-- An inode with a child is that of a directory, and the child is an entry of it. -/
theorem Built.child_at (hinode : inodes[i]? = some inode) {de : DirEntry}
    (hde : de ∈ inode.data.children) : ∃ p dir k e, os[i]? = some (p, dir) ∧ dir.isDir = true ∧
      Occurs root p dir ∧ (sortByFileName dir.entries)[k]? = some e ∧
      inode.data.children[k]? = some de ∧ de.name = e.1 ∧
      IndexOf os (p ++ [k], e.2) de.inodeIdx := by
  obtain ⟨k, hk⟩ := List.mem_iff_getElem?.mp hde
  obtain ⟨p, dir, inode', e, de', hat, hdir, hinode', hocc, he, hde', -, hidx⟩ :=
    h.complete.isDir_of_child ⟨inode, de, hinode, hk, rfl⟩
  rw [hinode] at hinode'
  cases hinode'
  have hname := congrArg (fun l => l[k]?) (h.names hat hdir hinode)
  rw [List.getElem?_map, List.getElem?_map, hk, he] at hname
  exact ⟨p, dir, k, e, hat, hdir, hocc, he, hk, Option.some.inj hname, hidx⟩

/-- Names of a directory's inode are those of an entry list that fits, if it has any. -/
theorem Built.names_cases (hmem : inode ∈ inodes) : inode.data.children = [] ∨
    ∃ entries, EntriesFit entries ∧
      inode.data.children.map DirEntry.name = (sortByFileName entries).map Prod.fst := by
  obtain ⟨i, hinode⟩ := List.mem_iff_getElem?.mp hmem
  obtain ⟨p, dir, hat, -, -, -, hdir⟩ := h.path_at hinode
  cases hd : inode.isDir with
  | false =>
    left
    unfold InodeInfo.isDir at hd
    cases hdata : inode.data with
    | directory => rw [hdata] at hd; cases hd
    | regularFile | symlink | specialDev | specialNoData => rfl
  | true => exact .inr ⟨dir.entries, h.entriesFit hat (hdir ▸ hd), h.names hat (hdir ▸ hd) hinode⟩

theorem Built.size_lt (hmem : inode ∈ inodes) : inode.size.toNat < 2 ^ 63 := by
  obtain ⟨i, hinode⟩ := List.mem_iff_getElem?.mp hmem
  obtain ⟨p, node, -, hocc, hmade, -⟩ := h.path_at hinode
  have hfits := h.fits p node hocc
  obtain ⟨stat, ino, size, data, hstat, rfl, hdata⟩ := hmade
  cases hdata with
  | directory | special => exact show (0 : UInt64).toNat < 2 ^ 63 by decide
  | file => exact (hfits.stat stat hstat).size
  | @link target _ _ hlink htarget =>
    have hle := (hfits.target stat target hstat hlink htarget).2
    have hnat : (UInt64.ofNat target.length).toNat = target.length :=
      UInt64.toNat_ofNat_of_lt' (show target.length < 2 ^ 64 by omega)
    show (UInt64.ofNat target.length).toNat < 2 ^ 63
    omega

/-- A child is not the root, and its type is that of its inode. -/
theorem Built.entry (hmem : inode ∈ inodes) {de : DirEntry} (hde : de ∈ inode.data.children) :
    de.inodeIdx ≠ 0 ∧ ∃ child, inodes[de.inodeIdx]? = some child ∧
      de.fileType = modeToFileType child.mode := by
  obtain ⟨i, hinode⟩ := List.mem_iff_getElem?.mp hmem
  obtain ⟨p, dir, k, e, hat, hdir, hocc, he, hk, -, hidx⟩ := h.child_at hinode hde
  obtain ⟨-, -, child, hchild, hft⟩ := (h.children hat hdir hinode).each k e de he hk
  refine ⟨?_, child, hchild, hft⟩
  intro hzero
  rw [hzero] at hidx
  have hroot : IndexOf os ([], root) 0 := ⟨_, h.complete.first, rfl, List.lt_irrefl _⟩
  have hid := (h.complete.index_unique hidx hroot).mp rfl
  rw [identity_of_isDir (o := ([], root)) h.dir] at hid
  exact absurd (place_of_identity hid) (by simp)

theorem Built.parent (hi : i ≠ 0) (hinode : inodes[i]? = some inode) (hdir : inode.isDir = true) :
    ∃! j, ChildOf inodes j i := by
  obtain ⟨p, dir, hat, -, -, -, hd⟩ := h.path_at hinode
  obtain ⟨⟨j, k⟩, ⟨up, de, hup, hk, hidx⟩, hone⟩ :=
    h.represents.parent i p dir hat (hd ▸ hdir) hi
  refine ⟨j, ⟨up, hup, de, List.mem_of_getElem? hk, hidx⟩, ?_⟩
  rintro j' ⟨up', hup', de', hde', hidx'⟩
  obtain ⟨k', hk'⟩ := List.mem_iff_getElem?.mp hde'
  exact congrArg Prod.fst (hone (j', k') ⟨up', de', hup', hk', hidx'⟩)

/-- **A build has the shape of a tree.** -/
theorem Built.treeShape : TreeShape inodes where
  root := by
    obtain ⟨_, inode, -, hinode, -, -, hdir, -⟩ :=
      h.inode_of .root ⟨_, h.complete.first, rfl, List.lt_irrefl _⟩
    exact ⟨inode, hinode, hdir.trans h.dir⟩
  entry := fun inode hmem de hde => h.entry hmem hde
  kind := by
    intro inode hmem
    obtain ⟨i, hinode⟩ := List.mem_iff_getElem?.mp hmem
    obtain ⟨p, node, -, -, ⟨stat, ino, size, data, hstat, rfl, -⟩, -, hdir⟩ := h.path_at hinode
    rw [hdir, isDir_of_ok hstat]
    exact isDir_iff_modeToFileType stat
  parent := fun i inode hi hinode hdir => h.parent hi hinode hdir
  distinct := by
    intro inode hmem
    rcases h.names_cases hmem with hnil | ⟨entries, hfits, hnames⟩
    · rw [hnil]
      exact List.nodup_nil
    · rw [hnames]
      exact ((sortByFileName_perm _).map Prod.fst).nodup_iff.mpr hfits.linux.distinct
  name := by
    intro inode hmem de hde
    obtain ⟨i, hinode⟩ := List.mem_iff_getElem?.mp hmem
    obtain ⟨p, dir, k, e, hat, hdir, -, he, -, hname, -⟩ := h.child_at hinode hde
    have hmem' := (sortByFileName_perm _).mem_iff.mp (List.mem_of_getElem? he)
    obtain ⟨hne, hlen, hnul, -, hdot, hdotdot⟩ := (h.entriesFit hat hdir).linux.name e hmem'
    rw [hname]
    exact ⟨hdot, hdotdot, hne, hnul, by omega⟩
  size := fun inode hmem => h.size_lt hmem
  dirSize := by
    intro inode hmem nids selfNid parentNid data hdata
    rcases h.names_cases hmem with hnil | ⟨entries, hfits, hnames⟩
    · rw [hnil] at hdata
      obtain ⟨data', hdata', -, hle⟩ := @serializeDirectory_ok [] nofun selfNid parentNid
      rw [List.map_nil, hdata'] at hdata
      cases hdata
      exact Nat.lt_of_le_of_lt hle (by decide)
    · rw [length_serializeDirectory hdata, List.map_map]
      show dirBlocks (inode.data.children.map DirEntry.name) * erofsBlockSize < 2 ^ 32
      rw [hnames]
      exact hfits.size
  xattrs := by
    intro inode hmem
    obtain ⟨i, hinode⟩ := List.mem_iff_getElem?.mp hmem
    obtain ⟨p, node, -, hocc, ⟨stat, ino, size, data, -, rfl, -⟩, -⟩ := h.path_at hinode
    exact (h.fits p node hocc).xattrs

end

end ErofsUtils.Roundtrip
